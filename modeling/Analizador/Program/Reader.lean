import Analizador.Program
import Analizador.Token.Scan

/-! # Reading programs

A program is read token by token. The reader keeps the blocks that are open and, inside the
statement at hand, what has been read of it. A phrase that could end before a token is ended as soon
as that token may follow such a phrase anywhere in the language, even if it cannot follow here; a
report then lists the tokens that could come after the phrases ended so far. -/

namespace Analizador

/-- What the reader looks at: the next token or the end of the text. -/
inductive Look where
  | token (t : Token)
  | finish
  deriving DecidableEq, Repr, Inhabited

namespace Kind

/-- The type that a keyword names. -/
def type? : Kind → Option Ty
  | ent => some .ent
  | dec => some .dec
  | cadena => some .cadena
  | _ => none

/-- The arithmetic operator of a kind. -/
def arithmetic? : Kind → Option Operator
  | plus => some .add
  | minus => some .sub
  | star => some .mul
  | slash => some .div
  | _ => none

/-- The relational operator of a kind. -/
def relational? : Kind → Option Operator
  | equals => some .eq
  | differs => some .ne
  | greater => some .gt
  | less => some .lt
  | atLeast => some .ge
  | atMost => some .le
  | _ => none

/-- The logical operators. -/
def isLogical : Kind → Bool
  | both | either => true
  | _ => false

/-- The marks that end an expression somewhere in the language. -/
def isClosing : Kind → Bool
  | rightParen | semicolon => true
  | _ => false

/-- The kinds that may follow an operand somewhere in the language. -/
def followsOperand (k : Kind) : Bool :=
  k.arithmetic?.isSome || k.relational?.isSome || k.isLogical || k.isClosing

/-- The kinds that may follow a whole comparison somewhere in the language. -/
def followsComparison (k : Kind) : Bool := k.isLogical || k.isClosing

/-- The kinds that an operand may start with. -/
def startsOperand : Kind → Bool
  | leftParen | integer | decimal | identifier | text => true
  | _ => false

/-- The kinds that may follow a statement somewhere in the language. -/
def followsStatement : Kind → Bool
  | identifier | si | mientras | repetir | sout | scan => true
  | leftBrace | rightBrace | ent | dec | cadena => true
  | _ => false

end Kind

/-- The expression of a literal or an identifier. -/
def Token.toExpr (t : Token) : Except Failure Expr :=
  match t.kind with
  | .integer => do return .number (.whole (← Numeral.readInteger t.text)) t.spot
  | .decimal => do return .number (.real (← Numeral.readDecimal t.text)) t.spot
  | .text => .ok (.text (String.ofList (t.text.toList.drop 1).dropLast) t.spot)
  | _ => .ok (.use t.toName)

/-- An operand that has just been read; its expression is built when the token after it is known. -/
inductive Operand where
  | loose (t : Token)
  | built (e : Expr)
  deriving DecidableEq, Repr, Inhabited

/-- The expression of an operand. -/
def Operand.build : Operand → Except Failure Expr
  | loose t => t.toExpr
  | built e => .ok e

/-- What has been read of an expression between two parentheses: the left side of a comparison and,
after it, the left operand of an arithmetic operation. -/
structure Level where
  compared : Option (Expr × Operator)
  operand : Option (Expr × Operator)
  deriving DecidableEq, Repr, Inhabited

/-- An expression of which nothing has been read. -/
def Level.fresh : Level := ⟨none, none⟩

/-- The statement that an expression is part of. -/
inductive Place where
  | assign (target : Name)
  | si
  | mientras
  | sout
  deriving DecidableEq, Repr, Inhabited

/-- The part that a block plays in a statement. -/
inductive Role where
  | bare
  | thenPart (condition : Expr)
  | elsePart (condition : Expr) (body : List Stmt)
  | whileBody (condition : Expr)
  | repeatBody (count : Int) (spot : Spot)
  deriving Repr, Inhabited

/-- A block that is open, with its statements so far. -/
structure Frame where
  role : Role
  stmts : List Stmt
  deriving Repr, Inhabited

/-- How far the reader has come in the item at hand. -/
inductive Phase where
  /-- Between two items or statements. -/
  | ready
  /-- After the first block of a conditional. -/
  | afterThen (condition : Expr) (body : List Stmt)
  /-- A declaration that needs a name. -/
  | nextName (ty : Ty) (names : List Name)
  /-- A declaration after a name. -/
  | named (ty : Ty) (names : List Name)
  /-- An assignment after its variable. -/
  | target (name : Name)
  /-- After the keyword of a statement that goes on with a parenthesis. -/
  | keyword (k : Kind)
  /-- An expression that needs an operand. -/
  | wanting (place : Place) (level : Level) (outer : List Level)
  /-- An expression after an operand. -/
  | holding (place : Place) (level : Level) (outer : List Level) (x : Operand)
  /-- An expression after the right side of a comparison. -/
  | compared (place : Place) (outer : List Level) (e : Expr)
  /-- After a whole expression. -/
  | whole (place : Place) (outer : List Level) (e : Expr)
  /-- An expression after a logical operator. -/
  | logical (place : Place) (outer : List Level)
  /-- A print statement after a text at its very start. -/
  | lone (t : Token)
  /-- A repetition that needs its count. -/
  | count
  /-- A repetition after its count, which is not yet built. -/
  | counting (t : Token)
  /-- A repetition after its count. -/
  | counted (n : Int) (spot : Spot)
  /-- An input statement that needs its variable. -/
  | inputName
  /-- An input statement after its variable. -/
  | inputNamed (name : Name)
  /-- A statement that needs a block. -/
  | opening (role : Role)
  /-- A statement that needs its semicolon. -/
  | ending (s : Stmt)
  deriving Repr, Inhabited

/-- The state of the reader: the items that are complete, the open blocks from the innermost out,
the phase, and the log of the phrases built. -/
structure Reader where
  items : List Item
  frames : List Frame
  phase : Phase
  log : List String
  deriving Repr, Inhabited

/-- What comes of looking at a token. -/
inductive Step where
  /-- The token was taken. -/
  | moved (r : Reader)
  /-- The text is complete. -/
  | accepted (p : Program) (log : List String)
  /-- The token cannot come here; the reader is where the phrases ended so far have left it. -/
  | stuck (r : Reader)
  /-- A phrase could not be built. -/
  | failed (f : Failure)
  deriving Inhabited

namespace Reader

/-- The reader before the first token. -/
def start : Reader := ⟨[], [], .ready, []⟩

/-- Takes a token and enters a phase. -/
def enter (r : Reader) (phase : Phase) : Step := .moved { r with phase }

/-- Is stuck in a phase. -/
def halt (r : Reader) (phase : Phase) : Step := .stuck { r with phase }

/-- Adds a line to the log. -/
def note (r : Reader) (line : String) : Reader := { r with log := r.log ++ [line] }

/-- Adds a complete statement to the innermost open block, or to the program. -/
def complete (r : Reader) (s : Stmt) : Reader :=
  match r.frames with
  | [] => { r with items := r.items ++ [.statement s], phase := .ready }
  | f :: fs => { r with frames := { f with stmts := f.stmts ++ [s] } :: fs, phase := .ready }

/-- Ends the innermost open block. -/
def closeBlock (r : Reader) (f : Frame) (fs : List Frame) : Reader :=
  let r := { r with frames := fs }
  match f.role with
  | .bare => r.complete (.block f.stmts)
  | .thenPart condition => { r with phase := .afterThen condition f.stmts }
  | .elsePart condition body => r.complete (.conditional condition body (some f.stmts))
  | .whileBody condition => r.complete (.whileLoop condition f.stmts)
  | .repeatBody count spot => r.complete (.repeatLoop count spot f.stmts)

/-- Between two items or statements. -/
def ready (r : Reader) (look : Look) : Step :=
  match look with
  | .finish => match r.frames with
    | [] => .accepted ⟨r.items⟩ r.log
    | _ :: _ => r.halt .ready
  | .token t => match t.kind with
    | .identifier => r.enter (.target t.toName)
    | .si | .mientras | .repetir | .sout | .scan => r.enter (.keyword t.kind)
    | .leftBrace => .moved { r with frames := ⟨.bare, []⟩ :: r.frames, phase := .ready }
    | .rightBrace => match r.frames with
      | [] => r.halt .ready
      | f :: fs => .moved (r.closeBlock f fs)
    | kind => match r.frames, kind.type? with
      | [], some ty => r.enter (.nextName ty [])
      | _, _ => r.halt .ready

/-- Ends a whole expression at a closing mark. -/
def closeWhole (r : Reader) (place : Place) (outer : List Level) (e : Expr) (k : Kind) : Step :=
  match outer, k with
  | level :: outer, .rightParen => r.enter (.holding place level outer (.built e))
  | _ :: _, _ => r.halt (.whole place outer e)
  | [], k => match place, k with
    | .assign target, .semicolon => .moved (r.complete (.assign target e none))
    | .si, .rightParen => r.enter (.opening (.thenPart e))
    | .mientras, .rightParen => r.enter (.opening (.whileBody e))
    | .sout, .rightParen => r.enter (.ending (.print e))
    | _, _ => r.halt (.whole place outer e)

/-- Goes on after a comparison, before a logical operator or a closing mark. -/
def closeComparison (r : Reader) (place : Place) (outer : List Level) (e : Expr) (k : Kind) :
    Step :=
  if k.isLogical then r.enter (.logical place outer) else r.closeWhole place outer e k

/-- The line logged for an expression that is no comparison. -/
def plainLine (e : Expr) : String := s!"DEBUG expr_relacional: expr={e.cls.shown}, args=()"

/-- The line logged for an arithmetic operation. -/
def operationLine (op : Operator) (left right : Expr) : String :=
  let (title, sign) := match op with
    | .add => ("SUMA", "+")
    | .sub => ("RESTA", "-")
    | .mul => ("multi", "+")
    | _ => ("division", "-")
  s!"DEBUG - Creando {title} explícita: {left.cls.shown} {sign} {right.cls.shown}"

/-- Goes on after a sum, before a kind that may follow one. -/
def closeSum (r : Reader) (place : Place) (compared : Option (Expr × Operator)) (outer : List Level)
    (e : Expr) (k : Kind) : Step :=
  match k.relational?, compared with
  | some op, none => r.enter (.wanting place ⟨some (e, op), none⟩ outer)
  | some _, some (left, op) => r.halt (.compared place outer (.operation op left e))
  | none, none => (r.note (plainLine e)).closeComparison place outer e k
  | none, some (left, op) => r.closeComparison place outer (.operation op left e) k

/-- Goes on after an operand, before a kind that may follow one. -/
def closeOperand (r : Reader) (place : Place) (level : Level) (outer : List Level) (e : Expr)
    (k : Kind) : Step :=
  match k.arithmetic?, level.operand with
  | some op, none => r.enter (.wanting place { level with operand := some (e, op) } outer)
  | some _, some _ => r.halt (.holding place level outer (.built e))
  | none, none => r.closeSum place level.compared outer e k
  | none, some (left, op) =>
    (r.note (operationLine op left e)).closeSum place level.compared outer (.operation op left e) k

/-- Builds an operand and goes on, if the kind may follow an operand. -/
def afterOperand (r : Reader) (place : Place) (level : Level) (outer : List Level) (x : Operand)
    (k : Kind) : Step :=
  if k.followsOperand then
    match x.build with
    | .ok e => r.closeOperand place level outer e k
    | .error f => .failed f
  else .stuck r

/-- Looks at the next token. -/
def look (r : Reader) (next : Look) : Step :=
  match r.phase, next with
  | .ready, next => r.ready next
  | .afterThen condition body, next =>
    let ended := r.complete (.conditional condition body none)
    match next with
    | .finish => ended.ready next
    | .token t =>
      if t.kind = .oNo then r.enter (.opening (.elsePart condition body))
      else if t.kind.followsStatement then ended.ready next
      else .stuck r
  | _, .finish => .stuck r
  | .nextName ty names, .token t =>
    if t.kind = .identifier then r.enter (.named ty (names ++ [t.toName])) else .stuck r
  | .named ty names, .token t =>
    if t.kind = .comma then r.enter (.nextName ty names)
    else if t.kind = .semicolon then
      .moved { r with items := r.items ++ [.declaration ty none names], phase := .ready }
    else .stuck r
  | .target name, .token t =>
    if t.kind = .assign then r.enter (.wanting (.assign name) .fresh []) else .stuck r
  | .keyword k, .token t =>
    if t.kind = .leftParen then
      match k with
      | .si => r.enter (.wanting .si .fresh [])
      | .mientras => r.enter (.wanting .mientras .fresh [])
      | .repetir => r.enter .count
      | .sout => r.enter (.wanting .sout .fresh [])
      | _ => r.enter .inputName
    else .stuck r
  | .wanting place level outer, .token t =>
    if t.kind = .leftParen then r.enter (.wanting place .fresh (level :: outer))
    else if t.kind = .text ∧ place = .sout ∧ level = .fresh ∧ outer = [] then r.enter (.lone t)
    else if t.kind.startsOperand then r.enter (.holding place level outer (.loose t))
    else .stuck r
  | .holding place level outer x, .token t => r.afterOperand place level outer x t.kind
  | .compared place outer e, .token t =>
    if t.kind.followsComparison then r.closeComparison place outer e t.kind else .stuck r
  | .whole place outer e, .token t =>
    if t.kind.isClosing then r.closeWhole place outer e t.kind else .stuck r
  | .logical _ _, .token t =>
    if t.kind.startsOperand then .failed (.missingArguments "operador_logico" ["op"]) else .stuck r
  | .lone s, .token t =>
    if t.kind = .rightParen then
      match s.toExpr with
      | .ok e => r.enter (.ending (.print e))
      | .error f => .failed f
    else if t.kind = .semicolon then .stuck r
    else r.afterOperand .sout .fresh [] (.loose s) t.kind
  | .count, .token t => if t.kind = .integer then r.enter (.counting t) else .stuck r
  | .counting s, .token t =>
    if t.kind.followsOperand then
      match Numeral.readInteger s.text with
      | .ok n =>
        if t.kind = .rightParen then r.enter (.opening (.repeatBody n s.spot))
        else r.halt (.counted n s.spot)
      | .error f => .failed f
    else .stuck r
  | .counted n spot, .token t =>
    if t.kind = .rightParen then r.enter (.opening (.repeatBody n spot)) else .stuck r
  | .inputName, .token t =>
    if t.kind = .identifier then r.enter (.inputNamed t.toName) else .stuck r
  | .inputNamed name, .token t =>
    if t.kind = .rightParen then r.enter (.ending (.input name)) else .stuck r
  | .opening role, .token t =>
    if t.kind = .leftBrace then
      .moved { r with frames := ⟨role, []⟩ :: r.frames, phase := .ready }
    else .stuck r
  | .ending s, .token t => if t.kind = .semicolon then .moved (r.complete s) else .stuck r

end Reader

/-- What a report on an unexpected token may list: the end of the text and the kinds of tokens, in
the order of their names. -/
def Look.terminals : List (Option Kind) :=
  [none, some .cadena, some .comma, some .dec, some .decimal, some .ent, some .integer,
    some .assign, some .identifier, some .leftBrace, some .less, some .leftParen, some .mientras,
    some .minus, some .greater, some .oNo, some .plus, some .rightBrace, some .repetir,
    some .rightParen, some .scan, some .semicolon, some .si, some .slash, some .sout, some .star,
    some .text, some .equals, some .differs, some .atLeast, some .atMost, some .both, some .either]

/-- The name of a terminal. -/
def Look.terminalName : Option Kind → String
  | none => "$END"
  | some k => k.name

/-- A token of a kind, or the end, to try out. -/
def Look.sample : Option Kind → Look
  | none => .finish
  | some k => .token ⟨k, "", .start⟩

/-- Why a text is no program. -/
inductive SyntaxFault where
  /-- A character that starts no lexeme. -/
  | stray (s : Stray)
  /-- A token that cannot come here, its place, and the terminals that could. -/
  | unexpected (look : Look) (spot : Spot) (wanted : List (Option Kind))
  /-- A phrase could not be built. -/
  | failure (f : Failure)
  deriving Repr, Inhabited

namespace SyntaxFault

/-- The report on a syntax fault. -/
def message : SyntaxFault → String
  | stray s => s.message
  | unexpected look spot wanted =>
    let shown := match look with
      | .token t => quotedToken t.kind.name t.text
      | .finish => quotedToken "$END" ""
    s!"Unexpected token {shown} at line {spot.line}, column {spot.column}.\n" ++
      Stray.expectedList (wanted.map Look.terminalName)
  | failure f => f.message

end SyntaxFault

/-- The outcome of reading a program. An aborted reading is one where a phrase could not be built
while the report on an unexpected token was being made; it leaves no report. -/
inductive Reading where
  | program (p : Program) (log : List String)
  | fault (f : SyntaxFault)
  | aborted (f : Failure)
  deriving Inhabited

namespace Reader

/-- The terminals that the reader would take, or the failure met in trying. -/
def wanted (r : Reader) : List (Option Kind) → Except Failure (List (Option Kind))
  | [] => .ok []
  | k :: ks =>
    match r.look (.sample k) with
    | .moved _ | .accepted .. => do return k :: (← r.wanted ks)
    | .stuck _ => r.wanted ks
    | .failed f => .error f

/-- The report on a token that cannot come. -/
def reject (r : Reader) (look : Look) (spot : Spot) : Reading :=
  match r.wanted Look.terminals with
  | .ok ks => .fault (.unexpected look spot ks)
  | .error f => .aborted f

/-- Reads tokens to the end of the text, where `last` is the place of the token before. -/
def run (r : Reader) (last : Spot) (stray : Option Stray) : List Token → Reading
  | [] =>
    match stray with
    | some s => .fault (.stray s)
    | none => match r.look .finish with
      | .accepted p log => .program p log
      | .moved r | .stuck r => r.reject .finish last
      | .failed f => .fault (.failure f)
  | t :: ts =>
    match r.look (.token t) with
    | .moved r => r.run t.spot stray ts
    | .accepted p log => .program p log
    | .stuck r => r.reject (.token t) t.spot
    | .failed f => .fault (.failure f)

end Reader

/-- Reads a program from a scan. -/
def Reading.ofScan (scan : Scan) : Reading := Reader.start.run .start scan.stray scan.tokens

/-- Reads a program from a source text. -/
def Reading.ofText (source : String) : Reading := .ofScan (Scan.ofText source)

end Analizador
