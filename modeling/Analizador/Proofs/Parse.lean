import Analizador.Proofs.Grammar
import Analizador.Program.Reader

/-! # Parse trees

A phrase of the language with its raw tree, the tokens that it spans, what is built of it and the
lines that are logged while it is built. The raw tree has a label for every rule of the grammar and
leaves for the names and literals; keywords, marks and signs are left out of it. Parentheses are
seen in the tokens and in the tree, but not in what is built. -/

namespace Analizador

/-- A token as a leaf of a raw tree. -/
def Token.datum (t : Token) : Datum :=
  .token t.kind.name t.text (.ofInt t.spot.line) (.ofInt t.spot.column)

/-- The tokens of a kind. -/
abbrev Token.Of (k : Kind) : Type := { t : Token // t.kind = k }

/-- The label of a name or a literal inside an expression. -/
def Kind.leafRule : Kind → String
  | integer => "entero"
  | decimal => "decimal"
  | text => "string"
  | _ => "variable"

/-- The label of an operation; a logical one has none of its own. -/
def Operator.rule : Operator → String
  | add => "expr_suma"
  | sub => "expr_resta"
  | mul => "expr_mult"
  | div => "expr_division"
  | eq => "op_igual"
  | ne => "op_distinto"
  | gt => "op_mayor"
  | lt => "op_menor"
  | ge => "op_mayor_igual"
  | le => "op_menor_igual"
  | both | either => "expr_logica"

/-- The label of the type of a declaration. -/
def Ty.rule : Ty → String
  | ent => "tipo_entero"
  | dec => "tipo_decimal"
  | cadena | bool => "tipo_cadena"

/-- A phrase: its raw tree, its tokens, what is built of it and the lines logged on the way. -/
structure Parse (α : Type) where
  raw : Datum
  tokens : List Token
  part : α
  lines : List String

namespace Parse

/-! ## Expressions -/

/-- A name or a literal. -/
def leaf (t : Token) (e : Expr) : Parse Expr := ⟨.tree t.kind.leafRule [t.datum], [t], e, []⟩

/-- A name or a literal as an operand. -/
def factor (x : Parse Expr) : Parse Expr := { x with raw := .tree "factor" [x.raw] }

/-- An expression in parentheses. -/
def paren (opening : Token.Of .leftParen) (x : Parse Expr) (closing : Token.Of .rightParen) :
    Parse Expr :=
  ⟨.tree "factor" [x.raw], opening.1 :: (x.tokens ++ [closing.1]), x.part, x.lines⟩

/-- An operand by itself. -/
def single (x : Parse Expr) : Parse Expr :=
  { x with raw := .tree "expr_aritmetica" [.tree "termino" [x.raw]] }

/-- An arithmetic operation. -/
def operation (op : Operator) (x : Parse Expr) (sign : Token) (y : Parse Expr) : Parse Expr where
  raw := .tree op.rule [.tree "termino" [x.raw], .tree "termino" [y.raw]]
  tokens := x.tokens ++ sign :: y.tokens
  part := .operation op x.part y.part
  lines := x.lines ++ (y.lines ++ [Reader.operationLine op x.part y.part])

/-- A whole expression. -/
def whole (x : Parse Expr) : Parse Expr :=
  { x with raw := .tree "expresion" [.tree "expr_logica" [x.raw]] }

/-- An expression that is no comparison. -/
def plain (x : Parse Expr) : Parse Expr :=
  ⟨.tree "expr_relacional" [x.raw], x.tokens, x.part, x.lines ++ [Reader.plainLine x.part]⟩

/-- A comparison. -/
def comparison (op : Operator) (x : Parse Expr) (sign : Token) (y : Parse Expr) : Parse Expr where
  raw := .tree op.rule [x.raw, y.raw]
  tokens := x.tokens ++ sign :: y.tokens
  part := .operation op x.part y.part
  lines := x.lines ++ y.lines

/-- How tightly an expression binds. -/
inductive Rank where
  | factor
  | sum
  | whole

/-- The parse trees of expressions. -/
inductive IsExpr : Rank → Parse Expr → Prop where
  | leaf {t e} (hleaf : t.kind ∈ Grammar.leaves) (he : t.toExpr = .ok e) :
      IsExpr .factor (leaf t e).factor
  | paren (opening) {x} (hx : IsExpr .whole x) (closing) : IsExpr .factor (paren opening x closing)
  | single {x} (hx : IsExpr .factor x) : IsExpr .sum x.single
  | operation {op x sign y} (hop : sign.kind.arithmetic? = some op) (hx : IsExpr .factor x)
      (hy : IsExpr .factor y) : IsExpr .sum (operation op x sign y)
  | plain {x} (hx : IsExpr .sum x) : IsExpr .whole x.plain.whole
  | comparison {op x sign y} (hop : sign.kind.relational? = some op) (hx : IsExpr .sum x)
      (hy : IsExpr .sum y) : IsExpr .whole (comparison op x sign y).whole

/-! ## Statements -/

/-- A statement in its wrapping. -/
def sentence (x : Parse Stmt) : Parse Stmt := { x with raw := .tree "sentencia" [x.raw] }

/-- A block: its statements between braces. -/
structure Block where
  opening : Token.Of .leftBrace
  body : List (Parse Stmt)
  closing : Token.Of .rightBrace

namespace Block

/-- The raw tree of a block. -/
def raw (b : Block) : Datum := .tree "bloque" (b.body.map fun x => x.sentence.raw)

/-- The tokens of a block. -/
def tokens (b : Block) : List Token := b.opening.1 :: (b.body.flatMap Parse.tokens ++ [b.closing.1])

/-- The statements of a block. -/
def part (b : Block) : List Stmt := b.body.map Parse.part

/-- The lines logged for a block. -/
def lines (b : Block) : List String := b.body.flatMap Parse.lines

end Block

/-- An assignment. -/
def assign (target : Token.Of .identifier) (mark : Token.Of .assign) (x : Parse Expr)
    (closing : Token.Of .semicolon) : Parse Stmt where
  raw := .tree "asignacion" [.tree "variable" [target.1.datum], x.raw]
  tokens := target.1 :: mark.1 :: (x.tokens ++ [closing.1])
  part := .assign target.1.toName x.part none
  lines := x.lines

/-- A keyword with an expression in parentheses. -/
structure Guarded (k : Kind) where
  word : Token.Of k
  opening : Token.Of .leftParen
  guard : Parse Expr
  closing : Token.Of .rightParen
  isExpr : guard.IsExpr .whole

/-- The tokens of a keyword with an expression in parentheses. -/
def Guarded.tokens {k : Kind} (head : Guarded k) : List Token :=
  head.word.1 :: head.opening.1 :: (head.guard.tokens ++ [head.closing.1])

/-- The keyword of a loop with its count in parentheses. -/
structure Repetition where
  word : Token.Of .repetir
  opening : Token.Of .leftParen
  count : Token.Of .integer
  closing : Token.Of .rightParen
  value : Int
  reads : Numeral.readInteger count.1.text = .ok value

/-- The tokens of the keyword of a loop with its count. -/
def Repetition.tokens (c : Repetition) : List Token :=
  [c.word.1, c.opening.1, c.count.1, c.closing.1]

/-- A conditional without a second block. -/
def conditional (head : Guarded .si) (b : Block) : Parse Stmt where
  raw := .tree "condicional" [head.guard.raw, b.raw, .none]
  tokens := head.tokens ++ b.tokens
  part := .conditional head.guard.part b.part none
  lines := head.guard.lines ++ b.lines

/-- A conditional with a second block. -/
def alternative (head : Guarded .si) (b : Block) (other : Token.Of .oNo) (b' : Block) :
    Parse Stmt where
  raw := .tree "condicional" [head.guard.raw, b.raw, b'.raw]
  tokens := head.tokens ++ (b.tokens ++ other.1 :: b'.tokens)
  part := .conditional head.guard.part b.part (some b'.part)
  lines := head.guard.lines ++ (b.lines ++ b'.lines)

/-- A loop with a condition. -/
def whileLoop (head : Guarded .mientras) (b : Block) : Parse Stmt where
  raw := .tree "bucle_mientras" [head.guard.raw, b.raw]
  tokens := head.tokens ++ b.tokens
  part := .whileLoop head.guard.part b.part
  lines := head.guard.lines ++ b.lines

/-- A loop with a count. -/
def repeatLoop (c : Repetition) (b : Block) : Parse Stmt where
  raw := .tree "bucle_repetir" [.tree "entero" [c.count.1.datum], b.raw]
  tokens := c.tokens ++ b.tokens
  part := .repeatLoop c.value c.count.1.spot b.part
  lines := b.lines

/-- A print statement. -/
def print (head : Guarded .sout) (mark : Token.Of .semicolon) : Parse Stmt where
  raw := .tree "impresion" [head.guard.raw]
  tokens := head.tokens ++ [mark.1]
  part := .print head.guard.part
  lines := head.guard.lines

/-- A print statement of a text and nothing else, which is not taken for an expression. -/
def lone (word : Token.Of .sout) (opening : Token.Of .leftParen) (t : Token.Of .text) (e : Expr)
    (closing : Token.Of .rightParen) (mark : Token.Of .semicolon) : Parse Stmt where
  raw := .tree "impresion" [(leaf t.1 e).raw]
  tokens := [word.1, opening.1, t.1, closing.1, mark.1]
  part := .print e
  lines := []

/-- An input statement. -/
def input (word : Token.Of .scan) (opening : Token.Of .leftParen) (target : Token.Of .identifier)
    (closing : Token.Of .rightParen) (mark : Token.Of .semicolon) : Parse Stmt where
  raw := .tree "entrada" [.tree "variable" [target.1.datum]]
  tokens := [word.1, opening.1, target.1, closing.1, mark.1]
  part := .input target.1.toName
  lines := []

/-- A block as a statement. -/
def block (b : Block) : Parse Stmt := ⟨b.raw, b.tokens, .block b.part, b.lines⟩

/-- The parse trees of statements. -/
inductive IsStmt : Parse Stmt → Prop where
  | assign (target mark) {x} (hx : IsExpr .whole x) (closing) :
      IsStmt (assign target mark x closing)
  | conditional (head : Guarded .si) (b : Block) (hb : ∀ y ∈ b.body, IsStmt y) :
      IsStmt (conditional head b)
  | alternative (head : Guarded .si) (b : Block) (hb : ∀ y ∈ b.body, IsStmt y) (other) (b' : Block)
      (hb' : ∀ y ∈ b'.body, IsStmt y) : IsStmt (alternative head b other b')
  | whileLoop (head : Guarded .mientras) (b : Block) (hb : ∀ y ∈ b.body, IsStmt y) :
      IsStmt (whileLoop head b)
  | repeatLoop (c : Repetition) (b : Block) (hb : ∀ y ∈ b.body, IsStmt y) : IsStmt (repeatLoop c b)
  | print (head : Guarded .sout) (mark) : IsStmt (print head mark)
  | lone (word opening t) {e} (he : t.1.toExpr = .ok e) (closing mark) :
      IsStmt (lone word opening t e closing mark)
  | input (word opening target closing mark) : IsStmt (input word opening target closing mark)
  | block (b : Block) (hb : ∀ y ∈ b.body, IsStmt y) : IsStmt (block b)

/-! ## Programs -/

/-- The names of a declaration, and their tokens with the commas between them. -/
inductive IsNames : List (Token.Of .identifier) → List Token → Prop where
  | single (name) : IsNames [name] [name.1]
  | more {names ts} (hnames : IsNames names ts) (comma : Token.Of .comma) (name) :
      IsNames (names ++ [name]) (ts ++ [comma.1, name.1])

/-- A declaration. -/
def declaration (word : Token) (ty : Ty) (names : List (Token.Of .identifier)) (ts : List Token)
    (closing : Token.Of .semicolon) : Parse Item where
  raw := .tree "declaracion" [.tree ty.rule [],
    .tree "identificador_lista" (names.map fun n => .tree "identificador" [n.1.datum])]
  tokens := word :: (ts ++ [closing.1])
  part := .declaration ty none (names.map (·.1.toName))
  lines := []

/-- A statement as an item. -/
def statement (x : Parse Stmt) : Parse Item :=
  ⟨x.sentence.raw, x.tokens, .statement x.part, x.lines⟩

/-- The parse trees of declarations and statements. -/
inductive IsItem : Parse Item → Prop where
  | declaration {word ty names ts} (hty : Kind.type? word.kind = some ty)
      (hnames : IsNames names ts) (closing) :
      IsItem (declaration word ty names ts closing)
  | statement {x} (hx : IsStmt x) : IsItem (statement x)

/-- A program. -/
def program (items : List (Parse Item)) : Parse Program where
  raw := .tree "start" [.tree "programa" (items.map Parse.raw)]
  tokens := items.flatMap Parse.tokens
  part := ⟨items.map Parse.part⟩
  lines := items.flatMap Parse.lines

/-- The parse trees of programs. -/
inductive IsProgram : Parse Program → Prop where
  | intro {items} (hitems : ∀ y ∈ items, IsItem y) : IsProgram (program items)

end Parse

end Analizador
