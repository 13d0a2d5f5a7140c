import Analizador.Fault
import Analizador.Folding
import Analizador.Moment
import Analizador.Text.Layout

/-! # Analysis of programs

A program is walked once, in order. Declarations bind variables in a scoped table, expressions get
types and, where their operands are known, values, and every fault is recorded. The walk logs what
it does and tells every mark and every table that it makes, moment by moment. -/

namespace Analizador

/-- What the analysis keeps: the table, the faults so far, the names declared so far and the log. -/
structure Findings where
  table : Table String Symbol
  faults : List Fault
  declared : List String
  log : List String
  deriving Repr, Inhabited

/-- A step of the analysis. It may stop when a value cannot be shown in the log. -/
abbrev Analysis := ExceptT Failure (StateT Findings (Traced Moment))

namespace Analysis

/-- The state before the first step. -/
def start : Findings := ⟨.empty, [], [], []⟩

/-- What a step comes to from the findings before it: its answer, unless it stops, and the findings
after it. -/
def run (step : Analysis α) (s : Findings) : Except Failure α × Findings :=
  (ExceptT.run step s).value

/-- The moments of a step. -/
def moments (step : Analysis α) (s : Findings) : List Moment := (ExceptT.run step s).trace

/-- Tells what is put down. -/
def note (m : Moment) : Analysis Unit := liftM (Traced.put m)

/-- Logs a message. -/
def say (message : String) : Analysis Unit := modify fun s => { s with log := s.log ++ [message] }

/-- Records a fault. -/
def report (f : Fault) : Analysis Unit := modify fun s => { s with faults := s.faults ++ [f] }

/-- Changes the table. -/
def turn (change : Table String Symbol → Table String Symbol) : Analysis Unit := do
  modify fun s => { s with table := change s.table }
  note (.table (← get).table)

/-- Gives a name a mark. -/
def markName (n : Name) (mark : Mark) : Analysis Name := do
  note (.mark ⟨.name n.text, mark⟩)
  return { n with mark }

/-- Gives an operation a mark. -/
def markOperation (op : Operator) (mark : Mark) : Analysis Mark := do
  note (.mark ⟨.operation op, mark⟩)
  return mark

/-- Opens a scope around a step. -/
def inScope (step : Analysis α) : Analysis α := do
  turn Table.enter
  let a ← step
  turn Table.exit
  return a

/-- The text of a value that may be unknown. -/
def shown (value : Option Constant) : Except Failure String :=
  match value with
  | some c => c.render
  | none => .ok "None"

/-- The text of a type that may be unknown. -/
def typeShown (ty : Option Ty) : String := (ty.map Ty.name).getD "None"

/-- Logs every symbol of the table, as happens whenever all are asked for. -/
def listSymbols : Analysis (List Symbol) := do
  let symbols := (← get).table.named
  say (Record.listingLine symbols.length)
  for (name, s) in symbols do
    say (← Record.listedLine (.ofText name) (.ofText s.ty.name) (.ofConstant? s.value))
  return symbols.map (·.2)

/-- Looks a used name up and gives it the type and the value of its variable. -/
def useName (n : Name) : Analysis Name := do
  say s!"Visitando VariableNode: {n.text}"
  match (← get).table.lookup n.text with
  | none =>
    report (.undeclared n.text n.spot)
    return n
  | some symbol =>
    let n ← markName n { n.mark with ty := some symbol.ty }
    let n ← markName n { n.mark with value := symbol.value }
    say s!"  Asignado tipo {symbol.ty.name} a variable {n.text}"
    return n

/-- Logs the visit of a number. -/
def visitNumber (n : Constant.Number) : Analysis Unit := do
  say s!"Visitando NumberNode: {← n.toConstant.render} de tipo {n.literalType.name}"

/-- Gives an operation on known values its value. It holds the values on the way there, too. -/
def calculate (op : Operator) (whole : Bool) (a b : Constant) (mark : Mark) : Analysis Mark := do
  let folding := Folding.ofOperation op whole a b
  (Folding.trials op whole a b).forM fun c => note (.trial op c)
  folding.lines.forM say
  markOperation op { mark with value := folding.value.getD mark.value }

/-- Gives an operation its value and its type once the operands are walked. Both are left alone
unless the values of both operands are known. -/
def operate (op : Operator) (left right : Expr) (mark : Mark) : Analysis Mark := do
  say s!"  Operación binaria: {← shown left.value} '{op.sign}' {← shown right.value}"
  match left.value, right.value with
  | some a, some b =>
    let mark ← calculate op (left.ty = some .ent && right.ty = some .ent) a b mark
    match left.ty, right.ty with
    | some l, some r =>
      match op.resultType? l r with
      | some ty => markOperation op { mark with ty := some ty }
      | none =>
        report (.operands op l r)
        markOperation op { mark with ty := none }
    | _, _ => markOperation op { mark with ty := none }
  | _, _ => return mark

/-- Walks an expression. -/
def expr : Expr → Analysis Expr
  | .number n spot => do
    visitNumber n
    return .number n spot
  | .text s spot => do
    say s!"Visitando StringNode: {s} de tipo {Ty.cadena.name}"
    return .text s spot
  | .use name => do return .use (← useName name)
  | .binary op left right mark => do
    say s!"Visitando BinaryOpNode con operador: '{op.sign}' (tipo: <class 'str'>)"
    let left ← expr left
    let right ← expr right
    return .binary op left right (← operate op left right mark)

/-- Assigns a walked value to a variable, if the types allow it; gives the type of the assignment.
-/
def assign (target : Name) (value : Expr) (old : Option Ty) : Analysis (Name × Option Ty) := do
  let target ← useName target
  match (← get).table.lookup target.text with
  | none =>
    report (.undeclared target.text target.spot)
    return (target, old)
  | some symbol =>
    let target ← markName target { target.mark with ty := some symbol.ty }
    match value.ty with
    | none => return (target, old)
    | some source =>
      if symbol.ty.accepts source then
        let text ← shown value.value
        say s!"  Asignando valor {text} a variable {target.text}"
        turn (·.modifyLocated target.text ({ · with value := value.value }))
        say (← Record.updatedLine (.ofText target.text) (.ofConstant? symbol.value)
          (.ofConstant? value.value))
        turn (·.modifyIndexed target.text ({ · with value := value.value }))
        say s!"  ✓ Actualización exitosa para {target.text}: valor={text}"
        return (target, some symbol.ty)
      else
        report (.assignment symbol.ty source)
        return (target, old)

/-- Checks the type of a walked condition; one whose type is not known passes. -/
def guarded (guard : Guard) (condition : Expr) : Analysis Bool := do
  match condition.ty with
  | none | some .bool => return true
  | some found =>
    report (.condition guard found condition.spot?)
    return false

/-- Logs that a conditional hangs on a bare variable. -/
def warnBareVariable : Expr → Analysis Unit
  | .use name => say s!"¡ADVERTENCIA! La condición del if es sólo una variable: {name.text}"
  | _ => pure ()

/-- Logs the wrapping that every statement has in the tree. -/
def visitSentence : Analysis Unit := do
  say "Warning: Node Tree does not have 'accept' method"
  say "ATENCIÓN: Se encontró un nodo Tree de Lark no convertido: tipo='sentencia'"

/-- Gives an input variable its type. -/
def input (n : Name) : Analysis Name := do
  say "Visitando InputNode"
  match (← get).table.lookup n.text with
  | none =>
    report (.undeclared n.text n.spot)
    return n
  | some symbol => markName n { n.mark with ty := some symbol.ty }

/-- Logs the visit of a block. -/
def visitBlock (body : List Stmt) : Analysis Unit :=
  say s!"Visitando BlockNode con {body.length} instrucciones"

mutual

/-- Walks a statement. -/
def stmt : Stmt → Analysis Stmt
  | .assign target value ty => do
    say s!"Visitando AssignmentNode: {target.text}"
    let value ← expr value
    let (target, ty) ← assign target value ty
    return .assign target value ty
  | .conditional condition body other => do
    say "Visitando IfNode"
    say s!"DEBUG IfNode: condition={condition.cls.name}"
    warnBareVariable condition
    let condition ← expr condition
    if ← guarded .si condition then
      let body ← inScope do visitBlock body; stmts body
      return .conditional condition body (← otherwise other)
    else return .conditional condition body other
  | .whileLoop condition body => do
    say "Visitando WhileNode"
    let condition ← expr condition
    if ← guarded .mientras condition then
      return .whileLoop condition (← inScope do visitBlock body; stmts body)
    else return .whileLoop condition body
  | .repeatLoop count spot body => do
    say "Visitando RepeatNode"
    visitNumber (.whole count)
    return .repeatLoop count spot (← inScope do visitBlock body; stmts body)
  | .print value => do
    say "Visitando PrintNode"
    return .print (← expr value)
  | .input target => do return .input (← input target)
  | .block body => do
    visitBlock body
    return .block (← stmts body)
termination_by structural s => s

/-- Walks the second block of a conditional, if there is one. -/
def otherwise : Option (List Stmt) → Analysis (Option (List Stmt))
  | none => return none
  | some body => do return some (← inScope do visitBlock body; stmts body)
termination_by structural other => other

/-- Walks statements one after the other. -/
def stmts : List Stmt → Analysis (List Stmt)
  | [] => return []
  | s :: rest => do
    visitSentence
    let s ← stmt s
    return s :: (← stmts rest)
termination_by structural body => body

end

/-- Declares one name, unless it has been declared before. -/
def declare (ty : Ty) (n : Name) : Analysis Name := do
  if (← get).declared.contains n.text then
    report (.redeclared n.text n.spot)
    return n
  else
    let n ← markName n { n.mark with ty := some ty }
    match (← get).table.insert? n.text ⟨n.text, ty, none, n.spot⟩ with
    | some table =>
      turn fun _ => table
      say (← Record.insertedLine (.ofText n.text) (.ofText ty.name) .none)
    | none => pure ()
    modify fun s => { s with declared := s.declared ++ [n.text] }
    return n

/-- Walks a declaration or a statement. -/
def item : Item → Analysis Item
  | .declaration ty _ names => do
    say s!"Visitando DeclarationNode con tipo: {ty.name}"
    say "  Número de hijos: 1"
    let names ← names.mapM (declare ty)
    say "Visitando IdentifierListNode"
    say s!"  Tipo heredado: {ty.name}"
    let list := ", ".intercalate (names.map fun n => Text.quoted n.text)
    say s!"  Identificadores en la lista: [{list}]"
    return .declaration ty (some ty) names
  | .statement s => do
    visitSentence
    return .statement (← stmt s)

/-- The class of the node of an item. -/
def itemClass : Item → String
  | .declaration .. => NodeClass.declaration.name
  | .statement _ => "Tree"

/-- Walks the items of a program, numbered from `start` on. -/
def items (start : Nat) : List Item → Analysis (List Item)
  | [] => return []
  | i :: rest => do
    say s!"  Visitando hijo {start} ({itemClass i})"
    let i ← item i
    return i :: (← items (start + 1) rest)

/-- Walks a whole program and sums up. The result says whether there is no fault. -/
def program (p : Program) : Analysis (Program × Bool) := do
  say s!"Iniciando análisis semántico. Tipo de AST: {NodeClass.program.name}"
  say "Visitando ProgramNode"
  say s!"  Número de hijos: {p.items.length}"
  let walked ← items 0 p.items
  let result := (← get).faults.isEmpty
  say s!"Análisis semántico completado. Resultado: {Constant.truthText result}"
  let symbols ← listSymbols
  say s!"Símbolos encontrados: {symbols.length}"
  let symbols ← listSymbols
  for s in symbols do
    say s!"  - {s.name} ({s.ty.name})"
  return (⟨walked⟩, result)

end Analysis

/-- Analyses a program: gives it with what was found about it and whether it has no fault, unless
the analysis stops, and the findings. -/
def Program.analyse (p : Program) : Except Failure (Program × Bool) × Findings :=
  (Analysis.program p).run Analysis.start

/-- The moments of the analysis of a program. -/
def Program.moments (p : Program) : List Moment := (Analysis.program p).moments Analysis.start

end Analizador
