import Analizador.Judgement

/-! # Walking assembled nodes

Two walks over a graph of nodes: the general one, which only goes through the children, and the one
that checks meaning, which declares variables, gives types and values, and reports what does not
fit. -/

namespace Analizador

/-- Which walk is made. -/
inductive Walk where
  | general
  | checking
  deriving DecidableEq, Repr, Inhabited

namespace Walk

/-- A truth value as the result of a visit. -/
abbrev truth (b : Bool) : Datum := .constant (.truth b)

/-- Walks through the children of a datum; a raw comparison is made an operation first. `go` visits.
-/
def through (go : Datum → Work Datum) (d : Datum) : Work Datum := do
  match d with
  | .tree label children =>
    Work.say s!"ATENCIÓN: Se encontró un nodo Tree de Lark no convertido: tipo='{label}'"
    let parts ← match children with
      | left :: op :: right :: _ =>
        if label = "expr_relacional" then
          match ← Work.attr? op "value" with
          | some op => pure (some (left, op, right))
          | none => pure (some (left, .ofText (← op.render), right))
        else pure none
      | [left, right] =>
        pure (if label = "expr_relacional" then some (left, .ofText ">", right) else none)
      | _ => pure none
    match parts with
    | some (left, op, right) =>
      Work.sayText do
        return s!"Convirtiendo Tree a BinaryOpNode: {← left.render} {← op.render} {← right.render}"
      let node ← Work.makeBinary op left right
      Work.setAttr node "type" (.ofText Ty.bool.name)
      go node
    | none =>
      children.forM fun child => do let _ ← go child
      return .none
  | d =>
    match ← Work.attr? d "children" with
    | some children => (← children.items).forM fun child => do let _ ← go child
    | none => pure ()
    return .none

/-- Visits the children of a program in order. -/
def programChildren (go : Datum → Work Datum) (start : Nat) : List Datum → Work Unit
  | [] => return
  | child :: rest => do
    Work.say s!"  Visitando hijo {start} ({child.kind})"
    let _ ← go child
    programChildren go (start + 1) rest

/-- Visits a program; the result says whether nothing is reported. -/
def program (go : Datum → Work Datum) (d : Datum) : Work Datum := do
  Work.say "Visitando ProgramNode"
  let children ← Work.attr d "children"
  Work.say s!"  Número de hijos: {← children.length}"
  modify fun w => { w with declared := [] }
  programChildren go 0 (← children.items)
  return truth (((← get).ledger.getD .empty).semantic.isEmpty)

/-- Declares a named part, unless its name has been declared before. -/
def declare (ty part : Datum) : Work Unit := do
  match ← Work.attr? part "name" with
  | none => pure ()
  | some name =>
    if (← get).declared.any name.same then Work.reportRedeclared name part
    else
      Work.setAttr part "type" ty
      let line ← Work.attr part "line"
      let column ← Work.attr part "column"
      let _ ← Work.insert ⟨name, ty, .none, line, column⟩
      modify fun w => { w with declared := w.declared ++ [name] }

/-- Declares the parts of a list of identifiers; a list without names is passed over. -/
def declareList (ty list : Datum) : Work Unit := do
  if ((← Work.attr? list "identifiers").getD .none).isTrue then
    Work.setAttr list "type" ty
    (← (← Work.attr list "children").items).forM (declare ty)

/-- Visits a declaration. -/
def declaration (go : Datum → Work Datum) (d : Datum) : Work Datum := do
  let ty ← Work.attr d "var_type"
  Work.sayText do return s!"Visitando DeclarationNode con tipo: {← ty.render}"
  let children ← Work.attr d "children"
  Work.say s!"  Número de hijos: {← children.length}"
  if !children.isTrue then return truth false
  let children ← children.items
  children.forM (declareList ty)
  children.forM fun child => do let _ ← go child
  return .none

/-- Visits a list of identifiers. -/
def identifierList (d : Datum) : Work Datum := do
  Work.say "Visitando IdentifierListNode"
  let ty ← Work.attr d "type"
  Work.sayText do return s!"  Tipo heredado: {← ty.render}"
  match ← Work.attr? d "identifiers" with
  | some names => Work.sayText do return s!"  Identificadores en la lista: {← names.render}"
  | none => pure ()
  return .none

/-- Stores the value of an expression in the table, if the expression has one. -/
def store (name expression : Datum) : Work Unit := do
  match ← Work.attr? expression "value" with
  | some value =>
    let shownName ← name.render
    let shownValue ← value.render
    Work.say s!"  Asignando valor {shownValue} a variable {shownName}"
    if ← Work.update name [("value", value)] then
      Work.say s!"  ✓ Actualización exitosa para {shownName}: valor={shownValue}"
    else Work.say s!"  ✗ Fallo al actualizar {shownName}"
  | none => Work.sayText do return s!"  La expresión no tiene valor para {← name.render}"

/-- Visits an assignment: the expression, then the variable, then whether their types fit. -/
def assignment (go : Datum → Work Datum) (d : Datum) : Work Datum := do
  let shown ← match ← Work.attr? (← Work.attr d "identifier") "name" with
    | some name => pure (name.render)
    | none => pure (.ok "?")
  Work.sayText do return s!"Visitando AssignmentNode: {← shown}"
  let _ ← go (← Work.attr d "expression")
  let _ ← go (← Work.attr d "identifier")
  let target ← Work.attr d "identifier"
  let name ← Work.attr target "name"
  match ← Work.lookup name with
  | none =>
    Work.reportUndeclared name target
    return truth false
  | some symbol =>
    Work.setAttr target "type" symbol.ty
    let expression ← Work.attr d "expression"
    if ← Work.typeAssignment d symbol expression then
      store (← Work.attr target "name") expression
      return truth true
    else return truth false

/-- Makes sure that the operator of a node is a text. -/
def settleOperator (d : Datum) : Work Unit := do
  let op ← Work.attr d "operator"
  Work.sayText do
    return s!"Visitando BinaryOpNode con operador: '{← op.render}' (tipo: {op.kindShown})"
  if op.text?.isNone then
    Work.say s!"ADVERTENCIA: Operador no es una cadena: {op.kindShown}"
    let text ← op.render
    Work.setAttr d "operator" (.ofText text)
    Work.say s!"Convertido a: '{text}'"

/-- Gives an operation its value. -/
def evaluate (d op : Datum) (whole : Bool) (a b : Datum) : Work Unit := do
  match Operator.ofDatum? op with
  | none => Work.sayText do return s!"  Operador no reconocido: '{← op.render}'"
  | some sign =>
    match sign.calculate whole a b with
    | .ok (value, lines) =>
      match value with
      | some value => Work.setAttr d "value" value
      | none => pure ()
      lines.forM Work.say
    | .error f =>
      Work.say (Folding.failureLine sign.sign f)
      Work.setAttr d "value" .none

/-- Visits an operation. Its type is judged only if the values of both operands are known. -/
def binary (go : Datum → Work Datum) (d : Datum) : Work Datum := do
  settleOperator d
  let _ ← go (← Work.attr d "left")
  let _ ← go (← Work.attr d "right")
  let left ← Work.attr d "left"
  let right ← Work.attr d "right"
  let leftType ← Work.attr left "type"
  let rightType ← Work.attr right "type"
  let a := (← Work.attr? left "value").getD .none
  let b := (← Work.attr? right "value").getD .none
  let op ← Work.attr d "operator"
  Work.sayText do
    return s!"  Operación binaria: {← a.render} '{← op.render}' {← b.render}"
  if a.isNone || b.isNone then return .none
  evaluate d op (leftType.isText Ty.ent.name && rightType.isText Ty.ent.name) a b
  return truth (← Work.typeOperation d op leftType rightType)

/-- Visits a part of a node in a scope of its own. -/
def inScope (go : Datum → Work Datum) (d : Datum) (slot : String) : Work Unit := do
  Work.enter
  let _ ← go (← Work.attr d slot)
  Work.exit

/-- Visits a conditional. -/
def conditional (go : Datum → Work Datum) (d : Datum) : Work Datum := do
  Work.say "Visitando IfNode"
  let condition ← Work.attr d "condition"
  Work.say s!"DEBUG IfNode: condition={condition.kind}"
  match condition with
  | .node .variableUse _ =>
    if ← Work.hasAttr d "if_body" then
      let name ← Work.attr condition "name"
      Work.sayText do
        return s!"¡ADVERTENCIA! La condición del if es sólo una variable: {← name.render}"
  | _ => pure ()
  let _ ← go condition
  if ← Work.expectType .bool (Fault.conditionMessage .si) (← Work.attr d "condition") then
    inScope go d "if_body"
    if (← Work.attr d "else_body").isTrue then inScope go d "else_body"
    return truth true
  else return truth false

/-- Visits a loop, whose `guard` has to be of type `expected`. -/
def loop (go : Datum → Work Datum) (guard : String) (expected : Ty) (message : String) (d : Datum) :
    Work Datum := do
  let _ ← go (← Work.attr d guard)
  if ← Work.expectType expected message (← Work.attr d guard) then
    inScope go d "body"
    return truth true
  else return truth false

/-- Visits a block. -/
def block (go : Datum → Work Datum) (d : Datum) : Work Datum := do
  let statements ← Work.attr d "statements"
  Work.say s!"Visitando BlockNode con {← statements.length} instrucciones"
  (← statements.items).forM fun s => do let _ ← go s
  return truth true

/-- Visits a literal. -/
def literal (title : String) (d : Datum) : Work Datum := do
  let value ← Work.attr d "value"
  let shown ← value.render
  let ty ← Work.attr d "type"
  Work.sayText do return s!"Visitando {title}: {shown} de tipo {← ty.render}"
  return truth true

/-- Visits the use of a variable. -/
def variableUse (d : Datum) : Work Datum := do
  let name ← Work.attr d "name"
  Work.sayText do return s!"Visitando VariableNode: {← name.render}"
  match ← Work.lookup name with
  | none =>
    Work.reportUndeclared name d
    return truth false
  | some symbol =>
    Work.setAttr d "type" symbol.ty
    Work.setAttr d "value" symbol.value
    Work.sayText do
      return s!"  Asignado tipo {← symbol.ty.render} a variable {← name.render}"
    return truth true

/-- The checking visit of a node of the given class. -/
def checked (go : Datum → Work Datum) (cls : NodeClass) (d : Datum) : Work Datum :=
  match cls with
  | .program => program go d
  | .declaration => declaration go d
  | .identifierList => identifierList d
  | .assignment => assignment go d
  | .binary => binary go d
  | .conditional => conditional go d
  | .whileLoop => do
    Work.say "Visitando WhileNode"
    loop go "condition" .bool (Fault.conditionMessage .mientras) d
  | .repeatLoop => do
    Work.say "Visitando RepeatNode"
    loop go "count" .ent Work.countMessage d
  | .print => do
    Work.say "Visitando PrintNode"
    let _ ← go (← Work.attr d "expression")
    return truth true
  | .input => do
    Work.say "Visitando InputNode"
    return truth (← Work.typeInput (← Work.attr d "variable"))
  | .block => block go d
  | .number | .text => literal cls.name d
  | .variableUse => variableUse d
  | .plain | .identifier | .unary => through go d

/-- Visits a datum. The first argument bounds the depth of the walk. -/
def visitWithin (walk : Walk) : Nat → Datum → Work Datum
  | 0, _ => throw .tooDeep
  | depth + 1, d =>
    let go := visitWithin walk depth
    match d with
    | .node cls _ =>
      match walk with
      | .general => through go d
      | .checking => checked go cls d
    | d => do
      Work.say s!"Warning: Node {d.kind} does not have 'accept' method"
      through go d

/-- Visits a datum. -/
def visit (walk : Walk) (d : Datum) : Work Datum := do
  visitWithin walk ((← get).graph.depthBound d) d

end Walk

end Analizador
