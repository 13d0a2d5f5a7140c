import Analizador.Judgement

/-! # Attributes of single nodes

The rules that compute the attributes of one assembled node from those of its parts, without walking
further. Each says whether all went well. -/

namespace Analizador

namespace Attribution

/-- Declares a named part of a list. `done` holds the names of the parts before; the result adds its
own. -/
def declarePart (ty : Datum) (done : List Datum) (part : Datum) : Work (List Datum) := do
  match ← Work.attr? part "name" with
  | none => return done
  | some name =>
    if done.any name.same then
      Work.reportRedeclared name part
      return done
    match ← Work.lookup name with
    | some _ => Work.reportRedeclared name part
    | none =>
      Work.setAttr part "type" ty
      let line ← Work.attr part "line"
      let column ← Work.attr part "column"
      let _ ← Work.insert ⟨name, ty, .none, line, column⟩
    return done ++ [name]

/-- A list of identifiers: declares its parts with the type of the list. -/
def identifierList (d : Datum) : Work Bool := do
  let ty := (← Work.attr? d "type").getD .none
  if !ty.isTrue then return false
  let _ ← (← (← Work.attr d "children").items).foldlM (declarePart ty) []
  return true

/-- A declaration: hands its type down to its lists. -/
def declaration (d : Datum) : Work Bool := do
  let ty ← Work.attr d "var_type"
  let children ← Work.attr d "children"
  if !children.isTrue then return false
  (← children.items).forM fun list => do
    if ((← Work.attr? list "identifiers").getD .none).isTrue then
      Work.setAttr list "type" ty
      let _ ← identifierList list
  return true

/-- An assignment: the types have to fit, and a known value is stored. -/
def assignment (d : Datum) : Work Bool := do
  match ← Work.attr? d "identifier", ← Work.attr? d "expression" with
  | some target, some expression =>
    let name ← Work.attr target "name"
    match ← Work.lookup name with
    | none =>
      Work.reportUndeclared name target
      return false
    | some symbol =>
      Work.setAttr target "type" symbol.ty
      if ← Work.typeAssignment d symbol expression then
        let value := (← Work.attr? expression "value").getD .none
        if !value.isNone then
          let _ ← Work.update name [("value", value)]
        return true
      else return false
  | _, _ => return false

/-- An operation: gets the type that its operands' types give. -/
def operation (d : Datum) : Work Bool := do
  match ← Work.attr? d "left", ← Work.attr? d "right", ← Work.attr? d "operator" with
  | some left, some right, some op =>
    match ← Work.attr? left "type", ← Work.attr? right "type" with
    | some l, some r => Work.typeOperation d op l r
    | _, _ => return false
  | _, _, _ => return false

/-- A part that has to be of the expected type, if it has one. -/
def guarded (slot : String) (expected : Ty) (message : String) (d : Datum) : Work Bool := do
  match ← Work.attr? d slot with
  | some part =>
    if ← Work.hasAttr part "type" then Work.expectType expected message part else return false
  | none => return false

/-- A conditional. -/
def conditional : Datum → Work Bool := guarded "condition" .bool (Fault.conditionMessage .si)

/-- A loop with a condition. -/
def whileLoop : Datum → Work Bool := guarded "condition" .bool (Fault.conditionMessage .mientras)

/-- A loop with a count. -/
def repeatLoop : Datum → Work Bool := guarded "count" .ent Work.countMessage

/-- Printing: everything can be printed. -/
def print (_ : Datum) : Work Bool := return true

/-- Input: the variable has to be declared. -/
def input (d : Datum) : Work Bool := do
  match ← Work.attr? d "variable" with
  | some target => if ← Work.hasAttr target "name" then Work.typeInput target else return false
  | none => return false

/-- The rule of a name. -/
def rule? : String → Option (Datum → Work Bool)
  | "declaration" => some declaration
  | "identifier_list" => some identifierList
  | "assignment" => some assignment
  | "binary_op" => some operation
  | "if_condition" => some conditional
  | "while_loop" => some whileLoop
  | "repeat_loop" => some repeatLoop
  | "print" => some print
  | "input" => some input
  | _ => none

end Attribution

end Analizador
