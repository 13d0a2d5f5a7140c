import Analizador.Fault
import Analizador.Folding
import Analizador.Workshop

/-! # Judging assembled nodes

The rules of types for nodes whose attributes may hold any datum: which types fit together, what an
operation yields, and what is reported when something does not fit. -/

namespace Analizador

namespace Datum

/-- The type that a datum names. -/
def type? (d : Datum) : Option Ty := [Ty.ent, .dec, .cadena, .bool].find? fun ty => d.isText ty.name

/-- The constant that a datum stands for in calculations: a token counts as its text. -/
def constant? : Datum → Option Constant
  | constant c => some c
  | token _ s _ _ => some (.text s)
  | _ => Option.none

/-- Whether a datum is a sequence. -/
def isSequence (d : Datum) : Bool := d.text?.isSome || (d matches list _)

/-- Whether a value of type `source` may be assigned to a variable of type `target`. -/
def accepts (target source : Datum) : Bool :=
  !target.isNone && !source.isNone &&
    (target.same source || (target.isText Ty.dec.name && source.isText Ty.ent.name))

end Datum

namespace Operator

/-- The operator of a datum that holds its sign. -/
def ofDatum? (d : Datum) : Option Operator := d.text?.bind ofSign?

/-- The type of the result for operands whose types may be any data: types that are unknown to the
language can only be compared with themselves. -/
def resultOf? (op : Operator) (left right : Datum) : Option Ty :=
  match left.type?, right.type? with
  | some l, some r => op.resultType? l r
  | _, _ => if op.family = .relational ∧ left.same right then some .bool else none

/-- The type of an operation on operands of the given types: truth values are not compared, and
unknown types and operators give none. -/
def quickType? (left right op : Datum) : Option Ty :=
  match left.type?, right.type?, Operator.ofDatum? op with
  | some l, some r, some op =>
    if op.family = .relational ∧ l = .bool then none else op.resultType? l r
  | _, _, _ => none

/-- Why an operator cannot be applied to operands of these kinds. -/
def refusal (op : Operator) (a b : Datum) : Failure :=
  match op with
  | .add =>
    if a.text?.isSome then .concatenation "str" b.kind
    else if a matches .list _ then .concatenation "list" b.kind
    else .unsupported op.sign a.kind b.kind
  | .mul =>
    if a.isSequence then .repetition b.kind
    else if b.isSequence then .repetition a.kind
    else .unsupported op.sign a.kind b.kind
  | .sub | .div => .unsupported op.sign a.kind b.kind
  | op => .unordered op.sign a.kind b.kind

/-- Applies an operator to two constants that stand for data; a refusal speaks of the data. -/
def applyAs (op : Operator) (a b : Datum) (x y : Constant) : Except Failure Datum :=
  match Constant.apply op x y with
  | .ok c => .ok (.constant c)
  | .error (.unsupported ..) | .error (.concatenation ..) | .error (.repetition _)
  | .error (.unordered ..) => .error (op.refusal a b)
  | .error f => .error f

/-- A list repeated. -/
def repeatedList (items : List Datum) (count : Int) : Except Failure Datum :=
  if count < -(Constant.repetitionLimit : Int) ∨ (Constant.repetitionLimit : Int) ≤ count then
    .error .repetitionCount
  else if Constant.memoryLimit < items.length * count.toNat then .error .outOfMemory
  else .ok (.list (List.replicate count.toNat items).flatten)

/-- Whether the first of two orders decides, or else the second. -/
def orderOfLengths (a b : List Datum) : Ordering := compare a.length b.length

/-- The first items in which two lists differ. -/
def firstDifference : List Datum → List Datum → Option (Datum × Datum)
  | x :: xs, y :: ys => if x.same y then firstDifference xs ys else some (x, y)
  | _, _ => none

/-- Whether an order is one that the operator accepts. -/
def holds (op : Operator) (o : Ordering) : Bool :=
  match op with
  | .gt => o == .gt
  | .lt => o == .lt
  | .ge => o != .lt
  | .le => o != .gt
  | _ => false

/-- Compares two data by order. Lists are compared at the first items that differ, down to the given
depth. -/
def compareData (op : Operator) : Nat → Datum → Datum → Except Failure Datum
  | depth + 1, .list xs, .list ys =>
    match firstDifference xs ys with
    | some (x, y) => compareData op depth x y
    | none => .ok (.constant (.truth (op.holds (orderOfLengths xs ys))))
  | _, a, b =>
    match a.constant?, b.constant? with
    | some x, some y => op.applyAs a b x y
    | _, _ => .error (op.refusal a b)

/-- Applies an operator to two data. -/
def combine (op : Operator) (a b : Datum) : Except Failure Datum :=
  match op with
  | .eq => .ok (.constant (.truth (a.same b)))
  | .ne => .ok (.constant (.truth (!a.same b)))
  | .both => .ok (if a.isTrue then b else a)
  | .either => .ok (if a.isTrue then a else b)
  | .gt | .lt | .ge | .le => op.compareData a.size a b
  | op =>
    match op, a, b with
    | .add, .list xs, .list ys => .ok (.list (xs ++ ys))
    | .mul, .list xs, .constant c | .mul, .constant c, .list xs =>
      match c.number? with
      | some (.whole n) => repeatedList xs n
      | _ => .error (op.refusal a b)
    | op, a, b =>
      match a.constant?, b.constant? with
      | some x, some y => op.applyAs a b x y
      | _, _ => .error (op.refusal a b)

/-- Calculates an operation on data: the new value, unless the old one stays, and the lines logged.
-/
def calculate (op : Operator) (whole : Bool) (a b : Datum) :
    Except Failure (Option Datum × List String) :=
  match a, b with
  | .constant x, .constant y => do
    let folding ← Folding.attempt op whole x y
    return (folding.value.map Datum.ofConstant?, folding.lines)
  | a, b =>
    match op.family with
    | .arithmetic =>
      if op = .div ∧ b.same (.ofInt 0) then .ok (none, [])
      else do
        let result ← op.combine a b
        return (some result, [s!"  {Folding.title op}: {← a.render} {op.sign} {← b.render} = " ++
          s!"{← result.render}"])
    | _ => do return (some (← op.combine a b), [])

end Operator

namespace Work

/-- Reports that a node's attribute has the wrong type. -/
def reportMismatch (expected found : Datum) (message : String) (place : Datum) : Work Unit := do
  let line ← attr place "line"
  let column ← attr place "column"
  report ⟨.mismatch expected found, .ofText message, line, column⟩

/-- Reports a name that is not declared. -/
def reportUndeclared (name place : Datum) : Work Unit := do
  let line ← attr place "line"
  let column ← attr place "column"
  report (← Diagnostic.ofUndeclared name line column)

/-- Reports a name that is declared again. -/
def reportRedeclared (name place : Datum) : Work Unit := do
  let line ← attr place "line"
  let column ← attr place "column"
  report (← Diagnostic.ofRedeclared name line column)

/-- Gives an operation its type, or reports that its operands do not fit. -/
def typeOperation (d op left right : Datum) : Work Bool := do
  if left.isNone || right.isNone then
    setAttr d "type" .none
    return false
  match Operator.ofDatum? op with
  | none => return true
  | some op =>
    match op.resultOf? left right with
    | some ty =>
      setAttr d "type" (.ofText ty.name)
      return true
    | none =>
      let l ← left.render
      let r ← right.render
      reportMismatch (.ofText (Fault.operandExpectation op)) (.ofText s!"{l} y {r}")
        (Fault.operandMessage op l r) d
      setAttr d "type" .none
      return false

/-- Checks that a part has the expected type or none; reports it otherwise. -/
def expectType (expected : Ty) (message : String) (part : Datum) : Work Bool := do
  let found ← attr part "type"
  if found.isNone || found.isText expected.name then return true
  reportMismatch (.ofText expected.name) found message part
  return false

/-- The wording of a count that is no integer. -/
def countMessage : String := "El número de repeticiones debe ser entero"

/-- Checks that an assignment's types fit and gives the assignment its type. An expression without a
type is left unjudged. -/
def typeAssignment (d : Datum) (target : Record) (expression : Datum) : Work Bool := do
  let source ← attr expression "type"
  if !source.isTrue then return false
  if target.ty.accepts source then
    setAttr d "type" target.ty
    return true
  reportMismatch target.ty source (Fault.assignmentMessage (← target.ty.render) (← source.render)) d
  return false

/-- Gives an input variable its type, or reports that it is not declared. -/
def typeInput (target : Datum) : Work Bool := do
  let name ← attr target "name"
  match ← lookup name with
  | none =>
    reportUndeclared name target
    return false
  | some symbol =>
    setAttr target "type" symbol.ty
    return true

end Work

end Analizador
