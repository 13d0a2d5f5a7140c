import Analizador.Analysis
import Analizador.Proofs.Table

/-! # The walk without its log

What the analysis makes of a part of a program, its log aside, depends only on the table before it.
The functions of this module say what that is: the part with its marks, the faults in their order
and the table after it. The analysis does just that as long as every value it meets can be shown. -/

namespace Analizador

/-! ## Marks and faults of expressions -/

namespace Expr

/-- The mark that an operation gets from its walked operands. -/
def operationMark (op : Operator) (left right : Expr) (mark : Mark) : Mark :=
  match left.value, right.value with
  | some a, some b =>
    let folding := Folding.ofOperation op (left.ty = some .ent && right.ty = some .ent) a b
    ⟨do op.resultType? (← left.ty) (← right.ty), folding.value.getD mark.value⟩
  | _, _ => mark

/-- The fault of an operation on walked operands, if the types are looked at and do not fit. -/
def operationFaults (op : Operator) (left right : Expr) : List Fault :=
  match left.value, right.value, left.ty, right.ty with
  | some _, some _, some l, some r => if (op.resultType? l r).isSome then [] else [.operands op l r]
  | _, _, _, _ => []

/-- An expression with the marks that it gets. -/
def marked (t : Table String Symbol) : Expr → Expr
  | .number n spot => .number n spot
  | .text s spot => .text s spot
  | .use name =>
    match t.lookup name.text with
    | none => .use name
    | some symbol => .use { name with mark := ⟨some symbol.ty, symbol.value⟩ }
  | .binary op left right mark =>
    .binary op (left.marked t) (right.marked t)
      (operationMark op (left.marked t) (right.marked t) mark)

/-- The faults of an expression, in order. -/
def faults (t : Table String Symbol) : Expr → List Fault
  | .number .. | .text .. => []
  | .use name =>
    match t.lookup name.text with
    | none => [.undeclared name.text name.spot]
    | some _ => []
  | .binary op left right _ =>
    left.faults t ++ right.faults t ++ operationFaults op (left.marked t) (right.marked t)

/-- The known type of a walked condition that cannot be a condition. -/
def mistyped? (condition : Expr) : Option Ty :=
  match condition.ty with
  | none | some .bool => none
  | some found => some found

end Expr

/-! ## Statements -/

/-- What a walk gives: the part with its marks, the table after it and the faults in their order. -/
structure Walked (α : Type) where
  part : α
  table : Table String Symbol
  faults : List Fault

/-- Assigns a value to a variable of a table: to the entry that is found, and to the one in the
index. -/
def Table.assign (t : Table String Symbol) (name : String) (value : Option Constant) :
    Table String Symbol :=
  (t.modifyLocated name ({ · with value })).modifyIndexed name ({ · with value })

/-- Assigns a walked value to a variable, if the types allow it; gives the type of the assignment.
-/
def Name.assigned (t : Table String Symbol) (target : Name) (value : Expr) (old : Option Ty) :
    Walked (Name × Option Ty) :=
  match t.lookup target.text with
  | none =>
    ⟨(target, old), t, [.undeclared target.text target.spot, .undeclared target.text target.spot]⟩
  | some symbol =>
    let target := { target with mark := ⟨some symbol.ty, symbol.value⟩ }
    match value.ty with
    | none => ⟨(target, old), t, []⟩
    | some source =>
      if symbol.ty.accepts source then
        ⟨(target, some symbol.ty), t.assign target.text value.value, []⟩
      else ⟨(target, old), t, [.assignment symbol.ty source]⟩

mutual

/-- Walks a statement. -/
def Stmt.walk (t : Table String Symbol) : Stmt → Walked Stmt
  | .assign target value ty =>
    let walked := value.marked t
    let assigned := target.assigned t walked ty
    ⟨.assign assigned.part.1 walked assigned.part.2, assigned.table,
      value.faults t ++ assigned.faults⟩
  | .conditional condition body other =>
    let walked := condition.marked t
    match walked.mistyped? with
    | some found =>
      ⟨.conditional walked body other, t, condition.faults t ++ [.condition .si found walked.spot?]⟩
    | none =>
      let inner := walkAll t.enter body
      let rest := walkOther inner.table.exit other
      ⟨.conditional walked inner.part rest.part, rest.table,
        condition.faults t ++ (inner.faults ++ rest.faults)⟩
  | .whileLoop condition body =>
    let walked := condition.marked t
    match walked.mistyped? with
    | some found =>
      ⟨.whileLoop walked body, t, condition.faults t ++ [.condition .mientras found walked.spot?]⟩
    | none =>
      let inner := walkAll t.enter body
      ⟨.whileLoop walked inner.part, inner.table.exit, condition.faults t ++ inner.faults⟩
  | .repeatLoop count spot body =>
    let inner := walkAll t.enter body
    ⟨.repeatLoop count spot inner.part, inner.table.exit, inner.faults⟩
  | .print value => ⟨.print (value.marked t), t, value.faults t⟩
  | .input target =>
    match t.lookup target.text with
    | none => ⟨.input target, t, [.undeclared target.text target.spot]⟩
    | some symbol =>
      ⟨.input { target with mark := { target.mark with ty := some symbol.ty } }, t, []⟩
  | .block body =>
    let inner := walkAll t body
    ⟨.block inner.part, inner.table, inner.faults⟩
termination_by structural s => s

/-- Walks the second block of a conditional, if there is one. -/
def Stmt.walkOther (t : Table String Symbol) : Option (List Stmt) → Walked (Option (List Stmt))
  | none => ⟨none, t, []⟩
  | some body =>
    let inner := walkAll t.enter body
    ⟨some inner.part, inner.table.exit, inner.faults⟩
termination_by structural other => other

/-- Walks statements one after the other. -/
def Stmt.walkAll (t : Table String Symbol) : List Stmt → Walked (List Stmt)
  | [] => ⟨[], t, []⟩
  | s :: rest =>
    let first := s.walk t
    let others := walkAll first.table rest
    ⟨first.part :: others.part, others.table, first.faults ++ others.faults⟩
termination_by structural body => body

end

/-! ## Items -/

/-- What a walk gives that may declare names: besides all else, the names declared after it. -/
structure Enrolled (α : Type) extends Walked α where
  declared : List String

/-- Declares one name, unless it has been declared before. -/
def Name.declare (t : Table String Symbol) (declared : List String) (ty : Ty) (n : Name) :
    Enrolled Name :=
  if declared.contains n.text then ⟨⟨n, t, [.redeclared n.text n.spot]⟩, declared⟩
  else
    ⟨⟨{ n with mark := { n.mark with ty := some ty } },
      (t.insert? n.text ⟨n.text, ty, none, n.spot⟩).getD t, []⟩, declared ++ [n.text]⟩

/-- Declares names one after the other. -/
def Name.declareAll (t : Table String Symbol) (declared : List String) (ty : Ty) :
    List Name → Enrolled (List Name)
  | [] => ⟨⟨[], t, []⟩, declared⟩
  | n :: rest =>
    let first := n.declare t declared ty
    let others := declareAll first.table first.declared ty rest
    ⟨⟨first.part :: others.part, others.table, first.faults ++ others.faults⟩, others.declared⟩

namespace Item

/-- Walks a declaration or a statement. -/
def walk (t : Table String Symbol) (declared : List String) : Item → Enrolled Item
  | .declaration ty _ names =>
    let enrolled := Name.declareAll t declared ty names
    ⟨⟨.declaration ty (some ty) enrolled.part, enrolled.table, enrolled.faults⟩, enrolled.declared⟩
  | .statement s => ⟨⟨.statement (s.walk t).part, (s.walk t).table, (s.walk t).faults⟩, declared⟩

/-- Walks the items of a program. -/
def walkAll (t : Table String Symbol) (declared : List String) : List Item → Enrolled (List Item)
  | [] => ⟨⟨[], t, []⟩, declared⟩
  | i :: rest =>
    let first := i.walk t declared
    let others := walkAll first.table first.declared rest
    ⟨⟨first.part :: others.part, others.table, first.faults ++ others.faults⟩, others.declared⟩

/-- Items are walked after others from the table and the names that these leave. -/
theorem walkAll_append (t : Table String Symbol) (declared : List String) (is js : List Item) :
    let first := walkAll t declared is
    let others := walkAll first.table first.declared js
    walkAll t declared (is ++ js) =
      ⟨⟨first.part ++ others.part, others.table, first.faults ++ others.faults⟩,
        others.declared⟩ := by
  induction is generalizing t declared with
  | nil => rfl
  | cons i rest ih => simp only [List.cons_append, walkAll, ih, List.append_assoc]

end Item

/-- Walks a whole program. -/
def Program.walk (p : Program) : Enrolled (List Item) := Item.walkAll .empty [] p.items

/-! ## Values that can be shown -/

/-- The value can be shown: it is no integer of too many digits. -/
def Constant.Shows (c : Constant) : Prop := ∃ text, c.render = .ok text

/-- What is known of a value can be shown. -/
def ShowsValue (value : Option Constant) : Prop := ∀ c ∈ value, c.Shows

/-- Every value that a table holds can be shown. -/
def Table.Shows (t : Table String Symbol) : Prop := ∀ s ∈ t.entries, ShowsValue s.value

/-- Every value in an expression can be shown. -/
def Expr.Shows : Expr → Prop
  | .number n _ => n.toConstant.Shows
  | .text .. => True
  | .use name => ShowsValue name.mark.value
  | .binary _ left right mark => left.Shows ∧ right.Shows ∧ ShowsValue mark.value

end Analizador
