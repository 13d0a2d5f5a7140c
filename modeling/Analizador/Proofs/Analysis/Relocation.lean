import Analizador.Proofs.Analysis.Walk
import Analizador.Proofs.Program.Relocation

/-! # Analysis at other places

The walk of a program copies places into its symbols and faults and never looks at them. So it
commutes with moving all places by one function. -/

namespace Analizador

/-- A symbol at another place. -/
def Symbol.relocate (f : Spot → Spot) (s : Symbol) : Symbol := { s with spot := f s.spot }

/-- A fault at another place, if it has one. -/
def Fault.relocate (f : Spot → Spot) : Fault → Fault
  | .undeclared name spot => .undeclared name (f spot)
  | .redeclared name spot => .redeclared name (f spot)
  | .operands op left right => .operands op left right
  | .assignment target source => .assignment target source
  | .condition guard found spot => .condition guard found (spot.map f)

/-- What is reported of a fault does not say where it is. -/
theorem Fault.diagnostic_relocate (f : Spot → Spot) (fault : Fault) :
    (fault.relocate f).diagnostic.kind = fault.diagnostic.kind ∧
      (fault.relocate f).diagnostic.message = fault.diagnostic.message := by
  cases fault <;> exact ⟨rfl, rfl⟩

/-! ## Tables -/

variable (f : Spot → Spot) (t : Table String Symbol)

theorem Table.assign_relocate (name : String) (value : Option Constant) :
    (t.map (Symbol.relocate f)).assign name value =
      (t.assign name value).map (Symbol.relocate f) := by
  let change (s : Symbol) : Symbol := { s with value }
  have hchange (s : Symbol) : (change s).relocate f = change (s.relocate f) := rfl
  rw [assign, assign, ← modifyIndexed_map hchange, ← modifyLocated_map hchange]

/-! ## Expressions -/

namespace Expr

@[simp] theorem operationMark_relocate (op : Operator) (left right : Expr) (mark : Mark) :
    operationMark op (left.relocate f) (right.relocate f) mark =
      operationMark op left right mark := by
  simp only [operationMark, value_relocate, ty_relocate]

@[simp] theorem operationFaults_relocate (op : Operator) (left right : Expr) :
    operationFaults op (left.relocate f) (right.relocate f) =
      (operationFaults op left right).map (Fault.relocate f) := by
  simp only [operationFaults, value_relocate, ty_relocate]
  split
  next => split <;> rfl
  next => rfl

@[simp] theorem mistyped?_relocate (condition : Expr) :
    (condition.relocate f).mistyped? = condition.mistyped? := by
  simp only [mistyped?, ty_relocate]

@[simp] theorem marked_relocate (e : Expr) :
    (e.relocate f).marked (t.map (Symbol.relocate f)) = (e.marked t).relocate f := by
  induction e with
  | number value spot => rfl
  | text value spot => rfl
  | use name =>
    simp only [relocate, marked, Table.lookup_map, Name.relocate]
    cases t.lookup name.text <;> rfl
  | binary op left right mark ihl ihr =>
    simp only [relocate, marked, ihl, ihr, operationMark_relocate]

@[simp] theorem faults_relocate (e : Expr) :
    (e.relocate f).faults (t.map (Symbol.relocate f)) = (e.faults t).map (Fault.relocate f) := by
  induction e with
  | number value spot => rfl
  | text value spot => rfl
  | use name =>
    simp only [relocate, faults, Table.lookup_map, Name.relocate]
    cases t.lookup name.text <;> rfl
  | binary op left right mark ihl ihr =>
    simp only [relocate, faults, ihl, ihr, marked_relocate, operationFaults_relocate,
      List.map_append]

end Expr

/-! ## Statements -/

/-- What a walk gives, at other places. -/
def Walked.relocate {α : Type} (move : α → α) (w : Walked α) : Walked α :=
  ⟨move w.part, w.table.map (Symbol.relocate f), w.faults.map (Fault.relocate f)⟩

theorem Name.assigned_relocate (target : Name) (value : Expr) (old : Option Ty) :
    (target.relocate f).assigned (t.map (Symbol.relocate f)) (value.relocate f) old =
      (target.assigned t value old).relocate f (Prod.map (Name.relocate f) id) := by
  have hassign (name : String) := Table.assign_relocate f t name value.value
  simp only [assigned, Table.lookup_map, Name.relocate, Expr.ty_relocate, Expr.value_relocate]
  cases t.lookup target.text with
  | none => rfl
  | some symbol =>
    simp only [Option.map_some, Symbol.relocate]
    cases value.ty with
    | none => rfl
    | some source =>
      simp only
      split
      next => simp only [Walked.relocate, hassign, Prod.map, Name.relocate, id, List.map_nil]
      next => rfl

mutual

theorem Stmt.walk_relocate (t : Table String Symbol) : (s : Stmt) →
    (s.relocate f).walk (t.map (Symbol.relocate f)) = (s.walk t).relocate f (Stmt.relocate f)
  | .assign target value ty => by
    simp only [relocate, walk, Expr.marked_relocate, Expr.faults_relocate, Name.assigned_relocate,
      Walked.relocate, List.map_append, Prod.map, id]
  | .conditional condition body other => by
    have hbody := walkAll_relocate t.enter body
    simp only [relocate, walk, Expr.marked_relocate, Expr.mistyped?_relocate, Expr.faults_relocate]
    cases (condition.marked t).mistyped? with
    | some found =>
      simp only [Walked.relocate, relocate, Expr.spot?_relocate, List.map_append, List.map_cons,
        List.map_nil]
      rfl
    | none =>
      have hother := walkOther_relocate (walkAll t.enter body).table.exit other
      simp only [Table.map_exit] at hother
      simp only [← Table.map_enter, hbody, Walked.relocate, hother, relocate, List.map_append]
  | .whileLoop condition body => by
    have hbody := walkAll_relocate t.enter body
    simp only [relocate, walk, Expr.marked_relocate, Expr.mistyped?_relocate, Expr.faults_relocate]
    cases (condition.marked t).mistyped? with
    | some found =>
      simp only [Walked.relocate, relocate, Expr.spot?_relocate, List.map_append, List.map_cons,
        List.map_nil]
      rfl
    | none =>
      simp only [← Table.map_enter, hbody, Walked.relocate, relocate, Table.map_exit,
        List.map_append]
  | .repeatLoop count spot body => by
    have hbody := walkAll_relocate t.enter body
    simp only [relocate, walk, ← Table.map_enter, hbody, Walked.relocate, Table.map_exit]
  | .print value => by
    simp only [relocate, walk, Expr.marked_relocate, Expr.faults_relocate, Walked.relocate]
  | .input target => by
    simp only [relocate, walk, Table.lookup_map, Name.relocate]
    cases t.lookup target.text <;> rfl
  | .block body => by
    have hbody := walkAll_relocate t body
    simp only [relocate, walk, hbody, Walked.relocate]
termination_by structural s => s

theorem Stmt.walkOther_relocate (t : Table String Symbol) : (other : Option (List Stmt)) →
    walkOther (t.map (Symbol.relocate f)) (relocateOther f other) =
      (walkOther t other).relocate f (relocateOther f)
  | none => rfl
  | some body => by
    have hbody := walkAll_relocate t.enter body
    simp only [relocateOther, walkOther, ← Table.map_enter, hbody, Walked.relocate, Table.map_exit]
termination_by structural other => other

theorem Stmt.walkAll_relocate (t : Table String Symbol) : (body : List Stmt) →
    walkAll (t.map (Symbol.relocate f)) (relocateAll f body) =
      (walkAll t body).relocate f (relocateAll f)
  | [] => rfl
  | s :: rest => by
    have hrest := walkAll_relocate (s.walk t).table rest
    simp only [relocateAll, walkAll, walk_relocate t s, Walked.relocate, hrest, List.map_append]
termination_by structural body => body

end

/-! ## Items -/

/-- What a walk gives that may declare names, at other places. -/
def Enrolled.relocate {α : Type} (move : α → α) (e : Enrolled α) : Enrolled α :=
  ⟨e.toWalked.relocate f move, e.declared⟩

variable (declared : List String)

theorem Name.declare_relocate (ty : Ty) (n : Name) :
    (n.relocate f).declare (t.map (Symbol.relocate f)) declared ty =
      (n.declare t declared ty).relocate f (Name.relocate f) := by
  have hinsert := Table.insert?_map (Symbol.relocate f) t n.text ⟨n.text, ty, none, n.spot⟩
  simp only [Symbol.relocate] at hinsert
  by_cases hknown : declared.contains n.text = true
  · have hmoved : declared.contains (n.relocate f).text = true := hknown
    rw [declare, declare, if_pos hknown, if_pos hmoved]
    rfl
  · have hmoved : ¬ declared.contains (n.relocate f).text = true := hknown
    rw [declare, declare, if_neg hknown, if_neg hmoved]
    simp only [Name.relocate, hinsert, Enrolled.relocate, Walked.relocate, List.map_nil]
    cases t.insert? n.text ⟨n.text, ty, none, n.spot⟩ <;> rfl

theorem Name.declareAll_relocate (ty : Ty) (names : List Name) :
    declareAll (t.map (Symbol.relocate f)) declared ty (names.map (Name.relocate f)) =
      (declareAll t declared ty names).relocate f (List.map (Name.relocate f)) := by
  induction names generalizing t declared with
  | nil => rfl
  | cons n rest ih =>
    have hrest := ih (n.declare t declared ty).table (n.declare t declared ty).declared
    simp only [List.map_cons, declareAll, declare_relocate, Enrolled.relocate, Walked.relocate]
      at hrest ⊢
    simp only [hrest, List.map_append]

theorem Item.walk_relocate (i : Item) :
    (i.relocate f).walk (t.map (Symbol.relocate f)) declared =
      (i.walk t declared).relocate f (Item.relocate f) := by
  cases i with
  | declaration ty listType names =>
    simp only [relocate, walk, Name.declareAll_relocate, Enrolled.relocate, Walked.relocate]
  | statement s => simp only [relocate, walk, Stmt.walk_relocate, Enrolled.relocate,
      Walked.relocate]

theorem Item.walkAll_relocate (is : List Item) :
    walkAll (t.map (Symbol.relocate f)) declared (is.map (Item.relocate f)) =
      (walkAll t declared is).relocate f (List.map (Item.relocate f)) := by
  induction is generalizing t declared with
  | nil => rfl
  | cons i rest ih =>
    have hrest := ih (i.walk t declared).table (i.walk t declared).declared
    simp only [List.map_cons, walkAll, walk_relocate, Enrolled.relocate, Walked.relocate] at hrest ⊢
    simp only [hrest, List.map_append]

/-- The walk of a program commutes with moving its places. -/
theorem Program.walk_relocate (p : Program) :
    (p.relocate f).walk = p.walk.relocate f (List.map (Item.relocate f)) := by
  have hempty : (Table.empty : Table String Symbol).map (Symbol.relocate f) = .empty := by
    simp [Table.map, Table.empty]
  have hwalk := Item.walkAll_relocate f .empty [] p.items
  rw [hempty] at hwalk
  exact hwalk

end Analizador
