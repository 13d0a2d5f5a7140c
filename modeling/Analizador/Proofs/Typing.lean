import Analizador.Proofs.Program

/-! # Static typing

The types that a program has by its declarations alone, whatever values its variables hold. A walked
program tells which checks were made on it; what it must satisfy besides those is stated here too.
-/

namespace Analizador

/-- The type of an expression, given the types of the variables. -/
inductive Expr.HasType (Γ : String → Option Ty) : Expr → Ty → Prop where
  | number {n spot} : HasType Γ (.number n spot) n.literalType
  | text {s spot} : HasType Γ (.text s spot) .cadena
  | use {name ty} (hname : Γ name.text = some ty) : HasType Γ (.use name) ty
  | binary {op left right mark l r ty} (hleft : HasType Γ left l) (hright : HasType Γ right r)
      (hop : op.resultType? l r = some ty) : HasType Γ (.binary op left right mark) ty

/-- A value may be assigned to a variable. -/
def Name.Admits (Γ : String → Option Ty) (target : Name) (value : Expr) : Prop :=
  ∃ ty source, Γ target.text = some ty ∧ value.HasType Γ source ∧ ty.accepts source = true

section Determined

variable {Γ : String → Option Ty}

/-- An expression has at most one type. -/
theorem Expr.HasType.unique {e : Expr} {ty ty' : Ty} (h : e.HasType Γ ty) (h' : e.HasType Γ ty') :
    ty = ty' := by
  induction h generalizing ty' with
  | number | text =>
    cases h'
    rfl
  | use hname =>
    cases h' with
    | use hname' => exact Option.some.inj (hname.symm.trans hname')
  | binary _ _ hop ihleft ihright =>
    cases h' with
    | binary hleft' hright' hop' =>
      obtain rfl := ihleft hleft'
      obtain rfl := ihright hright'
      exact Option.some.inj (hop.symm.trans hop')

theorem Name.admits_iff {target : Name} {value : Expr} {ty source : Ty}
    (htarget : Γ target.text = some ty) (hvalue : value.HasType Γ source) :
    target.Admits Γ value ↔ ty.accepts source = true := by
  constructor
  · rintro ⟨ty', source', htarget', hvalue', haccepts⟩
    obtain rfl := Option.some.inj (htarget.symm.trans htarget')
    obtain rfl := hvalue.unique hvalue'
    exact haccepts
  · exact fun haccepts => ⟨ty, source, htarget, hvalue, haccepts⟩

end Determined

mutual

/-- A statement is well typed: its operations have types, its assignments fit, its conditions are
truth values and its counts integers. -/
def Stmt.WellTyped (Γ : String → Option Ty) : Stmt → Prop
  | .assign target value _ => target.Admits Γ value
  | .conditional condition body other =>
    condition.HasType Γ .bool ∧ AllWellTyped Γ body ∧ OtherWellTyped Γ other
  | .whileLoop condition body => condition.HasType Γ .bool ∧ AllWellTyped Γ body
  | .repeatLoop count spot body => (Expr.number (.whole count) spot).HasType Γ .ent ∧
      AllWellTyped Γ body
  | .print value => ∃ ty, value.HasType Γ ty
  | .input _ => True
  | .block body => AllWellTyped Γ body
termination_by structural s => s

/-- The second block of a conditional is well typed. -/
def Stmt.OtherWellTyped (Γ : String → Option Ty) : Option (List Stmt) → Prop
  | none => True
  | some body => AllWellTyped Γ body
termination_by structural other => other

/-- Some statements are well typed. -/
def Stmt.AllWellTyped (Γ : String → Option Ty) : List Stmt → Prop
  | [] => True
  | s :: rest => s.WellTyped Γ ∧ AllWellTyped Γ rest
termination_by structural body => body

end

/-- An item is well typed. -/
def Item.WellTyped (Γ : String → Option Ty) : Item → Prop
  | .declaration .. => True
  | .statement s => s.WellTyped Γ

/-- The type with which a name is declared first. -/
def typeOf? (ms : List Mention) (name : String) : Option Ty :=
  ms.findSome? fun
    | .declared ty n => if n.text = name then some ty else none
    | .used _ => none

namespace Program

/-- The type with which a program declares a name. -/
def context (p : Program) : String → Option Ty := typeOf? p.mentions

/-- A program is well typed by its own declarations. -/
def WellTyped (p : Program) : Prop := ∀ i ∈ p.items, i.WellTyped p.context

end Program

/-! ## Checks that are not made

The types of an operation are looked at only when both operands have a value, and an assignment or a
condition only when its expression has been given a type. -/

/-- The operations of a walked expression that were not checked have a type. -/
def Expr.SkippedTyped (Γ : String → Option Ty) : Expr → Prop
  | .number .. | .text .. | .use _ => True
  | .binary op left right mark =>
    left.SkippedTyped Γ ∧ right.SkippedTyped Γ ∧
      (left.value = none ∨ right.value = none → ∃ ty, (binary op left right mark).HasType Γ ty)

mutual

/-- What was not checked in a walked statement is well typed. -/
def Stmt.SkippedTyped (Γ : String → Option Ty) : Stmt → Prop
  | .assign target value _ => value.SkippedTyped Γ ∧ (value.ty = none → target.Admits Γ value)
  | .conditional condition body other =>
    condition.SkippedTyped Γ ∧ (condition.ty = none → condition.HasType Γ .bool) ∧
      AllSkippedTyped Γ body ∧ OtherSkippedTyped Γ other
  | .whileLoop condition body =>
    condition.SkippedTyped Γ ∧ (condition.ty = none → condition.HasType Γ .bool) ∧
      AllSkippedTyped Γ body
  | .repeatLoop _ _ body => AllSkippedTyped Γ body
  | .print value => value.SkippedTyped Γ
  | .input _ => True
  | .block body => AllSkippedTyped Γ body
termination_by structural s => s

/-- What was not checked in the second block of a walked conditional is well typed. -/
def Stmt.OtherSkippedTyped (Γ : String → Option Ty) : Option (List Stmt) → Prop
  | none => True
  | some body => AllSkippedTyped Γ body
termination_by structural other => other

/-- What was not checked in some walked statements is well typed. -/
def Stmt.AllSkippedTyped (Γ : String → Option Ty) : List Stmt → Prop
  | [] => True
  | s :: rest => s.SkippedTyped Γ ∧ AllSkippedTyped Γ rest
termination_by structural body => body

end

/-- What was not checked in a walked item is well typed. -/
def Item.SkippedTyped (Γ : String → Option Ty) : Item → Prop
  | .declaration .. => True
  | .statement s => s.SkippedTyped Γ

/-- What was not checked in a walked program is well typed. -/
def Program.SkippedTyped (Γ : String → Option Ty) (p : Program) : Prop :=
  ∀ i ∈ p.items, i.SkippedTyped Γ

end Analizador
