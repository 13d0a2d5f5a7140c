import Analizador.Proofs.Analysis.Walk
import Analizador.Proofs.Typing

/-! # Types that the analysis finds

The type that an expression gets is its static type, or else it gets neither type nor value. So a
part of a program is walked without fault, and what was not checked in it is well typed, exactly if
all names in it are declared and it is well typed. -/

namespace Analizador

/-- The type that a table has for a name. -/
def Table.typeOf? (t : Table String Symbol) (name : String) : Option Ty :=
  (t.lookup name).map Symbol.ty

/-- The types that a table has are those of a context. -/
def Table.Within (t : Table String Symbol) (Γ : String → Option Ty) : Prop :=
  ∀ name ty, t.typeOf? name = some ty → Γ name = some ty

/-- A table has a type for each of some names. -/
def Table.Knows (t : Table String Symbol) (names : List Name) : Prop :=
  ∀ n ∈ names, (t.typeOf? n.text).isSome = true

/-- Tables that differ in the values of their variables only have the same types. -/
theorem Table.typeOf?_congr {t t' : Table String Symbol}
    (h : t'.map Symbol.forget = t.map Symbol.forget) :
    t'.typeOf? = t.typeOf? := by
  funext name
  have hlookup := congrArg (Table.lookup · name) h
  simp only [lookup_map] at hlookup
  calc t'.typeOf? name = ((t'.lookup name).map Symbol.forget).map Symbol.ty := by
        simp [typeOf?, Function.comp_def, Symbol.forget]
    _ = t.typeOf? name := by simp [hlookup, typeOf?, Function.comp_def, Symbol.forget]

/-- A table knows two lists of names together exactly if it knows each. -/
theorem Table.knows_append {t : Table String Symbol} {names others : List Name} :
    t.Knows (names ++ others) ↔ t.Knows names ∧ t.Knows others := by
  simp [Knows, or_imp, forall_and]

namespace Expr

/-- All operations in an expression are fresh. -/
def Fresh : Expr → Prop
  | .number .. | .text .. | .use _ => True
  | .binary op left right mark =>
    left.Fresh ∧ right.Fresh ∧ binary op left right mark = operation op left right

/-- The known type of an expression is the given one, or else neither its type nor its value is
known. -/
def Agrees (e : Expr) (ty : Ty) : Prop := e.ty = some ty ∨ (e.ty = none ∧ e.value = none)

variable {Γ : String → Option Ty} {t : Table String Symbol} {e : Expr} {ty : Ty}

/-- An expression that has a value has the type it agrees with. -/
theorem Agrees.ty_eq {c : Constant} (h : e.Agrees ty) (hvalue : e.value = some c) :
    e.ty = some ty := by
  rcases h with hty | ⟨-, hnone⟩
  · exact hty
  · rw [hnone] at hvalue
    cases hvalue

/-- Marks play no part in static types. -/
theorem hasType_marked : (e.marked t).HasType Γ ty ↔ e.HasType Γ ty := by
  induction e generalizing ty with
  | number | text => rfl
  | use name =>
    unfold marked
    split
    next => rfl
    next symbol _ =>
      constructor
      · rintro ⟨⟩
        exact .use ‹_›
      · rintro ⟨⟩
        exact .use ‹_›
  | binary op left right mark ihleft ihright =>
    constructor
    · intro h
      cases h with
      | binary hleft hright hop => exact .binary (ihleft.mp hleft) (ihright.mp hright) hop
    · intro h
      cases h with
      | binary hleft hright hop => exact .binary (ihleft.mpr hleft) (ihright.mpr hright) hop

/-- A comparison has the type of truth values. -/
theorem relational_type {op : Operator} {l r : Ty} (hfamily : op.family = .relational)
    (hop : op.resultType? l r = some ty) : ty = .bool := by
  simp only [Operator.resultType?, hfamily] at hop
  split at hop
  next => exact (Option.some.inj hop).symm
  next => cases hop

/-- An operation on operands that agree with their types agrees with its own. -/
theorem operationMark_agrees {op : Operator} {left right : Expr} {mark : Mark} {l r : Ty}
    (hleft : left.Agrees l) (hright : right.Agrees r) (hop : op.resultType? l r = some ty)
    (hmark : mark.ty = some ty ∨ (mark.ty = none ∧ mark.value = none)) :
    (binary op left right (operationMark op left right mark)).Agrees ty := by
  unfold operationMark
  split
  next a b ha hb =>
    refine .inl ?_
    change (do op.resultType? (← left.ty) (← right.ty)) = some ty
    rw [hleft.ty_eq ha, hright.ty_eq hb]
    exact hop
  next => exact hmark

/-- The type that a well typed expression gets is its static type, or none. -/
theorem marked_agrees (hwithin : t.Within Γ) (hfresh : e.Fresh) (hknows : t.Knows e.uses)
    (h : e.HasType Γ ty) : (e.marked t).Agrees ty := by
  induction h with
  | number | text => exact .inl rfl
  | @use name ty hname =>
    obtain ⟨ty', hty'⟩ := Option.isSome_iff_exists.mp (hknows name (by simp [uses]))
    obtain ⟨symbol, hlookup, rfl⟩ := Option.map_eq_some_iff.mp hty'
    obtain rfl : symbol.ty = ty := Option.some.inj ((hwithin _ _ hty').symm.trans hname)
    exact .inl (by simp [marked, hlookup, Expr.ty])
  | @binary op left right mark l r ty hleft hright hop ihleft ihright =>
    obtain ⟨hfleft, hfright, hoperation⟩ := hfresh
    obtain ⟨hkleft, hkright⟩ := Table.knows_append.mp hknows
    refine operationMark_agrees (ihleft hfleft hkleft) (ihright hfright hkright) hop ?_
    -- A fresh operation has no value, and a type only if it compares.
    cases hoperation
    by_cases hfamily : op.family = .relational
    · exact .inl (by simp [hfamily, relational_type hfamily hop])
    · exact .inr (by simp [hfamily])

/-- An operation on operands that agree with their types is at fault exactly if both have a value
and the operator is not defined on the types. -/
theorem operationFaults_eq_nil_iff {op : Operator} {left right : Expr} {l r : Ty}
    (hleft : left.Agrees l) (hright : right.Agrees r) : operationFaults op left right = [] ↔
      (left.value = none ∨ right.value = none) ∨ (op.resultType? l r).isSome = true := by
  unfold operationFaults
  cases ha : left.value with
  | none => simp
  | some a =>
    cases hb : right.value with
    | none => simp
    | some b =>
      rw [hleft.ty_eq ha, hright.ty_eq hb]
      simp [Option.isSome_iff_ne_none]

/-- An expression is walked without fault, and its unchecked operations have types, exactly if its
names are declared and it has a type. -/
theorem faultless_iff (hwithin : t.Within Γ) (hfresh : e.Fresh) :
    e.faults t = [] ∧ (e.marked t).SkippedTyped Γ ↔ t.Knows e.uses ∧ ∃ ty, e.HasType Γ ty := by
  induction e with
  | number n spot => exact ⟨fun _ => ⟨by simp [Table.Knows, uses], _, .number⟩,
      fun _ => ⟨rfl, trivial⟩⟩
  | text s spot => exact ⟨fun _ => ⟨by simp [Table.Knows, uses], _, .text⟩, fun _ => ⟨rfl, trivial⟩⟩
  | use name =>
    cases hlookup : t.lookup name.text with
    | none => simp [faults, hlookup, Table.Knows, uses, Table.typeOf?]
    | some symbol =>
      have htype : t.typeOf? name.text = some symbol.ty := by simp [Table.typeOf?, hlookup]
      simp only [faults, marked, hlookup, SkippedTyped, and_self, true_iff]
      exact ⟨by simp [Table.Knows, uses, htype], symbol.ty, .use (hwithin _ _ htype)⟩
  | binary op left right mark ihleft ihright =>
    obtain ⟨hfleft, hfright, -⟩ := hfresh
    have ihleft := ihleft hfleft
    have ihright := ihright hfright
    constructor
    · rintro ⟨hfaults, hsleft, hsright, hskipped⟩
      simp only [faults, List.append_eq_nil_iff] at hfaults
      obtain ⟨⟨hleft, hright⟩, hoperation⟩ := hfaults
      obtain ⟨hkleft, l, hl⟩ := ihleft.mp ⟨hleft, hsleft⟩
      obtain ⟨hkright, r, hr⟩ := ihright.mp ⟨hright, hsright⟩
      refine ⟨Table.knows_append.mpr ⟨hkleft, hkright⟩, ?_⟩
      rcases (operationFaults_eq_nil_iff (marked_agrees hwithin hfleft hkleft hl)
        (marked_agrees hwithin hfright hkright hr)).mp hoperation with hunknown | hop
      · -- Without both values nothing was checked, and the type is the one that was asked for.
        obtain ⟨ty, hty⟩ := hskipped hunknown
        exact ⟨ty, hasType_marked.mp hty⟩
      · obtain ⟨ty, hty⟩ := Option.isSome_iff_exists.mp hop
        exact ⟨ty, .binary hl hr hty⟩
    · rintro ⟨hknows, ty, hty⟩
      obtain ⟨hkleft, hkright⟩ := Table.knows_append.mp hknows
      cases hty with
      | @binary _ _ _ _ l r ty hl hr hop =>
        obtain ⟨hleft, hsleft⟩ := ihleft.mpr ⟨hkleft, l, hl⟩
        obtain ⟨hright, hsright⟩ := ihright.mpr ⟨hkright, r, hr⟩
        have hoperation := (operationFaults_eq_nil_iff (marked_agrees hwithin hfleft hkleft hl)
          (marked_agrees hwithin hfright hkright hr)).mpr (.inr (by rw [hop]; rfl))
        refine ⟨by simp [faults, hleft, hright, hoperation], hsleft, hsright, fun _ => ⟨ty, ?_⟩⟩
        exact .binary (hasType_marked.mpr hl) (hasType_marked.mpr hr) hop

end Expr

/-! ## Statements change values only -/

/-- Values aside, storing one changes nothing. -/
theorem Table.forget_assign (t : Table String Symbol) (name : String) (value : Option Constant) :
    (t.assign name value).map Symbol.forget = t.map Symbol.forget := by
  have hforget (s : Symbol) : Symbol.forget { s with value } = s.forget := rfl
  rw [assign, map_modifyIndexed hforget, map_modifyLocated hforget]

theorem Name.forget_assigned (t : Table String Symbol) (target : Name) (value : Expr)
    (old : Option Ty) :
    (target.assigned t value old).table.map Symbol.forget = t.map Symbol.forget := by
  unfold Name.assigned
  split
  next => rfl
  next =>
    dsimp only
    split
    next => rfl
    next =>
      split
      next => exact Table.forget_assign ..
      next => rfl

/-- Values aside, what is done in a scope of its own and changes nothing there changes nothing. -/
theorem Table.forget_exit {t t' : Table String Symbol}
    (h : t'.map Symbol.forget = t.enter.map Symbol.forget) :
    t'.exit.map Symbol.forget = t.map Symbol.forget := by
  rw [map_exit, h, map_enter, exit_enter]

mutual

/-- Values aside, a statement leaves the table as it was. -/
theorem Stmt.forget_walk (t : Table String Symbol) :
    ∀ s : Stmt, (s.walk t).table.map Symbol.forget = t.map Symbol.forget
  | .assign target value ty => Name.forget_assigned ..
  | .conditional condition body other => by
    unfold Stmt.walk
    dsimp only
    split
    next => rfl
    next => exact (forget_walkOther _ other).trans (Table.forget_exit (forget_walkAll t.enter body))
  | .whileLoop condition body => by
    unfold Stmt.walk
    dsimp only
    split
    next => rfl
    next => exact Table.forget_exit (forget_walkAll t.enter body)
  | .repeatLoop count spot body => Table.forget_exit (forget_walkAll t.enter body)
  | .print value => rfl
  | .input target => by
    unfold Stmt.walk
    split <;> rfl
  | .block body => forget_walkAll t body

theorem Stmt.forget_walkOther (t : Table String Symbol) :
    ∀ other : Option (List Stmt), (walkOther t other).table.map Symbol.forget = t.map Symbol.forget
  | none => rfl
  | some body => Table.forget_exit (forget_walkAll t.enter body)

/-- So does a body. -/
theorem Stmt.forget_walkAll (t : Table String Symbol) :
    ∀ body : List Stmt, (walkAll t body).table.map Symbol.forget = t.map Symbol.forget
  | [] => rfl
  | s :: rest => (forget_walkAll _ rest).trans (forget_walk t s)

end

/-! ## Statements without fault -/

section Statements

variable {Γ : String → Option Ty} {t : Table String Symbol}

/-- An assignment of a typed value is at fault exactly if its variable is not declared, or the value
has got a type that does not fit. -/
theorem Name.assigned_faultless_iff (hwithin : t.Within Γ) (target : Name) {value : Expr}
    {source : Ty} (hvalue : value.HasType Γ source) (hagrees : value.Agrees source)
    (old : Option Ty) :
    (target.assigned t value old).faults = [] ∧ (value.ty = none → target.Admits Γ value) ↔
      (t.typeOf? target.text).isSome = true ∧ target.Admits Γ value := by
  unfold Name.assigned
  cases hlookup : t.lookup target.text with
  | none => simp [Table.typeOf?, hlookup]
  | some symbol =>
    have htype : t.typeOf? target.text = some symbol.ty := by simp [Table.typeOf?, hlookup]
    have htarget := hwithin _ _ htype
    rcases hagrees with hty | ⟨hty, -⟩
    · rw [hty, htype, Name.admits_iff htarget hvalue]
      dsimp only
      split
      next haccepts => simp [haccepts]
      next haccepts => simp [haccepts]
    · simp [hty, htype]

theorem Name.assigned_text (target : Name) (value : Expr) (old : Option Ty) :
    (target.assigned t value old).part.1.text = target.text := by
  unfold Name.assigned
  split
  next => rfl
  next =>
    dsimp only
    split
    next => rfl
    next => split <;> rfl

/-- Marks do not count for what a target admits. -/
theorem Name.admits_marked {target target' : Name} {value : Expr}
    (htext : target'.text = target.text) :
    target'.Admits Γ (value.marked t) ↔ target.Admits Γ value := by
  simp only [Name.Admits, Expr.hasType_marked, htext]

theorem Table.knows_cons {n : Name} {names : List Name} :
    t.Knows (n :: names) ↔ (t.typeOf? n.text).isSome = true ∧ t.Knows names := by
  simp [Table.Knows]

/-- An assignment is walked without fault, and what the walk skips is typed, exactly if its names
are declared and its target admits the value. -/
theorem Stmt.assign_faultless_iff (hwithin : t.Within Γ) {target : Name} {value : Expr}
    {old : Option Ty} (hfresh : value.Fresh) :
    ((Stmt.assign target value old).walk t).faults = [] ∧
        ((Stmt.assign target value old).walk t).part.SkippedTyped Γ ↔
      t.Knows (target :: value.uses) ∧ target.Admits Γ value := by
  have hvalue := Expr.faultless_iff hwithin hfresh
  have hassigned {source : Ty} (hknows : t.Knows value.uses) (hsource : value.HasType Γ source) :=
    Name.assigned_faultless_iff hwithin target (Expr.hasType_marked.mpr hsource)
      (Expr.marked_agrees hwithin hfresh hknows hsource) old
  simp only [Stmt.walk, List.append_eq_nil_iff, Stmt.SkippedTyped,
    Name.admits_marked (Name.assigned_text ..)]
  simp only [Name.admits_marked rfl] at hassigned
  constructor
  · rintro ⟨⟨hvf, haf⟩, hskipped, hadmits⟩
    obtain ⟨hknows, source, hsource⟩ := hvalue.mp ⟨hvf, hskipped⟩
    obtain ⟨htarget, hadmits⟩ := (hassigned hknows hsource).mp ⟨haf, hadmits⟩
    exact ⟨Table.knows_cons.mpr ⟨htarget, hknows⟩, hadmits⟩
  · rintro ⟨hknows, hadmits⟩
    obtain ⟨htarget, hknows⟩ := Table.knows_cons.mp hknows
    obtain ⟨ty, source, -, hsource, -⟩ := id hadmits
    obtain ⟨hvf, hskipped⟩ := hvalue.mpr ⟨hknows, source, hsource⟩
    obtain ⟨haf, hadmits⟩ := (hassigned hknows hsource).mpr ⟨htarget, hadmits⟩
    exact ⟨⟨hvf, haf⟩, hskipped, hadmits⟩

/-- A condition is not mistyped exactly if its type is unknown or that of truth values. -/
theorem Expr.mistyped?_eq_none_iff {condition : Expr} {ty : Ty} (hagrees : condition.Agrees ty) :
    condition.mistyped? = none ↔ condition.ty = none ∨ ty = .bool := by
  unfold mistyped?
  rcases hagrees with hty | ⟨hty, -⟩
  · rw [hty]
    cases ty <;> simp
  · simp [hty]

/-- A condition passes without fault, and what is not checked of it holds, exactly if its names are
declared and it is a truth value. -/
theorem Expr.condition_faultless_iff (hwithin : t.Within Γ) {condition : Expr}
    (hfresh : condition.Fresh) :
    (condition.faults t = [] ∧ (condition.marked t).mistyped? = none) ∧
        (condition.marked t).SkippedTyped Γ ∧
        ((condition.marked t).ty = none → (condition.marked t).HasType Γ .bool) ↔
      t.Knows condition.uses ∧ condition.HasType Γ .bool := by
  have hcondition := Expr.faultless_iff hwithin hfresh
  constructor
  · rintro ⟨⟨hfaults, hmistyped⟩, hskipped, hbool⟩
    obtain ⟨hknows, ty, hty⟩ := hcondition.mp ⟨hfaults, hskipped⟩
    refine ⟨hknows, ?_⟩
    rcases (mistyped?_eq_none_iff (marked_agrees hwithin hfresh hknows hty)).mp hmistyped
      with hnone | rfl
    · exact hasType_marked.mp (hbool hnone)
    · exact hty
  · rintro ⟨hknows, hbool⟩
    obtain ⟨hfaults, hskipped⟩ := hcondition.mpr ⟨hknows, .bool, hbool⟩
    have hmistyped := (mistyped?_eq_none_iff (marked_agrees hwithin hfresh hknows hbool)).mpr
      (.inr rfl)
    exact ⟨⟨hfaults, hmistyped⟩, hskipped, fun _ => hasType_marked.mpr hbool⟩

/-- Whether a table is within a context does not depend on values. -/
theorem Table.within_congr {t' : Table String Symbol}
    (h : t'.map Symbol.forget = t.map Symbol.forget) :
    t'.Within Γ ↔ t.Within Γ := by
  simp only [Table.Within, Table.typeOf?_congr h]

/-- Nor does which names it knows. -/
theorem Table.knows_congr {t' : Table String Symbol}
    (h : t'.map Symbol.forget = t.map Symbol.forget) (names : List Name) :
    t'.Knows names ↔ t.Knows names := by
  simp only [Table.Knows, Table.typeOf?_congr h]

mutual

/-- A statement is walked without fault, and what is not checked in it is well typed, exactly if its
names are declared and it is well typed. -/
theorem Stmt.faultless_iff {Γ : String → Option Ty} {t : Table String Symbol}
    (hwithin : t.Within Γ) :
    ∀ s : Stmt, s.Every Expr.Fresh →
      ((s.walk t).faults = [] ∧ (s.walk t).part.SkippedTyped Γ ↔ t.Knows s.uses ∧ s.WellTyped Γ)
  | .assign target value ty, hfresh => assign_faultless_iff hwithin hfresh
  | .conditional condition body other, hfresh => by
    have hcondition := Expr.condition_faultless_iff hwithin hfresh.1
    -- The second block is walked with the table that the first one leaves, which has the same
    -- types.
    have hsame := Table.forget_exit (forget_walkAll t.enter body)
    have hbody : _ ↔ t.Knows (usesAll body) ∧ _ :=
      allFaultless_iff (t := t.enter) hwithin body hfresh.2.1
    have hother := otherFaultless_iff ((Table.within_congr hsame).mpr hwithin) other hfresh.2.2
    rw [Table.knows_congr hsame] at hother
    have hblocks := and_congr hbody hother
    rw [and_and_and_comm (c := t.Knows (usesOther other))] at hblocks
    simp only [uses, WellTyped, Table.knows_append]
    rw [and_and_and_comm, ← hcondition, ← hblocks]
    cases hmistyped : (condition.marked t).mistyped? with
    | some found => simp [walk, hmistyped]
    | none =>
      simp only [walk, hmistyped, SkippedTyped, List.append_eq_nil_iff]
      constructor
      · rintro ⟨⟨hfaults, hinner, hrest⟩, hskipped, hbool, hall, hrestSkipped⟩
        exact ⟨⟨⟨hfaults, trivial⟩, hskipped, hbool⟩, ⟨hinner, hall⟩, hrest, hrestSkipped⟩
      · rintro ⟨⟨⟨hfaults, -⟩, hskipped, hbool⟩, ⟨hinner, hall⟩, hrest, hrestSkipped⟩
        exact ⟨⟨hfaults, hinner, hrest⟩, hskipped, hbool, hall, hrestSkipped⟩
  | .whileLoop condition body, hfresh => by
    have hcondition := Expr.condition_faultless_iff hwithin hfresh.1
    have hbody : _ ↔ t.Knows (usesAll body) ∧ _ :=
      allFaultless_iff (t := t.enter) hwithin body hfresh.2
    simp only [uses, WellTyped, Table.knows_append]
    rw [and_and_and_comm, ← hcondition, ← hbody]
    cases hmistyped : (condition.marked t).mistyped? with
    | some found => simp [walk, hmistyped]
    | none =>
      simp only [walk, hmistyped, SkippedTyped, List.append_eq_nil_iff]
      constructor
      · rintro ⟨⟨hfaults, hinner⟩, hskipped, hbool, hall⟩
        exact ⟨⟨⟨hfaults, trivial⟩, hskipped, hbool⟩, hinner, hall⟩
      · rintro ⟨⟨⟨hfaults, -⟩, hskipped, hbool⟩, hinner, hall⟩
        exact ⟨⟨hfaults, hinner⟩, hskipped, hbool, hall⟩
  | .repeatLoop count spot body, hfresh => by
    have hbody : _ ↔ t.Knows (usesAll body) ∧ _ :=
      allFaultless_iff (t := t.enter) hwithin body hfresh.2
    have hcount : (Expr.number (.whole count) spot).HasType Γ .ent := .number
    simpa [walk, SkippedTyped, uses, WellTyped, hcount] using hbody
  | .print value, hfresh => Expr.faultless_iff hwithin hfresh
  | .input target, _ => by
    cases hlookup : t.lookup target.text <;>
      simp [walk, hlookup, SkippedTyped, uses, WellTyped, Table.Knows, Table.typeOf?]
  | .block body, hfresh => allFaultless_iff hwithin body hfresh

theorem Stmt.otherFaultless_iff {Γ : String → Option Ty} {t : Table String Symbol}
    (hwithin : t.Within Γ) :
    ∀ other : Option (List Stmt), EveryOther Expr.Fresh other →
      ((walkOther t other).faults = [] ∧ OtherSkippedTyped Γ (walkOther t other).part ↔
        t.Knows (usesOther other) ∧ OtherWellTyped Γ other)
  | none, _ => by simp [walkOther, OtherSkippedTyped, OtherWellTyped, usesOther, Table.Knows]
  | some body, hfresh => allFaultless_iff (t := t.enter) hwithin body hfresh

/-- A body is walked without fault, and what the walk skips is typed, exactly if its names are
declared and it is well typed. -/
theorem Stmt.allFaultless_iff {Γ : String → Option Ty} {t : Table String Symbol}
    (hwithin : t.Within Γ) :
    ∀ body : List Stmt, EveryAll Expr.Fresh body →
      ((walkAll t body).faults = [] ∧ AllSkippedTyped Γ (walkAll t body).part ↔
        t.Knows (usesAll body) ∧ AllWellTyped Γ body)
  | [], _ => by simp [walkAll, AllSkippedTyped, AllWellTyped, usesAll, Table.Knows]
  | s :: rest, hfresh => by
    have hfirst := faultless_iff hwithin s hfresh.1
    have hsame := forget_walk t s
    have hrest := allFaultless_iff ((Table.within_congr hsame).mpr hwithin) rest hfresh.2
    rw [Table.knows_congr hsame] at hrest
    simp only [walkAll, List.append_eq_nil_iff, AllSkippedTyped, usesAll, AllWellTyped,
      Table.knows_append]
    rw [and_and_and_comm, hfirst, hrest, and_and_and_comm]

end

/-! ## Names in parts without fault -/

/-- Where there is no fault in an expression, its names are declared. -/
theorem Expr.knows_of_faults {e : Expr} (h : e.faults t = []) : t.Knows e.uses := by
  induction e with
  | number | text => simp [Table.Knows, uses]
  | use name =>
    cases hlookup : t.lookup name.text with
    | none => simp [faults, hlookup] at h
    | some symbol => simp [Table.Knows, uses, Table.typeOf?, hlookup]
  | binary op left right mark ihleft ihright =>
    simp only [faults, List.append_eq_nil_iff] at h
    exact Table.knows_append.mpr ⟨ihleft h.1.1, ihright h.1.2⟩

/-- Where there is no fault in an assignment, its target is declared. -/
theorem Name.knows_of_assigned {target : Name} {value : Expr} {old : Option Ty}
    (h : (target.assigned t value old).faults = []) : (t.typeOf? target.text).isSome = true := by
  cases hlookup : t.lookup target.text with
  | none => simp [Name.assigned, hlookup] at h
  | some symbol => simp [Table.typeOf?, hlookup]

mutual

/-- The names of a statement without fault are declared. -/
theorem Stmt.knows_of_walk {t : Table String Symbol} :
    ∀ s : Stmt, (s.walk t).faults = [] → t.Knows s.uses
  | .assign target value ty, h => by
    obtain ⟨hvalue, htarget⟩ := List.append_eq_nil_iff.mp h
    exact Table.knows_cons.mpr ⟨Name.knows_of_assigned htarget, Expr.knows_of_faults hvalue⟩
  | .conditional condition body other, h => by
    unfold Stmt.walk at h
    dsimp only at h
    split at h
    next => simp at h
    next =>
      simp only [List.append_eq_nil_iff] at h
      have hsame := Table.forget_exit (forget_walkAll t.enter body)
      have hbody : t.Knows (usesAll body) := knows_of_walkAll (t := t.enter) body h.2.1
      have hother := (Table.knows_congr hsame _).mp (knows_of_walkOther other h.2.2)
      exact Table.knows_append.mpr
        ⟨Expr.knows_of_faults h.1, Table.knows_append.mpr ⟨hbody, hother⟩⟩
  | .whileLoop condition body, h => by
    unfold Stmt.walk at h
    dsimp only at h
    split at h
    next => simp at h
    next =>
      obtain ⟨hcondition, hinner⟩ := List.append_eq_nil_iff.mp h
      have hbody : t.Knows (usesAll body) := knows_of_walkAll (t := t.enter) body hinner
      exact Table.knows_append.mpr ⟨Expr.knows_of_faults hcondition, hbody⟩
  | .repeatLoop count spot body, h => knows_of_walkAll (t := t.enter) body h
  | .print value, h => Expr.knows_of_faults h
  | .input target, h => by
    cases hlookup : t.lookup target.text with
    | none => simp [walk, hlookup] at h
    | some symbol => simp [uses, Table.Knows, Table.typeOf?, hlookup]
  | .block body, h => knows_of_walkAll body h

theorem Stmt.knows_of_walkOther {t : Table String Symbol} :
    ∀ other : Option (List Stmt), (walkOther t other).faults = [] → t.Knows (usesOther other)
  | none, _ => by simp [usesOther, Table.Knows]
  | some body, h => knows_of_walkAll (t := t.enter) body h

/-- Where there is no fault in a body, its names are declared. -/
theorem Stmt.knows_of_walkAll {t : Table String Symbol} :
    ∀ body : List Stmt, (walkAll t body).faults = [] → t.Knows (usesAll body)
  | [], _ => by simp [usesAll, Table.Knows]
  | s :: rest, h => by
    obtain ⟨hfirst, hothers⟩ := List.append_eq_nil_iff.mp h
    have hrest := (Table.knows_congr (forget_walk t s) _).mp (knows_of_walkAll rest hothers)
    exact Table.knows_append.mpr ⟨knows_of_walk s hfirst, hrest⟩

end

end Statements

end Analizador
