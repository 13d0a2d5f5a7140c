import Analizador.Proofs.Analysis.Entries

/-! # Straight-line programs

A program without blocks that assigns only sums, differences and products of integers can be run on
exact integers, with a variable unknown until it is given a value. The table of its analysis holds
every value that this run knows. It may hold more: an operation on something unknown and an input
leave the variable with the value that it had. -/

namespace Analizador

/-- The values that variables are known to have. -/
abbrev Store := String → Option Int

/-! ## Programs and their exact runs -/

/-- The operation on integers that an operator stands for, if it gives an integer in all cases. -/
def Operator.whole? : Operator → Option (Int → Int → Int)
  | .add => some (· + ·)
  | .sub => some (· - ·)
  | .mul => some (· * ·)
  | .div | .eq | .ne | .gt | .lt | .ge | .le | .both | .either => none

/-- The exact result of an operation, unless it has too many digits. -/
def Operator.exact (op : Operator) (m n : Int) : Option Int := do
  let result := (← op.whole?) m n
  if result.natAbs < Nat.pow 10 Numeral.digitLimit then some result else none

namespace Expr

/-- An expression of integer literals, integer variables, sums, differences and products. -/
def Polynomial (Γ : String → Option Ty) : Expr → Prop
  | .number (.whole _) _ => True
  | .use name => Γ name.text = some .ent
  | .binary op left right _ => op.whole?.isSome ∧ left.Polynomial Γ ∧ right.Polynomial Γ
  | .number (.real _) _ | .text .. => False

instance decidablePolynomial (Γ : String → Option Ty) : ∀ e : Expr, Decidable (e.Polynomial Γ)
  | .number (.whole _) _ => .isTrue trivial
  | .use name => inferInstanceAs (Decidable (Γ name.text = some .ent))
  | .binary op left right _ =>
    have := decidablePolynomial Γ left
    have := decidablePolynomial Γ right
    inferInstanceAs (Decidable (op.whole?.isSome = true ∧ left.Polynomial Γ ∧ right.Polynomial Γ))
  | .number (.real _) _ | .text .. => .isFalse id

/-- The exact value of an expression; it is unknown if that of an operand is. -/
def exact (σ : Store) : Expr → Option Int
  | .number (.whole n) _ => some n
  | .use name => σ name.text
  | .binary op left right _ => do op.exact (← left.exact σ) (← right.exact σ)
  | .number (.real _) _ | .text .. => none

/-- Whether an expression is an operation with an unknown operand. -/
def lacks (σ : Store) : Expr → Bool
  | .binary _ left right _ => (left.exact σ).isNone || (right.exact σ).isNone
  | .number .. | .text .. | .use _ => false

end Expr

namespace Item

/-- A declaration, an assignment of a polynomial, an output or an input. -/
def Straight (Γ : String → Option Ty) : Item → Prop
  | .declaration .. | .statement (.print _) | .statement (.input _) => True
  | .statement (.assign _ value _) => value.Polynomial Γ
  | .statement _ => False

instance decidableStraight (Γ : String → Option Ty) : ∀ i : Item, Decidable (i.Straight Γ)
  | .declaration .. | .statement (.print _) | .statement (.input _) => .isTrue trivial
  | .statement (.assign _ value _) => inferInstanceAs (Decidable (value.Polynomial Γ))
  | .statement (.conditional ..) | .statement (.whileLoop ..) | .statement (.repeatLoop ..)
  | .statement (.block _) => .isFalse id

/-- The exact run of an item. An assignment binds the value of its expression, known or not; after
an input the value is unknown. -/
def runExact (σ : Store) : Item → Store
  | .statement (.assign target value _) => Function.update σ target.text (value.exact σ)
  | .statement (.input target) => Function.update σ target.text none
  | _ => σ

/-- The run of an item that leaves a variable as it is at an input, and when an operation that lacks
an operand is assigned to it. -/
def runKept (σ : Store) : Item → Store
  | .statement (.assign target value _) =>
    if value.lacks σ then σ else Function.update σ target.text (value.exact σ)
  | _ => σ

/-- Whether a variable that has a value is left with it though the exact run forgets it. -/
def leavesStale (σ : Store) : Item → Bool
  | .statement (.assign target value _) => value.lacks σ && (σ target.text).isSome
  | .statement (.input target) => (σ target.text).isSome
  | _ => false

/-- Whether no variable is left with a value that the exact run forgets. -/
def areCurrent (σ : Store) : List Item → Bool
  | [] => true
  | i :: rest => !i.leavesStale σ && areCurrent (i.runExact σ) rest

end Item

namespace Program

/-- A program of declarations, assignments of polynomials, outputs and inputs. -/
def Straight (p : Program) : Prop := ∀ i ∈ p.items, i.Straight p.context

instance (p : Program) : Decidable p.Straight :=
  inferInstanceAs (Decidable (∀ i ∈ p.items, i.Straight p.context))

/-- What the exact run of a program knows in the end. -/
def exactStore (p : Program) : Store := p.items.foldl Item.runExact fun _ => none

/-- The values in the end if an input, or an operation that lacks an operand, leaves them as they
are. -/
def keptStore (p : Program) : Store := p.items.foldl Item.runKept fun _ => none

/-- No variable is left with a value that the exact run forgets. -/
def Current (p : Program) : Prop := Item.areCurrent (fun _ => none) p.items = true

instance (p : Program) : Decidable p.Current :=
  inferInstanceAs (Decidable (Item.areCurrent (fun _ => none) p.items = true))

end Program

/-! ## The two runs compared -/

section Runs

variable {σ τ : Store}

theorem Expr.exact_of_lacks {e : Expr} (h : e.lacks σ = true) : e.exact σ = none := by
  cases e with
  | number | text | use => cases h
  | binary op left right mark =>
    simp only [lacks, Bool.or_eq_true, Option.isNone_iff_eq_none] at h
    rcases h with hleft | hright
    · simp [exact, hleft]
    · cases hleft : left.exact σ <;> simp [exact, hleft, hright]

theorem Item.runKept_eq_iff {i : Item} : i.runKept σ = i.runExact σ ↔ i.leavesStale σ = false := by
  cases i with
  | declaration => simp [runKept, runExact, leavesStale]
  | statement s =>
    cases s with
    | assign target value ty =>
      cases hlacks : value.lacks σ with
      | false => simp [runKept, runExact, leavesStale, hlacks]
      | true => simp [runKept, runExact, leavesStale, hlacks, Expr.exact_of_lacks hlacks]
    | input target => simp [runKept, runExact, leavesStale]
    | conditional | whileLoop | repeatLoop | print | block => simp [runKept, runExact, leavesStale]

/-- The two runs agree after every item exactly if no variable is left with a value that is
forgotten. -/
theorem Item.areCurrent_iff {is : List Item} :
    areCurrent σ is = true ↔ ∀ k, (is.take k).foldl runKept σ = (is.take k).foldl runExact σ := by
  induction is generalizing σ with
  | nil => simp [areCurrent]
  | cons i rest ih =>
    simp only [areCurrent, Bool.and_eq_true, Bool.not_eq_true', ← runKept_eq_iff, ih]
    constructor
    · rintro ⟨hi, hrest⟩ k
      cases k with
      | zero => rfl
      | succ k => simpa [hi] using hrest k
    · intro h
      have hi : i.runKept σ = i.runExact σ := by simpa using h 1
      exact ⟨hi, fun k => by simpa [hi] using h (k + 1)⟩

/-- Every value of one store is that of another one. -/
def Store.Within (σ τ : Store) : Prop := ∀ name n, σ name = some n → τ name = some n

theorem Expr.exact_within (h : σ.Within τ) {e : Expr} {n : Int} (he : e.exact σ = some n) :
    e.exact τ = some n := by
  induction e generalizing n with
  | number m spot => cases m <;> exact he
  | text => cases he
  | use name => exact h _ _ he
  | binary op left right mark ihleft ihright =>
    obtain ⟨l, hl, he⟩ := Option.bind_eq_some_iff.mp he
    obtain ⟨r, hr, he⟩ := Option.bind_eq_some_iff.mp he
    simp [exact, ihleft hl, ihright hr, he]

/-- The kept run knows all that the exact run knows. -/
theorem Item.runExact_within (h : σ.Within τ) (i : Item) : (i.runExact σ).Within (i.runKept τ) := by
  cases i with
  | declaration => exact h
  | statement s =>
    cases s with
    | assign target value ty =>
      intro name n hn
      by_cases hname : name = target.text
      · subst hname
        have hvalue : value.exact τ = some n := Expr.exact_within h (by simpa [runExact] using hn)
        have hlacks : value.lacks τ = false := by
          by_contra hlacks
          rw [Expr.exact_of_lacks (by simpa using hlacks)] at hvalue
          cases hvalue
        simp [runKept, hlacks, hvalue]
      · have hold : τ name = some n := h name n (by simpa [runExact, hname] using hn)
        simp only [runKept]
        split
        · exact hold
        · simpa [hname] using hold
    | input target =>
      intro name n hn
      by_cases hname : name = target.text
      · simp [runExact, hname] at hn
      · exact h name n (by simpa [runExact, hname] using hn)
    | conditional | whileLoop | repeatLoop | print | block => exact h

theorem Item.foldl_within (h : σ.Within τ) (is : List Item) :
    Store.Within (is.foldl runExact σ) (is.foldl runKept τ) := by
  induction is generalizing σ τ with
  | nil => exact h
  | cons i rest ih => exact ih (runExact_within h i)

end Runs

/-! ## Arithmetic on integers -/

section Arithmetic

variable {op : Operator} {f : Int → Int → Int} {m n : Int}

theorem Operator.resultType?_whole (hop : op.whole? = some f) :
    op.resultType? .ent .ent = some .ent := by
  cases op with
  | add | sub | mul => rfl
  | div | eq | ne | gt | lt | ge | le | both | either => cases hop

theorem Constant.apply_whole (hop : op.whole? = some f) :
    apply op (integer m) (integer n) = .ok (integer (f m n)) := by
  cases op with
  | add | sub | mul =>
    obtain rfl := Option.some.inj hop
    rfl
  | div | eq | ne | gt | lt | ge | le | both | either => cases hop

theorem Constant.equal_integer (k : Int) : (integer k).equal (integer k) = true := by
  simp [equal, number?, Number.compare?]

namespace Folding

theorem attempt_whole (hop : op.whole? = some f) (whole : Bool) :
    attempt op whole (.integer m) (.integer n) = do
      let line ← resultLine op (.integer m) (.integer n) (.integer (f m n))
      return ⟨some (some (.integer (f m n))), [line]⟩ := by
  cases op with
  | add | mul => simp only [attempt_eq, Constant.apply_whole hop, bind, Except.bind]
  | sub =>
    simp only [attempt_eq, Constant.apply_whole hop, Constant.equal_integer, if_true, bind,
      Except.bind]
  | div | eq | ne | gt | lt | ge | le | both | either => cases hop

/-- The value of a sum, a difference or a product of integers that can be shown is the exact one. -/
theorem value_ofOperation (hop : op.whole? = some f) (hm : (Constant.integer m).Shows)
    (hn : (Constant.integer n).Shows) (whole : Bool) :
    (ofOperation op whole (.integer m) (.integer n)).value =
      some ((op.exact m n).map .integer) := by
  obtain ⟨left, hleft⟩ := hm
  obtain ⟨right, hright⟩ := hn
  have hexact : op.exact m n =
      if (f m n).natAbs < Nat.pow 10 Numeral.digitLimit then some (f m n) else none := by
    simp [Operator.exact, hop]
  rw [ofOperation, attempt_whole hop, resultLine, hleft, hright, hexact]
  by_cases hshort : (f m n).natAbs < Nat.pow 10 Numeral.digitLimit
  · obtain ⟨text, htext⟩ := Constant.shows_integer hshort
    rw [htext, if_pos hshort]
    rfl
  · rw [Constant.render, Constant.integerText, if_pos (Nat.not_lt.mp hshort), if_neg hshort]
    rfl

end Folding

end Arithmetic

/-! ## The analysis follows the kept run -/

/-- The values that a table has are those of a store. -/
def Table.Holds (t : Table String Symbol) (σ : Store) : Prop :=
  t.valueOf? = fun name => (σ name).map .integer

section Follows

variable {Γ : String → Option Ty} {t : Table String Symbol} {σ : Store} {declared : List String}
  {before : List Mention}

/-- A sum, a difference or a product of known integers gets the exact value and the integer type. -/
theorem Expr.operationMark_whole {op : Operator} {f : Int → Int → Int} (hop : op.whole? = some f)
    {left right : Expr} {m n : Int} (hleft : left.value = some (.integer m))
    (hlty : left.ty = some .ent) (hlshows : ShowsValue left.value)
    (hright : right.value = some (.integer n)) (hrty : right.ty = some .ent)
    (hrshows : ShowsValue right.value) (mark : Mark) :
    operationMark op left right mark = ⟨some .ent, (op.exact m n).map .integer⟩ := by
  have hfold := Folding.value_ofOperation hop (hlshows _ hleft) (hrshows _ hright)
  simp only [operationMark, hleft, hright, hlty, hrty, hfold, Option.getD_some]
  simp [Operator.resultType?_whole hop]

/-- Without both values an operation keeps the mark it had. -/
theorem Expr.operationMark_unknown {left right : Expr} (h : left.value = none ∨ right.value = none)
    (op : Operator) (mark : Mark) : operationMark op left right mark = mark := by
  unfold operationMark
  split
  next ha hb => simp [ha, hb] at h
  next => rfl

theorem Expr.ty_of_exact {e : Expr} {n : Int} {ty : Option Ty} (he : e.exact σ = some n)
    (hty : ty = if e.lacks σ then none else some .ent) : ty = some .ent := by
  cases hlacks : e.lacks σ with
  | false => simpa [hlacks] using hty
  | true => simp [exact_of_lacks hlacks] at he

/-- A polynomial gets its exact value, and its type unless it is an operation that lacks an operand.
-/
theorem Expr.marked_polynomial (hwithin : t.Within Γ) (hholds : t.Holds σ) (ht : t.Shows) {e : Expr}
    (hfresh : e.Fresh) (hshows : e.Shows) (hknows : t.Knows e.uses) (he : e.Polynomial Γ) :
    (e.marked t).value = (e.exact σ).map .integer ∧
      (e.marked t).ty = if e.lacks σ then none else some .ent := by
  induction e with
  | number n spot =>
    cases n with
    | whole n => exact ⟨rfl, rfl⟩
    | real d => cases he
  | text => cases he
  | use name =>
    obtain ⟨ty, hty⟩ := Option.isSome_iff_exists.mp (hknows name (by simp [uses]))
    obtain ⟨symbol, hlookup, rfl⟩ := Option.map_eq_some_iff.mp hty
    have hent : symbol.ty = .ent := Option.some.inj ((hwithin _ _ hty).symm.trans he)
    have hvalue : symbol.value = (σ name.text).map .integer := by
      rw [← congrFun hholds name.text, Table.valueOf?, hlookup]
      rfl
    simp [marked, hlookup, value, Expr.ty, exact, lacks, hent, hvalue]
  | binary op left right mark ihleft ihright =>
    obtain ⟨hfleft, hfright, hoperation⟩ := hfresh
    obtain ⟨hkleft, hkright⟩ := Table.knows_append.mp hknows
    obtain ⟨hop, hpleft, hpright⟩ := he
    obtain ⟨f, hf⟩ := Option.isSome_iff_exists.mp hop
    -- A fresh operation has neither type nor value, and it stays so unless both operands are known.
    have hblank : mark = ⟨none, none⟩ := by
      cases hoperation
      cases op with
      | add | sub | mul => rfl
      | div | eq | ne | gt | lt | ge | le | both | either => cases hf
    obtain ⟨hlvalue, hlty⟩ := ihleft hfleft hshows.1 hkleft hpleft
    obtain ⟨hrvalue, hrty⟩ := ihright hfright hshows.2.1 hkright hpright
    have hlshows := Expr.shows_value (Expr.shows_marked ht hshows.1)
    have hrshows := Expr.shows_value (Expr.shows_marked ht hshows.2.1)
    cases hl : left.exact σ with
    | none =>
      rw [hl] at hlvalue
      simp [marked, operationMark_unknown (.inl hlvalue), value, Expr.ty, exact, lacks, hl, hblank]
    | some m =>
      cases hr : right.exact σ with
      | none =>
        rw [hr] at hrvalue
        simp [marked, operationMark_unknown (.inr hrvalue), value, Expr.ty, exact, lacks,
          hr, hblank]
      | some n =>
        rw [hl] at hlvalue
        rw [hr] at hrvalue
        have hmark := operationMark_whole hf hlvalue (ty_of_exact hl hlty) hlshows hrvalue
          (ty_of_exact hr hrty) hrshows mark
        simp [marked, hmark, value, Expr.ty, exact, lacks, hl, hr]

/-- An assignment of a typed value without fault changes the store, one of a value without type does
not. -/
theorem Name.holds_assigned (h : Tracks t declared before) (hholds : t.Holds σ) {target : Name}
    {value : Expr} {old : Option Ty} {n : Option Int} (hvalue : value.value = n.map .integer)
    (hfaults : (target.assigned t value old).faults = []) :
    (target.assigned t value old).table.Holds
      (if value.ty = none then σ else Function.update σ target.text n) := by
  unfold Name.assigned at hfaults ⊢
  cases hlookup : t.lookup target.text with
  | none => simp [hlookup] at hfaults
  | some symbol =>
    cases hty : value.ty with
    | none => simpa [hlookup, hty] using hholds
    | some source =>
      simp only [hlookup, hty] at hfaults ⊢
      split at hfaults
      next haccepts =>
        rw [if_pos haccepts, if_neg (by simp), Table.Holds, h.valueOf?_assign hlookup,
          hvalue, hholds]
        funext name
        by_cases hname : name = target.text <;> simp [hname]
      next => cases hfaults

/-- One item: its walk does to the table what the kept run does to the store. -/
theorem Item.holds_walk (h : Tracks t declared before) (hwithin : t.Within Γ) (ht : t.Shows)
    (hholds : t.Holds σ) {i : Item} (hfresh : i.Every Expr.Fresh) (hshows : i.Every Expr.Shows)
    (hstraight : i.Straight Γ) (hfaults : (i.walk t declared).faults = []) :
    (i.walk t declared).table.Holds (i.runKept σ) := by
  cases i with
  | declaration ty listType names => exact (h.valueOf?_declareAll ty names).trans hholds
  | statement s =>
    cases s with
    | assign target value ty =>
      obtain ⟨hvalueFaults, hassigned⟩ := List.append_eq_nil_iff.mp hfaults
      obtain ⟨hvalue, hty⟩ := Expr.marked_polynomial hwithin hholds ht hfresh hshows
        (Expr.knows_of_faults hvalueFaults) hstraight
      have hnext := Name.holds_assigned h hholds hvalue hassigned
      rw [hty] at hnext
      simpa [Item.walk, Stmt.walk, runKept] using hnext
    | print value => exact hholds
    | input target =>
      simp only [Item.walk, Stmt.walk, runKept]
      split <;> exact hholds
    | conditional | whileLoop | repeatLoop | block => cases hstraight

/-- A whole run: the table of straight items that are walked without fault holds what the kept run
knows. -/
theorem Item.holds_walkAll (h : Tracks t declared before) (ht : t.Shows) (hholds : t.Holds σ)
    {is : List Item}
    (hΓ : ∀ name ty, typeOf? (before ++ is.flatMap Item.mentions) name = some ty → Γ name = some ty)
    (hfresh : ∀ i ∈ is, i.Every Expr.Fresh) (hshows : ∀ i ∈ is, i.Every Expr.Shows)
    (hstraight : ∀ i ∈ is, i.Straight Γ) (hfaults : (walkAll t declared is).faults = []) :
    (∃ after, Tracks (walkAll t declared is).table (walkAll t declared is).declared after) ∧
      (walkAll t declared is).table.Holds (is.foldl runKept σ) := by
  induction is generalizing t declared before σ with
  | nil => exact ⟨⟨before, h⟩, hholds⟩
  | cons i rest ih =>
    obtain ⟨hfirst, hothers⟩ := List.append_eq_nil_iff.mp hfaults
    obtain ⟨hif, hrestFresh⟩ := List.forall_mem_cons.mp hfresh
    obtain ⟨his, hrestShows⟩ := List.forall_mem_cons.mp hshows
    obtain ⟨hii, hrestStraight⟩ := List.forall_mem_cons.mp hstraight
    have hwithin : t.Within Γ :=
      h.within fun name ty hty => hΓ name ty (by rw [typeOf?_append, hty]; rfl)
    have hstep := holds_walk h hwithin ht hholds hif his hii hfirst
    exact ih (h.walk i) (shows_walk ht his declared) hstep (by simpa using hΓ) hrestFresh hrestShows
      hrestStraight hothers

end Follows

/-- What the table of a straight program holds when its analysis finds no fault. -/
theorem Reading.holds_keptStore {code : String} {p : Program} {log : List String}
    (h : Reading.ofText code = .program p log) (hstraight : p.Straight)
    (hfaults : p.walk.faults = []) :
    ∀ symbol ∈ p.walk.table.entries, symbol.value = (p.keptStore symbol.name).map .integer := by
  have hempty : (Table.empty : Table String Symbol).Shows :=
    fun _ hs => absurd hs (by simp [Table.empty])
  have hstart : (Table.empty : Table String Symbol).Holds fun _ => none := rfl
  have hbuilt := fun i hi => (Reading.built_ofText h i hi).every
  obtain ⟨⟨after, htracks⟩, hholds⟩ := Item.holds_walkAll Tracks.start hempty hstart
    (fun _ _ hty => hty) (fun i hi => (hbuilt i hi).mono fun _ => Expr.Built.fresh)
    (fun i hi => (hbuilt i hi).mono fun _ => Expr.Built.shows) hstraight hfaults
  intro symbol hsymbol
  rw [← htracks.valueOf?_of_mem (Item.nodup_walkAll List.nodup_nil p.items) hsymbol]
  exact congrFun hholds symbol.name

namespace Session

/-- After the analysis of a straight program without fault every variable has the value of the kept
run. So the table has every value that the exact run knows, and if nothing is left that the exact
run forgets, no other. -/
theorem analyse_values_exact (s : Session) (code : String) (p : Program)
    (hread : (s.parse [] code).2.program = some p) (hstraight : p.Straight)
    (hresult : (s.parse [] code).2.analyse.1 = .ok true) :
    ∀ symbol ∈ (s.parse [] code).2.analyse.2.2.table.entries,
      symbol.value = (p.keptStore symbol.name).map .integer ∧
      (∀ n, p.exactStore symbol.name = some n → symbol.value = some (.integer n)) ∧
      (p.Current → symbol.value = (p.exactStore symbol.name).map .integer) := by
  obtain ⟨log, hreading⟩ := reading_of_parse hread
  have hfaults : p.walk.faults = [] := by
    rw [(analyse_of_parse hread).1] at hresult
    simpa using hresult
  rw [table_of_parse hread]
  intro symbol hsymbol
  have hkept := Reading.holds_keptStore hreading hstraight hfaults symbol hsymbol
  refine ⟨hkept, fun n hn => ?_, fun hcurrent => ?_⟩
  · have hwithin : Store.Within p.exactStore p.keptStore :=
      Item.foldl_within (fun _ _ h => h) p.items
    rw [hkept, hwithin _ _ hn, Option.map_some]
  · have hruns := Item.areCurrent_iff.mp hcurrent p.items.length
    rw [List.take_length] at hruns
    rw [hkept, Program.keptStore, hruns, Program.exactStore]

/-- An input and an operation that lacks an operand, each for a variable that has no value yet. -/
theorem analyse_values_exact_product :
    let code := "ent x , y ; dec d ; x = 6 * 7 ; scan ( y ) ; d = x - y ; y = x + 1 ;"
    ∃ p, (empty.parse [] code).2.program = some p ∧ p.Straight ∧ p.Current ∧
      p.exactStore "y" = some 43 ∧ (empty.parse [] code).2.analyse.1 = .ok true ∧
      ∀ symbol ∈ (empty.parse [] code).2.analyse.2.2.table.entries, symbol.value =
      (p.keptStore symbol.name).map .integer ∧ (∀ n, p.exactStore symbol.name = some n →
      symbol.value = some (.integer n)) ∧
      (p.Current → symbol.value = (p.exactStore symbol.name).map .integer) := by
  let name (text : String) (column : Nat) : Name := ⟨text, ⟨1, column⟩, .blank⟩
  let number (n : Nat) (column : Nat) : Expr := .number (.whole n) ⟨1, column⟩
  let p : Program := ⟨[.declaration .ent none [name "x" 5, name "y" 9], .declaration .dec none
    [name "d" 17], .statement (.assign (name "x" 21) (.operation .mul (number 6 25) (number 7 29))
    none), .statement (.input (name "y" 40)),
    .statement (.assign (name "d" 46) (.operation .sub (.use (name "x" 50)) (.use (name "y" 54)))
    none),
    .statement (.assign (name "y" 58) (.operation .add (.use (name "x" 62)) (number 1 66)) none)]⟩
  have hread : (empty.parse []
    "ent x , y ; dec d ; x = 6 * 7 ; scan ( y ) ; d = x - y ; y = x + 1 ;").2.program =
    some p := rfl
  have hfaults : p.walk.faults.isEmpty = true := by decide +kernel
  have hstraight : p.Straight := by decide +kernel
  have hresult := (analyse_of_parse hread).1
  rw [hfaults] at hresult
  exact ⟨p, hread, hstraight, by decide +kernel, by decide +kernel, hresult,
    analyse_values_exact empty _ p hread hstraight hresult⟩

/-- A variable keeps the value it has when a sum that lacks an operand is assigned to it, though the
exact run forgets it. -/
theorem analyse_stale_sum :
    let code := "ent x , y ; x = 1 ; x = y + 1 ;"
    (empty.parse [] code).2.analyse.1 = .ok true ∧
      ∃ p, (empty.parse [] code).2.program = some p ∧ p.Straight ∧ p.exactStore "x" = none ∧
        ∃ symbol ∈ (empty.parse [] code).2.analyse.2.2.table.entries,
          symbol.name = "x" ∧ symbol.value = some (.integer 1) := by
  let name (text : String) (column : Nat) : Name := ⟨text, ⟨1, column⟩, .blank⟩
  let number (n : Nat) (column : Nat) : Expr := .number (.whole n) ⟨1, column⟩
  let p : Program := ⟨[.declaration .ent none [name "x" 5, name "y" 9],
    .statement (.assign (name "x" 13) (number 1 17) none),
    .statement (.assign (name "x" 21) (.operation .add (.use (name "y" 25)) (number 1 29)) none)]⟩
  have hread : (empty.parse [] "ent x , y ; x = 1 ; x = y + 1 ;").2.program = some p := rfl
  have hfaults : p.walk.faults.isEmpty = true := by decide +kernel
  let x : Symbol := ⟨"x", .ent, some (.integer 1), ⟨1, 5⟩⟩
  have hentry : p.walk.table.entries[0]? = some x := by decide +kernel
  have hresult := (analyse_of_parse hread).1
  rw [hfaults] at hresult
  refine ⟨hresult, p, hread, by decide +kernel, by decide +kernel, x, ?_, rfl, rfl⟩
  rw [table_of_parse hread]
  exact Array.mem_of_getElem? hentry

end Session

end Analizador
