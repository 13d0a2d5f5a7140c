import Mathlib.Data.String.Basic
import Mathlib.Order.Compare
import Analizador.Proofs.Analysis.Straight

/-! # Exact folding

Every expression over integers and texts has a reference value: integers are calculated with and
compared exactly, texts are joined and compared by code points, and truth values are compared. It is
unknown only if a variable in it is, or if an integer result is too long to be shown. The folding of
constants gives the reference values, and so does the walk over an expression that was not walked
before. -/

namespace Analizador

/-! ## Comparisons -/

/-- Whether two elements of an order stand in the relation that a comparison asks for. -/
def Operator.relates? {α : Type} [LinearOrder α] (op : Operator) (a b : α) : Option Bool :=
  match op with
  | .eq => some (decide (a = b))
  | .ne => some (decide (a ≠ b))
  | .gt => some (decide (b < a))
  | .lt => some (decide (a < b))
  | .ge => some (decide (b ≤ a))
  | .le => some (decide (a ≤ b))
  | .add | .sub | .mul | .div | .both | .either => none

theorem Operator.exists_relates? {α : Type} [LinearOrder α] {op : Operator}
    (hop : op.family = .relational) (a b : α) : ∃ holds, op.relates? a b = some holds := by
  cases op with
  | eq | ne | gt | lt | ge | le => exact ⟨_, rfl⟩
  | add | sub | mul | div | both | either => cases hop

namespace Constant

/-- Texts are compared as lists of characters are ordered, by the first code points that differ. -/
theorem compares_compareChars (cs ds : List Char) : (compareChars cs ds).Compares cs ds := by
  induction cs generalizing ds with
  | nil =>
    cases ds with
    | nil => rfl
    | cons d ds => exact List.nil_lt_cons d ds
  | cons c cs ih =>
    cases ds with
    | nil => exact List.nil_lt_cons c cs
    | cons d ds =>
      unfold compareChars
      split
      next hlt => exact List.Lex.rel hlt
      next hge =>
        split
        next hgt => exact List.Lex.rel hgt
        next hle =>
          obtain rfl : c = d := Char.toNat_inj.mp (by omega)
          have htail := ih ds
          cases hcompare : compareChars cs ds with
          | lt | gt =>
            rw [hcompare] at htail
            exact List.Lex.cons htail
          | eq =>
            rw [hcompare] at htail
            exact congrArg (c :: ·) htail

/-- Two constants are compared as two elements of an order that stand in the order `o`. -/
structure ComparedAs {α : Type} [LinearOrder α] (x y : Constant) (a b : α) (o : Ordering) :
    Prop where
  compares : o.Compares a b
  equal : x.equal y = (o == .eq)
  ordered : ∀ sign holds, ordered sign holds x y = .ok (holds o)

theorem comparedAs_integer (m n : Int) : (integer m).ComparedAs (integer n) m n (compare m n) where
  compares := (compare_iff m n).mp rfl
  equal := by simp [equal, number?, Number.compare?]
  ordered _ _ := rfl

theorem comparedAs_text (s t : String) :
    (text s).ComparedAs (text t) s t (compareChars s.toList t.toList) where
  compares := by
    have hchars := compares_compareChars s.toList t.toList
    cases hcompare : compareChars s.toList t.toList with
    | lt | gt =>
      rw [hcompare] at hchars
      exact String.lt_iff_toList_lt.mpr hchars
    | eq =>
      rw [hcompare] at hchars
      exact String.toList_inj.mp hchars
  equal := by
    have hchars := (compares_compareChars s.toList t.toList).eq_eq
    have hequal : (text s).equal (text t) = (s == t) := rfl
    rw [hequal, Bool.eq_iff_iff, beq_iff_eq, beq_iff_eq, hchars, String.toList_inj]
  ordered _ _ := rfl

theorem comparedAs_truth (a b : Bool) :
    (truth a).ComparedAs (truth b) a b
      (compare (if a then 1 else 0 : Int) (if b then 1 else 0)) where
  compares := by
    have hcompare : compare (if a then 1 else 0 : Int) (if b then 1 else 0) = compare a b := by
      cases a <;> cases b <;> rfl
    rw [hcompare]
    exact (compare_iff a b).mp rfl
  equal := by cases a <;> cases b <;> rfl
  ordered _ _ := rfl

/-- A comparison of constants says what it says of the elements that they are compared as. -/
theorem ComparedAs.apply {α : Type} [LinearOrder α] {x y : Constant} {a b : α} {o : Ordering}
    (h : x.ComparedAs y a b o) {op : Operator} {holds : Bool} (hop : op.relates? a b = some holds) :
    apply op x y = .ok (truth holds) := by
  have hcompares := h.compares
  cases op with
  | add | sub | mul | div | both | either => cases hop
  | eq =>
    obtain rfl := Option.some.inj hop
    rw [Constant.apply, h.equal, ← decide_eq_decide.mpr hcompares.eq_eq]
    rfl
  | ne =>
    obtain rfl := Option.some.inj hop
    rw [Constant.apply, h.equal, ← decide_eq_decide.mpr (not_congr hcompares.eq_eq)]
    cases o <;> rfl
  | gt =>
    obtain rfl := Option.some.inj hop
    rw [Constant.apply, h.ordered, ← decide_eq_decide.mpr hcompares.eq_gt]
    cases o <;> rfl
  | lt =>
    obtain rfl := Option.some.inj hop
    rw [Constant.apply, h.ordered, ← decide_eq_decide.mpr hcompares.eq_lt]
    cases o <;> rfl
  | ge =>
    obtain rfl := Option.some.inj hop
    rw [Constant.apply, h.ordered, ← decide_eq_decide.mpr hcompares.ne_lt]
    cases o <;> rfl
  | le =>
    obtain rfl := Option.some.inj hop
    rw [Constant.apply, h.ordered, ← decide_eq_decide.mpr hcompares.ne_gt]
    cases o <;> rfl

end Constant

/-! ## Reference values -/

/-- The type of a constant. -/
def Constant.ty : Constant → Ty
  | .integer _ => .ent
  | .decimal _ => .dec
  | .text _ => .cadena
  | .truth _ => .bool

namespace Operator

/-- Sums, differences, products and comparisons. -/
def Folds (op : Operator) : Prop := op.whole?.isSome = true ∨ op.family = .relational

instance (op : Operator) : Decidable op.Folds :=
  inferInstanceAs (Decidable (op.whole?.isSome = true ∨ op.family = .relational))

/-- The result that an operation on integers, texts or truth values has by rights. -/
def reference (op : Operator) : Constant → Constant → Option Constant
  | .integer m, .integer n =>
    if op.whole?.isSome then (op.exact m n).map .integer else (op.relates? m n).map .truth
  | .text s, .text t => if op = .add then some (.text (s ++ t)) else (op.relates? s t).map .truth
  | .truth a, .truth b => (op.relates? a b).map .truth
  | _, _ => none

variable {op : Operator} {x y : Constant} {ty : Ty}

theorem whole?_of_relational (hop : op.family = .relational) : op.whole? = none := by
  cases op with
  | eq | ne | gt | lt | ge | le => rfl
  | add | sub | mul | div | both | either => cases hop

/-- Without decimals no operation gives one. -/
theorem resultType?_ne_dec {l r : Ty} (hl : l ≠ .dec) (hr : r ≠ .dec) :
    op.resultType? l r ≠ some .dec := by
  cases l <;> cases r <;> first | exact absurd rfl hl | exact absurd rfl hr | (cases op <;> decide)

/-- Without decimals only operands of one type are compared. -/
theorem resultType?_relational {l r : Ty} (hop : op.family = .relational) (hl : l ≠ .dec)
    (hr : r ≠ .dec) (hty : op.resultType? l r = some ty) : l = r := by
  simp only [resultType?, hop] at hty
  split at hty
  next hsame =>
    rcases hsame with ⟨hlnumeric, hrnumeric⟩ | hsame
    · cases l <;> cases r <;>
        first | rfl | exact absurd rfl hl | exact absurd rfl hr | contradiction
    · exact hsame
  next => cases hty

/-- A comparison of two constants of one type, the decimals apart. -/
theorem reference_relational (hop : op.family = .relational) (hty : x.ty = y.ty)
    (hdec : x.ty ≠ .dec) :
    ∃ holds, op.reference x y = some (.truth holds) ∧
      Constant.apply op x y = .ok (.truth holds) := by
  have hwhole : op.whole?.isSome = false := by rw [whole?_of_relational hop]; rfl
  have hadd : op ≠ .add := by
    rintro rfl
    cases hop
  cases x <;> cases y <;> try cases hty
  case integer.integer m n =>
    obtain ⟨holds, hholds⟩ := exists_relates? hop m n
    exact ⟨holds, by simp [reference, hwhole,
      hholds], (Constant.comparedAs_integer m n).apply hholds⟩
  case text.text s t =>
    obtain ⟨holds, hholds⟩ := exists_relates? hop s t
    exact ⟨holds, by simp [reference, hadd, hholds], (Constant.comparedAs_text s t).apply hholds⟩
  case truth.truth a b =>
    obtain ⟨holds, hholds⟩ := exists_relates? hop a b
    exact ⟨holds, by simp [reference, hholds], (Constant.comparedAs_truth a b).apply hholds⟩
  case decimal.decimal => exact absurd rfl hdec

/-- The operations that have a reference value: arithmetic on integers, the joining of texts, and
comparisons. -/
theorem reference_cases (hop : op.Folds) (hx : x.ty ≠ .dec) (hy : y.ty ≠ .dec)
    (hty : op.resultType? x.ty y.ty = some ty) :
    (∃ f m n, op.whole? = some f ∧ x = .integer m ∧ y = .integer n ∧ ty = .ent) ∨
      (∃ s t, op = .add ∧ x = .text s ∧ y = .text t ∧ ty = .cadena) ∨
      (∃ holds, op.family = .relational ∧ op.reference x y = some (.truth holds) ∧
        Constant.apply op x y = .ok (.truth holds) ∧ ty = .bool) := by
  rcases hop with hwhole | hrelational
  · obtain ⟨f, hf⟩ := Option.isSome_iff_exists.mp hwhole
    cases x <;> cases y <;> first | exact absurd rfl hx | exact absurd rfl hy | skip
    case integer.integer m n =>
      refine .inl ⟨f, m, n, hf, rfl, rfl, ?_⟩
      exact Option.some.inj (hty.symm.trans (resultType?_whole hf))
    -- On anything but integers only the sum of two texts has a type.
    all_goals
      cases op <;> cases hf <;> try cases hty
    next s t => exact .inr (.inl ⟨s, t, rfl, rfl, rfl, rfl⟩)
  · have hsame := resultType?_relational hrelational hx hy hty
    obtain ⟨holds, hreference, happly⟩ := reference_relational hrelational hsame hx
    exact .inr (.inr ⟨holds, hrelational, hreference, happly, Expr.relational_type hrelational hty⟩)

theorem reference_whole {f : Int → Int → Int} (hop : op.whole? = some f) (m n : Int) :
    op.reference (.integer m) (.integer n) = (op.exact m n).map .integer := by
  simp [reference, hop]

/-- A reference value is of the type of the operation, and can be shown. -/
theorem reference_typed (hop : op.Folds) (hx : x.ty ≠ .dec) (hy : y.ty ≠ .dec)
    (hty : op.resultType? x.ty y.ty = some ty) {c : Constant} (hc : op.reference x y = some c) :
    c.ty = ty ∧ c.Shows := by
  rcases reference_cases hop hx hy hty with ⟨f, m, n, hf, rfl, rfl, rfl⟩ | ⟨s, t, rfl, rfl, rfl,
    rfl⟩ | ⟨holds, -, hreference, -, rfl⟩
  · rw [reference_whole hf] at hc
    obtain ⟨k, hk, rfl⟩ := Option.map_eq_some_iff.mp hc
    refine ⟨rfl, ?_⟩
    simp only [exact, hf, Option.bind_eq_bind, Option.bind_some] at hk
    split at hk
    next hshort =>
      obtain rfl := Option.some.inj hk
      exact Constant.shows_integer hshort
    next => cases hk
  · obtain rfl := Option.some.inj hc
    exact ⟨rfl, _, rfl⟩
  · obtain rfl := Option.some.inj (hreference.symm.trans hc)
    exact ⟨rfl, Folding.shows_truth holds⟩

/-- An operation lacks a reference value only if an integer result is too long to be shown. -/
theorem reference_eq_none_iff (hop : op.Folds) (hx : x.ty ≠ .dec) (hy : y.ty ≠ .dec)
    (hty : op.resultType? x.ty y.ty = some ty) :
    op.reference x y = none ↔ ∃ f m n, op.whole? = some f ∧ x = .integer m ∧ y = .integer n ∧
      Nat.pow 10 Numeral.digitLimit ≤ (f m n).natAbs := by
  rcases reference_cases hop hx hy hty with ⟨f, m, n, hf, rfl, rfl, rfl⟩ | ⟨s, t, rfl, rfl, rfl,
    rfl⟩ | ⟨holds, hrelational, hreference, -, rfl⟩
  · simp [reference_whole hf, exact, hf]
  · simp [reference]
  · simp [hreference, whole?_of_relational hrelational]

end Operator

/-- Folding gives the reference value. -/
theorem Folding.value_eq_reference {op : Operator} {x y : Constant} {ty : Ty} (hop : op.Folds)
    (hx : x.ty ≠ .dec) (hy : y.ty ≠ .dec) (hty : op.resultType? x.ty y.ty = some ty)
    (hxshows : x.Shows) (hyshows : y.Shows) (whole : Bool) :
    (ofOperation op whole x y).value = some (op.reference x y) := by
  rcases Operator.reference_cases hop hx hy hty with ⟨f, m, n, hf, rfl, rfl, -⟩ | ⟨s, t, rfl, rfl,
    rfl, -⟩ | ⟨holds, hrelational, hreference, happly, -⟩
  · rw [value_ofOperation hf hxshows hyshows, Operator.reference_whole hf]
  · rfl
  · rw [hreference]
    cases op with
    | eq | ne | gt | lt | ge | le =>
      simp only [ofOperation, attempt_eq, happly, bind, Except.bind]; rfl
    | add | sub | mul | div | both | either => cases hrelational

/-! ## Expressions -/

/-- A declared variable, with the value that it is known to have. -/
inductive Variable where
  | ent (value : Option { n : Int // n.natAbs < Nat.pow 10 Numeral.digitLimit })
  | cadena (value : Option String)

namespace Variable

/-- The type of a variable. -/
def ty : Variable → Ty
  | ent _ => .ent
  | cadena _ => .cadena

/-- The value of a variable. -/
def value : Variable → Option Constant
  | ent value => value.map fun n => .integer n.1
  | cadena value => value.map .text

theorem value_typed {v : Variable} {c : Constant} (hc : v.value = some c) :
    c.ty = v.ty ∧ c.Shows := by
  cases v with
  | ent value =>
    obtain ⟨⟨n, hshort⟩, -, rfl⟩ := Option.map_eq_some_iff.mp hc
    exact ⟨rfl, Constant.shows_integer hshort⟩
  | cadena value =>
    obtain ⟨s, -, rfl⟩ := Option.map_eq_some_iff.mp hc
    exact ⟨rfl, s, rfl⟩

end Variable

/-- The variables that are declared, by name. -/
abbrev Variables := String → Option Variable

namespace Variables

/-- The types of the variables. -/
def ty (V : Variables) (name : String) : Option Ty := (V name).map Variable.ty

/-- The values of the variables. -/
def value (V : Variables) (name : String) : Option Constant := (V name).bind Variable.value

end Variables

namespace Expr

/-- An expression of integers that can be shown, texts, variables, sums, differences, products and
comparisons. -/
def Foldable : Expr → Prop
  | .number (.whole n) _ => n.natAbs < Nat.pow 10 Numeral.digitLimit
  | .number (.real _) _ => False
  | .text .. | .use _ => True
  | .binary op left right _ => op.Folds ∧ left.Foldable ∧ right.Foldable

instance decidableFoldable : ∀ e : Expr, Decidable e.Foldable
  | .number (.whole n) _ => inferInstanceAs (Decidable (n.natAbs < Nat.pow 10 Numeral.digitLimit))
  | .number (.real _) _ => .isFalse id
  | .text .. | .use _ => .isTrue trivial
  | .binary op left right _ =>
    have := decidableFoldable left
    have := decidableFoldable right
    inferInstanceAs (Decidable (op.Folds ∧ left.Foldable ∧ right.Foldable))

/-- No operation has a value yet. -/
def Unvalued : Expr → Prop
  | .number .. | .text .. | .use _ => True
  | .binary _ left right mark => left.Unvalued ∧ right.Unvalued ∧ mark.value = none

instance decidableUnvalued : ∀ e : Expr, Decidable e.Unvalued
  | .number .. | .text .. | .use _ => .isTrue trivial
  | .binary _ left right mark =>
    have := decidableUnvalued left
    have := decidableUnvalued right
    inferInstanceAs (Decidable (left.Unvalued ∧ right.Unvalued ∧ mark.value = none))

/-- The value that an expression has by rights. -/
def reference (V : Variables) : Expr → Option Constant
  | .number n _ => some n.toConstant
  | .text s _ => some (.text s)
  | .use name => V.value name.text
  | .binary op left right _ => do op.reference (← left.reference V) (← right.reference V)

/-- The second expression is the first with the given values on all its parts. -/
inductive Bears (value : Expr → Option Constant) : Expr → Expr → Prop where
  | number {n spot} (hvalue : some n.toConstant = value (.number n spot)) :
      Bears value (.number n spot) (.number n spot)
  | text {s spot} (hvalue : some (.text s) = value (.text s spot)) :
      Bears value (.text s spot) (.text s spot)
  | use {name mark} (hvalue : mark.value = value (.use name)) :
      Bears value (.use name) (.use { name with mark })
  | binary {op left right mark left' right' mark'} (hleft : Bears value left left')
      (hright : Bears value right right')
      (hvalue : mark'.value = value (.binary op left right mark)) :
      Bears value (.binary op left right mark) (.binary op left' right' mark')

theorem Bears.value_eq {value : Expr → Option Constant} {e e' : Expr} (h : e.Bears value e') :
    e'.value = value e := by
  cases h with
  | number hvalue | text hvalue | use hvalue | binary _ _ hvalue => exact hvalue

variable {V : Variables} {e : Expr} {ty : Ty}

theorem Foldable.shows_number {n : Constant.Number} {spot : Spot} (h : (number n spot).Foldable) :
    n.literalType = .ent ∧ n.toConstant.ty = .ent ∧ n.toConstant.Shows := by
  cases n with
  | real d => cases h
  | whole n => exact ⟨rfl, rfl, Constant.shows_integer h⟩

/-- What is known of a well-typed expression is of its type, and can be shown. -/
theorem reference_typed (he : e.Foldable) (htype : e.HasType V.ty ty) :
    ty ≠ .dec ∧ ∀ c ∈ e.reference V, c.ty = ty ∧ c.Shows := by
  induction htype with
  | number =>
    obtain ⟨hliteral, hty, hshows⟩ := he.shows_number
    rw [hliteral]
    refine ⟨by rintro ⟨⟩, ?_⟩
    rintro _ ⟨⟩
    exact ⟨hty, hshows⟩
  | text =>
    refine ⟨by rintro ⟨⟩, ?_⟩
    rintro _ ⟨⟩
    exact ⟨rfl, _, rfl⟩
  | @use name ty hname =>
    obtain ⟨v, hv, rfl⟩ := Option.map_eq_some_iff.mp hname
    refine ⟨by cases v <;> rintro ⟨⟩, fun c hc => Variable.value_typed (v := v) ?_⟩
    simpa [reference, Variables.value, hv] using hc
  | @binary op left right mark l r ty _ _ hop ihleft ihright =>
    obtain ⟨hfolds, hleft, hright⟩ := he
    obtain ⟨hl, hlvalue⟩ := ihleft hleft
    obtain ⟨hr, hrvalue⟩ := ihright hright
    refine ⟨?_, fun c hc => ?_⟩
    · rintro rfl
      exact Operator.resultType?_ne_dec hl hr hop
    · obtain ⟨x, hx, y, hy, hc⟩ : ∃ x, left.reference V = some x ∧ ∃ y, right.reference V = some y ∧
          op.reference x y = some c := by
        simpa [reference, Option.bind_eq_some_iff] using hc
      obtain ⟨rfl, -⟩ := hlvalue x hx
      obtain ⟨rfl, -⟩ := hrvalue y hy
      exact Operator.reference_typed hfolds hl hr hop hc

theorem reference_binary_of_none {op : Operator} {left right : Expr} {mark : Mark}
    (h : left.reference V = none ∨ right.reference V = none) :
    (binary op left right mark).reference V = none := by
  rcases h with h | h <;> simp [reference, h]

/-- Folding the reference values of two operands gives that of the operation. -/
theorem value_ofOperation_reference {op : Operator} {left right : Expr} {mark : Mark}
    {x y : Constant} (he : (binary op left right mark).Foldable)
    (htype : (binary op left right mark).HasType V.ty ty) (hx : left.reference V = some x)
    (hy : right.reference V = some y) (whole : Bool) :
    (Folding.ofOperation op whole x y).value = some ((binary op left right mark).reference V) := by
  obtain ⟨hfolds, hleft, hright⟩ := he
  cases htype with
  | binary hltype hrtype hop =>
    obtain ⟨hl, hlvalue⟩ := reference_typed hleft hltype
    obtain ⟨hr, hrvalue⟩ := reference_typed hright hrtype
    obtain ⟨rfl, hxshows⟩ := hlvalue x hx
    obtain ⟨rfl, hyshows⟩ := hrvalue y hy
    rw [Folding.value_eq_reference hfolds hl hr hop hxshows hyshows]
    simp [reference, hx, hy]

/-- An operation lacks a reference value exactly if an operand does, or if an integer result is too
long to be shown. -/
theorem reference_binary_eq_none_iff {op : Operator} {left right : Expr} {mark : Mark}
    (he : (binary op left right mark).Foldable)
    (htype : (binary op left right mark).HasType V.ty ty) :
    (binary op left right mark).reference V = none ↔
      left.reference V = none ∨ right.reference V = none ∨
        ∃ f m n, op.whole? = some f ∧ left.reference V = some (.integer m) ∧
          right.reference V = some (.integer n) ∧
          Nat.pow 10 Numeral.digitLimit ≤ (f m n).natAbs := by
  obtain ⟨hfolds, hleft, hright⟩ := he
  cases htype with
  | binary hltype hrtype hop =>
    obtain ⟨hl, hlvalue⟩ := reference_typed hleft hltype
    obtain ⟨hr, hrvalue⟩ := reference_typed hright hrtype
    cases hx : left.reference V with
    | none => simp [reference, hx]
    | some x =>
      cases hy : right.reference V with
      | none => simp [reference, hy]
      | some y =>
        obtain ⟨rfl, -⟩ := hlvalue x hx
        obtain ⟨rfl, -⟩ := hrvalue y hy
        simp [reference, hx, hy, Operator.reference_eq_none_iff hfolds hl hr hop]

end Expr

/-! ## The walk over an expression -/

/-- A table declares some variables. -/
def Table.Declares (t : Table String Symbol) (V : Variables) : Prop :=
  ∀ name v, V name = some v → ∃ s, t.lookup name = some s ∧ s.ty = v.ty ∧ s.value = v.value

/-- A walked expression bears the reference values, has its type where its value is known, and can
be shown. -/
structure Expr.Settles (V : Variables) (e : Expr) (ty : Ty) (walked : Expr) : Prop where
  bears : e.Bears (reference V) walked
  typed : ∀ c, walked.value = some c → walked.ty = some ty
  shows : walked.Shows

section Walk

variable {V : Variables} {t : Table String Symbol} {declared : List String} {e : Expr} {ty : Ty}

/-- An operation on settled operands is settled by its mark, without a fault. -/
theorem Expr.Settles.binary {op : Operator} {left right left' right' : Expr} {mark : Mark}
    {l r : Ty} (hleft : left.Settles V l left') (hright : right.Settles V r right')
    (hop : op.resultType? l r = some ty) (he : (binary op left right mark).Foldable)
    (htype : (binary op left right mark).HasType V.ty ty) (hmark : mark.value = none) :
    (Expr.binary op left right mark).Settles V ty
        (.binary op left' right' (operationMark op left' right' mark)) ∧
      operationFaults op left' right' = [] := by
  have hblank : ShowsValue mark.value := by
    rw [hmark]
    rintro c ⟨⟩
  have hshows := shows_operationMark (shows_value hleft.shows) (shows_value hright.shows) hblank op
  by_cases hknown : left'.value = none ∨ right'.value = none
  · have hkept := operationMark_unknown hknown op mark
    have hreference : (Expr.binary op left right mark).reference V = none :=
      reference_binary_of_none (hleft.bears.value_eq ▸ hright.bears.value_eq ▸ hknown)
    refine ⟨⟨.binary hleft.bears hright.bears ?_, fun c hc => ?_, hleft.shows, hright.shows,
      hshows⟩, ?_⟩
    · rw [hkept, hmark, hreference]
    · rw [hkept, Expr.value, hmark] at hc
      cases hc
    · unfold operationFaults
      split
      next hx hy _ _ => simp [hx, hy] at hknown
      next => rfl
  · rw [not_or] at hknown
    obtain ⟨x, hx⟩ := Option.ne_none_iff_exists'.mp hknown.1
    obtain ⟨y, hy⟩ := Option.ne_none_iff_exists'.mp hknown.2
    have hlty := hleft.typed x hx
    have hrty := hright.typed y hy
    have hfold (whole : Bool) := value_ofOperation_reference he htype
      (hleft.bears.value_eq.symm.trans hx) (hright.bears.value_eq.symm.trans hy) whole
    refine ⟨⟨.binary hleft.bears hright.bears ?_, fun c _ => ?_, hleft.shows, hright.shows,
      hshows⟩, ?_⟩
    · simp only [operationMark, hx, hy, hfold, Option.getD_some]
    · change (operationMark op left' right' mark).ty = some ty
      simp [operationMark, hx, hy, hlty, hrty, hop]
    · simp [operationFaults, hx, hy, hlty, hrty, hop]

/-- The walk settles an expression and leaves the table as it is. -/
theorem Analysis.gives_settled (ht : t.Declares V) (he : e.Foldable) (hvalues : e.Unvalued)
    (htype : e.HasType V.ty ty) :
    ∃ e', e.Settles V ty e' ∧ Gives (expr e) t declared ⟨⟨e', t, []⟩, declared⟩ := by
  induction htype with
  | number =>
    have hshows := he.shows_number.2.2
    exact ⟨_, ⟨.number rfl, fun _ _ => rfl, hshows⟩,
      (gives_visitNumber hshows).quiet_bind (gives_pure _)⟩
  | text => exact ⟨_, ⟨.text rfl, fun _ _ => rfl, trivial⟩, .say_bind _ (gives_pure _)⟩
  | @use name ty hname =>
    obtain ⟨v, hv, rfl⟩ := Option.map_eq_some_iff.mp hname
    obtain ⟨s, hlookup, hty, hvalue⟩ := ht name.text v hv
    have hgives : Gives (useName name) t declared _ := gives_useName name
    rw [hlookup] at hgives
    refine ⟨.use { name with mark := ⟨some s.ty, s.value⟩ },
      ⟨.use ?_, fun c _ => congrArg some hty, ?_⟩, hgives.map Expr.use⟩
    · simp [Expr.reference, Variables.value, hv, hvalue]
    · intro c hc
      exact (Variable.value_typed (hvalue.symm.trans hc)).2
  | @binary op left right mark l r ty hleft hright hop ihleft ihright =>
    obtain ⟨left', hlsettles, hlgives⟩ := ihleft he.2.1 hvalues.1
    obtain ⟨right', hrsettles, hrgives⟩ := ihright he.2.2 hvalues.2.1
    obtain ⟨hsettles, hfaults⟩ :=
      hlsettles.binary hrsettles hop he (.binary hleft hright hop) hvalues.2.2
    have hoperate : Gives (operate op left' right' mark) t declared _ :=
      gives_operate hlsettles.shows hrsettles.shows op
    rw [hfaults] at hoperate
    exact ⟨_, hsettles, .say_bind _ (hlgives.quiet_bind (hrgives.quiet_bind (hoperate.map _)))⟩

end Walk

end Analizador
