import Analizador.Judgement
import Analizador.Proofs.Analysis.Simulation

/-! # Data that can be printed

Only integers that are too long cannot be printed. A calculation keeps no such integer if its
operands are none: the result of arithmetic is printed before it is kept, comparisons give truth
values, and the other operators give one of their operands. -/

namespace Analizador

/-- Only integers that are too long cannot be printed. -/
theorem Constant.render_error {c : Constant} {f : Failure} (h : c.render = .error f) :
    f = .longInteger := by
  cases c with
  | integer n =>
    simp only [render, integerText] at h
    split at h
    · exact (Except.error.inj h).symm
    · cases h
  | decimal | text | truth => cases h

theorem eq_error_of_bind {α β : Type} {x : Except Failure α} {next : α → Except Failure β}
    {f : Failure} (h : (x >>= next) = .error f) :
    x = .error f ∨ ∃ a, x = .ok a ∧ next a = .error f := by
  cases x with
  | error f' => exact .inl (congrArg Except.error (Except.error.inj h))
  | ok a => exact .inr ⟨a, rfl, h⟩

namespace Datum

mutual

theorem quoted_error {f : Failure} (d : Datum) (h : d.quoted = .error f) : f = .longInteger := by
  cases d with
  | none | token | node | object => cases h
  | constant c =>
    cases c with
    | text => cases h
    | integer | decimal | truth =>
      simp only [quoted] at h
      exact Constant.render_error h
  | list items | tree _ items =>
    rw [quoted] at h
    rcases eq_error_of_bind h with h | ⟨_, _, h⟩
    · exact quotedAll_error items h
    · cases h

theorem quotedAll_error {f : Failure} (items : List Datum) (h : quotedAll items = .error f) :
    f = .longInteger := by
  cases items with
  | nil => cases h
  | cons d items =>
    rw [quotedAll] at h
    rcases eq_error_of_bind h with h | ⟨_, _, h⟩
    · exact quoted_error d h
    · rcases eq_error_of_bind h with h | ⟨_, _, h⟩
      · exact quotedAll_error items h
      · cases h

end

theorem render_error {d : Datum} {f : Failure} (h : d.render = .error f) : f = .longInteger := by
  cases d with
  | constant c => exact Constant.render_error h
  | token => cases h
  | none | list | tree | node | object => exact quoted_error _ h

/-- The datum can be printed. -/
def Prints (d : Datum) : Prop := ∃ shown, d.render = .ok shown

theorem prints_constant_iff {c : Constant} : (constant c).Prints ↔ c.Shows := by
  simp only [Prints, render, Constant.Shows]

end Datum

namespace Operator

variable {op : Operator}

/-! ## Calculations -/

theorem truth_of_applyAs (hop : op.family = .relational) {a b result : Datum} {x y : Constant}
    (h : op.applyAs a b x y = .ok result) : ∃ holds, result = .constant (.truth holds) := by
  unfold applyAs at h
  split at h
  next c hc =>
    obtain rfl := Except.ok.inj h
    cases op with
    | add | sub | mul | div | both | either => cases hop
    | eq | ne => exact ⟨_, congrArg Datum.constant (Except.ok.inj hc).symm⟩
    | gt | lt | ge | le =>
      obtain ⟨holds, -, hc⟩ := exists_ok_of_bind hc
      exact ⟨holds, congrArg Datum.constant (Except.ok.inj hc).symm⟩
  all_goals cases h

theorem truth_of_compareData (hop : op.family = .relational) {depth : Nat} {a b result : Datum}
    (h : op.compareData depth a b = .ok result) : ∃ holds, result = .constant (.truth holds) := by
  fun_induction compareData op depth a b with
  | case1 depth xs ys x y hdifference ih => exact ih h
  | case2 => exact ⟨_, (Except.ok.inj h).symm⟩
  | case3 => exact truth_of_applyAs hop h
  | case4 => cases h

theorem prints_of_combine (hop : op.family ≠ .arithmetic) {a b result : Datum} (ha : a.Prints)
    (hb : b.Prints) (h : op.combine a b = .ok result) : result.Prints := by
  cases op with
  | add | sub | mul | div => exact absurd rfl hop
  | eq | ne =>
    obtain rfl := Except.ok.inj h
    exact ⟨_, rfl⟩
  | gt | lt | ge | le =>
    obtain ⟨holds, rfl⟩ := truth_of_compareData rfl h
    exact ⟨_, rfl⟩
  | both | either =>
    obtain rfl := Except.ok.inj h
    split <;> assumption

/-- A calculation on operands that can be printed keeps a result that can be printed. -/
theorem prints_of_calculate {whole : Bool} {a b result : Datum} {lines : List String}
    (ha : a.Prints) (hb : b.Prints) (h : op.calculate whole a b = .ok (some result, lines)) :
    result.Prints := by
  unfold calculate at h
  split at h
  next x y =>
    obtain ⟨folding, hfolding, h⟩ := exists_ok_of_bind h
    obtain ⟨value, hvalue, rfl⟩ := Option.map_eq_some_iff.mp (congrArg Prod.fst (Except.ok.inj h))
    cases value with
    | none => exact ⟨_, rfl⟩
    | some c =>
      rw [Datum.prints_constant_iff] at ha hb
      exact Datum.prints_constant_iff.mpr (Folding.shows_of_attempt ha hb hfolding hvalue)
  next =>
    split at h
    next =>
      split at h
      next => cases h
      next =>
        obtain ⟨found, -, h⟩ := exists_ok_of_bind h
        obtain ⟨_, -, h⟩ := exists_ok_of_bind h
        obtain ⟨_, -, h⟩ := exists_ok_of_bind h
        obtain ⟨shown, hshown, h⟩ := exists_ok_of_bind h
        obtain rfl : found = result := by simpa using congrArg Prod.fst (Except.ok.inj h)
        exact ⟨shown, hshown⟩
    next hop =>
      obtain ⟨found, hfound, h⟩ := exists_ok_of_bind h
      obtain rfl : found = result := by simpa using congrArg Prod.fst (Except.ok.inj h)
      exact prints_of_combine hop ha hb hfound

end Operator

end Analizador
