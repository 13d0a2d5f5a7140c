import Analizador.Proofs.Analysis.Verdict
import Analizador.Proofs.Number.Rounding

/-! # Quotients of integers

The quotient of two integers is rounded to a double. If the double is an integer, it becomes one. -/

namespace Analizador

namespace Double

/-- Scaled integers compare equal exactly if they are the same rational number. -/
theorem compareScaled_eq_iff (m e n f : Int) :
    compareScaled m e n f = .eq ↔ (m : ℚ) * 2 ^ e = n * 2 ^ f := by
  have hlow (g : Int) (hg : min e f ≤ g) : (2 : ℚ) ^ g =
      (2 : ℚ) ^ (g - min e f).toNat * 2 ^ min e f := by
    rw [← zpow_natCast, Int.toNat_of_nonneg (sub_nonneg.mpr hg), ← two_zpow_add, sub_add_cancel]
  unfold compareScaled
  rw [compare_eq_iff_eq, hlow e (min_le_left e f), hlow f (min_le_right e f), ← mul_assoc,
    ← mul_assoc, mul_left_inj' (two_zpow_pos _).ne']
  simp only [Nat.pow_eq]
  exact_mod_cast Iff.rfl

theorem signed_mul (negative : Bool) (m k : Nat) :
    signed negative (m * k) = signed negative m * k := by
  cases negative with
  | false => exact Nat.cast_mul m k
  | true => simp only [signed, if_true, Nat.cast_mul, neg_mul]

/-- The integer part of a double that stands for an integer is the integer. -/
theorem truncate?_of_eq {negative : Bool} {m : Nat} {e n : Int}
    (h : ((signed negative m : Int) : ℚ) * 2 ^ e = n) :
    (finite negative m e).truncate? = some n := by
  cases e with
  | ofNat k =>
    have hint : signed negative m * (2 ^ k : Nat) = n := by
      rw [Int.ofNat_eq_natCast, zpow_natCast] at h
      exact_mod_cast h
    simp only [truncate?, Nat.pow_eq, signed_mul, hint]
  | negSucc k =>
    have hpos : 0 < 2 ^ (k + 1) := Nat.two_pow_pos _
    have hint : signed negative m = n * (2 ^ (k + 1) : Nat) := by
      rw [zpow_negSucc, mul_inv_eq_iff_eq_mul₀ (by positivity)] at h
      exact_mod_cast h
    have hdvd : 2 ^ (k + 1) ∣ m := by
      have hdvd' : ((2 ^ (k + 1) : Nat) : Int) ∣ signed negative m := ⟨n, by rw [hint, mul_comm]⟩
      cases negative with
      | false => exact Int.natCast_dvd_natCast.mp hdvd'
      | true => exact Int.natCast_dvd_natCast.mp ((dvd_neg).mp hdvd')
    obtain ⟨j, rfl⟩ := hdvd
    rw [mul_comm, signed_mul] at hint
    have hvalue : signed negative j = n := by
      exact mul_right_cancel₀ (by exact_mod_cast hpos.ne') hint
    simp only [truncate?, Nat.pow_eq, Nat.mul_div_cancel_left _ hpos, hvalue]

end Double

/-! ## Signs -/

namespace Double

/-- A number with a sign given apart. -/
def withSign (negative : Bool) (x : ℚ) : ℚ := if negative then -x else x

theorem withSign_mul (negative : Bool) (m : Nat) (e : Int) :
    withSign negative (m * 2 ^ e) = ((signed negative m : Int) : ℚ) * 2 ^ e := by
  cases negative with
  | false => rfl
  | true => simp [withSign, signed]

/-- A sign does not change an absolute value. -/
theorem abs_withSign (negative : Bool) (x : ℚ) : |withSign negative x| = |x| := by
  cases negative with
  | false => rfl
  | true => exact abs_neg x

/-- A sign that is put twice is gone. -/
theorem withSign_withSign (negative : Bool) (x : ℚ) :
    withSign negative (withSign negative x) = x := by
  cases negative with
  | false => rfl
  | true => exact neg_neg x

theorem withSign_intCast (negative : Bool) (n : Int) : ∃ n' : Int, withSign negative n = n' := by
  cases negative with
  | false => exact ⟨n, rfl⟩
  | true => exact ⟨-n, by simp [withSign]⟩

/-- A nearest dyadic number stays nearest when both signs change. -/
theorem Nearest.withSign {x y : ℚ} (h : Nearest x y) (negative : Bool) :
    Nearest (withSign negative x) (withSign negative y) := by
  cases negative with
  | false => exact h
  | true => exact h.neg

/-- Two integers have a ratio with the sign that their signs give. -/
theorem ratio_eq_withSign (a b : Int) :
    (a : ℚ) / b = withSign (decide (a < 0) != decide (b < 0)) ((a.natAbs : ℚ) / b.natAbs) := by
  have hvalue (n : Int) : (n : ℚ) = withSign (decide (n < 0)) n.natAbs := by
    by_cases hn : n < 0
    · rw [decide_eq_true hn, withSign, if_pos rfl, Nat.cast_natAbs, abs_of_neg hn,
        Int.cast_neg, neg_neg]
    · rw [decide_eq_false hn, withSign, if_neg (by decide), Nat.cast_natAbs,
        abs_of_nonneg (not_lt.mp hn)]
  conv_lhs => rw [hvalue a, hvalue b]
  cases decide (a < 0) <;> cases decide (b < 0) <;> simp [withSign, div_neg, neg_div]

theorem abs_ratio (a b : Int) : |(a : ℚ) / b| = (a.natAbs : ℚ) / b.natAbs := by
  rw [ratio_eq_withSign, abs_withSign,
    abs_of_nonneg (div_nonneg (Nat.cast_nonneg _) (Nat.cast_nonneg _))]

theorem abs_eq_withSign (x : ℚ) : |x| = withSign (decide (x < 0)) x := by
  by_cases hx : x < 0
  · rw [decide_eq_true hx, abs_of_neg hx, withSign, if_pos rfl]
  · rw [decide_eq_false hx, abs_of_nonneg (not_lt.mp hx), withSign, if_neg (by decide)]

/-- A dyadic number stays dyadic when its sign changes. -/
theorem IsDyadic.withSign {x : ℚ} (h : IsDyadic x) (negative : Bool) :
    IsDyadic (withSign negative x) := by
  cases negative with
  | false => exact h
  | true => exact h.neg

end Double

namespace Constant

open Double

/-- A decimal equals an integer exactly if the two are the same rational number. -/
theorem equal_integer_iff (negative : Bool) (m : Nat) (e n : Int) :
    (Constant.decimal (.finite negative m e)).equal (.integer n) = true ↔
      ((signed negative m : Int) : ℚ) * 2 ^ e = n := by
  change (some (compareScaled n 0 (signed negative m) e).swap == some .eq) = true ↔ _
  rw [beq_iff_eq, Option.some_inj, Ordering.swap_eq_eq, compareScaled_eq_iff, zpow_zero,
    mul_one, eq_comm]

/-- A double that stands for an integer is brought back to it, and no other one. -/
theorem settled_finite (negative : Bool) (m : Nat) (e : Int) :
    (∃ n : Int, ((signed negative m : Int) : ℚ) * 2 ^ e = n ∧
        settled (.decimal (.finite negative m e)) = .ok (.integer n)) ∨
      (∀ n : Int, ((signed negative m : Int) : ℚ) * 2 ^ e ≠ n) ∧
        settled (.decimal (.finite negative m e)) = .ok (.decimal (.finite negative m e)) := by
  obtain ⟨n, hn⟩ : ∃ n, (finite negative m e).truncate? = some n := ⟨_, rfl⟩
  have hsettled : settled (.decimal (.finite negative m e)) = .ok
      (if (Constant.decimal (.finite negative m e)).equal (.integer n) then .integer n
        else .decimal (.finite negative m e)) := by
    change (do return if _ then _ else _ : Except Failure Constant) = _
    rw [hn]
    rfl
  rw [hsettled]
  by_cases hvalue : ((signed negative m : Int) : ℚ) * 2 ^ e = n
  · exact .inl ⟨n, hvalue, by rw [if_pos ((equal_integer_iff negative m e n).mpr hvalue)]⟩
  · refine .inr ⟨?_, by rw [if_neg fun h => hvalue ((equal_integer_iff negative m e n).mp h)]⟩
    intro n' hn'
    rw [truncate?_of_eq hn', Option.some_inj] at hn
    exact hvalue (hn ▸ hn')

end Constant

/-! ## Folding -/

namespace Folding

open Double

/-- An integer whose absolute value is below `2 ^ 1024` can be shown. -/
theorem shows_of_small {n : Int} (h : |(n : ℚ)| < 2 ^ 1024) : (Constant.integer n).Shows := by
  have hcast : ((n.natAbs : Nat) : ℚ) < (2 ^ 1024 : Nat) := by
    rwa [Nat.cast_pow, Nat.cast_ofNat, Nat.cast_natAbs, Int.cast_abs]
  have hnat : n.natAbs < 2 ^ 1024 := Nat.cast_lt.mp hcast
  have hlimit (j k : Nat) (hjk : j ≤ k) : 2 ^ j ≤ Nat.pow 10 k :=
    (Nat.pow_le_pow_right (by decide) hjk).trans (Nat.pow_le_pow_left (by decide) k)
  exact Constant.shows_integer (hnat.trans_le (hlimit 1024 Numeral.digitLimit (by decide)))

variable {a b : Int}

theorem attempt_div (hb : b ≠ 0) : attempt .div true (.integer a) (.integer b) = (do
    let result ← Constant.quotient (.integer a) (.integer b)
    let result ← result.settled
    return ⟨some (some result), [← resultLine .div (.integer a) (.integer b) result]⟩) := by
  have hzero : (Constant.integer b).isZero = false := by
    change (some (compare b 0) == some .eq) = false
    rw [beq_eq_false_iff_ne, ne_eq, Option.some_inj, compare_eq_iff_eq]
    exact hb
  simp only [attempt_eq, hzero, Bool.false_eq_true, if_false, if_true]

/-- A quotient that is settled is kept, since it can be shown. -/
theorem value_of_settled {q c : Constant} (hb : b ≠ 0) (ha : (Constant.integer a).Shows)
    (hb' : (Constant.integer b).Shows)
    (hquotient : Constant.quotient (.integer a) (.integer b) = .ok q) (hsettled : q.settled = .ok c)
    (hc : c.Shows) :
    (ofOperation .div true (.integer a) (.integer b)).value = some (some c) := by
  obtain ⟨atext, ha⟩ := ha
  obtain ⟨btext, hb'⟩ := hb'
  obtain ⟨ctext, hc⟩ := hc
  have hline : ∃ line, resultLine .div (.integer a) (.integer b) c = .ok line := by
    unfold resultLine
    rw [ha, hb', hc]
    exact ⟨_, rfl⟩
  obtain ⟨line, hline⟩ := hline
  have hattempt : attempt .div true (.integer a) (.integer b) = .ok ⟨some (some c), [line]⟩ := by
    simp only [attempt_div hb, hquotient, hsettled, hline, bind, Except.bind, pure, Except.pure]
  rw [ofOperation, hattempt]

/-- What is left of a quotient: nothing if it is out of range, the integer that it is rounded to, or
a double. -/
theorem value_div (hb : b ≠ 0) (ha : (Constant.integer a).Shows)
    (hb' : (Constant.integer b).Shows) :
    ∃ m e, Rounds ((a.natAbs : ℚ) / b.natAbs) m e ∧
      let y := withSign (decide (a < 0) != decide (b < 0)) (m * 2 ^ e)
      let value := (ofOperation .div true (.integer a) (.integer b)).value
      ((2 : ℚ) ^ 1024 ≤ m * 2 ^ e ∧ value = some none ∨
        (m : ℚ) * 2 ^ e < 2 ^ 1024 ∧ ((∃ n : Int, y = n ∧ value = some (some (.integer n))) ∨
          (∀ n : Int, y ≠ n) ∧ ∃ d, value = some (some (.decimal d)))) := by
  obtain ⟨m, e, hrounds, hratio⟩ :=
    ofRatio_rounds (decide (a < 0) != decide (b < 0)) a.natAbs (Int.natAbs_pos.mpr hb)
  refine ⟨m, e, hrounds, ?_⟩
  intro y value
  rcases hratio with ⟨hlarge, hratio⟩ | ⟨hsmall, m', e', hratio, heq⟩
  · have hquotient : Constant.quotient (.integer a) (.integer b) = .error .quotientTooLarge := by
      simp only [Constant.quotient, Constant.number?, hratio]
    refine .inl ⟨hlarge, ?_⟩
    simp only [value, ofOperation, attempt_div hb, hquotient]
    rfl
  · have hquotient : Constant.quotient (.integer a) (.integer b) =
        .ok (.decimal (.finite (decide (a < 0) != decide (b < 0)) m' e')) := by
      simp only [Constant.quotient, Constant.number?, hratio]
    have hy : y = ((signed (decide (a < 0) != decide (b < 0)) m' : Int) : ℚ) * 2 ^ e' := by
      rw [← withSign_mul, heq]
    refine .inr ⟨hsmall, ?_⟩
    rw [hy]
    rcases Constant.settled_finite (decide (a < 0) != decide (b < 0)) m' e' with
      ⟨n, hn, hsettled⟩ | ⟨hno, hsettled⟩
    · have hnonneg : 0 ≤ (m : ℚ) * 2 ^ e := mul_nonneg (Nat.cast_nonneg m) (two_zpow_pos e).le
      have hrange : |(n : ℚ)| < 2 ^ 1024 := by
        rw [← hn, ← hy, abs_withSign, abs_of_nonneg hnonneg]
        exact hsmall
      exact .inl ⟨n, hn, value_of_settled hb ha hb' hquotient hsettled (shows_of_small hrange)⟩
    · exact .inr ⟨hno, _, value_of_settled hb ha hb' hquotient hsettled ⟨_, rfl⟩⟩

/-- A quotient of integers that can be shown has a value, if the divisor is not zero. -/
theorem exists_value_div (hb : b ≠ 0) (ha : (Constant.integer a).Shows)
    (hb' : (Constant.integer b).Shows) :
    ∃ value, (ofOperation .div true (.integer a) (.integer b)).value = some value := by
  obtain ⟨m, e, -, hvalue⟩ := value_div hb ha hb'
  rcases hvalue with ⟨-, hvalue⟩ | ⟨-, ⟨n, -, hvalue⟩ | ⟨-, d, hvalue⟩⟩
  · exact ⟨_, hvalue⟩
  · exact ⟨_, hvalue⟩
  · exact ⟨_, hvalue⟩

/-- An integer that is left of a quotient is nearest to it. -/
theorem nearest_of_value_div (hb : b ≠ 0) (ha : (Constant.integer a).Shows)
    (hb' : (Constant.integer b).Shows) {q : Int}
    (hq : (ofOperation .div true (.integer a) (.integer b)).value = some (some (.integer q))) :
    Nearest ((a : ℚ) / b) q := by
  obtain ⟨m, e, hrounds, hvalue⟩ := value_div hb ha hb'
  rw [hq] at hvalue
  rw [ratio_eq_withSign]
  have hnearest := hrounds.nearest.withSign (decide (a < 0) != decide (b < 0))
  rcases hvalue with ⟨-, hvalue⟩ | ⟨-, ⟨n, hn, hvalue⟩ | ⟨-, d, hvalue⟩⟩
  · cases hvalue
  · obtain rfl : q = n := by simpa using hvalue
    rwa [hn] at hnearest
  · cases hvalue

/-- An integer is left of a quotient exactly if the quotient is in range and an integer is nearest
to it. -/
theorem exists_value_div_iff (hb : b ≠ 0) (ha : (Constant.integer a).Shows)
    (hb' : (Constant.integer b).Shows) :
    (∃ q, (ofOperation .div true (.integer a) (.integer b)).value = some (some (.integer q))) ↔
      |(a : ℚ) / b| < 2 ^ 1024 - 2 ^ 970 ∧ ∃ q : Int, Nearest ((a : ℚ) / b) q := by
  obtain ⟨m, e, hrounds, hvalue⟩ := value_div hb ha hb'
  rw [abs_ratio, ← hrounds.lt_iff]
  constructor
  · rintro ⟨q, hq⟩
    refine ⟨?_, q, nearest_of_value_div hb ha hb' hq⟩
    rcases hvalue with ⟨-, hvalue⟩ | ⟨hsmall, -⟩
    · rw [hq] at hvalue
      cases hvalue
    · exact hsmall
  · rintro ⟨hsmall, q, hq⟩
    -- the nearest integer is one for the ratio without its sign, too
    have hq' := hq.withSign (decide (a < 0) != decide (b < 0))
    obtain ⟨q', hsign⟩ := withSign_intCast (decide (a < 0) != decide (b < 0)) q
    rw [ratio_eq_withSign, withSign_withSign, hsign] at hq'
    obtain ⟨n, hn⟩ := hrounds.exists_int hq'
    obtain ⟨n', hn'⟩ := withSign_intCast (decide (a < 0) != decide (b < 0)) n
    rcases hvalue with ⟨hlarge, -⟩ | ⟨-, ⟨n, -, hvalue⟩ | ⟨hno, -⟩⟩
    · exact absurd hsmall hlarge.not_gt
    · exact ⟨n, hvalue⟩
    · exact absurd (by rw [hn, hn']) (hno n')

end Folding

/-! ## Exact quotients -/

/-- A value of the quotient of two integers is right: it is an integer exactly if the division
leaves no remainder, and then it is the quotient. -/
def ExactQuotient (a b : Int) (value : Option Constant) : Prop :=
  ((∃ q, value = some (.integer q)) ↔ b ∣ a) ∧ ∀ q, value = some (.integer q) → q * b = a

/-- Two integers whose quotient rounding leaves right: an integer quotient is a double, and any
other one is out of range or has no integer for its nearest double. -/
def RoundsRight (a b : Int) : Prop :=
  (b ∣ a → Double.IsDyadic ((a : ℚ) / b) ∧ |(a : ℚ) / b| < 2 ^ 1024) ∧
    (¬ b ∣ a → ∀ q : Int, Double.Nearest ((a : ℚ) / b) q → (2 : ℚ) ^ 1024 - 2 ^ 970 ≤ |(a : ℚ) / b|)

section

open Double

variable {a b : Int}

/-- A dyadic quotient below `2 ^ 1024` is not rounded out of range. -/
theorem abs_ratio_lt (hb : b ≠ 0) (hdyadic : IsDyadic ((a : ℚ) / b))
    (hsmall : |(a : ℚ) / b| < 2 ^ 1024) :
    |(a : ℚ) / b| < 2 ^ 1024 - 2 ^ 970 := by
  obtain ⟨m, e, hrounds, -⟩ := ofRatio_rounds false a.natAbs (Int.natAbs_pos.mpr hb)
  have habs : IsDyadic |(a : ℚ) / b| := abs_eq_withSign ((a : ℚ) / b) ▸ hdyadic.withSign _
  rw [abs_ratio] at hsmall habs ⊢
  rw [← hrounds.lt_iff, ← hrounds.nearest.eq_of_dyadic habs]
  exact hsmall

/-- A quotient gets a value, perhaps that of a calculation that failed, and it is right exactly if
rounding leaves it right. -/
theorem exists_exactQuotient_iff (hb : b ≠ 0) (ha : (Constant.integer a).Shows)
    (hb' : (Constant.integer b).Shows) :
    ∃ value, (Folding.ofOperation .div true (.integer a) (.integer b)).value = some value ∧
      (ExactQuotient a b value ↔ RoundsRight a b) := by
  obtain ⟨value, hvalue⟩ := Folding.exists_value_div hb ha hb'
  refine ⟨value, hvalue, ?_⟩
  have hexists := Folding.exists_value_div_iff hb ha hb'
  have hnearest (q : Int) := Folding.nearest_of_value_div (q := q) hb ha hb'
  simp only [hvalue, Option.some_inj] at hexists hnearest
  have hb₀ : (b : ℚ) ≠ 0 := by exact_mod_cast hb
  constructor
  · rintro ⟨hdvd, hq⟩
    constructor
    · intro hab
      obtain ⟨q, hvalue⟩ := hdvd.mpr hab
      have hratio : (a : ℚ) / b = q := by
        rw [div_eq_iff hb₀]
        exact_mod_cast (hq q hvalue).symm
      have hsmall := (hexists.mp ⟨q, hvalue⟩).1
      refine ⟨hratio ▸ (hnearest q hvalue).dyadic, hsmall.trans (sub_lt_self _ (by positivity))⟩
    · intro hab q hq
      by_contra hlt
      exact hab (hdvd.mp (hexists.mpr ⟨not_le.mp hlt, q, hq⟩))
  · rintro ⟨hexact, hinexact⟩
    have hdvd : (∃ q, value = some (.integer q)) ↔ b ∣ a := by
      constructor
      · rintro ⟨q, hq⟩
        by_contra hab
        exact absurd (hexists.mp ⟨q, hq⟩).1 (hinexact hab q (hnearest q hq)).not_gt
      · intro hab
        obtain ⟨hdyadic, hsmall⟩ := hexact hab
        obtain ⟨k, hk⟩ := hab
        have hratio : (a : ℚ) / b = k := by
          rw [hk, Int.cast_mul, mul_div_cancel_left₀ _ hb₀]
        exact hexists.mpr ⟨abs_ratio_lt hb hdyadic hsmall, k, hratio ▸ hdyadic.nearest_self⟩
    refine ⟨hdvd, ?_⟩
    intro q hq
    have hratio := (hnearest q hq).eq_of_dyadic (hexact (hdvd.mp ⟨q, hq⟩)).1
    rw [div_eq_iff hb₀] at hratio
    exact_mod_cast hratio.symm

/-- An integer up to `2 ^ 53` is dyadic, whatever its sign. -/
theorem isDyadic_intCast {n : Int} (hn : |n| ≤ 2 ^ 53) : IsDyadic n := by
  by_cases hlt : |n| < 2 ^ 53
  · exact ⟨n, 0, hlt, by decide, by rw [zpow_zero, mul_one]⟩
  · have heq : |n| = 2 ^ 53 := le_antisymm hn (not_lt.mp hlt)
    have hpower : IsDyadic (2 ^ 53) := ⟨2 ^ 52, 1, by norm_num, by decide, by norm_num⟩
    have hvalue : (n : ℚ) = withSign (decide ((n : ℚ) < 0)) (2 ^ 53) := by
      have habs : (2 ^ 53 : ℚ) = |(n : ℚ)| := by exact_mod_cast heq.symm
      rw [habs, abs_eq_withSign, withSign_withSign]
    rw [hvalue]
    exact hpower.withSign _

theorem two_pow_lt_range : (2 : ℚ) ^ 53 < 2 ^ 1024 - 2 ^ 970 := by
  have hle : (2 : ℚ) ^ 53 ≤ 2 ^ 970 := pow_le_pow_right₀ one_le_two (by decide)
  rw [show (2 : ℚ) ^ 1024 = 2 ^ 54 * 2 ^ 970 by rw [← pow_add]]
  generalize (2 : ℚ) ^ 970 = P at hle ⊢
  linarith

/-- A quotient of integers is no larger than what is divided. -/
theorem abs_ratio_le (hb : b ≠ 0) : |(a : ℚ) / b| ≤ |(a : ℚ)| := by
  have hone : (1 : ℚ) ≤ |(b : ℚ)| := by exact_mod_cast Int.one_le_abs hb
  rw [abs_div]
  exact div_le_self (abs_nonneg _) hone

theorem exists_nearest_abs_iff {x : ℚ} : (∃ q : Int, Nearest |x| q) ↔ ∃ q : Int, Nearest x q := by
  rw [abs_eq_withSign]
  constructor
  · rintro ⟨q, hq⟩
    obtain ⟨q', hq'⟩ := withSign_intCast (decide (x < 0)) q
    have hsigned := hq.withSign (decide (x < 0))
    rw [withSign_withSign, hq'] at hsigned
    exact ⟨q', hsigned⟩
  · rintro ⟨q, hq⟩
    obtain ⟨q', hq'⟩ := withSign_intCast (decide (x < 0)) q
    exact ⟨q', hq' ▸ hq.withSign (decide (x < 0))⟩

theorem abs_lt_mul_iff (a b : Int) (k : Nat) :
    |b| < |a| * 2 ^ k ↔ ¬ a.natAbs * 2 ^ k ≤ b.natAbs := by
  rw [not_le, Int.abs_eq_natAbs, Int.abs_eq_natAbs]
  exact_mod_cast Iff.rfl

/-- A dividend of at most 53 bits is divided rightly, unless the quotient is so small that it is
rounded to zero. -/
theorem roundsRight_iff (hb : b ≠ 0) (ha : |a| ≤ 2 ^ 53) :
    RoundsRight a b ↔ a = 0 ∨ |b| < |a| * 2 ^ 1075 := by
  have hrange : |(a : ℚ) / b| < 2 ^ 1024 - 2 ^ 970 := by
    have ha' : |(a : ℚ)| ≤ 2 ^ 53 := by exact_mod_cast ha
    exact ((abs_ratio_le hb).trans ha').trans_lt two_pow_lt_range
  by_cases hab : b ∣ a
  · obtain ⟨k, hk⟩ := hab
    have hratio : (a : ℚ) / b = k := by
      rw [hk, Int.cast_mul, mul_div_cancel_left₀ _ (by exact_mod_cast hb)]
    have hle : |k| ≤ |a| := by
      have hle' := abs_ratio_le (a := a) hb
      rw [hratio] at hle'
      exact_mod_cast hle'
    refine iff_of_true ⟨fun _ => ⟨?_, ?_⟩, fun hno => absurd ⟨k, hk⟩ hno⟩ ?_
    · rw [hratio]
      exact isDyadic_intCast (hle.trans ha)
    · exact hrange.trans (sub_lt_self _ (by positivity))
    · by_cases hzero : a = 0
      · exact .inl hzero
      · have hdivisor : |b| ≤ |a| := by
          have hk' : k ≠ 0 := fun h => hzero (by rw [hk, h, mul_zero])
          rw [hk, abs_mul]
          exact le_mul_of_one_le_right (abs_nonneg b) (Int.one_le_abs hk')
        exact .inr (hdivisor.trans_lt
          (lt_mul_of_one_lt_right (abs_pos.mpr hzero) (one_lt_pow₀ one_lt_two (by decide))))
  · have hnat : ¬ b.natAbs ∣ a.natAbs := fun h => hab (Int.natAbs_dvd_natAbs.mp h)
    have hzero : a ≠ 0 := fun h => hab (h ▸ dvd_zero b)
    have ha' : a.natAbs ≤ 2 ^ 53 := by
      rw [Int.abs_eq_natAbs] at ha
      exact_mod_cast ha
    have hiff := exists_nearest_int_iff (Int.natAbs_pos.mpr hb) hnat ha'
    rw [← abs_ratio, exists_nearest_abs_iff] at hiff
    rw [abs_lt_mul_iff, ← hiff, or_iff_right hzero]
    constructor
    · rintro ⟨-, hfar⟩ ⟨q, hq⟩
      exact absurd hrange (hfar hab q hq).not_gt
    · intro hno
      exact ⟨fun h => absurd h hab, fun _ q hq => absurd ⟨q, hq⟩ hno⟩

end

end Analizador
