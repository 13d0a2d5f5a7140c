import Mathlib.Algebra.Order.Floor.Semifield
import Mathlib.Data.Rat.Floor
import Analizador.Number.Shortest
import Analizador.Proofs.Number.Reach

/-! # The digits of a double

The decimal written for a double lies in the reach of the double, so it reads back as it: seventeen
digits are always enough. One digit is written exactly if some number of one digit lies in the
reach. -/

namespace Analizador

/-! ## Powers of ten and of two -/

theorem ten_zpow_pos (k : Int) : (0 : ℚ) < 10 ^ k := zpow_pos (by norm_num) k

theorem ten_zpow_add (k l : Int) : (10 : ℚ) ^ (k + l) = 10 ^ k * 10 ^ l :=
  zpow_add₀ (by norm_num) k l

/-- Powers of two and of ten are compared by two approximations of the logarithm, one from either
side. -/
theorem two_zpow_le_ten_zpow {a b : Int} (habove : 28 * a ≤ 93 * b) (hbelow : 59 * a ≤ 196 * b) :
    (2 : ℚ) ^ a ≤ 10 ^ b := by
  have hten (n : Nat) {l : Int} (hl : l ≤ n * b) : (10 : ℚ) ^ l ≤ (10 ^ b) ^ n := by
    rw [← zpow_natCast, ← zpow_mul, mul_comm b]
    exact zpow_le_zpow_right₀ (by norm_num) hl
  have htwo (n : Nat) : ((2 : ℚ) ^ a) ^ n = (2 ^ n) ^ a := by
    rw [← zpow_natCast, zpow_comm, zpow_natCast]
  rcases le_total 0 a with ha | ha
  · apply le_of_pow_le_pow_left₀ (n := 93) (by norm_num) (ten_zpow_pos b).le
    calc ((2 : ℚ) ^ a) ^ 93 = (2 ^ 93) ^ a := htwo 93
      _ ≤ (10 ^ 28) ^ a := zpow_le_zpow_left₀ ha (by norm_num) (by norm_num)
      _ = 10 ^ (28 * a) := by rw [zpow_mul]; rfl
      _ ≤ (10 ^ b) ^ 93 := hten 93 habove
  · apply le_of_pow_le_pow_left₀ (n := 196) (by norm_num) (ten_zpow_pos b).le
    calc ((2 : ℚ) ^ a) ^ 196 = (2 ^ 196) ^ a := htwo 196
      _ ≤ (10 ^ 59) ^ a := by
        obtain ⟨c, rfl⟩ : ∃ c, a = -c := ⟨-a, (neg_neg a).symm⟩
        rw [zpow_neg, zpow_neg]
        apply inv_anti₀ (zpow_pos (by norm_num) _)
        exact zpow_le_zpow_left₀ (by omega) (by norm_num) (by norm_num)
      _ = 10 ^ (59 * a) := by rw [zpow_mul]; rfl
      _ ≤ (10 ^ b) ^ 196 := hten 196 hbelow

/-- A power of ten is at most a power of two if rational bounds on the logarithm say so. -/
theorem ten_zpow_le_two_zpow {a b : Int} (habove : 93 * b ≤ 28 * a) (hbelow : 196 * b ≤ 59 * a) :
    (10 : ℚ) ^ b ≤ 2 ^ a := by
  have hle := two_zpow_le_ten_zpow (a := -a) (b := -b) (by omega) (by omega)
  rw [zpow_neg, zpow_neg] at hle
  exact (inv_le_inv₀ (Double.two_zpow_pos a) (ten_zpow_pos b)).mp hle

namespace Decimal

/-! ## Scaling by a power of ten -/

variable {num den : Nat}

theorem scale_pos (num : Nat) (hden : 0 < den) (e : Int) : 0 < (scale num den e).2 := by
  cases e with
  | ofNat k => exact Nat.mul_pos hden (Nat.pow_pos (by decide))
  | negSucc k => exact hden

/-- Scaling divides by a power of ten. -/
theorem scale_ratio (num den : Nat) (e : Int) :
    ((scale num den e).1 : ℚ) / (scale num den e).2 = (num : ℚ) / den / 10 ^ e := by
  cases e with
  | ofNat k =>
    simp only [scale, Nat.pow_eq, Nat.cast_mul, Nat.cast_pow, Nat.cast_ofNat, Int.ofNat_eq_natCast,
      zpow_natCast]
    rw [div_div]
  | negSucc k =>
    simp only [scale, Nat.pow_eq, Nat.cast_mul, Nat.cast_pow, Nat.cast_ofNat, zpow_negSucc,
      div_inv_eq_mul]
    rw [mul_div_right_comm]

theorem scale_den (num num' den : Nat) (e : Int) : (scale num den e).2 = (scale num' den e).2 := by
  cases e <;> rfl

/-- Comparisons with a multiple of the scaled denominator are comparisons with a multiple of the
power of ten. -/
theorem scale_le_iff (num : Nat) (hden : 0 < den) (e : Int) (k : Nat) :
    (scale num den e).1 ≤ k * (scale num den e).2 ↔ (num : ℚ) / den ≤ k * 10 ^ e := by
  have hpos : (0 : ℚ) < (scale num den e).2 := by exact_mod_cast scale_pos num hden e
  rw [← div_le_iff₀ (ten_zpow_pos e), ← scale_ratio, div_le_iff₀ hpos]
  exact_mod_cast Iff.rfl

theorem le_scale_iff (num : Nat) (hden : 0 < den) (e : Int) (k : Nat) :
    k * (scale num den e).2 ≤ (scale num den e).1 ↔ (k : ℚ) * 10 ^ e ≤ num / den := by
  have hpos : (0 : ℚ) < (scale num den e).2 := by exact_mod_cast scale_pos num hden e
  rw [← le_div_iff₀ (ten_zpow_pos e), ← scale_ratio, le_div_iff₀ hpos]
  exact_mod_cast Iff.rfl

/-! ## The leading power of ten -/

/-- The estimate from the lengths of numerator and denominator is off by one power at most. -/
theorem guess_bounds {bits : Int} (hlow : -2000 ≤ bits) (hhigh : bits ≤ 2000) :
    (10 : ℚ) ^ (bits * 1233 / 4096 - 2) ≤ 2 ^ (bits - 1) ∧
      (2 : ℚ) ^ (bits + 1) ≤ 10 ^ (bits * 1233 / 4096 + 2) :=
  ⟨ten_zpow_le_two_zpow (by omega) (by omega), two_zpow_le_ten_zpow (by omega) (by omega)⟩

/-- The magnitude of a ratio that is neither huge nor tiny is the greatest power of ten not above
it. -/
theorem magnitude_bounds (hnum : 0 < num) (hden : 0 < den)
    (hlow : -2000 ≤ (num.log2 : Int) - den.log2) (hhigh : (num.log2 : Int) - den.log2 ≤ 2000) :
    (10 : ℚ) ^ magnitude num den ≤ (num : ℚ) / den ∧
      (num : ℚ) / den < 10 ^ (magnitude num den + 1) := by
  obtain ⟨hleast, hgreatest⟩ := guess_bounds hlow hhigh
  obtain ⟨habove, hbelow⟩ := Double.log2_bounds hnum hden
  have hleast' := hleast.trans_lt habove
  have hgreatest' := hbelow.trans_le hgreatest
  have htest (e : Int) : (scale num den e).1 < (scale num den e).2 ↔ (num : ℚ) / den < 10 ^ e := by
    rw [← not_le, ← not_le]
    simpa using (le_scale_iff num hden e 1).not
  unfold magnitude
  simp only [htest, le_scale_iff num hden]
  generalize ((num.log2 : Int) - den.log2) * 1233 / 4096 = guess at hleast' hgreatest' ⊢
  have hstep (k : Int) : (10 : ℚ) ^ (k + 1) = 10 * 10 ^ k := by
    rw [add_comm, ten_zpow_add, zpow_one]
  split
  next hless =>
    split
    next hless' => exact ⟨hleast'.le, by rwa [show guess - 2 + 1 = guess - 1 by omega]⟩
    next hmore => exact ⟨not_lt.mp hmore, by rwa [sub_add_cancel]⟩
  next hmore =>
    split
    next hmore' => exact ⟨by simpa [hstep] using hmore', by rwa [add_assoc]⟩
    next hless => exact ⟨not_lt.mp hmore, by simpa [hstep] using hless⟩

/-! ## Trailing zeros -/

/-- Trimming does not change the value. -/
theorem trim_value (fuel : Nat) (d : Decimal) :
    ((d.trim fuel).digits : ℚ) * 10 ^ (d.trim fuel).exponent = d.digits * 10 ^ d.exponent := by
  fun_induction trim fuel d with
  | case1 => rfl
  | case2 d fuel hzero ih =>
    have hdigits : d.digits = d.digits / 10 * 10 := by omega
    rw [ih, hdigits, ten_zpow_add, zpow_one]
    push_cast
    rw [Nat.mul_div_cancel _ (by decide)]
    ring
  | case3 => rfl

end Decimal

namespace Double

/-! ## The nearest decimal of a grid -/

section

variable {places num low high den : Nat} {top : Int} {closed : Bool}

/-- What is tested of a multiple of the power of ten. -/
theorem inside_iff (hden : 0 < den) (e : Int) (k : Nat) :
    (if closed then
        (Decimal.scale low den e).1 ≤ k * (Decimal.scale num den e).2 &&
          k * (Decimal.scale num den e).2 ≤ (Decimal.scale high den e).1
      else
        (Decimal.scale low den e).1 < k * (Decimal.scale num den e).2 &&
          k * (Decimal.scale num den e).2 < (Decimal.scale high den e).1) = true ↔
      Between closed ((low : ℚ) / den) (high / den) (k * 10 ^ e) := by
  have hlow := Decimal.scale_le_iff low hden e k
  have hlow' := Decimal.le_scale_iff low hden e k
  have hhigh := Decimal.le_scale_iff high hden e k
  have hhigh' := Decimal.scale_le_iff high hden e k
  rw [Decimal.scale_den low num] at hlow hlow'
  rw [Decimal.scale_den high num] at hhigh hhigh'
  unfold Between
  split
  · simp only [Bool.and_eq_true, decide_eq_true_eq, hlow, hhigh]
  · simp only [Bool.and_eq_true, decide_eq_true_eq, ← not_le, hlow', hhigh']

/-- Of the two decimals next to the number, one that lies in the interval is found, if there is one.
-/
theorem nearest?_cases (places : Nat) (top : Int) (num low high : Nat) (hden : 0 < den)
    (closed : Bool) {e : Int} (he : e = top - places + 1) :
    ∃ below : Nat, (below : ℚ) * 10 ^ e ≤ num / den ∧ (num : ℚ) / den < (below + 1 : Nat) * 10 ^ e ∧
      (nearest? places top num low high den closed = none ∧
          ¬ Between closed ((low : ℚ) / den) (high / den) (below * 10 ^ e) ∧
          ¬ Between closed ((low : ℚ) / den) (high / den) ((below + 1 : Nat) * 10 ^ e) ∨
        ∃ k, (k = below ∨ k = below + 1) ∧
        nearest? places top num low high den closed = some ⟨k, e⟩ ∧
          Between closed ((low : ℚ) / den) (high / den) (k * 10 ^ e)) := by
  have hpos := Decimal.scale_pos num hden e
  refine ⟨(Decimal.scale num den e).1 / (Decimal.scale num den e).2, ?_, ?_, ?_⟩
  · exact (Decimal.le_scale_iff num hden e _).mp (Nat.div_mul_le_self _ _)
  · rw [← not_le, ← Decimal.le_scale_iff num hden e, not_le]
    exact Nat.lt_mul_of_div_lt (Nat.lt_succ_self _) hpos
  · unfold nearest?
    simp only [← he]
    generalize (Decimal.scale num den e).1 / (Decimal.scale num den e).2 = below
    split
    next hin hin' =>
      right
      rw [inside_iff hden] at hin hin'
      split
      next => exact ⟨below, .inl rfl, rfl, hin⟩
      next =>
        split
        next => exact ⟨below + 1, .inr rfl, rfl, hin'⟩
        next =>
          split
          next => exact ⟨below, .inl rfl, rfl, hin⟩
          next => exact ⟨below + 1, .inr rfl, rfl, hin'⟩
    next hin hin' => exact .inr ⟨below, .inl rfl, rfl, (inside_iff hden e below).mp hin⟩
    next hin hin' => exact .inr ⟨below + 1, .inr rfl, rfl, (inside_iff hden e (below + 1)).mp hin'⟩
    next hin hin' =>
      refine .inl ⟨rfl, ?_, ?_⟩
      · rw [← inside_iff hden e below, hin]
        decide
      · rw [← inside_iff hden e (below + 1), hin']
        decide

/-- The nearest decimal of some places is between the bounds, and at most one unit of its last place
above the ratio. -/
theorem nearest?_eq_some (hden : 0 < den) {d : Decimal}
    (h : nearest? places top num low high den closed = some d) :
    d.exponent = top - places + 1 ∧ (d.digits : ℚ) * 10 ^ d.exponent ≤ num / den + 10 ^ d.exponent ∧
      Between closed ((low : ℚ) / den) (high / den) (d.digits * 10 ^ d.exponent) := by
  obtain ⟨below, hle, -, ⟨hnone, -⟩ | ⟨k, hk, hsome, hbetween⟩⟩ :=
    nearest?_cases places top num low high hden closed rfl
  · rw [hnone] at h
    cases h
  · obtain rfl := Option.some.inj (hsome.symm.trans h)
    refine ⟨rfl, ?_, hbetween⟩
    have hpos := ten_zpow_pos (top - places + 1)
    dsimp only
    rcases hk with rfl | rfl
    · linarith
    · push_cast
      linarith

/-- If any decimal of the grid lies in the interval around the number, one is found. -/
theorem exists_nearest? (places : Nat) (top : Int) (hden : 0 < den)
    (hself : Between closed ((low : ℚ) / den) (high / den) (num / den)) {k : Nat}
    (hk : Between closed ((low : ℚ) / den) (high / den) (k * 10 ^ (top - places + 1))) :
    ∃ d, nearest? places top num low high den closed = some d := by
  obtain ⟨below, hle, hlt, ⟨-, hbelow, habove⟩ | ⟨k, -, hsome, -⟩⟩ :=
    nearest?_cases places top num low high hden closed rfl
  · exfalso
    have hpos := ten_zpow_pos (top - places + 1)
    rcases Nat.lt_or_ge below k with hmore | hless
    · apply habove
      apply hself.mono hk hlt.le
      gcongr
      exact hmore
    · apply hbelow
      apply hk.mono hself _ hle
      gcongr
  · exact ⟨_, hsome⟩

/-- The search stops at the first grid with a decimal in the interval. -/
theorem exists_firstHit (fuel places : Nat) (top : Int)
    (h : ∃ i < fuel, ∃ d, nearest? (places + i) top num low high den closed = some d) :
    ∃ i < fuel, nearest? (places + i) top num low high den closed =
      some (firstHit fuel places top num low high den closed) := by
  induction fuel generalizing places with
  | zero =>
    obtain ⟨i, hi, -⟩ := h
    cases hi
  | succ fuel ih =>
    unfold firstHit
    cases hnearest : nearest? places top num low high den closed with
    | some d => exact ⟨0, Nat.succ_pos fuel, hnearest⟩
    | none =>
      obtain ⟨i, hi, d, hd⟩ := h
      cases i with
      | zero =>
        rw [Nat.add_zero, hnearest] at hd
        cases hd
      | succ i =>
        have hshift (j : Nat) : places + (j + 1) = places + 1 + j := by omega
        rw [hshift] at hd
        obtain ⟨j, hj, hfound⟩ := ih (places + 1) ⟨i, Nat.lt_of_succ_lt_succ hi, d, hd⟩
        rw [← hshift] at hfound
        exact ⟨j + 1, Nat.succ_lt_succ hj, hfound⟩

end

/-! ## The shortest decimal of a double -/

section

variable {m : Nat} {e : Int}

theorem scale_den (num num' den : Nat) (e : Int) : (scale num den e).2 = (scale num' den e).2 := by
  cases e <;> rfl

theorem scale_quarter (v : Nat) (e : Int) :
    ((scale v 1 (-(e - 2))).1 : ℚ) / (scale v 1 (-(e - 2))).2 = v * 2 ^ (e - 2) := by
  rw [scale_ratio, Nat.cast_one, div_one, zpow_neg, div_inv_eq_mul]

/-- A double is in its own reach. -/
theorem reaches_self (hm : 0 < m) (e : Int) : Reaches m e (m * 2 ^ e) := by
  have hpos := two_zpow_pos (e - 2)
  have hend : lowEnd m e + 1 ≤ 4 * m := by
    unfold lowEnd
    split <;> omega
  have hend' : (lowEnd m e : ℚ) + 1 ≤ 4 * m := by exact_mod_cast hend
  rw [four_mul_quarter e]
  apply between_of_lt <;> nlinarith

/-- The number a double stands for, with its leading power of ten and the ends of its reach, as they
are searched. -/
theorem exists_search (h : Canonical m e) (hm : 0 < m) :
    ∃ (num low high den : Nat) (top : Int), 0 < den ∧
    (num : ℚ) / den = m * 2 ^ e ∧
    (∀ x, Reaches m e x ↔ Between (m % 2 = 0) ((low : ℚ) / den) (high / den) x) ∧
    (10 : ℚ) ^ top ≤ m * 2 ^ e ∧ (m : ℚ) * 2 ^ e < 10 ^ (top + 1) ∧
    shortest m e = (firstHit 17 1 top num low high den (m % 2 = 0)).trim 20 := by
  have hpos := two_zpow_pos e
  have hnum : 0 < (scale (4 * m) 1 (-(e - 2))).1 := by
    have hratio := scale_quarter (4 * m) e
    by_contra hzero
    rw [Nat.eq_zero_of_not_pos hzero, Nat.cast_zero, zero_div] at hratio
    have hquarter := two_zpow_pos (e - 2)
    have hm' : (0 : ℚ) < (4 * m : Nat) := by exact_mod_cast (by omega : 0 < 4 * m)
    nlinarith
  have hden := scale_pos (4 * m) Nat.one_pos (-(e - 2))
  have hvalue : ((scale (4 * m) 1 (-(e - 2))).1 : ℚ) / (scale (4 * m) 1 (-(e - 2))).2 =
      m * 2 ^ e := by
    rw [scale_quarter, four_mul_quarter e]
    push_cast
    ring
  have hend (v : Nat) : ((scale v 1 (-(e - 2))).1 : ℚ) / (scale (4 * m) 1 (-(e - 2))).2 =
      v * 2 ^ (e - 2) := by
    rw [scale_den (4 * m) v, scale_quarter]
  obtain ⟨hlog, hlog'⟩ := log2_bounds hnum hden
  rw [hvalue] at hlog hlog'
  have hbits := h.least
  have hbits' := h.greatest
  have hlt := h.lt
  unfold leastExponent at hbits
  unfold greatestExponent at hbits'
  have hleast : (2 : ℚ) ^ (-1074 : Int) ≤ m * 2 ^ e := by
    have hpower : (2 : ℚ) ^ (-1074 : Int) ≤ 2 ^ e := zpow_le_zpow_right₀ one_le_two hbits
    have hm' : (1 : ℚ) ≤ m := by exact_mod_cast hm
    nlinarith
  have hgreatest : (m : ℚ) * 2 ^ e < 2 ^ (1024 : Int) := by
    have hpower : (2 : ℚ) ^ e ≤ 2 ^ (971 : Int) := zpow_le_zpow_right₀ one_le_two hbits'
    have hm' : (m : ℚ) < 2 ^ 53 := by exact_mod_cast hlt
    calc (m : ℚ) * 2 ^ e < 2 ^ 53 * 2 ^ e := by gcongr
      _ ≤ 2 ^ 53 * 2 ^ (971 : Int) := by gcongr
      _ = 2 ^ (1024 : Int) := two_pow_mul_zpow 53 971
  have hhigh := (zpow_lt_zpow_iff_right₀ one_lt_two).mp (hlog.trans hgreatest)
  have hlow := (zpow_lt_zpow_iff_right₀ one_lt_two).mp (hleast.trans_lt hlog')
  have hmagnitude := Decimal.magnitude_bounds hnum hden (by omega) (by omega)
  rw [hvalue] at hmagnitude
  refine ⟨(scale (4 * m) 1 (-(e - 2))).1, (scale (lowEnd m e) 1 (-(e - 2))).1,
    (scale (4 * m + 2) 1 (-(e - 2))).1, (scale (4 * m) 1 (-(e - 2))).2, _, hden, hvalue,
    fun x => ?_, hmagnitude.1, hmagnitude.2, rfl⟩
  rw [hend (lowEnd m e), hend (4 * m + 2)]
  push_cast
  rfl

/-- Seventeen digits are enough: the grid is finer than the reach is wide. -/
theorem exists_reaches_seventeen (h : Canonical m e) (hm : 0 < m) {top : Int}
    (htop : (10 : ℚ) ^ top ≤ m * 2 ^ e) :
    ∃ k : Nat, Reaches m e (k * 10 ^ (top - 16)) := by
  have hpos := two_zpow_pos (e - 2)
  have hstep := ten_zpow_pos (top - 16)
  have hfine : 10 ^ 16 * (10 : ℚ) ^ (top - 16) ≤ 4 * m * 2 ^ (e - 2) := by
    rw [four_mul_quarter e] at htop
    calc 10 ^ 16 * (10 : ℚ) ^ (top - 16) = 10 ^ top := by
          rw [← zpow_natCast, ← ten_zpow_add]
          congr 1
          omega
      _ ≤ 4 * m * 2 ^ (e - 2) := by linarith
  have hvalue : (m : ℚ) * 2 ^ e = 4 * m * 2 ^ (e - 2) := by
    rw [four_mul_quarter e]
    ring
  obtain ⟨k, hk, hk'⟩ : ∃ k : Nat, (k : ℚ) * 10 ^ (top - 16) ≤ m * 2 ^ e ∧
      (m : ℚ) * 2 ^ e < ((k + 1 : Nat) : ℚ) * 10 ^ (top - 16) := by
    refine ⟨⌊(m : ℚ) * 2 ^ e / 10 ^ (top - 16)⌋₊, ?_, ?_⟩
    · rw [← le_div_iff₀ hstep]
      exact Nat.floor_le (by positivity)
    · rw [← div_lt_iff₀ hstep]
      exact_mod_cast Nat.lt_floor_add_one _
  rw [hvalue] at hk hk'
  have hlt : (m : ℚ) ≤ 2 ^ 53 := by exact_mod_cast h.lt.le
  have hself := reaches_self hm e
  rw [hvalue] at hself
  have hup : ((k + 1 : Nat) : ℚ) * 10 ^ (top - 16) ≤ 4 * m * 2 ^ (e - 2) + 10 ^ (top - 16) := by
    push_cast
    linarith
  by_cases hnarrow : m = 2 ^ 52
  · -- the reach goes half a unit up, and the grid is finer than that
    have hm' : (m : ℚ) = 2 ^ 52 := by exact_mod_cast hnarrow
    refine ⟨k + 1, between_of_lt ((Between.bounds hself).1.trans_lt hk') ?_⟩
    nlinarith
  · have hend : lowEnd m e = 4 * m - 2 := if_neg fun hboth => hnarrow hboth.1
    by_cases hclose : (4 * m - 2 : ℚ) * 2 ^ (e - 2) < k * 10 ^ (top - 16)
    · refine ⟨k, between_of_lt ?_ ?_⟩
      · rwa [hend, cast_half hm]
      · linarith
    · refine ⟨k + 1, between_of_lt ((Between.bounds hself).1.trans_lt hk') ?_⟩
      push_cast
      nlinarith

/-- What is written for a double reads back as it. -/
theorem shortest_reaches (h : Canonical m e) (hm : 0 < m) :
    Reaches m e ((shortest m e).digits * 10 ^ (shortest m e).exponent) := by
  obtain ⟨num, low, high, den, top, hden, hnum, hreach, htop, -, heq⟩ := exists_search h hm
  obtain ⟨k, hk⟩ := exists_reaches_seventeen h hm htop
  have hself := reaches_self hm e
  rw [hreach] at hself hk ⊢
  rw [← hnum] at hself
  have hlast : top - ((1 + 16 : Nat) : Int) + 1 = top - 16 := by omega
  obtain ⟨i, -, hfound⟩ := exists_firstHit 17 1 top
    ⟨16, by decide, exists_nearest? 17 top hden hself (by rw [hlast]; exact hk)⟩
  rw [heq, Decimal.trim_value]
  exact (nearest?_eq_some hden hfound).2.2

theorem Reaches.pos {x : ℚ} (h : Reaches m e x) (hm : 0 < m) : 0 < x := by
  have hlow := (Between.bounds h).1
  have hend := le_lowEnd m e
  have hpos := two_zpow_pos (e - 2)
  have hm' : (1 : ℚ) ≤ m := by exact_mod_cast hm
  nlinarith

theorem Reaches.digits_pos {c : Nat} {k : Int} (h : Reaches m e (c * 10 ^ k)) (hm : 0 < m) :
    0 < c := by
  have hpos := h.pos hm
  by_contra hzero
  rw [Nat.eq_zero_of_not_pos hzero, Nat.cast_zero, zero_mul] at hpos
  exact lt_irrefl _ hpos

/-- A number of one digit in the reach of a double shows on the grid of the double's leading digit.
-/
theorem exists_reaches_leading (hm : 0 < m) {top k : Int} (htop : (10 : ℚ) ^ top ≤ m * 2 ^ e)
    {c : Nat} (hc : c < 10) (h : Reaches m e (c * 10 ^ k)) :
    ∃ n : Nat, Reaches m e (n * 10 ^ top) := by
  rcases le_or_gt top k with hle | hlt
  · obtain ⟨j, rfl⟩ := Int.le.dest hle
    refine ⟨c * 10 ^ j, ?_⟩
    have hshift : ((c * 10 ^ j : Nat) : ℚ) * 10 ^ top = c * 10 ^ (top + (j : Int)) := by
      rw [ten_zpow_add, zpow_natCast]
      push_cast
      ring
    rwa [hshift]
  · -- the leading power of ten itself lies between the two
    refine ⟨1, h.mono (reaches_self hm e) ?_ (by simpa using htop)⟩
    have hc' : (c : ℚ) ≤ 10 := by exact_mod_cast hc.le
    calc (c : ℚ) * 10 ^ k ≤ 10 * 10 ^ k := by gcongr
      _ = 10 ^ (k + 1) := by rw [add_comm, ten_zpow_add, zpow_one]
      _ ≤ 10 ^ top := zpow_le_zpow_right₀ (by norm_num) (by omega)
      _ = ((1 : Nat) : ℚ) * 10 ^ top := by rw [Nat.cast_one, one_mul]

/-- Digits up to ten are trimmed to one digit. -/
theorem trim_of_le_ten {d : Decimal} (hpos : 0 < d.digits) (h : d.digits ≤ 10) (fuel : Nat) :
    (d.trim (fuel + 2)).digits < 10 := by
  unfold Decimal.trim
  split
  next hzero =>
    have hten : d.digits = 10 := by omega
    simp [Decimal.trim, hten]
  next hkeep => omega

/-- One digit is written for a double exactly if a number of one digit reads as it. -/
theorem shortest_digits_lt_ten_iff (h : Canonical m e) (hm : 0 < m) :
    (shortest m e).digits < 10 ↔
      ∃ (c : Nat) (k : Int), 1 ≤ c ∧ c ≤ 9 ∧ Reaches m e (c * 10 ^ k) := by
  constructor
  · intro hlt
    have hreaches := shortest_reaches h hm
    exact ⟨_, _, hreaches.digits_pos hm, by omega, hreaches⟩
  · rintro ⟨c, k, -, hc, hreaches⟩
    obtain ⟨num, low, high, den, top, hden, hnum, hreach, htop, htop', heq⟩ := exists_search h hm
    obtain ⟨n, hn⟩ := exists_reaches_leading hm htop (by omega) hreaches
    have hself := reaches_self hm e
    rw [hreach] at hself hn
    rw [← hnum] at hself
    have hfirst : top - ((1 : Nat) : Int) + 1 = top := by omega
    obtain ⟨d, hd⟩ := exists_nearest? 1 top hden hself (by rw [hfirst]; exact hn)
    obtain ⟨hexponent, hle, hbetween⟩ := nearest?_eq_some hden hd
    have hfound : firstHit 17 1 top num low high den (m % 2 = 0) = d := by
      unfold firstHit
      rw [hd]
    rw [heq, hfound]
    apply trim_of_le_ten
    · exact ((hreach _).mpr hbetween).digits_pos hm
    · rw [hexponent, hfirst, hnum] at hle
      have hpos := ten_zpow_pos top
      rw [ten_zpow_add, zpow_one] at htop'
      have hlt : (d.digits : ℚ) < 11 := by
        by_contra hmore
        nlinarith
      have hlt' : d.digits < 11 := by exact_mod_cast hlt
      omega

end

end Double

end Analizador
