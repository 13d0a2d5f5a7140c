import Mathlib.Algebra.Order.Field.Power
import Mathlib.Algebra.Order.Ring.Rat
import Mathlib.Tactic.GCongr
import Mathlib.Tactic.Linarith
import Mathlib.Tactic.NormNum
import Mathlib.Tactic.Positivity
import Mathlib.Tactic.Ring
import Analizador.Number.Double

/-! # The nearest double

Rounding a ratio gives a multiple of a power of two: of the greatest one for which the ratio has 53
bits, or of the least one that doubles have. The multiple is the nearest, and a tie goes to an even
one. So no double is nearer to the ratio, not even one that is out of range. -/

namespace Analizador.Double

/-! ## Rounding to an integer -/

theorem roundHalfEven_near (num : Nat) {den : Nat} (hden : 0 < den) :
    |(num : ℚ) / den - roundHalfEven num den| ≤ 1 / 2 ∧
      (|(num : ℚ) / den - roundHalfEven num den| = 1 / 2 → Even (roundHalfEven num den)) := by
  have hpos : (0 : ℚ) < den := by exact_mod_cast hden
  obtain ⟨t, ht⟩ : ∃ t : ℚ, t = (num % den : Nat) / den := ⟨_, rfl⟩
  have hrest : ((num % den : Nat) : ℚ) = t * den := by rw [ht, div_mul_cancel₀ _ hpos.ne']
  have hsplit : (num : ℚ) / den = (num / den : Nat) + t := by
    have hcast : (num : ℚ) = den * (num / den : Nat) + (num % den : Nat) := by
      exact_mod_cast (Nat.div_add_mod num den).symm
    rw [div_eq_iff hpos.ne', hcast, hrest]
    ring
  have hnonneg : 0 ≤ t := by rw [ht]; positivity
  have hlt : t < 1 := by
    rw [ht, div_lt_one hpos]
    exact_mod_cast Nat.mod_lt num hden
  unfold roundHalfEven
  simp only [hsplit]
  split
  next hlow =>
    have hcast : (2 : ℚ) * (num % den : Nat) < den := by exact_mod_cast hlow
    have hhalf : t < 1 / 2 := by rw [hrest] at hcast; nlinarith
    rw [add_sub_cancel_left, abs_of_nonneg hnonneg]
    exact ⟨hhalf.le, fun heq => absurd heq hhalf.ne⟩
  next hlow =>
    split
    next hhigh =>
      have hcast : (den : ℚ) < 2 * (num % den : Nat) := by exact_mod_cast hhigh
      have hhalf : 1 / 2 < t := by rw [hrest] at hcast; nlinarith
      have habs : |((num / den : Nat) : ℚ) + t - (num / den + 1 : Nat)| = 1 - t := by
        rw [Nat.cast_add, Nat.cast_one, add_sub_add_left_eq_sub, abs_of_neg (by linarith), neg_sub]
      rw [habs]
      exact ⟨by linarith, fun heq => absurd heq (by linarith)⟩
    next hhigh =>
      have hcast : (2 : ℚ) * (num % den : Nat) = den := by
        exact_mod_cast (by omega : 2 * (num % den) = den)
      have hhalf : t = 1 / 2 := by rw [hrest] at hcast; nlinarith
      split
      next heven =>
        rw [add_sub_cancel_left, hhalf]
        exact ⟨by norm_num, fun _ => Nat.even_iff.mpr heven⟩
      next hodd =>
        rw [Nat.cast_add, Nat.cast_one, add_sub_add_left_eq_sub, hhalf]
        exact ⟨by norm_num, fun _ => Nat.even_iff.mpr (by omega)⟩

/-! ## Scaling -/

theorem scale_pos (num : Nat) {den : Nat} (hden : 0 < den) (e : Int) : 0 < (scale num den e).2 := by
  cases e with
  | ofNat k => exact Nat.mul_pos hden (Nat.two_pow_pos k)
  | negSucc k => exact hden

theorem scale_ratio (num den : Nat) (e : Int) :
    ((scale num den e).1 : ℚ) / (scale num den e).2 = (num : ℚ) / den / 2 ^ e := by
  cases e with
  | ofNat k =>
    simp only [scale, Nat.pow_eq, Nat.cast_mul, Nat.cast_pow, Nat.cast_ofNat, Int.ofNat_eq_natCast,
      zpow_natCast]
    rw [div_div]
  | negSucc k =>
    simp only [scale, Nat.pow_eq, Nat.cast_mul, Nat.cast_pow, Nat.cast_ofNat, zpow_negSucc,
      div_inv_eq_mul]
    rw [mul_div_right_comm]

theorem two_zpow_pos (e : Int) : (0 : ℚ) < 2 ^ e := zpow_pos two_pos e

theorem two_zpow_add (e f : Int) : (2 : ℚ) ^ (e + f) = 2 ^ e * 2 ^ f := zpow_add₀ two_ne_zero e f

theorem two_pow_mul_zpow (k : Nat) (e : Int) : (2 : ℚ) ^ k * 2 ^ e = 2 ^ ((k : Int) + e) := by
  rw [two_zpow_add, zpow_natCast]

/-- The lengths of two numbers give a ratio up to a factor of two. -/
theorem log2_bounds {num den : Nat} (hnum : 0 < num) (hden : 0 < den) :
    2 ^ ((num.log2 : Int) - den.log2 - 1) < (num : ℚ) / den ∧
      (num : ℚ) / den < 2 ^ ((num.log2 : Int) - den.log2 + 1) := by
  have hnumlow : (2 : ℚ) ^ num.log2 ≤ num := by exact_mod_cast Nat.log2_self_le hnum.ne'
  have hnumhigh : (num : ℚ) < 2 ^ (num.log2 + 1) := by exact_mod_cast Nat.lt_log2_self
  have hdenlow : (2 : ℚ) ^ den.log2 ≤ den := by exact_mod_cast Nat.log2_self_le hden.ne'
  have hdenhigh : (den : ℚ) < 2 ^ (den.log2 + 1) := by exact_mod_cast Nat.lt_log2_self
  have hnumpos : (0 : ℚ) < num := by exact_mod_cast hnum
  have hdenpos : (0 : ℚ) < den := by exact_mod_cast hden
  constructor
  · rw [sub_sub, zpow_sub₀ two_ne_zero, ← Nat.cast_succ, zpow_natCast, zpow_natCast,
      div_lt_div_iff₀ (by positivity) hdenpos]
    calc (2 : ℚ) ^ num.log2 * den ≤ num * den := by gcongr
      _ < num * 2 ^ (den.log2 + 1) := by gcongr
  · rw [sub_add_eq_add_sub, zpow_sub₀ two_ne_zero, ← Nat.cast_succ, zpow_natCast, zpow_natCast,
      div_lt_div_iff₀ hdenpos (by positivity)]
    calc (num : ℚ) * 2 ^ den.log2 ≤ num * den := by gcongr
      _ < 2 ^ (num.log2 + 1) * den := by gcongr

/-- The unit exponent is the one at which the ratio has 53 bits. -/
theorem unitExponent_bounds {num den : Nat} (hnum : 0 < num) (hden : 0 < den) :
    2 ^ 52 * 2 ^ unitExponent num den ≤ (num : ℚ) / den ∧
      (num : ℚ) / den < 2 ^ 53 * 2 ^ unitExponent num den := by
  obtain ⟨hlow, hhigh⟩ := log2_bounds hnum hden
  obtain ⟨guess, hguess⟩ : ∃ guess : Int, guess = (num.log2 : Int) - den.log2 - 52 := ⟨_, rfl⟩
  have hscale := scale_ratio num den guess
  have hpos : (0 : ℚ) < (scale num den guess).2 := by exact_mod_cast scale_pos num hden guess
  have hlow' : 2 ^ 51 * 2 ^ guess < (num : ℚ) / den := by
    rw [show (num.log2 : Int) - den.log2 - 1 = 51 + guess by omega, two_zpow_add] at hlow
    exact_mod_cast hlow
  have hhigh' : (num : ℚ) / den < 2 ^ 53 * 2 ^ guess := by
    rw [show (num.log2 : Int) - den.log2 + 1 = 53 + guess by omega, two_zpow_add] at hhigh
    exact_mod_cast hhigh
  have htest : (scale num den guess).1 < Nat.pow 2 52 * (scale num den guess).2 ↔
      (num : ℚ) / den < 2 ^ 52 * 2 ^ guess := by
    rw [← div_lt_iff₀ (two_zpow_pos guess), ← hscale, div_lt_iff₀ hpos]
    exact_mod_cast Iff.rfl
  unfold unitExponent
  simp only [← hguess, htest]
  split
  next hless =>
    have hhalf : (2 : ℚ) ^ (guess - 1) = 2 ^ guess / 2 := zpow_sub_one₀ two_ne_zero guess
    rw [hhalf]
    constructor <;> linarith
  next hmore => exact ⟨not_lt.mp hmore, hhigh'⟩

/-! ## Rounding to a multiple of a power of two -/

/-- The number `x` rounds to `m * 2 ^ e`: it has 53 bits at the exponent, or fewer if this is the
least one, and of the multiples of `2 ^ e` the one by `m` is the nearest; of two that are equally
near it is the one by an even number. -/
structure Rounds (x : ℚ) (m : Nat) (e : Int) : Prop where
  least : leastExponent ≤ e
  bits : e = leastExponent ∨ 2 ^ 52 * 2 ^ e ≤ x
  below : x < 2 ^ 53 * 2 ^ e
  near : |x - m * 2 ^ e| ≤ 2 ^ e / 2
  even : |x - m * 2 ^ e| = 2 ^ e / 2 → Even m

theorem rounds_zero : Rounds 0 0 leastExponent where
  least := le_rfl
  bits := .inl rfl
  below := mul_pos (by norm_num) (two_zpow_pos _)
  near := by
    rw [Nat.cast_zero, zero_mul, sub_zero, abs_zero]
    exact (half_pos (two_zpow_pos _)).le
  even _ := Even.zero

theorem rounds_ratio {num den : Nat} (hnum : 0 < num) (hden : 0 < den) :
    let e := max leastExponent (unitExponent num den)
    Rounds ((num : ℚ) / den) (roundHalfEven (scale num den e).1 (scale num den e).2) e := by
  intro e
  have hpos := two_zpow_pos e
  obtain ⟨hlow, hhigh⟩ := unitExponent_bounds hnum hden
  obtain ⟨hnear, heven⟩ := roundHalfEven_near (scale num den e).1 (scale_pos num hden e)
  have hdistance (m : ℚ) : |(num : ℚ) / den - m * 2 ^ e| =
      |(num : ℚ) / den / 2 ^ e - m| * 2 ^ e := by
    rw [← abs_of_pos hpos, ← abs_mul, abs_of_pos hpos, sub_mul, div_mul_cancel₀ _ hpos.ne']
  rw [scale_ratio] at hnear heven
  refine ⟨le_max_left _ _, ?_, ?_, ?_, ?_⟩
  · rcases max_choice leastExponent (unitExponent num den) with h | h
    · exact .inl h
    · right
      change 2 ^ 52 * 2 ^ max leastExponent (unitExponent num den) ≤ _
      rwa [h]
  · refine hhigh.trans_le (mul_le_mul_of_nonneg_left ?_ (by norm_num))
    exact zpow_le_zpow_right₀ one_le_two (le_max_right _ _)
  · rw [hdistance]
    nlinarith
  · intro htie
    rw [hdistance] at htie
    exact heven (by nlinarith)

section

variable {x : ℚ} {m : Nat} {e : Int}

theorem Rounds.mantissa_le (h : Rounds x m e) : m ≤ 2 ^ 53 := by
  have hpos := two_zpow_pos e
  have hnear := (abs_le.mp h.near).1
  have hbelow := h.below
  have hlt : (m : ℚ) < 2 ^ 53 + 1 := by
    by_contra hge
    nlinarith
  have hnat : m < 2 ^ 53 + 1 := by exact_mod_cast hlt
  omega

theorem Rounds.le_mantissa (h : Rounds x m e) (he : e ≠ leastExponent) : 2 ^ 52 ≤ m := by
  have hpos := two_zpow_pos e
  have hnear := (abs_le.mp h.near).2
  have hbits := h.bits.resolve_left he
  have hlt : (2 ^ 52 - 1 : ℚ) < m := by
    by_contra hge
    nlinarith
  have hnat : (2 ^ 52 : ℚ) < m + 1 := by linarith
  have hnat' : 2 ^ 52 < m + 1 := by exact_mod_cast hnat
  omega

/-- The exponent says whether a rounded number is out of range. -/
theorem Rounds.overflow_iff (h : Rounds x m e) (hm : m ≠ 2 ^ 53) :
    greatestExponent < e ↔ (2 : ℚ) ^ 1024 ≤ m * 2 ^ e := by
  have hpos := two_zpow_pos e
  constructor
  · intro he
    have hm' : (2 ^ 52 : ℚ) ≤ m := by
      have hle := h.le_mantissa (by unfold greatestExponent at he; unfold leastExponent; omega)
      exact_mod_cast hle
    have hpower : (2 : ℚ) ^ (972 : Int) ≤ 2 ^ e := zpow_le_zpow_right₀ one_le_two he
    calc (2 : ℚ) ^ 1024 = 2 ^ 52 * 2 ^ (972 : Int) := by rw [two_pow_mul_zpow]; rfl
      _ ≤ (m : ℚ) * 2 ^ e := by gcongr
  · intro hlarge
    by_contra he
    have hm' : (m : ℚ) < 2 ^ 53 := by
      have hlt : m < 2 ^ 53 := lt_of_le_of_ne h.mantissa_le hm
      exact_mod_cast hlt
    have hpower : (2 : ℚ) ^ e ≤ 2 ^ (971 : Int) := zpow_le_zpow_right₀ one_le_two (not_lt.mp he)
    have hless : (m : ℚ) * 2 ^ e < 2 ^ 1024 := by
      calc (m : ℚ) * 2 ^ e < 2 ^ 53 * 2 ^ e := by gcongr
        _ ≤ 2 ^ 53 * 2 ^ (971 : Int) := by gcongr
        _ = 2 ^ 1024 := by rw [two_pow_mul_zpow]; rfl
    exact absurd hlarge hless.not_ge

end

/-- A ratio is rounded, and the result is a double unless it is out of range. -/
theorem ofRatio_rounds (negative : Bool) (num : Nat) {den : Nat} (hden : 0 < den) :
    ∃ m e, Rounds ((num : ℚ) / den) m e ∧
      ((2 : ℚ) ^ 1024 ≤ m * 2 ^ e ∧ ofRatio negative num den = .infinite negative ∨
        (m : ℚ) * 2 ^ e < 2 ^ 1024 ∧ ∃ m' e', ofRatio negative num den = .finite negative m' e' ∧
          (m' : ℚ) * 2 ^ e' = m * 2 ^ e) := by
  unfold ofRatio
  split
  next hzero =>
    refine ⟨0, leastExponent, ?_, .inr ⟨by norm_num, 0, leastExponent, rfl, rfl⟩⟩
    rw [hzero, Nat.cast_zero, zero_div]
    exact rounds_zero
  next hnum =>
    have hrounds := rounds_ratio (Nat.pos_of_ne_zero hnum) hden
    simp only at hrounds ⊢
    generalize max leastExponent (unitExponent num den) = e at hrounds ⊢
    generalize roundHalfEven (scale num den e).1 (scale num den e).2 = m at hrounds ⊢
    refine ⟨m, e, hrounds, ?_⟩
    by_cases hm : m = Nat.pow 2 53
    · -- The mantissa has got one bit more, and the exponent makes up for it.
      have hvalue : (m : ℚ) = 2 ^ 53 := by
        rw [hm]
        norm_num
      have hcarry : ((Nat.pow 2 52 : Nat) : ℚ) * 2 ^ (e + 1) = m * 2 ^ e := by
        rw [hvalue, Nat.pow_eq, Nat.cast_pow, Nat.cast_ofNat, two_pow_mul_zpow, two_pow_mul_zpow]
        congr 1
        omega
      have hrange : greatestExponent < e + 1 ↔ (2 : ℚ) ^ 1024 ≤ m * 2 ^ e := by
        rw [hvalue, two_pow_mul_zpow, ← zpow_natCast, zpow_le_zpow_iff_right₀ one_lt_two]
        unfold greatestExponent
        omega
      rw [if_pos hm]
      simp only [hrange]
      by_cases hlarge : (2 : ℚ) ^ 1024 ≤ m * 2 ^ e
      · exact .inl ⟨hlarge, if_pos hlarge⟩
      · exact .inr ⟨not_le.mp hlarge, _, e + 1, if_neg hlarge, hcarry⟩
    · rw [if_neg hm]
      simp only [hrounds.overflow_iff hm]
      by_cases hlarge : (2 : ℚ) ^ 1024 ≤ m * 2 ^ e
      · exact .inl ⟨hlarge, if_pos hlarge⟩
      · exact .inr ⟨not_le.mp hlarge, m, e, if_neg hlarge, rfl⟩

/-! ## Nearest doubles -/

/-- The numbers that finite doubles stand for, and those that they would stand for without a
greatest exponent. -/
def IsDyadic (y : ℚ) : Prop := ∃ m e : Int, |m| < 2 ^ 53 ∧ leastExponent ≤ e ∧ y = m * 2 ^ e

/-- No dyadic number is nearer to `x` than the dyadic number `y`. -/
structure Nearest (x y : ℚ) : Prop where
  dyadic : IsDyadic y
  le : ∀ z, IsDyadic z → |x - y| ≤ |x - z|

/-- Nothing but itself is nearest to a dyadic number. -/
theorem Nearest.eq_of_dyadic {x y : ℚ} (h : Nearest x y) (hx : IsDyadic x) : x = y := by
  have hle := h.le x hx
  rw [sub_self, abs_zero, abs_nonpos_iff] at hle
  exact sub_eq_zero.mp hle

theorem IsDyadic.nearest_self {x : ℚ} (h : IsDyadic x) : Nearest x x where
  dyadic := h
  le z _ := by
    rw [sub_self, abs_zero]
    exact abs_nonneg _

theorem IsDyadic.neg {y : ℚ} (h : IsDyadic y) : IsDyadic (-y) := by
  obtain ⟨m, e, hm, he, rfl⟩ := h
  exact ⟨-m, e, by rwa [abs_neg], he, by push_cast; ring⟩

theorem Nearest.neg {x y : ℚ} (h : Nearest x y) : Nearest (-x) (-y) where
  dyadic := h.dyadic.neg
  le z hz := by
    calc |-x - -y| = |x - y| := by rw [← abs_neg, neg_sub_neg, neg_sub]
      _ ≤ |x - -z| := h.le (-z) hz.neg
      _ = |-x - z| := by
        rw [← abs_neg, neg_sub, sub_eq_add_neg, add_comm, ← sub_eq_add_neg, neg_sub_comm]

section

variable {x : ℚ} {m : Nat} {e : Int}

theorem Rounds.dyadic (h : Rounds x m e) : IsDyadic (m * 2 ^ e) := by
  by_cases hm : m = 2 ^ 53
  · refine ⟨2 ^ 52, e + 1, by norm_num, h.least.trans (by omega), ?_⟩
    rw [hm, two_zpow_add]
    push_cast
    ring
  · have hlt : m < 2 ^ 53 := lt_of_le_of_ne h.mantissa_le hm
    exact ⟨m, e, by rw [Nat.abs_cast]; exact_mod_cast hlt, h.least, rfl⟩

theorem spread (x : ℚ) (m : Nat) (n e : Int) :
    |(n : ℚ) - m| * 2 ^ e ≤ |x - m * 2 ^ e| + |x - n * 2 ^ e| := by
  have hpos := two_zpow_pos e
  calc |(n : ℚ) - m| * 2 ^ e = |(x - m * 2 ^ e) - (x - n * 2 ^ e)| := by
        rw [← abs_of_pos hpos, ← abs_mul, abs_of_pos hpos]
        ring_nf
    _ ≤ |x - m * 2 ^ e| + |x - n * 2 ^ e| := abs_sub _ _

/-- Of the multiples of the power of two, none is nearer. -/
theorem Rounds.le_multiple (h : Rounds x m e) (n : Int) : |x - m * 2 ^ e| ≤ |x - n * 2 ^ e| := by
  by_cases hn : n = m
  · rw [hn]
    rfl
  · have hpos := two_zpow_pos e
    have hgap : (1 : ℚ) ≤ |(n : ℚ) - m| := by exact_mod_cast Int.one_le_abs (sub_ne_zero.mpr hn)
    have hspread := spread x m n e
    have hnear := h.near
    nlinarith

/-- The rounded number is nearest. -/
theorem Rounds.nearest (h : Rounds x m e) : Nearest x (m * 2 ^ e) where
  dyadic := h.dyadic
  le z hz := by
    obtain ⟨n, k, hn, hk, rfl⟩ := hz
    by_cases hke : e ≤ k
    · obtain ⟨j, rfl⟩ := Int.le.dest hke
      have hmultiple : (n : ℚ) * 2 ^ (e + (j : Int)) = (n * 2 ^ j : Int) * 2 ^ e := by
        rw [two_zpow_add, zpow_natCast]
        push_cast
        ring
      rw [hmultiple]
      exact h.le_multiple _
    · -- a number with a smaller exponent is below all those with 53 bits at the exponent of the
      -- rounded one
      have hbits := h.bits.resolve_left (by omega)
      have hbound : (n : ℚ) * 2 ^ k ≤ 2 ^ 52 * 2 ^ e := by
        have hn' : (n : ℚ) ≤ 2 ^ 53 := by exact_mod_cast (le_abs_self n).trans hn.le
        have hpower : (2 : ℚ) ^ k ≤ 2 ^ (e - 1) := zpow_le_zpow_right₀ one_le_two (by omega)
        calc (n : ℚ) * 2 ^ k ≤ 2 ^ 53 * 2 ^ (e - 1) := by gcongr
          _ = 2 ^ 52 * 2 ^ e := by
            rw [two_pow_mul_zpow, two_pow_mul_zpow]
            congr 1
            omega
      have hle := h.le_multiple (2 ^ 52)
      rw [Int.cast_pow, Int.cast_ofNat] at hle
      rw [abs_of_nonneg (by linarith : 0 ≤ x - 2 ^ 52 * 2 ^ e)] at hle
      rw [abs_of_nonneg (by linarith : 0 ≤ x - n * 2 ^ k)]
      linarith

/-- Where an integer is nearest, the rounded number is an integer: a tie goes to the multiple by an
even number. -/
theorem Rounds.exists_int (h : Rounds x m e) {q : Int} (hq : Nearest x q) :
    ∃ n : Int, (m : ℚ) * 2 ^ e = n := by
  by_cases he : 0 ≤ e
  · obtain ⟨k, rfl⟩ := Int.eq_ofNat_of_zero_le he
    exact ⟨m * 2 ^ k, by push_cast; rw [zpow_natCast]⟩
  · have hpos := two_zpow_pos e
    obtain ⟨k, hk⟩ : ∃ k : Nat, e = -((k : Int) + 1) := ⟨(-e - 1).toNat, by omega⟩
    -- the integer is a multiple by an even number, too
    obtain ⟨n, hn⟩ : ∃ n : Int, n = 2 * (q * 2 ^ k) := ⟨_, rfl⟩
    have hmultiple : (q : ℚ) = n * 2 ^ e := by
      have hcancel : (2 : ℚ) ^ ((k : Int) + 1) ≠ 0 := (two_zpow_pos _).ne'
      rw [hn, hk, zpow_neg, eq_mul_inv_iff_mul_eq₀ hcancel, two_zpow_add, zpow_natCast, zpow_one]
      push_cast
      ring
    rw [hmultiple] at hq
    have hle := hq.le _ h.dyadic
    have hnear := h.near
    have hspread := spread x m n e
    by_cases hnm : n = m
    · exact ⟨q, by rw [hmultiple, hnm]; rfl⟩
    · exfalso
      have hgap : 1 ≤ |n - (m : Int)| := Int.one_le_abs (sub_ne_zero.mpr hnm)
      have hgap' : (1 : ℚ) ≤ |(n : ℚ) - m| := by exact_mod_cast hgap
      have hone : |(n : ℚ) - m| ≤ 1 := by
        by_contra hmore
        nlinarith
      have hone' : |n - (m : Int)| ≤ 1 := by exact_mod_cast hone
      have htie : |x - m * 2 ^ e| = 2 ^ e / 2 := by nlinarith
      obtain ⟨j, hj⟩ := h.even htie
      have hcases := abs_le.mp hone'
      have hne : n - (m : Int) ≠ 0 := sub_ne_zero.mpr hnm
      omega

/-- At the greatest exponent, whose power is `2 * P`, the middle between the greatest double and the
next power of two is rounded up, since the greatest mantissa is odd. -/
theorem lt_iff_of_near {P : ℚ} (hP : 0 < P) (hm : m ≤ 2 ^ 53) (hnear : |x - m * (2 * P)| ≤ P)
    (heven : |x - m * (2 * P)| = P → Even m) :
    (m : ℚ) * (2 * P) < 2 ^ 54 * P ↔ x < 2 ^ 54 * P - P := by
  have hbounds := abs_le.mp hnear
  by_cases hcarry : m = 2 ^ 53
  · have hvalue : (m : ℚ) = 2 ^ 53 := by exact_mod_cast hcarry
    rw [hvalue] at hbounds ⊢
    constructor <;> intro _ <;> linarith
  · by_cases hgreatest : m = 2 ^ 53 - 1
    · have hvalue : (m : ℚ) = 2 ^ 53 - 1 := by
        rw [hgreatest]
        norm_num
      have hodd : |x - m * (2 * P)| ≠ P := by
        intro htie
        exact absurd (heven htie) (by rw [hgreatest]; decide)
      have hlt := (abs_lt.mp (lt_of_le_of_ne hnear hodd)).2
      rw [hvalue] at hlt ⊢
      constructor <;> intro _ <;> linarith
    · have hnat : m + 2 ≤ 2 ^ 53 := by omega
      have hless : (m : ℚ) + 2 ≤ 2 ^ 53 := by exact_mod_cast hnat
      constructor <;> intro _ <;> nlinarith

/-- The numbers that are rounded to one in range: those below the middle between the greatest double
and the next power of two. -/
theorem Rounds.lt_iff (h : Rounds x m e) : (m : ℚ) * 2 ^ e < 2 ^ 1024 ↔ x < 2 ^ 1024 - 2 ^ 970 := by
  have hpower (k : Nat) : (2 : ℚ) ^ ((970 : Int) + k) = 2 ^ k * 2 ^ 970 := by
    rw [add_comm, two_zpow_add, zpow_natCast]
    rfl
  have hP : (0 : ℚ) < 2 ^ 970 := by positivity
  have hm : (m : ℚ) ≤ 2 ^ 53 := by exact_mod_cast h.mantissa_le
  have hpos := two_zpow_pos e
  rw [show (2 : ℚ) ^ 1024 = 2 ^ 54 * 2 ^ 970 by rw [← pow_add]]
  rcases lt_trichotomy e 971 with he | rfl | he
  · -- what has a smaller exponent is far below
    have hle : (2 : ℚ) ^ e ≤ 2 ^ 970 := by
      rw [← zpow_natCast]
      exact zpow_le_zpow_right₀ one_le_two (by omega)
    have hbelow := h.below
    generalize (2 : ℚ) ^ 970 = P at *
    generalize (2 : ℚ) ^ e = E at *
    constructor <;> intro _ <;> nlinarith
  · have heq : (2 : ℚ) ^ (971 : Int) = 2 * 2 ^ 970 := by simpa using hpower 1
    have hnear := h.near
    have heven := h.even
    rw [heq, mul_div_cancel_left₀ _ two_ne_zero] at hnear heven
    rw [heq]
    exact lt_iff_of_near hP h.mantissa_le hnear heven
  · -- what has a greater exponent is out of range
    have hge : 2 ^ 2 * (2 : ℚ) ^ 970 ≤ 2 ^ e := by
      rw [← hpower 2]
      exact zpow_le_zpow_right₀ one_le_two (by push_cast; omega)
    have hne : e ≠ leastExponent := by unfold leastExponent; omega
    have hbits := h.bits.resolve_left hne
    have hm' : (2 ^ 52 : ℚ) ≤ m := by exact_mod_cast h.le_mantissa hne
    generalize (2 : ℚ) ^ 970 = P at *
    generalize (2 : ℚ) ^ e = E at *
    constructor <;> intro _ <;> nlinarith

end

/-! ## Ratios of integers -/

/-- A ratio of integers that is no integer keeps a distance from all of them. -/
theorem inv_le_abs_ratio_sub {a b : Nat} (hb : 0 < b) (hab : ¬ b ∣ a) (q : Int) :
    1 / (b : ℚ) ≤ |(a : ℚ) / b - q| := by
  have hpos : (0 : ℚ) < b := by exact_mod_cast hb
  have hne : (a : Int) - q * b ≠ 0 := by
    intro hzero
    have hdvd : (b : Int) ∣ a := ⟨q, by linarith⟩
    exact hab (Int.natCast_dvd_natCast.mp hdvd)
  have hint : (1 : ℚ) ≤ |(a : ℚ) - q * b| := by exact_mod_cast Int.one_le_abs hne
  have hdistance : |(a : ℚ) / b - q| = |(a : ℚ) - q * b| / b := by
    rw [← abs_of_pos hpos, ← abs_div, abs_of_pos hpos, sub_div, mul_div_cancel_right₀ _ hpos.ne']
  rw [hdistance]
  gcongr

/-- Half the smallest positive double is rounded to zero, and so is all below it. -/
theorem nearest_zero {x : ℚ} (hx : 0 ≤ x) (hsmall : x ≤ 2 ^ leastExponent / 2) : Nearest x 0 where
  dyadic := ⟨0, leastExponent, by norm_num, le_rfl, by simp⟩
  le z hz := by
    obtain ⟨m, e, -, he, rfl⟩ := hz
    by_cases hm : m = 0
    · rw [hm, Int.cast_zero, zero_mul]
    · have hpower : (2 : ℚ) ^ leastExponent ≤ 2 ^ e := zpow_le_zpow_right₀ one_le_two he
      have hm' : (1 : ℚ) ≤ |(m : ℚ)| := by exact_mod_cast Int.one_le_abs hm
      have hz : (2 : ℚ) ^ leastExponent ≤ |(m : ℚ) * 2 ^ e| := by
        rw [abs_mul, abs_of_pos (two_zpow_pos e)]
        nlinarith [two_zpow_pos e]
      have htriangle : |(m : ℚ) * 2 ^ e| - |x| ≤ |m * 2 ^ e - x| := abs_sub_abs_le_abs_sub _ _
      rw [sub_zero, abs_sub_comm x, abs_of_nonneg hx]
      rw [abs_of_nonneg hx] at htriangle
      linarith

/-- Near the least exponent, zero is the only integer. -/
theorem eq_zero_of_near {x : ℚ} (hx : 0 ≤ x) (hbelow : x < 2 ^ 53 * 2 ^ leastExponent) {q : Int}
    (hq : |x - q| ≤ 2 ^ leastExponent / 2) : q = 0 := by
  have hpower : (2 : ℚ) ^ leastExponent ≤ 2 ^ (-60 : Int) :=
    zpow_le_zpow_right₀ one_le_two (by decide)
  have hvalue : (2 : ℚ) ^ (-60 : Int) = 1 / 2 ^ 60 := by norm_num
  rw [hvalue] at hpower
  have hbounds := abs_le.mp hq
  have hlow : (-1 : ℚ) < q := by linarith
  have hhigh : (q : ℚ) < 1 := by linarith
  have hlow' : -1 < q := by exact_mod_cast hlow
  have hhigh' : q < 1 := by exact_mod_cast hhigh
  omega

/-- A ratio that is no integer, of a number of at most 53 bits, is nearest to an integer only if it
is nearest to zero. -/
theorem exists_nearest_int_iff {a b : Nat} (hb : 0 < b) (hab : ¬ b ∣ a) (ha : a ≤ 2 ^ 53) :
    (∃ q : Int, Nearest ((a : ℚ) / b) q) ↔ a * 2 ^ 1075 ≤ b := by
  have hpos : (0 : ℚ) < b := by exact_mod_cast hb
  have hnonneg : 0 ≤ (a : ℚ) / b := by positivity
  have hsmall : a * 2 ^ 1075 ≤ b ↔ (a : ℚ) / b ≤ 2 ^ leastExponent / 2 := by
    have hhalf : (2 : ℚ) ^ leastExponent / 2 = 1 / 2 ^ 1075 := by
      rw [div_eq_mul_inv, ← zpow_sub_one₀ two_ne_zero, one_div, ← zpow_natCast, ← zpow_neg]
      rfl
    rw [hhalf, div_le_div_iff₀ hpos (by positivity), one_mul]
    exact_mod_cast Iff.rfl
  rw [hsmall]
  constructor
  · rintro ⟨q, hq⟩
    have hapos : 0 < a := Nat.pos_of_ne_zero fun hzero => hab (hzero ▸ dvd_zero b)
    obtain ⟨m, e, h⟩ : ∃ m e, Rounds ((a : ℚ) / b) m e := ⟨_, _, rounds_ratio hapos hb⟩
    have hapart := inv_le_abs_ratio_sub hb hab q
    have hle := hq.le _ h.dyadic
    have hnear := h.near
    by_cases he : e = leastExponent
    · subst he
      obtain rfl := eq_zero_of_near hnonneg h.below (hle.trans hnear)
      rw [Int.cast_zero, sub_zero, abs_of_nonneg hnonneg] at hle
      exact hle.trans hnear
    · exfalso
      have hbits := h.bits.resolve_left he
      have hratio : (a : ℚ) / b ≤ 2 ^ 53 * (1 / b) := by
        rw [div_eq_mul_one_div]
        gcongr
        exact_mod_cast ha
      -- the distances leave only a power of two, which is rounded to itself
      have hpower : (a : ℚ) / b = 2 ^ 52 * 2 ^ e := by linarith
      have hdyadic : IsDyadic ((a : ℚ) / b) :=
        ⟨2 ^ 52, e, by norm_num, h.least, by rw [hpower]; norm_num⟩
      rw [← h.nearest.eq_of_dyadic hdyadic, sub_self, abs_zero] at hle
      have hinv : 0 < 1 / (b : ℚ) := by positivity
      linarith
  · intro hle
    exact ⟨0, by exact_mod_cast nearest_zero hnonneg hle⟩

end Analizador.Double
