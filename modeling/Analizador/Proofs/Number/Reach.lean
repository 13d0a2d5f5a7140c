import Analizador.Proofs.Number.Rounding

/-! # The reach of a double

A finite double is the nearest one to the numbers of an interval around it. The interval goes half a
unit up and half a unit down; below a power of two, where units are half as large, it goes down by a
quarter only. Its ends belong to it if the mantissa is even. So a ratio is read as a double exactly
if it lies in the reach of this double. -/

namespace Analizador.Double

/-- The form of a finite double: its mantissa has 53 bits, or fewer at the least exponent. -/
structure Canonical (m : Nat) (e : Int) : Prop where
  least : leastExponent ≤ e
  greatest : e ≤ greatestExponent
  lt : m < 2 ^ 53
  bits : e = leastExponent ∨ 2 ^ 52 ≤ m

/-- Whether a number lies between two others, which count if the interval is closed. -/
def Between (closed : Bool) (low high x : ℚ) : Prop :=
  if closed then low ≤ x ∧ x ≤ high else low < x ∧ x < high

/-- The lower end of the reach of a double, in quarters of its unit. -/
def lowEnd (m : Nat) (e : Int) : Nat :=
  if m = 2 ^ 52 ∧ leastExponent < e then 4 * m - 1 else 4 * m - 2

/-- The number `x` lies in the reach of the double `m * 2 ^ e`. -/
def Reaches (m : Nat) (e : Int) (x : ℚ) : Prop :=
  Between (m % 2 = 0) (lowEnd m e * 2 ^ (e - 2)) ((4 * m + 2) * 2 ^ (e - 2)) x

section

variable {closed : Bool} {low high x y z : ℚ}

theorem Between.bounds (h : Between closed low high x) : low ≤ x ∧ x ≤ high := by
  unfold Between at h
  split at h
  · exact h
  · exact ⟨h.1.le, h.2.le⟩

theorem between_of_lt (hlow : low < x) (hhigh : x < high) : Between closed low high x := by
  unfold Between
  split
  · exact ⟨hlow.le, hhigh.le⟩
  · exact ⟨hlow, hhigh⟩

/-- What lies between two numbers of an interval lies in it. -/
theorem Between.mono (hx : Between closed low high x) (hz : Between closed low high z) (hxy : x ≤ y)
    (hyz : y ≤ z) :
    Between closed low high y := by
  unfold Between at hx hz ⊢
  split at hx
  next hclosed =>
    rw [if_pos hclosed] at hz
    rw [if_pos hclosed]
    exact ⟨hx.1.trans hxy, hyz.trans hz.2⟩
  next hopen =>
    rw [if_neg hopen] at hz
    rw [if_neg hopen]
    exact ⟨hx.1.trans_le hxy, hyz.trans_lt hz.2⟩

end

/-! ## Rounding determines its result -/

section

variable {x : ℚ} {m m' : Nat} {e e' : Int}

theorem four_mul_quarter (e : Int) : (2 : ℚ) ^ e = 4 * 2 ^ (e - 2) := by
  rw [show e = 2 + (e - 2) by omega, two_zpow_add]
  norm_num

theorem Rounds.exponent_le (h : Rounds x m e) (h' : Rounds x m' e') : e' ≤ e := by
  by_contra hlt
  have hpower : (2 : ℚ) ^ (e + 1) ≤ 2 ^ e' := zpow_le_zpow_right₀ one_le_two (by omega)
  have hleast := h.least
  have hbits := h'.bits.resolve_left (by omega)
  have hbelow := h.below
  rw [two_zpow_add, zpow_one] at hpower
  linarith

theorem Rounds.mantissa_eq (h : Rounds x m e) (h' : Rounds x m' e) : m = m' := by
  by_contra hne
  have hpos := two_zpow_pos e
  have hspread := spread x m m' e
  have hnear := h.near
  have hnear' := h'.near
  rw [Int.cast_natCast] at hspread
  have hgap : 1 ≤ |(m' : Int) - m| := Int.one_le_abs (by omega)
  have hgap' : (1 : ℚ) ≤ |(m' : ℚ) - m| := by exact_mod_cast hgap
  have hone : |(m' : ℚ) - m| ≤ 1 := by
    by_contra hmore
    nlinarith
  have hone' : |(m' : Int) - m| ≤ 1 := by exact_mod_cast hone
  -- both are as far as can be, so both mantissas are even, but they are neighbours
  have heven : Even m := h.even (by nlinarith)
  have heven' : Even m' := h'.even (by nlinarith)
  obtain ⟨j, hj⟩ := heven
  obtain ⟨j', hj'⟩ := heven'
  have hcases := abs_le.mp hone'
  omega

theorem Rounds.unique (h : Rounds x m e) (h' : Rounds x m' e') : m = m' ∧ e = e' := by
  obtain rfl : e = e' := le_antisymm (h'.exponent_le h) (h.exponent_le h')
  exact ⟨h.mantissa_eq h', rfl⟩

end

/-- The double of a rounded mantissa, which may have got one bit too many. -/
def normal (negative : Bool) (m : Nat) (e : Int) : Double :=
  let (m, e) := if m = 2 ^ 53 then (2 ^ 52, e + 1) else (m, e)
  if greatestExponent < e then .infinite negative else .finite negative m e

theorem exists_rounds_ofRatio (negative : Bool) (num : Nat) {den : Nat} (hden : 0 < den) :
    ∃ m e, Rounds ((num : ℚ) / den) m e ∧ ofRatio negative num den = normal negative m e := by
  unfold ofRatio
  split
  next hzero =>
    refine ⟨0, leastExponent, ?_, rfl⟩
    rw [hzero, Nat.cast_zero, zero_div]
    exact rounds_zero
  next hnum => exact ⟨_, _, rounds_ratio (Nat.pos_of_ne_zero hnum) hden, rfl⟩

theorem ofRatio_eq_normal {num den m : Nat} {e : Int} (negative : Bool) (hden : 0 < den)
    (h : Rounds ((num : ℚ) / den) m e) : ofRatio negative num den = normal negative m e := by
  obtain ⟨m', e', h', heq⟩ := exists_rounds_ofRatio negative num hden
  obtain ⟨rfl, rfl⟩ := h.unique h'
  exact heq

section

variable {negative : Bool} {x : ℚ} {m m' : Nat} {e e' : Int}

/-- A rounded mantissa is that of the double, or it has got one bit too many. -/
theorem normal_eq_finite_iff : normal negative m e = .finite negative m' e' ↔
    e' ≤ greatestExponent ∧ (m ≠ 2 ^ 53 ∧ m = m' ∧ e = e' ∨ m = 2 ^ 53 ∧ m' = 2 ^ 52 ∧
      e' = e + 1) := by
  unfold normal
  by_cases hm : m = 2 ^ 53
  · rw [if_pos hm]
    by_cases he : greatestExponent < e + 1
    · simp only [he, if_true, reduceCtorEq, false_iff]
      omega
    · simp only [he, if_false, finite.injEq, true_and]
      omega
  · rw [if_neg hm]
    by_cases he : greatestExponent < e
    · simp only [he, if_true, reduceCtorEq, false_iff]
      omega
    · simp only [he, if_false, finite.injEq, true_and]
      omega

theorem Rounds.canonical (h : Rounds x m e) (heq : normal negative m e = .finite negative m' e') :
    Canonical m' e' := by
  have hleast := h.least
  have hle := h.mantissa_le
  obtain ⟨hgreatest, ⟨hm, rfl, rfl⟩ | ⟨-, rfl, rfl⟩⟩ := normal_eq_finite_iff.mp heq
  · refine ⟨hleast, hgreatest, by omega, ?_⟩
    by_cases he : e = leastExponent
    · exact .inl he
    · exact .inr (h.le_mantissa he)
  · exact ⟨by omega, hgreatest, by norm_num, .inr le_rfl⟩

theorem canonical_of_ofRatio {num den : Nat} (hden : 0 < den)
    (h : ofRatio negative num den = .finite negative m e) :
    Canonical m e := by
  obtain ⟨m', e', hrounds, heq⟩ := exists_rounds_ofRatio negative num hden
  exact hrounds.canonical (heq.symm.trans h)

/-! ## Reach and rounding -/

theorem reaches_of_even (h : Even m) :
    Reaches m e x ↔ lowEnd m e * 2 ^ (e - 2) ≤ x ∧ x ≤ (4 * m + 2) * 2 ^ (e - 2) := by
  simp [Reaches, Between, Nat.even_iff.mp h]

theorem reaches_of_odd (h : ¬ Even m) :
    Reaches m e x ↔ lowEnd m e * 2 ^ (e - 2) < x ∧ x < (4 * m + 2) * 2 ^ (e - 2) := by
  simp [Reaches, Between, Nat.not_even_iff.mp h]

theorem cast_half (h : 0 < m) : ((4 * m - 2 : Nat) : ℚ) = 4 * m - 2 := by
  rw [Nat.cast_sub (by omega)]
  norm_num

/-- The lower end is no lower than half a unit below the double. -/
theorem le_lowEnd (m : Nat) (e : Int) : (4 * m - 2 : ℚ) ≤ lowEnd m e := by
  have hle : 4 * m ≤ lowEnd m e + 2 := by
    unfold lowEnd
    split <;> omega
  have hcast : (4 * m : ℚ) ≤ lowEnd m e + 2 := by exact_mod_cast hle
  linarith

/-- A rounded number lies in the reach of the double. -/
theorem Rounds.reaches (h : Rounds x m e) (hx : 0 ≤ x) (hm : m ≠ 2 ^ 53) : Reaches m e x := by
  have hpos := two_zpow_pos (e - 2)
  have hnear := abs_le.mp h.near
  have hbits := h.bits
  have heven := h.even
  rw [four_mul_quarter e] at hnear hbits heven
  have hlow : (lowEnd m e : ℚ) * 2 ^ (e - 2) ≤ x := by
    unfold lowEnd
    split
    next hnarrow =>
      -- a power of two is rounded to from above only
      have hle := hbits.resolve_left (by omega)
      have hcast : ((4 * m - 1 : Nat) : ℚ) ≤ 2 ^ 54 := by
        rw [hnarrow.1]
        norm_num
      nlinarith
    next =>
      rcases Nat.eq_zero_or_pos m with rfl | hmpos
      · simpa using hx
      · rw [cast_half hmpos]
        linarith
  by_cases hparity : Even m
  · rw [reaches_of_even hparity]
    exact ⟨hlow, by linarith⟩
  · have hodd := Nat.not_even_iff.mp hparity
    have hlt :=
      abs_lt.mp (lt_of_le_of_ne (by simpa [four_mul_quarter e] using h.near) (mt heven hparity))
    have hend : lowEnd m e = 4 * m - 2 := if_neg fun hnarrow => by omega
    rw [reaches_of_odd hparity, hend, cast_half (by omega)]
    constructor <;> linarith

/-- A number whose mantissa has got one bit too many lies in the reach of a power of two. -/
theorem Rounds.reaches_carry (h : Rounds x (2 ^ 53) e) : Reaches (2 ^ 52) (e + 1) x := by
  have hpos := two_zpow_pos (e - 2)
  have hleast := h.least
  have hnear := abs_le.mp h.near
  have hbelow := h.below
  have hunit : (2 : ℚ) ^ (e + 1 - 2) = 2 * 2 ^ (e - 2) := by
    rw [show e + 1 - 2 = 1 + (e - 2) by omega, two_zpow_add, zpow_one]
  have hend : lowEnd (2 ^ 52) (e + 1) = 4 * 2 ^ 52 - 1 := if_pos ⟨rfl, by omega⟩
  rw [four_mul_quarter e] at hnear hbelow
  rw [reaches_of_even ⟨2 ^ 51, by norm_num⟩, hend, hunit]
  push_cast at hnear ⊢
  constructor <;> linarith

/-- A number in the reach of a double rounds to it, or to a mantissa with one bit too many if it
lies below a power of two. -/
theorem Reaches.rounds (h : Reaches m e x) (hcanonical : Canonical m e) :
    Rounds x m e ∨ m = 2 ^ 52 ∧ Rounds x (2 ^ 53) (e - 1) := by
  obtain ⟨hlow, hhigh⟩ := Between.bounds h
  have hpos := two_zpow_pos (e - 2)
  have hend : (4 * m - 2 : ℚ) * 2 ^ (e - 2) ≤ lowEnd m e * 2 ^ (e - 2) := by
    gcongr
    exact le_lowEnd m e
  by_cases hbits : e = leastExponent ∨ 2 ^ 52 * 2 ^ e ≤ x
  · left
    have hlt : (m : ℚ) + 1 ≤ 2 ^ 53 := by exact_mod_cast hcanonical.lt
    refine ⟨hcanonical.least, hbits, ?_, ?_, ?_⟩
    · rw [four_mul_quarter e]
      nlinarith
    · rw [four_mul_quarter e, abs_le]
      constructor <;> linarith
    · rw [four_mul_quarter e]
      intro htie
      by_contra hodd
      obtain ⟨hlow', hhigh'⟩ := (reaches_of_odd hodd).mp h
      rcases abs_eq (by positivity) |>.mp htie with htie | htie <;> linarith
  · right
    obtain ⟨hleast, hbelow⟩ := not_or.mp hbits
    rw [not_le, four_mul_quarter e] at hbelow
    -- only a power of two is reached from below the numbers of 53 bits
    have hm : m = 2 ^ 52 := by
      have hge := hcanonical.bits.resolve_left hleast
      by_contra hne
      have hgt : 2 ^ 52 + 1 ≤ m := by omega
      have hgt' : (2 ^ 52 + 1 : ℚ) ≤ m := by exact_mod_cast hgt
      nlinarith
    refine ⟨hm, ?_⟩
    have hquarter : (2 : ℚ) ^ (e - 1) = 2 * 2 ^ (e - 2) := by
      rw [show e - 1 = 1 + (e - 2) by omega, two_zpow_add, zpow_one]
    have hleast' := hcanonical.least
    have hend' : lowEnd m e = 4 * 2 ^ 52 - 1 := by
      rw [hm]
      exact if_pos ⟨rfl, by omega⟩
    rw [hend'] at hlow
    push_cast at hlow
    refine ⟨by omega, .inr ?_, ?_, ?_, fun _ => ⟨2 ^ 52, by norm_num⟩⟩
    · rw [hquarter]
      linarith
    · rw [hquarter]
      linarith
    · rw [hquarter, abs_le]
      push_cast
      constructor <;> linarith

/-- A ratio is read as a double exactly if it lies in its reach. -/
theorem ofRatio_eq_finite_iff {num den : Nat} (negative : Bool) (hden : 0 < den)
    (hcanonical : Canonical m e) :
    ofRatio negative num den = .finite negative m e ↔ Reaches m e ((num : ℚ) / den) := by
  constructor
  · intro heq
    obtain ⟨m', e', hrounds, hnormal⟩ := exists_rounds_ofRatio negative num hden
    rw [hnormal] at heq
    obtain ⟨-, ⟨hm, rfl, rfl⟩ | ⟨rfl, rfl, rfl⟩⟩ := normal_eq_finite_iff.mp heq
    · exact hrounds.reaches (by positivity) hm
    · exact hrounds.reaches_carry
  · intro h
    rcases h.rounds hcanonical with hrounds | ⟨hm, hrounds⟩
    · have hlt := hcanonical.lt
      rw [ofRatio_eq_normal negative hden hrounds, normal_eq_finite_iff]
      exact ⟨hcanonical.greatest, .inl ⟨by omega, rfl, rfl⟩⟩
    · rw [ofRatio_eq_normal negative hden hrounds, normal_eq_finite_iff]
      exact ⟨hcanonical.greatest, .inr ⟨rfl, hm, by omega⟩⟩

end

end Analizador.Double
