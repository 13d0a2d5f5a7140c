import Analizador.Program
import Analizador.Proofs.Number.Shortest
import Analizador.Proofs.Numeral

/-! # The numbers of literals

A decimal literal is read as the double nearest to the number it writes. The text of a double has no
point if the double is infinite, or if one digit with an exponent is enough for it. -/

namespace Analizador

namespace Double

/-! ## Points in texts -/

theorem point_notMem_toDigits (n : Nat) : '.' ∉ Nat.toDigits 10 n := by
  intro hmem
  exact absurd (Nat.isDigit_of_mem_toDigits (by decide) (by decide) hmem) (by decide)

/-- A point is set unless one digit is written with an exponent. -/
theorem point_mem_write (d : Decimal) :
    '.' ∈ (layout.write d).toList ↔ ¬ (d.digits < 10 ∧ (d.exponent ≤ -5 ∨ 16 ≤ d.exponent)) := by
  have hlength : (Nat.toDigits 10 d.digits).length ≤ 1 ↔ d.digits < 10 :=
    Nat.length_toDigits_le_iff (by decide) (by decide)
  have hpos : 0 < (Nat.toDigits 10 d.digits).length := Nat.length_toDigits_pos
  have hpoint := point_notMem_toDigits d.digits
  unfold Layout.write
  simp only [Nat.toString_eq_ofList_toDigits, String.toList_ofList, layout]
  generalize Nat.toDigits 10 d.digits = chars at hlength hpos hpoint ⊢
  split
  next hplain =>
    have hright : ¬ (d.digits < 10 ∧ (d.exponent ≤ -5 ∨ 16 ≤ d.exponent)) := by omega
    simp only [hright, not_false_eq_true, iff_true]
    split
    next => simp
    next => split <;> simp
  next hplain =>
    have hsign (b : Prop) [Decidable b] : '.' ∉ (if b then "-" else "+").toList := by
      split <;> decide
    match chars with
    | [] => cases hpos
    | [c] =>
      have hleft : d.digits < 10 ∧ (d.exponent ≤ -5 ∨ 16 ≤ d.exponent) := by
        simp only [List.length_singleton] at hlength hplain
        omega
      simpa [hleft, hsign, point_notMem_toDigits] using hpoint
    | c :: c' :: rest =>
      have hleft : ¬ d.digits < 10 := by
        simp only [List.length_cons] at hlength
        omega
      simp [hleft]

/-- Only near zero does the reach of a double hold two numbers of which one is a tenth greater than
the other. -/
theorem Reaches.lt_of_apart {m : Nat} {e : Int} {y z : ℚ} (hy : Reaches m e y) (hz : Reaches m e z)
    (h : Canonical m e) (hgap : 10 * y ≤ 9 * z) : z < 10 ^ (-4 : Int) := by
  have hpos := two_zpow_pos (e - 2)
  have hlow := (Between.bounds hy).1
  have hhigh := (Between.bounds hz).2
  have hend := le_lowEnd m e
  have hsmall : (m : ℚ) < 10 := by
    by_contra hlarge
    nlinarith
  have hleast : e = leastExponent := by
    refine h.bits.resolve_right fun hbits => ?_
    have hsmall' : m < 10 := by exact_mod_cast hsmall
    omega
  have hpower : (2 : ℚ) ^ (e - 2) ≤ 2 ^ (-20 : Int) := by
    rw [hleast]
    exact zpow_le_zpow_right₀ one_le_two (by decide)
  have htwo : (2 : ℚ) ^ (-20 : Int) = 1 / 2 ^ 20 := by norm_num
  have hten : (10 : ℚ) ^ (-4 : Int) = 1 / 10 ^ 4 := by norm_num
  rw [htwo] at hpower
  rw [hten]
  nlinarith

/-- The one-digit numbers in the reach of a double are all written with an exponent, or none of them
is. -/
theorem Reaches.needs_exponent {m : Nat} {e : Int} (h : Canonical m e) {c c' : Nat} {k k' : Int}
    (hc : 1 ≤ c) (hc' : 1 ≤ c') (hlt : c ≤ 9) (hlt' : c' ≤ 9) (hreaches : Reaches m e (c * 10 ^ k))
    (hreaches' : Reaches m e (c' * 10 ^ k')) (hk : k ≤ -5 ∨ 16 ≤ k) : k' ≤ -5 ∨ 16 ≤ k' := by
  have hdigits {c : Nat} (hc : 1 ≤ c) (hlt : c ≤ 9) {a b k : Int} (ha : a ≤ k) (hb : k ≤ b) :
      (10 : ℚ) ^ a ≤ c * 10 ^ k ∧ (c : ℚ) * 10 ^ k ≤ 9 * 10 ^ b := by
    have hc' : (1 : ℚ) ≤ c := by exact_mod_cast hc
    have hlt' : (c : ℚ) ≤ 9 := by exact_mod_cast hlt
    have hpos := ten_zpow_pos k
    have hlow : (10 : ℚ) ^ a ≤ 10 ^ k := zpow_le_zpow_right₀ (by norm_num) ha
    have hhigh : (10 : ℚ) ^ k ≤ 10 ^ b := zpow_le_zpow_right₀ (by norm_num) hb
    constructor <;> nlinarith
  by_contra hplain
  obtain ⟨hlow', hhigh'⟩ := hdigits hc' hlt' (a := -4) (b := 15) (k := k') (by omega) (by omega)
  have hnumbers : 10 * (9 * (10 : ℚ) ^ (-5 : Int)) = 9 * 10 ^ (-4 : Int) ∧
      10 * (9 * (10 : ℚ) ^ (15 : Int)) = 9 * 10 ^ (16 : Int) ∧
      (10 : ℚ) ^ (-4 : Int) < 10 ^ (16 : Int) := by norm_num
  rcases hk with hk | hk
  · obtain ⟨-, hhigh⟩ := hdigits hc hlt (a := k) (b := -5) (k := k) le_rfl hk
    have hsmall := hreaches.lt_of_apart hreaches' h (by linarith)
    linarith
  · obtain ⟨hlow, -⟩ := hdigits hc hlt (a := 16) (b := k) (k := k) hk le_rfl
    have hsmall := hreaches'.lt_of_apart hreaches h (by linarith)
    linarith

/-- The text of a positive double has no point exactly if a number of one digit, to be written with
an exponent, reads as the double. -/
theorem point_mem_toText {m : Nat} {e : Int} (h : Canonical m e) (hm : 0 < m) :
    '.' ∈ (toText (.finite false m e)).toList ↔
      ¬ ∃ (c : Nat) (k : Int), 1 ≤ c ∧ c ≤ 9 ∧ (k ≤ -5 ∨ 16 ≤ k) ∧ Reaches m e (c * 10 ^ k) := by
  have htext : toText (.finite false m e) = layout.write (shortest m e) := by
    simp [toText, hm.ne']
  rw [htext, point_mem_write, not_iff_not]
  constructor
  · rintro ⟨hlt, hexponent⟩
    have hreaches := shortest_reaches h hm
    exact ⟨_, _, hreaches.digits_pos hm, by omega, hexponent, hreaches⟩
  · rintro ⟨c, k, hc, hc', hk, hreaches⟩
    have hlt := (shortest_digits_lt_ten_iff h hm).mpr ⟨c, k, hc, hc', hreaches⟩
    have hreaches' := shortest_reaches h hm
    exact ⟨hlt, Reaches.needs_exponent h hc (hreaches'.digits_pos hm) hc'
      (by omega) hreaches hreaches' hk⟩

/-! ## Rounding numbers -/

/-- The number `x`, which is not negative, is rounded to the double `d`. -/
def RoundsTo (x : ℚ) (d : Double) : Prop :=
  ∃ num den : Nat, 0 < den ∧ (num : ℚ) / den = x ∧ ofRatio false num den = d

/-- One and the same positive double is the nearest to both numbers. -/
def SameDouble (x y : ℚ) : Prop := ∃ m e, 0 < m ∧ Canonical m e ∧ Reaches m e x ∧ Reaches m e y

/-- The numbers that are rounded to a double whose text has no point: those that are out of range,
and those that read like one digit with an exponent. -/
def Pointless (x : ℚ) : Prop :=
  2 ^ 1024 - 2 ^ 970 ≤ x ∨ ∃ (c : Nat) (k : Int), 1 ≤ c ∧ c ≤ 9 ∧ (k ≤ -5 ∨ 16 ≤ k) ∧
    SameDouble x (c * 10 ^ k)

section

variable {x : ℚ} {m : Nat} {e : Int}

theorem ofRatio_eq_infinite_iff (negative : Bool) (num : Nat) {den : Nat} (hden : 0 < den) :
    ofRatio negative num den = .infinite negative ↔ (2 : ℚ) ^ 1024 - 2 ^ 970 ≤ (num : ℚ) / den := by
  obtain ⟨m, e, hrounds, ⟨hlarge, heq⟩ | ⟨hsmall, m', e', heq, -⟩⟩ :=
    ofRatio_rounds negative num hden
  · rw [← not_lt, ← hrounds.lt_iff, heq]
    simpa using hlarge
  · rw [← not_lt, ← hrounds.lt_iff, heq]
    simpa using hsmall

theorem canonical_zero : Canonical 0 leastExponent := ⟨le_rfl, by decide, by norm_num, .inl rfl⟩

/-- What is no more than half the smallest positive double is rounded to zero. -/
theorem ofRatio_eq_zero {num den : Nat} (hden : 0 < den) (h : (num : ℚ) / den ≤ 2 ^ (-1075 : Int)) :
    ofRatio false num den = zero false := by
  rw [show zero false = .finite false 0 leastExponent from rfl,
    ofRatio_eq_finite_iff false hden canonical_zero, reaches_of_even Even.zero]
  have hend : lowEnd 0 leastExponent = 0 := rfl
  rw [hend, Nat.cast_zero, zero_mul]
  refine ⟨by positivity, ?_⟩
  calc (num : ℚ) / den ≤ 2 ^ (-1075 : Int) := h
    _ = (4 * 0 + 2) * 2 ^ (leastExponent - 2) := by
      rw [mul_zero, zero_add, show (-1075 : Int) =
        1 + (leastExponent - 2) by decide, two_zpow_add, zpow_one]

theorem ofRatio_cases (negative : Bool) (num : Nat) {den : Nat} (hden : 0 < den) :
    ofRatio negative num den = .infinite negative ∨
      ∃ m e, Canonical m e ∧ ofRatio negative num den = .finite negative m e := by
  obtain ⟨-, -, -, ⟨-, heq⟩ | ⟨-, m, e, heq, -⟩⟩ := ofRatio_rounds negative num hden
  · exact .inl heq
  · exact .inr ⟨m, e, canonical_of_ofRatio hden heq, heq⟩

/-- The number of a positive double reads like another exactly if the other lies in the reach of the
double. -/
theorem sameDouble_iff {num den : Nat} (hden : 0 < den)
    (h : ofRatio false num den = .finite false m e) (hm : 0 < m) (y : ℚ) :
    SameDouble ((num : ℚ) / den) y ↔ Reaches m e y := by
  have hcanonical := canonical_of_ofRatio hden h
  constructor
  · rintro ⟨m', e', -, hcanonical', hx, hy⟩
    have heq := (ofRatio_eq_finite_iff false hden hcanonical').mpr hx
    obtain ⟨-, rfl, rfl⟩ := finite.inj (h.symm.trans heq)
    exact hy
  · intro hy
    exact ⟨m, e, hm, hcanonical, (ofRatio_eq_finite_iff false hden hcanonical).mp h, hy⟩

/-- The text of the double that a number is rounded to. -/
theorem RoundsTo.point_mem_iff {d : Double} (h : RoundsTo x d) :
    '.' ∈ d.toText.toList ↔ ¬ Pointless x := by
  obtain ⟨num, den, hden, rfl, rfl⟩ := h
  have hinfinite := ofRatio_eq_infinite_iff false num hden
  unfold Pointless
  rw [← hinfinite]
  rcases ofRatio_cases false num hden with heq | ⟨m, e, hcanonical, heq⟩
  · simp [heq, toText]
  · rw [heq]
    simp only [reduceCtorEq, false_or]
    rcases Nat.eq_zero_or_pos m with rfl | hm
    · -- a number that is rounded to zero reads like no positive one
      have hnone : ¬ ∃ (c : Nat) (k : Int), 1 ≤ c ∧ c ≤ 9 ∧ (k ≤ -5 ∨ 16 ≤ k) ∧
          SameDouble ((num : ℚ) / den) (c * 10 ^ k) := by
        rintro ⟨c, k, -, -, -, m, e', hm, hcanonical', hreaches, -⟩
        have heq' := (ofRatio_eq_finite_iff false hden hcanonical').mpr hreaches
        obtain ⟨-, rfl, -⟩ := finite.inj (heq.symm.trans heq')
        exact absurd hm (lt_irrefl 0)
      simpa [toText] using hnone
    · simp only [point_mem_toText hcanonical hm, sameDouble_iff hden heq hm]

end

end Double

namespace Numeral

open Double

/-! ## Reading decimals -/

/-- The number that digits, a point and digits write. -/
def written (ds es : List Char) : ℚ := Nat.ofDigitChars 10 (ds ++ es) 0 / 10 ^ es.length

theorem le_foldl_digits (ds : List Nat) (n : Nat) :
    n * 10 ^ ds.length ≤ ds.foldl (fun n d => 10 * n + d) n := by
  induction ds generalizing n with
  | nil => simp
  | cons d ds ih =>
    calc n * 10 ^ (d :: ds).length =
      10 * n * 10 ^ ds.length := by rw [List.length_cons, Nat.pow_succ]; ac_rfl
      _ ≤ (10 * n + d) * 10 ^ ds.length := Nat.mul_le_mul_right _ (Nat.le_add_right _ _)
      _ ≤ ds.foldl (fun n d => 10 * n + d) (10 * n + d) := ih _

/-- Without leading zeros, the count of the digits gives the size of the number. -/
theorem le_ofDigits_significant {cs : List Char} (h : ofDigits (significant cs) ≠ 0) :
    10 ^ ((significant cs).length - 1) ≤ ofDigits (significant cs) := by
  cases hdigits : significant cs with
  | nil =>
    rw [hdigits] at h
    exact absurd rfl h
  | cons d rest =>
    have hhead := List.head?_dropWhile_not (· == 0) (cs.map plainValue)
    unfold significant at hdigits
    rw [hdigits] at hhead
    have hd : 0 < d := Nat.pos_of_ne_zero (by simpa using hhead)
    calc 10 ^ ((d :: rest).length - 1) ≤ d * 10 ^ rest.length := Nat.le_mul_of_pos_left _ hd
      _ ≤ ofDigits (d :: rest) := by simpa [ofDigits] using le_foldl_digits rest d

/-- Where the size alone does not decide, the double nearest to a ratio is taken. -/
theorem exists_ratio_decimalValue (n : Nat) (exponent : Int) :
    ∃ num den : Nat, 0 < den ∧ (num : ℚ) / den = n * 10 ^ exponent ∧
      ∀ places : Nat, n ≠ 0 → ¬ 400 < places + exponent → ¬ places + exponent < -400 →
        decimalValue false n places exponent = ofRatio false num den := by
  cases exponent with
  | ofNat k =>
    refine ⟨n * Nat.pow 10 k, 1, Nat.one_pos, by simp, fun places hn hlarge hsmall => ?_⟩
    rw [decimalValue, if_neg hn, if_neg hlarge, if_neg hsmall]
  | negSucc k =>
    refine ⟨n, Nat.pow 10 (k + 1),
      Nat.pow_pos (by decide), by simp [zpow_negSucc, div_eq_mul_inv], ?_⟩
    intro places hn hlarge hsmall
    rw [decimalValue, if_neg hn, if_neg hlarge, if_neg hsmall]

/-- A number that does not start with a zero is read as the nearest double, also where its size
alone decides. -/
theorem decimalValue_roundsTo {n places : Nat} (hlt : n < 10 ^ places)
    (hle : n ≠ 0 → 10 ^ (places - 1) ≤ n) (exponent : Int) :
    RoundsTo (n * 10 ^ exponent) (decimalValue false n places exponent) := by
  obtain ⟨num, den, hden, hratio, hvalue⟩ := exists_ratio_decimalValue n exponent
  refine ⟨num, den, hden, hratio, ?_⟩
  have hpos := ten_zpow_pos exponent
  by_cases hn : n = 0
  · unfold decimalValue
    rw [if_pos hn]
    apply ofRatio_eq_zero hden
    rw [hratio, hn, Nat.cast_zero, zero_mul]
    exact (two_zpow_pos _).le
  by_cases hlarge : 400 < places + exponent
  · unfold decimalValue
    rw [if_neg hn, if_pos hlarge, ofRatio_eq_infinite_iff false num hden, hratio]
    have hplaces : places ≠ 0 := by
      rintro rfl
      simp at hlt
      exact hn hlt
    have hle' : ((10 ^ (places - 1) : Nat) : ℚ) ≤ n := by exact_mod_cast hle hn
    have hpower : (2 : ℚ) ^ (1024 : Int) ≤ n * 10 ^ exponent := by
      calc (2 : ℚ) ^ (1024 : Int) ≤ 10 ^ (400 : Int) := two_zpow_le_ten_zpow (by decide) (by decide)
        _ ≤ 10 ^ (((places - 1 : Nat) : Int) + exponent) :=
          zpow_le_zpow_right₀ (by norm_num) (by omega)
        _ = (10 ^ (places - 1) : Nat) * 10 ^ exponent := by
          rw [ten_zpow_add, zpow_natCast]
          push_cast
          rfl
        _ ≤ n * 10 ^ exponent := by gcongr
    have hthreshold : (2 : ℚ) ^ 1024 - 2 ^ 970 ≤ 2 ^ (1024 : Int) := by
      rw [sub_le_iff_le_add]
      exact le_add_of_nonneg_right (by positivity)
    exact hthreshold.trans hpower
  by_cases hsmall : places + exponent < -400
  · unfold decimalValue
    rw [if_neg hn, if_neg hlarge, if_pos hsmall]
    apply ofRatio_eq_zero hden
    rw [hratio]
    have hlt' : (n : ℚ) ≤ 10 ^ places := by exact_mod_cast hlt.le
    calc (n : ℚ) * 10 ^ exponent ≤ 10 ^ places * 10 ^ exponent := by gcongr
      _ = 10 ^ ((places : Int) + exponent) := by rw [ten_zpow_add, zpow_natCast]
      _ ≤ 10 ^ (-401 : Int) := zpow_le_zpow_right₀ (by norm_num) (by omega)
      _ ≤ 2 ^ (-1075 : Int) := ten_zpow_le_two_zpow (by decide) (by decide)
  · exact (hvalue places hn hlarge hsmall).symm

/-- Digits, a point and digits are read as the double nearest to the number that they write. -/
theorem exists_readDecimal_roundsTo {ds es : List Char} (hne : ds ≠ []) (hne' : es ≠ [])
    (hds : ∀ c ∈ ds, c.isDigit = true) (hes : ∀ c ∈ es, c.isDigit = true) :
    ∃ d, readDecimal (String.ofList (ds ++ '.' :: es)) = .ok d ∧ RoundsTo (written ds es) d := by
  refine ⟨_, readDecimal_ofList hne hne' hds hes, ?_⟩
  have hdigits : ∀ d ∈ significant (ds ++ es), d < 10 :=
    significant_lt fun c hc => (List.mem_append.mp hc).elim (hds c) (hes c)
  have hlt : ofDigits (significant (ds ++ es)) < 10 ^ (significant (ds ++ es)).length := by
    simpa [ofDigits] using foldl_digits_lt hdigits 0
  have hrounds := decimalValue_roundsTo hlt le_ofDigits_significant (-es.length)
  have hwritten : (ofDigits (significant (ds ++ es)) : ℚ) * 10 ^ (-es.length : Int) =
      written ds es := by
    rw [ofDigits_significant, zpow_neg, zpow_natCast, written, div_eq_mul_inv]
  rwa [hwritten] at hrounds

end Numeral

end Analizador
