import Analizador.Number.Numeral

/-! # Reading plain numerals

On plain digits, as they stand in programs, reading an integer gives the number that the digits
write, and refuses nothing but their count. Digits, a point and digits always read as a decimal. -/

namespace Analizador.Numeral

/-- The value of a plain digit. -/
def plainValue (c : Char) : Nat := c.toNat - '0'.toNat

theorem isDigit_bounds {c : Char} (h : c.isDigit = true) : 48 ≤ c.toNat ∧ c.toNat ≤ 57 := by
  simpa [Char.isDigit, UInt32.le_iff_toNat_le] using h

theorem digitValue?_of_isDigit {c : Char} (h : c.isDigit = true) :
    Text.digitValue? c = some (plainValue c) := by
  obtain ⟨hlow, hhigh⟩ := isDigit_bounds h
  have hfind : (decide (48 ≤ c.toNat) && decide (c.toNat < 48 + 10)) = true := by
    simp only [Bool.and_eq_true, decide_eq_true_eq]
    omega
  simp only [Text.digitValue?, Text.zeros, List.find?_cons, hfind, Option.map_some]
  rfl

theorem isNumeralBlank_of_isDigit {c : Char} (h : c.isDigit = true) :
    Text.isNumeralBlank c = false := by
  obtain ⟨hlow, hhigh⟩ := isDigit_bounds h
  simp only [Text.isNumeralBlank, Bool.or_eq_false_iff, Bool.and_eq_false_iff,
    decide_eq_false_iff_not, beq_eq_false_iff_ne]
  omega

theorem ne_of_isDigit {c d : Char} (h : c.isDigit = true) (hd : d.isDigit = false) : c ≠ d := by
  rintro rfl
  simp [h] at hd

/-- A text whose first and last characters are no blanks has no blanks around it. -/
theorem trimmed_ofList {cs : List Char} (hhead : ∀ c ∈ cs.head?, Text.isNumeralBlank c = false)
    (hlast : ∀ c ∈ cs.getLast?, Text.isNumeralBlank c = false) :
    trimmed (String.ofList cs) = cs := by
  have hdrop {ds : List Char} (h : ∀ c ∈ ds.head?, Text.isNumeralBlank c = false) :
      ds.dropWhile Text.isNumeralBlank = ds := by
    cases ds with
    | nil => rfl
    | cons d ds => simp [h d rfl]
  rw [trimmed, String.toList_ofList, hdrop hhead, hdrop (by simpa using hlast),
    List.reverse_reverse]

theorem sign_of_isDigit {c : Char} {cs : List Char} (h : c.isDigit = true) :
    sign (c :: cs) = (false, c :: cs) := by
  unfold sign
  split
  next heq =>
    obtain ⟨rfl, -⟩ := List.cons.inj heq
    cases h
  next heq =>
    obtain ⟨rfl, -⟩ := List.cons.inj heq
    cases h
  next => rfl

/-- Digits are read up to what can neither be a digit nor join two digits. -/
theorem digits_append {ds : List Char} (rest : List Char) (hds : ∀ c ∈ ds, c.isDigit = true)
    (hrest : ∀ c ∈ rest.head?, Text.digitValue? c = none ∧ c ≠ '_') :
    digits (ds ++ rest) = (ds.map plainValue, rest) := by
  induction ds with
  | nil =>
    cases rest with
    | nil => rfl
    | cons c rest =>
      have hc := (hrest c rfl).1
      cases rest <;> simp [digits, hc]
  | cons d ds ih =>
    have hd := digitValue?_of_isDigit (hds d List.mem_cons_self)
    have hih := ih fun c hc => hds c (List.mem_cons_of_mem _ hc)
    cases htail : ds ++ rest with
    | nil =>
      obtain ⟨rfl, rfl⟩ := List.append_eq_nil_iff.mp htail
      simp [digits, hd]
    | cons c tail =>
      have hc : c ≠ '_' := by
        cases ds with
        | nil => exact (hrest c (by simp_all)).2
        | cons d' ds =>
          obtain ⟨rfl, -⟩ := List.cons.inj htail
          exact ne_of_isDigit (hds d' (by simp)) rfl
      rw [htail] at hih
      simp [htail, digits, hd, hc, hih]

theorem ofDigits_map_plainValue (cs : List Char) :
    ofDigits (cs.map plainValue) = Nat.ofDigitChars 10 cs 0 := by
  rw [ofDigits, List.foldl_map, Nat.ofDigitChars_eq_foldl]
  rfl

theorem readInteger_ofList {ds : List Char} (hne : ds ≠ []) (hds : ∀ c ∈ ds, c.isDigit = true) :
    readInteger (String.ofList ds) =
      if digitLimit < ds.length then .error (.longNumeral ds.length)
      else .ok (Nat.ofDigitChars 10 ds 0) := by
  have hblank (c : Char) (hc : c ∈ ds) : Text.isNumeralBlank c = false :=
    isNumeralBlank_of_isDigit (hds c hc)
  have htrim : trimmed (String.ofList ds) = ds :=
    trimmed_ofList (fun c hc => hblank c (List.mem_of_head? hc))
      (fun c hc => hblank c (List.mem_of_getLast? hc))
  have hsign : sign ds = (false, ds) := by
    cases ds with
    | nil => cases hne rfl
    | cons d ds => exact sign_of_isDigit (hds d List.mem_cons_self)
  have hdigits : digits ds = (ds.map plainValue, []) := by
    simpa using digits_append [] hds (by simp)
  have hvalue := ofDigits_map_plainValue ds
  unfold readInteger
  rw [htrim, hsign]
  simp only [hdigits]
  cases ds with
  | nil => cases hne rfl
  | cons d ds =>
    simp only [List.map_cons] at hvalue ⊢
    rw [hvalue]
    simp [Double.signed]

/-! ## The size of what is read -/

theorem digitValue?_lt {c : Char} {d : Nat} (h : Text.digitValue? c = some d) : d < 10 := by
  obtain ⟨z, hfind, rfl⟩ := Option.map_eq_some_iff.mp h
  have hrange := List.find?_some hfind
  simp only [Bool.and_eq_true, decide_eq_true_eq] at hrange
  omega

theorem digits_lt {cs : List Char} : ∀ d ∈ (digits cs).1, d < 10 := by
  fun_induction digits cs with
  | case1 => simp
  | case2 c d hd => simpa using digitValue?_lt hd
  | case3 => simp
  | case4 => simp
  | case5 c d hd e rest he ds tail hdigits ih =>
    exact List.forall_mem_cons.mpr ⟨digitValue?_lt hd, ih⟩
  | case6 c d hd => simpa using digitValue?_lt hd
  | case7 c d hd => simpa using digitValue?_lt hd
  | case8 c c' rest d hd _ ds tail hdigits ih =>
    rw [hdigits] at ih
    exact List.forall_mem_cons.mpr ⟨digitValue?_lt hd, ih⟩

theorem foldl_digits_lt {ds : List Nat} (h : ∀ d ∈ ds, d < 10) (n : Nat) :
    ds.foldl (fun n d => 10 * n + d) n < (n + 1) * Nat.pow 10 ds.length := by
  induction ds generalizing n with
  | nil => simp
  | cons d ds ih =>
    obtain ⟨hd, hds⟩ := List.forall_mem_cons.mp h
    have hpow : Nat.pow 10 (d :: ds).length = Nat.pow 10 ds.length * 10 := rfl
    calc ds.foldl (fun n d => 10 * n + d) (10 * n + d) <
      (10 * n + d + 1) * Nat.pow 10 ds.length := ih hds _
      _ ≤ (10 * (n + 1)) * Nat.pow 10 ds.length := Nat.mul_le_mul_right _ (by omega)
      _ = (n + 1) * Nat.pow 10 (d :: ds).length := by rw [hpow]; ac_rfl

/-- An integer that is read has at most `digitLimit` digits. -/
theorem natAbs_lt_of_readInteger {s : String} {n : Int} (h : readInteger s = .ok n) :
    n.natAbs < Nat.pow 10 digitLimit := by
  unfold readInteger at h
  rcases sign (trimmed s) with ⟨negative, cs⟩
  dsimp only at h
  split at h
  next => cases h
  next ds _ hdigits =>
    split at h
    next => cases h
    next hlimit =>
      have hlt : ∀ d ∈ ds, d < 10 := fun d hd => digits_lt d (by rw [hdigits]; exact hd)
      have hmono {k l : Nat} (hkl : k ≤ l) : Nat.pow 10 k ≤ Nat.pow 10 l :=
        Nat.pow_le_pow_right (by decide) hkl
      obtain rfl := Except.ok.inj h
      calc (Double.signed _ (ofDigits ds)).natAbs =
        ofDigits ds := by unfold Double.signed; split <;> simp
        _ < Nat.pow 10 ds.length := by simpa [ofDigits] using foldl_digits_lt hlt 0
        _ ≤ Nat.pow 10 digitLimit := hmono (Nat.le_of_not_lt hlimit)
  next => cases h

theorem toLower_of_isDigit {c : Char} (h : c.isDigit = true) : c.toLower = c := by
  obtain ⟨hlow, hhigh⟩ := isDigit_bounds h
  have hupper : ¬ (65 ≤ c.val ∧ c.val ≤ 90) := by
    simp only [UInt32.le_iff_toNat_le]
    change ¬ (65 ≤ c.toNat ∧ c.toNat ≤ 90)
    omega
  exact dif_neg hupper

/-- No name of a special number starts with a digit. -/
theorem lowered_ne {c d : Char} {cs ds : List Char} (h : c.isDigit = true)
    (hd : d.isDigit = false) :
    String.ofList ((c :: cs).map Char.toLower) ≠ String.ofList (d :: ds) := by
  intro heq
  have hcons := congrArg String.toList heq
  simp only [String.toList_ofList, List.map_cons, toLower_of_isDigit h, List.cons.injEq] at hcons
  exact ne_of_isDigit h hd hcons.1

/-- The values of digits, without leading zeros. -/
def significant (cs : List Char) : List Nat := (cs.map plainValue).dropWhile (· == 0)

/-- Digits, a point and digits are read as the number of all the digits, with an exponent for those
after the point. -/
theorem readDecimal_ofList {ds es : List Char} (hne : ds ≠ []) (hne' : es ≠ [])
    (hds : ∀ c ∈ ds, c.isDigit = true) (hes : ∀ c ∈ es, c.isDigit = true) :
    readDecimal (String.ofList (ds ++ '.' :: es)) =
      .ok (decimalValue false (ofDigits (significant (ds ++ es))) (significant (ds ++ es)).length
        (-es.length)) := by
  obtain ⟨c, ds, rfl⟩ := List.exists_cons_of_ne_nil hne
  have hc := hds c List.mem_cons_self
  have htrim : trimmed (String.ofList (c :: ds ++ '.' :: es)) = c :: ds ++ '.' :: es := by
    apply trimmed_ofList
    · rintro _ ⟨⟩
      exact isNumeralBlank_of_isDigit hc
    · intro d hd
      apply isNumeralBlank_of_isDigit
      apply hes
      obtain ⟨e, he⟩ := Option.ne_none_iff_exists'.mp (mt List.getLast?_eq_none_iff.mp hne')
      obtain rfl : e = d := by simpa [List.getLast?_append, List.getLast?_cons, he] using hd
      exact List.mem_of_getLast? he
  have hsign : sign (c :: ds ++ '.' :: es) = (false, c :: ds ++ '.' :: es) := sign_of_isDigit hc
  have hwhole : digits (c :: ds ++ '.' :: es) = ((c :: ds).map plainValue, '.' :: es) := by
    apply digits_append _ hds
    rintro _ ⟨⟩
    exact ⟨by decide, by decide⟩
  have hfraction : digits es = (es.map plainValue, []) := by
    simpa using digits_append [] hes (by simp)
  have hmagnitude : magnitude? false (c :: ds ++ '.' :: es) = some (decimalValue false
      (ofDigits (significant (c :: ds ++ es))) (significant (c :: ds ++ es)).length
        (-es.length)) := by
    have hname (d : Char) (cs : List Char) (hd : d.isDigit = false) :
        String.ofList ((c :: ds ++ '.' :: es).map Char.toLower) ≠ String.ofList (d :: cs) :=
      lowered_ne hc hd
    unfold magnitude?
    rw [if_neg, if_neg, hwhole]
    · simp [hfraction, exponent?, significant]
    · exact hname 'n' ['a', 'n'] rfl
    · simp only [Bool.or_eq_true, decide_eq_true_eq, not_or]
      exact ⟨hname 'i' ['n', 'f'] rfl, hname 'i' ['n', 'f', 'i', 'n', 'i', 't', 'y'] rfl⟩
  unfold readDecimal
  rw [htrim, hsign]
  simp only [hmagnitude]

theorem exists_readDecimal {ds es : List Char} (hne : ds ≠ []) (hne' : es ≠ [])
    (hds : ∀ c ∈ ds, c.isDigit = true) (hes : ∀ c ∈ es, c.isDigit = true) :
    ∃ d, readDecimal (String.ofList (ds ++ '.' :: es)) = .ok d :=
  ⟨_, readDecimal_ofList hne hne' hds hes⟩

/-! ## Leading zeros -/

theorem ofDigits_significant (cs : List Char) :
    ofDigits (significant cs) = Nat.ofDigitChars 10 cs 0 := by
  have hdrop (ds : List Nat) : ofDigits (ds.dropWhile (· == 0)) = ofDigits ds := by
    induction ds with
    | nil => rfl
    | cons d ds ih =>
      rw [List.dropWhile_cons]
      split
      next hzero =>
        obtain rfl : d = 0 := by simpa using hzero
        exact ih
      next => rfl
  rw [significant, hdrop, ofDigits_map_plainValue]

theorem significant_lt {cs : List Char} (h : ∀ c ∈ cs, c.isDigit = true) :
    ∀ d ∈ significant cs, d < 10 := by
  intro d hd
  obtain ⟨c, hc, rfl⟩ := List.mem_map.mp ((List.dropWhile_sublist _).subset hd)
  exact digitValue?_lt (digitValue?_of_isDigit (h c hc))

end Analizador.Numeral
