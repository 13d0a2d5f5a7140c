import Analizador.Assembly
import Analizador.Proofs.Analysis.Verdict
import Analizador.Proofs.Number.Literals
import Analizador.Proofs.Scan
import Analizador.Proofs.Walk.Trees

/-! # The nodes of number literals

The rules for number literals make a number node at the place of the literal and do nothing else.
The node of an integer literal has type `ent`. The node of a decimal literal has the type that the
text of its double shows, which is `dec` only if that text has a point. -/

namespace Analizador

open Double (Pointless RoundsTo)

namespace Numeral

/-- The number that the text of a number literal writes. -/
def worth (cs : List Char) : ℚ :=
  written (cs.takeWhile (· != '.')) ((cs.dropWhile (· != '.')).drop 1)

theorem worth_eq_written {ds : List Char} (hds : ∀ c ∈ ds, c.isDigit = true) (es : List Char) :
    worth (ds ++ '.' :: es) = written ds es := by
  have hpoint : ∀ c ∈ ds, (c != '.') = true := by
    intro c hc
    have hdigit := hds c hc
    rw [bne_iff_ne]
    rintro rfl
    exact absurd hdigit (by decide)
  rw [worth, List.takeWhile_append_of_pos hpoint, List.dropWhile_append_of_pos hpoint]
  simp

/-- A decimal literal is read as the double nearest to the number it writes. -/
theorem exists_readDecimal_of_reads {text : String} (h : Kind.decimal.Reads text.toList) :
    ∃ d, readDecimal text = .ok d ∧ RoundsTo (worth text.toList) d := by
  obtain ⟨ds, es, htext, hne, hne', hds, hes⟩ := h
  have hread := exists_readDecimal_roundsTo hne hne' hds hes
  rwa [← worth_eq_written hds, ← htext, String.ofList_toList] at hread

end Numeral

/-- The number node of a type and a value at a place. -/
def Node.number (ty : Ty) (value : Constant) (line column : Datum) : Node :=
  ⟨.number, [("line", line), ("column", column), ("children", .list []), ("type", .ofText ty.name),
    ("value", .constant value)]⟩

namespace Assembly

variable {kind text : String} {line column : Datum}

/-- A rule makes of a token the number node of a type and a value at the token's place. All else
stays as it is. -/
def MakesNumber (rule kind text : String) (line column : Datum) (ty : Ty) (value : Constant) :
    Prop :=
  ∀ w : Workshop, (call rule [.token kind text line column]).perform w =
    (.ok (.node .number w.graph.nodes.size),
      { w with graph := (w.graph.push (.number ty value line column)).2 })

theorem perform_placed_number {value : Constant} {ty : Ty}
    (hty : (Datum.constant value).numberType = .ok (.ofText ty.name)) (w : Workshop) :
    (placed .number "value" (.constant value) (.token kind text line column)).perform w =
      (.ok (.node .number w.graph.nodes.size),
        { w with graph := (w.graph.push (.number ty value line column)).2 }) := by
  have hmake : NodeClass.number.make (fun name => if name = "value" then .constant value else .none)
      line column =
      .ok (.number ty value line column) := by
    change (do return Node.set _ "type" (← (Datum.constant value).numberType)) = _
    rw [hty]
    rfl
  change (liftM (NodeClass.number.make _ line column) >>= Work.push).perform w = _
  rw [hmake]
  rfl

theorem call_eq_applyRule {rule : String} {s : Signature} {args : List Datum}
    (hsignature : signature? rule = some s) (hcheck : s.check rule args.length = .ok ()) :
    call rule args = applyRule rule args := by
  unfold call
  rw [hsignature]
  simp only [hcheck]
  rfl

theorem call_entero (source : Datum) : call "entero" [source] =
    (do placed .number "value" (.constant
      (.integer (← readInteger (← Work.attr source "value")))) source) :=
  (call_eq_applyRule rfl rfl).trans rfl

theorem call_decimal (source : Datum) : call "decimal" [source] =
    (do placed .number "value" (.constant
      (.decimal (← readDecimal (← Work.attr source "value")))) source) :=
  (call_eq_applyRule rfl rfl).trans rfl

theorem makesNumber_of_call {α : Type} {rule : String} {read : Datum → Except Failure α}
    {wrap : α → Constant} {a : α} {ty : Ty}
    (hcall : ∀ source, call rule [source] =
      (do placed .number "value" (.constant (wrap (← read (← Work.attr source "value")))) source))
    (hread : read (.ofText text) = .ok a)
    (hty : (Datum.constant (wrap a)).numberType = .ok (.ofText ty.name)) :
    MakesNumber rule kind text line column ty (wrap a) := by
  intro w
  have hvalue : (Work.attr (.token kind text line column) "value").perform w =
      (.ok (.ofText text), w) := rfl
  rw [hcall, Work.perform_bind, hvalue]
  simp only [Work.perform_bind, Work.perform_liftM, hread]
  exact perform_placed_number hty w

theorem makesNumber_integer {n : Int} (hread : Numeral.readInteger text = .ok n)
    (hshows : (Constant.integer n).Shows) :
    MakesNumber "entero" kind text line column .ent (.integer n) :=
  makesNumber_of_call call_entero hread (Datum.numberType_integer hshows)

theorem makesNumber_decimal {d : Double} (hread : Numeral.readDecimal text = .ok d) :
    MakesNumber "decimal" kind text line column (Constant.Number.real d).literalType
      (.decimal d) := by
  refine makesNumber_of_call call_decimal hread ?_
  simp only [Constant.Number.literalType]
  rw [apply_ite Ty.name]
  rfl

/-- What a rule makes of a token has one type. -/
theorem MakesNumber.ty_unique {rule : String} {ty ty' : Ty} {value value' : Constant}
    (h : MakesNumber rule kind text line column ty value)
    (h' : MakesNumber rule kind text line column ty' value') :
    ty.name = ty'.name := by
  have hperform := (h .empty).symm.trans (h' .empty)
  have htype : some (Datum.ofText ty.name) = some (Datum.ofText ty'.name) :=
    congrArg (fun result => result.2.graph.attr? (.node .number 0) "type") hperform
  simpa [Datum.ofText] using htype

/-- The node of a decimal literal has the double nearest to the number that the literal writes. It
has type `ent` if that number is out of range or reads like one digit with an exponent, and type
`dec` otherwise. The node of an integer literal that is not too long has type `ent` and the number
that its digits write. -/
theorem makesNumber_literal (kind : String) (line column : Datum) :
    (∀ text : String, Kind.decimal.Reads text.toList → ∃ d, RoundsTo (Numeral.worth text.toList) d ∧
      (Pointless (Numeral.worth text.toList) →
      MakesNumber "decimal" kind text line column .ent (.decimal d)) ∧
      (¬ Pointless (Numeral.worth text.toList) →
      MakesNumber "decimal" kind text line column .dec (.decimal d))) ∧
    ∀ text : String, Kind.integer.Reads text.toList → text.length ≤ Numeral.digitLimit →
      MakesNumber "entero" kind text line column .ent
        (.integer (Nat.ofDigitChars 10 text.toList 0)) := by
  constructor
  · intro text hreads
    obtain ⟨d, hread, hrounds⟩ := Numeral.exists_readDecimal_of_reads hreads
    have hmakes : MakesNumber "decimal" kind text line column _ _ := makesNumber_decimal hread
    have hpoint := hrounds.point_mem_iff
    refine ⟨d, hrounds, fun hpointless => ?_, fun hpointless => ?_⟩
    · rwa [Constant.Number.literalType, if_neg (by simpa [hpoint] using hpointless)] at hmakes
    · rwa [Constant.Number.literalType, if_pos (by simpa [hpoint] using hpointless)] at hmakes
  · intro text hreads hlength
    have hread := Numeral.readInteger_ofList hreads.1 hreads.2
    rw [String.ofList_toList, String.length_toList, if_neg (Nat.not_lt.mpr hlength)] at hread
    exact makesNumber_integer hread
      (Constant.shows_integer (Numeral.natAbs_lt_of_readInteger hread))

theorem reads_sixteen_zeros : Kind.decimal.Reads "10000000000000000.0".toList :=
  ⟨"10000000000000000".toList,
    "0".toList, by decide, by decide, by decide, List.all_eq_true.mp rfl, List.all_eq_true.mp rfl⟩

/-- `10000000000000000.0` reads like one digit with an exponent, `1e+16`. -/
theorem pointless_sixteen_zeros : Pointless (Numeral.worth "10000000000000000.0".toList) := by
  have hdigits : Nat.ofDigitChars 10 "100000000000000000".toList 0 = 100000000000000000 := by decide
  have hworth : Numeral.worth "10000000000000000.0".toList = 5000000000000000 * 2 ^ (1 : Int) := by
    rw [show Numeral.worth "10000000000000000.0".toList =
      ((Nat.ofDigitChars 10 "100000000000000000".toList 0 : Nat) : ℚ) / 10 ^ 1 from rfl, hdigits]
    norm_num
  have hcanonical : Double.Canonical 5000000000000000 1 :=
    ⟨by decide, by decide, by norm_num, .inr (by norm_num)⟩
  have hreaches := Double.reaches_self (m := 5000000000000000) (by decide) 1
  refine .inr
    ⟨1, 16, le_rfl, by decide, .inr le_rfl, 5000000000000000, 1, by decide, hcanonical, ?_, ?_⟩
  · rw [hworth]
    exact_mod_cast hreaches
  · norm_num at hreaches ⊢
    exact hreaches

theorem not_pointless_three_halves : ¬ Pointless (Numeral.worth "1.5".toList) := by
  have hworth : Numeral.worth "1.5".toList = 3 / 2 := by
    rw [show Numeral.worth "1.5".toList = ((Nat.ofDigitChars 10 "15".toList 0 : Nat) : ℚ) / 10 ^ 1
      from rfl, show Nat.ofDigitChars 10 "15".toList 0 = 15 by decide]
    norm_num
  have hrounds : RoundsTo (Numeral.worth "1.5".toList) (.ofRatio false 3 2) :=
    ⟨3, 2, by decide, by rw [hworth]; norm_num, rfl⟩
  exact hrounds.point_mem_iff.mp (by decide +kernel)

/-- `10000000000000000.0` is `1e+16`, so its node has type `ent`, while that of `1.5` has type
`dec`. -/
theorem makesNumber_literal_sixteen_zeros :
    Kind.decimal.Reads "10000000000000000.0".toList ∧
      Pointless (Numeral.worth "10000000000000000.0".toList) ∧
      (∃ d, RoundsTo (Numeral.worth "10000000000000000.0".toList) d ∧
        MakesNumber "decimal" "DECIMAL" "10000000000000000.0" (.ofInt 1) (.ofInt 1) .ent
          (.decimal d)) ∧
      Kind.decimal.Reads "1.5".toList ∧ ¬ Pointless (Numeral.worth "1.5".toList) ∧
      (∃ d, RoundsTo (Numeral.worth "1.5".toList) d ∧
        MakesNumber "decimal" "DECIMAL" "1.5" (.ofInt 1) (.ofInt 1) .dec (.decimal d)) ∧
      Kind.integer.Reads "007".toList ∧
      MakesNumber "entero" "ENTERO" "007" (.ofInt 1) (.ofInt 1) .ent (.integer 7) := by
  have hshort : Kind.decimal.Reads "1.5".toList :=
    ⟨['1'],
      ['5'], by decide, by decide, by decide, List.all_eq_true.mp rfl, List.all_eq_true.mp rfl⟩
  have hseven : Kind.integer.Reads "007".toList := ⟨by decide, List.all_eq_true.mp rfl⟩
  obtain ⟨d, hrounds, hent, -⟩ :=
    (makesNumber_literal "DECIMAL" (.ofInt 1) (.ofInt 1)).1 _ reads_sixteen_zeros
  obtain ⟨d', hrounds', -, hdec⟩ := (makesNumber_literal "DECIMAL" (.ofInt 1) (.ofInt 1)).1 _ hshort
  have hinteger := (makesNumber_literal "ENTERO" (.ofInt 1) (.ofInt 1)).2 _ hseven (by decide)
  exact ⟨reads_sixteen_zeros, pointless_sixteen_zeros, ⟨d, hrounds, hent pointless_sixteen_zeros⟩,
    hshort, not_pointless_three_halves, ⟨d', hrounds', hdec not_pointless_three_halves⟩,
    hseven, hinteger⟩

/-- A decimal literal whose node does not have type `dec`, whatever its value. -/
theorem not_makesNumber_dec_sixteen_zeros :
    Kind.decimal.Reads "10000000000000000.0".toList ∧ ∀ value,
      ¬ MakesNumber "decimal" "DECIMAL" "10000000000000000.0" (.ofInt 1) (.ofInt 1) .dec value := by
  refine ⟨reads_sixteen_zeros, fun value hdec => ?_⟩
  obtain ⟨d, hread, hrounds⟩ := Numeral.exists_readDecimal_of_reads reads_sixteen_zeros
  have htype : (Constant.Number.real d).literalType = .ent :=
    if_neg (by simpa [hrounds.point_mem_iff] using pointless_sixteen_zeros)
  have hmakes : MakesNumber "decimal" "DECIMAL" "10000000000000000.0" (.ofInt 1) (.ofInt 1) _ _ :=
    makesNumber_decimal hread
  have hname := hdec.ty_unique hmakes
  rw [htype] at hname
  exact absurd hname (by decide)

end Assembly

end Analizador
