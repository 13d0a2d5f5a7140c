import Analizador.Proofs.Analysis.Kinds
import Analizador.Proofs.Outline

/-! # Values on one line

Numbers and truth values are printed on one line. If the texts in a program are on one line, so are
all values that the analysis finds: texts are joined and repeated, and nothing adds a line end. -/

namespace Analizador

/-! ## Numbers -/

namespace Text

theorem oneLine_ofList {cs : List Char} (h : '\n' ∉ cs) : OneLine (String.ofList cs) := by
  simpa [OneLine] using h

theorem oneLine_zeros (n : Nat) : OneLine (String.ofList (List.replicate n '0')) :=
  oneLine_ofList (by simp)

theorem oneLine_toString_int (n : Int) : OneLine (toString n) := by
  have hsign : OneLine "-" := by decide
  cases n with
  | ofNat n => exact oneLine_toString_nat n
  | negSucc n => exact (oneLine_append _ _).mpr ⟨hsign, oneLine_toString_nat (n + 1)⟩

end Text

namespace Double

theorem oneLine_write (l : Layout) (d : Decimal) : Text.OneLine (l.write d) := by
  have hdigits := Text.oneLine_toString_nat d.digits
  have hpoint : Text.OneLine "." := by decide
  unfold Layout.write
  dsimp only
  split
  · split
    · have hend : Text.OneLine ".0" := by decide
      simp only [Text.oneLine_append]
      exact ⟨⟨hdigits, Text.oneLine_zeros _⟩, hend⟩
    · split
      · simp only [Text.oneLine_append]
        exact ⟨⟨Text.oneLine_ofList (mt List.mem_of_mem_take hdigits), hpoint⟩,
          Text.oneLine_ofList (mt List.mem_of_mem_drop hdigits)⟩
      · have hstart : Text.OneLine "0." := by decide
        simp only [Text.oneLine_append]
        exact ⟨⟨hstart, Text.oneLine_zeros _⟩, hdigits⟩
  · have hexponent : Text.OneLine "e" := by decide
    simp only [Text.oneLine_append]
    refine ⟨⟨⟨⟨?_, hexponent⟩, ?_⟩, Text.oneLine_zeros _⟩, Text.oneLine_toString_nat _⟩
    · split
      next c hchars => exact Text.oneLine_ofList (hchars ▸ hdigits)
      next c rest _ hchars =>
        rw [Text.OneLine, hchars] at hdigits
        exact Text.oneLine_ofList (by simpa using hdigits)
      next => decide
    · split <;> decide

theorem oneLine_toText (d : Double) : Text.OneLine d.toText := by
  have hsign : Text.OneLine "-" := by decide
  cases d with
  | undefined => exact (by decide : Text.OneLine "nan")
  | infinite s =>
    cases s with
    | false => exact (by decide : Text.OneLine "inf")
    | true => exact (by decide : Text.OneLine "-inf")
  | finite s m e =>
    have hbody : Text.OneLine (if m = 0 then "0.0" else layout.write (shortest m e)) := by
      split
      · decide
      · exact oneLine_write _ _
    cases s with
    | false => exact hbody
    | true => exact (Text.oneLine_append _ _).mpr ⟨hsign, hbody⟩

end Double

/-! ## Constants -/

namespace Constant

/-- A text is on one line. -/
def OneLine (c : Constant) : Prop := ∀ s, c = .text s → Text.OneLine s

instance : DecidablePred OneLine
  | .text s => decidable_of_iff (Text.OneLine s) ⟨fun h _ heq => text.inj heq ▸ h, fun h => h s rfl⟩
  | .integer _ | .decimal _ | .truth _ => .isTrue nofun

variable {a b c : Constant} {op : Operator}

/-- What is on one line is printed on one line. -/
theorem OneLine.render (h : c.OneLine) : (Datum.constant c).OneLine := by
  intro text htext
  cases c with
  | integer n =>
    change integerText n = .ok text at htext
    unfold integerText at htext
    split at htext
    next => cases htext
    next =>
      obtain rfl := Except.ok.inj htext
      exact Text.oneLine_toString_int n
  | decimal d =>
    obtain rfl := Except.ok.inj htext
    exact Double.oneLine_toText d
  | text s =>
    obtain rfl := Except.ok.inj htext
    exact h s rfl
  | truth b =>
    obtain rfl := Except.ok.inj htext
    cases b <;> decide

theorem oneLine_of_fits (h : c.fits .dec = true) : c.OneLine := by
  rintro s rfl
  cases h

theorem oneLine_of_repeated {s : String} {count : Int} (hs : Text.OneLine s)
    (h : repeated s count = .ok c) : c.OneLine := by
  unfold repeated at h
  split at h
  next => cases h
  next =>
    dsimp only at h
    split at h
    next => cases h
    next =>
      split at h
      next => cases h
      next =>
        obtain rfl := Except.ok.inj h
        rintro _ ⟨⟩
        simp only [Text.OneLine, String.toList_join, List.mem_flatMap, List.mem_replicate]
        rintro ⟨_, ⟨-, rfl⟩, hmem⟩
        exact hs hmem

theorem oneLine_of_add (ha : a.OneLine) (hb : b.OneLine) (h : add a b = .ok c) : c.OneLine := by
  unfold add at h
  split at h
  next => exact oneLine_of_fits (fits_of_arithmetic h)
  next =>
    split at h
    next s t _ =>
      obtain rfl := Except.ok.inj h
      rintro _ ⟨⟩
      exact (Text.oneLine_append s t).mpr ⟨ha s rfl, hb t rfl⟩
    next => cases h
    next => cases h

theorem oneLine_of_mul (ha : a.OneLine) (hb : b.OneLine) (h : mul a b = .ok c) : c.OneLine := by
  unfold mul at h
  split at h
  next => exact oneLine_of_fits (fits_of_arithmetic h)
  next =>
    split at h
    next s _ =>
      split at h
      next => exact oneLine_of_repeated (ha s rfl) h
      next => cases h
    next s _ _ =>
      split at h
      next => exact oneLine_of_repeated (hb s rfl) h
      next => cases h
    next => cases h

/-- Operations on what is on one line give what is on one line. -/
theorem oneLine_of_apply (ha : a.OneLine) (hb : b.OneLine) (h : apply op a b = .ok c) :
    c.OneLine := by
  cases op with
  | add => exact oneLine_of_add ha hb h
  | mul => exact oneLine_of_mul ha hb h
  | div => exact oneLine_of_fits (fits_of_quotient h)
  | sub =>
    change sub a b = .ok c at h
    unfold sub at h
    split at h
    next => exact oneLine_of_fits (fits_of_arithmetic h)
    next => cases h
  | eq | ne | gt | lt | ge | le =>
    have hbool := fits_of_apply_relational rfl h
    rintro s rfl
    cases hbool
  | both | either =>
    obtain rfl := Except.ok.inj h
    split <;> assumption

end Constant

/-! ## Marks -/

/-- The value, if there is one, is on one line. -/
def Mark.OneLine (k : Mark) : Prop := ∀ c ∈ k.value, c.OneLine

instance (k : Mark) : Decidable k.OneLine :=
  inferInstanceAs (Decidable (∀ c ∈ k.value, c.OneLine))

theorem Mark.lasting_oneLine : Lasting OneLine :=
  ⟨by simp [OneLine], fun _ _ _ _ h => h⟩

theorem Expr.oneLine_operationMark {op : Operator} {left right : Expr} {ty : Option Ty}
    (hleft : left.site.mark.OneLine) (hright : right.site.mark.OneLine) :
    (operationMark op left right ⟨ty, none⟩).OneLine := by
  intro c hc
  cases ha : left.value with
  | none => simp [operationMark, ha] at hc
  | some a =>
    cases hb : right.value with
    | none => simp [operationMark, ha, hb] at hc
    | some b =>
      simp only [operationMark, ha, hb] at hc
      rcases Folding.origin_of_value hc with ⟨-, happly⟩ | ⟨-, q, hquotient, hsettled⟩
      · exact Constant.oneLine_of_apply (hleft a ha) (hright b hb) happly
      · have hq := Constant.fits_of_quotient hquotient
        rcases hsettled with rfl | hsettled
        · exact Constant.oneLine_of_fits hq
        · exact Constant.oneLine_of_fits (Constant.fits_of_settled hq hsettled)

/-- If the texts of a program are on one line, all values that the analysis finds are. -/
theorem Program.sound_oneLine {p : Program} (hp : ∀ site ∈ p.sites, site.mark.OneLine) :
    (p.account Mark.OneLine (Moment.Records Mark.OneLine)).Sound :=
  sound_records Mark.lasting_oneLine hp fun _ _ _ _ _ => Expr.oneLine_operationMark

end Analizador
