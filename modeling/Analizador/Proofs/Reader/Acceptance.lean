import Analizador.Proofs.Numeral
import Analizador.Proofs.Reader.Outcome
import Analizador.Proofs.Scan
import Analizador.Session

/-! # Accepted texts

A text is read as a program exactly if it scans, the grammar derives the kinds of its tokens, and no
token is barred: a logical operator, or an integer with too many digits. All other texts are
reported once, unless a barred token stands where the grammar has a place for it and is followed by
nothing that the grammar takes there. Then reading fails without a report. -/

namespace Analizador

open Grammar

namespace Token

/-- The tokens that the grammar has a place for and no program can hold. -/
def isBarred (t : Token) : Bool :=
  t.kind.isLogical || (t.kind == .integer && decide (Numeral.digitLimit < t.text.length))

/-- The kinds that may stand after a barred token, whatever stands before it. -/
def successors (t : Token) : Kind → Bool :=
  if t.kind.isLogical then Kind.startsOperand else Kind.followsOperand

theorem toExpr_decimal {t : Token} {d : Double} (hkind : t.kind = .decimal)
    (hread : Numeral.readDecimal t.text = .ok d) : t.toExpr = .ok (.number (.real d) t.spot) := by
  unfold toExpr
  rw [hkind]
  simp only [hread]
  rfl

/-- Among the tokens of a text, those that cannot be built are the barred ones. -/
theorem breaksOn?_of_reads {t : Token} (h : t.kind.Reads t.text.toList) :
    t.breaksOn? = if t.isBarred then some t.successors else none := by
  by_cases hlogical : t.kind.isLogical = true
  · simp [breaksOn?, isBarred, successors, hlogical]
  by_cases hinteger : t.kind = .integer
  · rw [hinteger] at h
    have hread := Numeral.readInteger_ofList h.1 h.2
    rw [String.ofList_toList, String.length_toList] at hread
    rw [breaksOn?, toExpr_integer hinteger, hread, isBarred, successors, hinteger]
    by_cases hlimit : Numeral.digitLimit < t.text.length
    · simp [hlimit, Kind.isLogical, Except.map]
    · simp [hlimit, Kind.isLogical, Except.map]
  have hbarred : t.isBarred = false := by simp [isBarred, hlogical, hinteger]
  rw [hbarred, if_neg Bool.false_ne_true]
  by_cases hdecimal : t.kind = .decimal
  · rw [hdecimal] at h
    obtain ⟨ds, es, htext, hne, hne', hds, hes⟩ := h
    obtain ⟨d, hd⟩ := Numeral.exists_readDecimal hne hne' hds hes
    rw [← htext, String.ofList_toList] at hd
    simp [breaksOn?, hlogical, toExpr_decimal hdecimal hd]
  · refine breaksOn?_eq_none rfl fun hmem => ?_
    simp only [Kind.failing, List.mem_cons, List.not_mem_nil, or_false] at hmem
    rcases hmem with hkind | hkind | hkind | hkind
    · exact hlogical (by rw [hkind]; rfl)
    · exact hlogical (by rw [hkind]; rfl)
    · exact hinteger hkind
    · exact hdecimal hkind

end Token

namespace Scan

/-- A scan of a program: nothing stray, a derivable list of kinds, no logical operator and no
integer of more than `digitLimit` digits. -/
structure IsProgram (scan : Scan) : Prop where
  whole : scan.stray = none
  derivable : Derivable (scan.tokens.map Token.kind)
  plain : ∀ t ∈ scan.tokens, t.kind ≠ .both ∧ t.kind ≠ .either
  short : ∀ t ∈ scan.tokens, t.kind = .integer → t.text.length ≤ Numeral.digitLimit

/-- The first barred token continues a list of kinds that the grammar derives, and what comes after
it, the end of the text included, is not what may stand after it. -/
def Chokes (scan : Scan) : Prop :=
  ∃ before t after, scan.tokens = before ++ t :: after ∧ (∀ b ∈ before, b.isBarred = false) ∧
    t.isBarred = true ∧ (∃ w, Derivable (before.map Token.kind ++ t.kind :: w)) ∧
    Unfollowed t.successors scan.stray after

theorem readable_iff (code : String) :
    Readable Derivable (ofText code).stray (ofText code).tokens ↔ (ofText code).IsProgram := by
  have hbarred {t : Token} (ht : t ∈ (ofText code).tokens) : t.breaksOn? = none ↔
      (t.kind ≠ .both ∧ t.kind ≠ .either) ∧
      (t.kind = .integer → t.text.length ≤ Numeral.digitLimit) := by
    rw [Token.breaksOn?_of_reads (ofText_reads ht)]
    simp [Token.isBarred, Kind.isLogical_iff]
  constructor
  · rintro ⟨hstray, hderivable, hbuilt⟩
    exact ⟨hstray, hderivable, fun t ht => ((hbarred ht).mp (hbuilt t ht)).1,
      fun t ht => ((hbarred ht).mp (hbuilt t ht)).2⟩
  · rintro ⟨hstray, hderivable, hplain, hshort⟩
    exact ⟨hstray, hderivable, fun t ht => (hbarred ht).mpr ⟨hplain t ht, hshort t ht⟩⟩

theorem choking_iff (code : String) :
    Choking Derivable (ofText code).stray (ofText code).tokens ↔ (ofText code).Chokes := by
  have hbroken {t : Token} (ht : t ∈ (ofText code).tokens) :=
    Token.breaksOn?_of_reads (ofText_reads ht)
  constructor
  · rintro ⟨before, t, after, breaks, heq, hbefore, ht, hderivable, hafter⟩
    rw [hbroken (by simp [heq])] at ht
    obtain ⟨hbarred, rfl⟩ : t.isBarred = true ∧ t.successors = breaks := by simpa using ht
    refine ⟨before, t, after, heq, fun b hb => ?_, hbarred, hderivable, hafter⟩
    simpa [hbroken (t := b) (by simp [heq, hb])] using hbefore b hb
  · rintro ⟨before, t, after, heq, hbefore, hbarred, hderivable, hafter⟩
    refine ⟨before, t, after, t.successors, heq, fun b hb => ?_, ?_, hderivable, hafter⟩
    · simp [hbroken (t := b) (by simp [heq, hb]), hbefore b hb]
    · simp [hbroken (t := t) (by simp [heq]), hbarred]

end Scan

theorem Reader.spells_start_rest {w : List Kind} : Spells Reader.start.rest w ↔ Derivable w := by
  simp [Reader.start, Phase.rest, Frame.after, Derivable, spells_name, rule]

/-- What becomes of a text depends on its scan alone. -/
theorem Reading.ofText_outcome (code : String) :
    Reader.Outcome Derivable (Scan.ofText code).stray (Scan.ofText code).tokens (.ofText code) := by
  have hwants : Spells Reader.start.rest = Derivable :=
    funext fun w => propext Reader.spells_start_rest
  rw [← hwants]
  exact Reader.run_outcome Reader.start .start _ _ trivial rfl

namespace Session

/-- Reading gives a program exactly for the texts that are programs, fails exactly for those that
choke, and leaves one report in all other cases. -/
theorem parse_outcome (s : Session) (code : String) :
    ((s.parse [] code).1 = .ok true ↔ (Scan.ofText code).IsProgram) ∧
    ((∃ f, (s.parse [] code).1 = .error f) ↔ (Scan.ofText code).Chokes) ∧
    match s.parse [] code with
    | (.ok true, after) => (∃ p, after.program = some p) ∧ after.ledger.syntactic = []
    | (.ok false, after) => after.program = none ∧ ∃ d, after.ledger.syntactic = [d]
    | (.error _, after) => after.program = none ∧ after.ledger.syntactic = [] := by
  have houtcome := Reading.ofText_outcome code
  rw [← Scan.readable_iff, ← Scan.choking_iff]
  cases hreading : Reading.ofText code with
  | program p log =>
    rw [hreading] at houtcome
    have hparse : s.parse [] code =
        (.ok true, { s with program := some p, ledger := { s.ledger with syntactic := [] } }) := by
      simp [parse, Parsing.ofText, hreading]
    cases houtcome with
    | program hread hchoke => simp [hparse, hread, hchoke]
  | fault f =>
    rw [hreading] at houtcome
    have hparse : s.parse [] code = (.ok false, { s with
        program := none
        ledger := { s.ledger with syntactic := [.ofSyntactic (syntaxMessage f.message)] } }) := by
      simp [parse, Parsing.ofText, hreading, Ledger.add, Diagnostic.ofSyntactic]
    cases houtcome with
    | fault hread hchoke => simp [hparse, hread, hchoke]
  | aborted f =>
    rw [hreading] at houtcome
    have hparse : s.parse [] code =
        (.error f, { s with program := none, ledger := { s.ledger with syntactic := [] } }) := by
      simp [parse, Parsing.ofText, hreading]
    cases houtcome with
    | aborted hread hchoke => simp [hparse, hread, hchoke]

/-- A logical operator with no operand after it leaves neither a program nor a report. -/
theorem parse_dangling_operator :
    ¬ (Scan.ofText "x = a && ;").IsProgram ∧
      (empty.parse [] "x = a && ;").1 = .error (.missingArguments "operador_logico" ["op"]) ∧
      (empty.parse [] "x = a && ;").2.ledger.syntactic = [] := by
  refine ⟨fun h => ?_, rfl, rfl⟩
  have hboth : ∃ t ∈ (Scan.ofText "x = a && ;").tokens, t.kind = .both := by decide +kernel
  obtain ⟨t, ht, hkind⟩ := hboth
  exact (h.plain t ht).1 hkind

end Session

end Analizador
