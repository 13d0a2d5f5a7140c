import Analizador.Proofs.Reader.Remainder
import Analizador.Proofs.Scan.Seam

/-! # Reading with ready tokens

A list of tokens that comes with a text is refused, whatever text it was taken from. So reading a
text with its own tokens agrees with reading the text only if there are none, that is, if the text
has nothing but blanks and comments. The refusal is reported in words that no other report has. -/

namespace Analizador

/-! ## Texts without tokens -/

namespace Scan

variable {cs rest : List Char}

theorem Filler.tokensFrom (h : Filler rest cs) {spot : Spot} {ts : List Token}
    (hscan : tokensFrom (spot.after cs) 0 rest = (ts, none)) :
    tokensFrom spot 0 (cs ++ rest) = (ts, none) := by
  cases h with
  | blanks hne hblanks => exact skipped_blanks hblanks spot rest ts hscan
  | @line body hbody hend =>
    have hrun : run (· != '\n') (body ++ rest) = body.length := by
      apply run_append
      · intro c hc
        simpa using ne_of_mem_of_not_mem hc hbody
      · intro c hc
        simpa using hend c hc
    refine tokensFrom_comment (by simp) ?_ hscan
    simp only [List.cons_append, comment?, hrun, List.length_cons]
    congr 1
    omega
  | block hbody => exact skipped_block hbody spot rest ts hscan

theorem Gap.tokensFrom (h : Gap rest cs) {spot : Spot} {ts : List Token}
    (hscan : tokensFrom (spot.after cs) 0 rest = (ts, none)) :
    tokensFrom spot 0 (cs ++ rest) = (ts, none) := by
  induction h generalizing spot with
  | nil => exact hscan
  | @cons front cs hfront _ ih =>
    rw [Spot.after_append] at hscan
    rw [List.append_assoc]
    exact hfront.tokensFrom (ih hscan)

/-- A text without tokens on which nothing is reported has nothing but blanks and comments. -/
theorem ofText_eq_nil_iff (code : String) : ofText code = ⟨[], none⟩ ↔ Gap [] code.toList := by
  rw [ofText_eq_iff]
  constructor
  · intro hscan
    obtain ⟨left, htiles, hstop⟩ := exists_tiles [] code.toList
    rw [show Spot.following [] = .start from rfl, hscan] at htiles hstop
    obtain rfl : left = [] := hstop
    generalize code.toList = cs at htiles
    cases htiles with
    | gap hgap => simpa using hgap
  · intro hgap
    have hscan : tokensFrom .start 0 (code.toList ++ []) = ([], none) := hgap.tokensFrom rfl
    rwa [List.append_nil] at hscan

end Scan

/-! ## The wording of reports -/

/-- The failures that a reader meets in building a phrase. -/
inductive Failure.OfPhrase : Failure → Prop where
  | operator : OfPhrase (.missingArguments "operador_logico" ["op"])
  | longNumeral (digits : Nat) : OfPhrase (.longNumeral digits)
  | badInteger (text : String) : OfPhrase (.badInteger text)
  | badDecimal (text : String) : OfPhrase (.badDecimal text)

/-- If a step fails, it is in building a phrase. -/
def Step.FailsOnPhrase : Step → Prop
  | .failed f => f.OfPhrase
  | .moved _ | .accepted .. | .stuck _ => True

namespace Numeral

theorem readInteger_ofPhrase {text : String} {f : Failure} (h : readInteger text = .error f) :
    f.OfPhrase := by
  unfold readInteger at h
  dsimp only at h
  split at h
  next =>
    obtain rfl := Except.error.inj h
    exact .badInteger _
  next =>
    split at h
    next =>
      obtain rfl := Except.error.inj h
      exact .longNumeral _
    next => cases h
  next =>
    obtain rfl := Except.error.inj h
    exact .badInteger _

theorem readDecimal_ofPhrase {text : String} {f : Failure} (h : readDecimal text = .error f) :
    f.OfPhrase := by
  unfold readDecimal at h
  dsimp only at h
  split at h
  next => cases h
  next =>
    obtain rfl := Except.error.inj h
    exact .badDecimal _

end Numeral

theorem Token.toExpr_ofPhrase {t : Token} {f : Failure} (h : t.toExpr = .error f) : f.OfPhrase := by
  unfold toExpr at h
  split at h
  next =>
    cases hread : Numeral.readInteger t.text with
    | ok n => simp [hread, bind, Except.bind, pure, Except.pure] at h
    | error g =>
      obtain rfl : g = f := by simpa [hread, bind, Except.bind] using h
      exact Numeral.readInteger_ofPhrase hread
  next =>
    cases hread : Numeral.readDecimal t.text with
    | ok d => simp [hread, bind, Except.bind, pure, Except.pure] at h
    | error g =>
      obtain rfl : g = f := by simpa [hread, bind, Except.bind] using h
      exact Numeral.readDecimal_ofPhrase hread
  next => cases h
  next => cases h

namespace Reader

variable (r : Reader)

/-- Only phrases of the four sorts cannot be built. -/
theorem Fails.ofPhrase {r : Reader} {k : Kind} {f : Failure} (h : r.Fails k f) : f.OfPhrase := by
  cases h with
  | leaf _ hf | lone _ hf => exact Token.toExpr_ofPhrase hf
  | count _ hf => exact Numeral.readInteger_ofPhrase hf
  | logical => exact .operator

/-- Looking at a token fails in building a phrase only. -/
theorem look_failsOnPhrase (next : Look) : (r.look next).FailsOnPhrase := by
  cases next with
  | finish =>
    rcases r.look_finish with ⟨-, p, log, hlook⟩ | ⟨-, r', hlook⟩ <;> rw [hlook] <;> trivial
  | token t =>
    have hlooks := r.looks t
    generalize r.look (.token t) = step at hlooks ⊢
    induction hlooks with
    | ends _ _ ih => exact ih
    | shifts | refuses => trivial
    | fails hfails => exact hfails.ofPhrase

theorem reject_ne_failure (look : Look) (spot : Spot) (f : Failure) :
    r.reject look spot ≠ .fault (.failure f) := by
  unfold reject
  split <;> simp

/-- A report on a phrase that could not be built tells a failure in building one. -/
theorem run_ofPhrase {r : Reader} {last : Spot} {stray : Option Stray} {ts : List Token}
    {f : Failure} (h : r.run last stray ts = .fault (.failure f)) : f.OfPhrase := by
  induction ts generalizing r last with
  | nil =>
    have hlook := r.look_failsOnPhrase .finish
    cases stray with
    | some s => cases h
    | none =>
      simp only [run] at h
      split at h
      next => cases h
      next => exact absurd h (reject_ne_failure _ _ _ f)
      next => exact absurd h (reject_ne_failure _ _ _ f)
      next g hfailed =>
        obtain rfl : g = f := by simpa using h
        rwa [hfailed] at hlook
  | cons t ts ih =>
    have hlook := r.look_failsOnPhrase (.token t)
    simp only [run] at h
    split at h
    next => exact ih h
    next => cases h
    next => exact absurd h (reject_ne_failure _ _ _ f)
    next g hfailed =>
      obtain rfl : g = f := by simpa using h
      rwa [hfailed] at hlook

end Reader

namespace SyntaxFault

/-- What the reports on texts that are no programs start with. -/
def openings : List String :=
  ["No terminal matches '", "Unexpected token ", "ASTBuilder.",
    "Exceeds the limit (4300 digits) for integer string conversion: value has ",
    "invalid literal for int() with base 10: ", "could not convert string to float: "]

theorem starts_append {opening text : String} (more : String) (h : opening.toList <+: text.toList) :
    opening.toList <+: (text ++ more).toList := by
  rw [String.toList_append]
  exact h.trans (List.prefix_append _ _)

theorem exists_opening {f : SyntaxFault} (h : ∀ g, f = .failure g → g.OfPhrase) :
    ∃ opening ∈ openings, opening.toList <+: f.message.toList := by
  cases f with
  | stray s =>
    have hstarts : "No terminal matches '".toList <+: s.message.toList := by
      obtain ⟨details, hmessage⟩ := s.exists_message_eq
      rw [hmessage]
      iterate 4 apply starts_append
      exact List.prefix_rfl
    exact ⟨_, by simp [openings], hstarts⟩
  | unexpected look spot wanted =>
    refine ⟨"Unexpected token ", by simp [openings], ?_⟩
    unfold message
    iterate 7 apply starts_append
    exact List.prefix_rfl
  | failure g =>
    cases h g rfl with
    | operator =>
      refine ⟨"ASTBuilder.", by simp [openings], ?_⟩
      unfold message Failure.message
      iterate 7 apply starts_append
      exact List.prefix_rfl
    | longNumeral digits =>
      refine ⟨"Exceeds the limit (4300 digits) for integer string conversion: value has ",
        by simp [openings], ?_⟩
      unfold message Failure.message
      iterate 3 apply starts_append
      exact List.prefix_rfl
    | badInteger text =>
      exact ⟨"invalid literal for int() with base 10: ", by simp [openings],
        starts_append _ List.prefix_rfl⟩
    | badDecimal text =>
      exact ⟨"could not convert string to float: ", by simp [openings],
        starts_append _ List.prefix_rfl⟩

theorem message_ne_tokensGiven {f : SyntaxFault} (h : ∀ g, f = .failure g → g.OfPhrase) :
    f.message ≠ Failure.tokensGiven.message := by
  have hall : ∀ opening ∈ openings, ¬ opening.toList <+: Failure.tokensGiven.message.toList := by
    decide +kernel
  obtain ⟨opening, hmem, hstarts⟩ := exists_opening h
  intro heq
  rw [heq] at hstarts
  exact hall opening hmem hstarts

end SyntaxFault

/-! ## Reading a text with its own tokens -/

namespace Session

/-- The report on a list of tokens that comes with a text. -/
def refusal : Diagnostic := .ofSyntactic (syntaxMessage Failure.tokensGiven.message)

theorem parse_of_ne_nil (s : Session) {tokens : List Token} (h : tokens ≠ []) (code : String) :
    s.parse tokens code =
      (.ok false,
        { s with program := none, ledger := { s.ledger with syntactic := [refusal] } }) := by
  simp [parse, Parsing.ofText, h, Ledger.add, refusal, Diagnostic.ofSyntactic]

theorem syntaxMessage_injective : Function.Injective syntaxMessage :=
  fun _ _ h => (String.append_right_inj _).mp h

/-- No text read without tokens is refused. -/
theorem refusal_notMem_parse (s : Session) (code : String) :
    refusal ∉ (s.parse [] code).2.ledger.syntactic := by
  cases hreading : Reading.ofText code with
  | program p log => simp [parse, Parsing.ofText, hreading]
  | aborted f => simp [parse, Parsing.ofText, hreading]
  | fault f =>
    have hmessage : f.message ≠ Failure.tokensGiven.message :=
      SyntaxFault.message_ne_tokensGiven fun g hg => Reader.run_ofPhrase (hg ▸ hreading)
    have hsyntactic : (s.parse [] code).2.ledger.syntactic =
        [.ofSyntactic (syntaxMessage f.message)] := by
      simp [parse, Parsing.ofText, hreading, Ledger.add, Diagnostic.ofSyntactic]
    rw [hsyntactic, List.mem_singleton]
    intro heq
    have htext : syntaxMessage Failure.tokensGiven.message = syntaxMessage f.message := by
      simpa [refusal, Diagnostic.ofSyntactic] using heq
    exact hmessage (syntaxMessage_injective htext).symm

/-- Reading a text with its own tokens gives what reading the text gives exactly if there are none,
that is, if the text has nothing but blanks and comments. Otherwise the tokens are refused, which
leaves no program and one report that reading the text does not leave; the answers alone agree if
the text is no program and this is reported. -/
theorem parse_tokens_agrees_iff (s : Session) (code : String)
    (hclean : (s.tokenize code).ledger.lexical = []) :
    let tokens := (s.tokenize code).tokens
    (tokens = [] ↔ Scan.Gap [] code.toList) ∧
      (tokens ≠ [] → s.parse tokens code =
        (.ok false,
          { s with program := none, ledger := { s.ledger with syntactic := [refusal] } })) ∧
      (s.parse tokens code = s.parse [] code ↔ tokens = []) ∧
      ((s.parse tokens code).1 = (s.parse [] code).1 ↔
        tokens = [] ∨ (s.parse [] code).1 = .ok false) := by
  intro tokens
  refine ⟨?_, fun hne => s.parse_of_ne_nil hne code, ?_, ?_⟩
  · have hscan : Scan.ofText code = ⟨tokens, none⟩ := by
      rw [← Scan.diagnostics_eq_nil_iff.mp hclean]
      rfl
    rw [← Scan.ofText_eq_nil_iff, hscan, Scan.mk.injEq, and_iff_left rfl]
  · constructor
    · intro heq
      by_contra hne
      rw [s.parse_of_ne_nil hne] at heq
      exact s.refusal_notMem_parse code (by rw [← heq]; simp)
    · intro hnil
      rw [hnil]
  · by_cases hnil : tokens = []
    · simp [hnil]
    · simp [s.parse_of_ne_nil hnil, hnil, eq_comm]

theorem parse_tokens_agrees_iff_declaration :
    (empty.tokenize "ent x ;").ledger.lexical = [] ∧ ¬ Scan.Gap [] "ent x ;".toList ∧
      empty.parse (empty.tokenize "ent x ;").tokens "ent x ;" ≠ empty.parse [] "ent x ;" := by
  have hclean : (empty.tokenize "ent x ;").ledger.lexical = [] := rfl
  have hne : (empty.tokenize "ent x ;").tokens ≠ [] := by decide
  obtain ⟨hgap, -, hagrees, -⟩ := parse_tokens_agrees_iff empty "ent x ;" hclean
  exact ⟨hclean, fun h => hne (hgap.mpr h), fun h => hne (hagrees.mp h)⟩

/-- A declaration is read as a program, but not with its own tokens. -/
theorem parse_declaration_tokens :
    (empty.tokenize "ent x ;").ledger.lexical = [] ∧ (empty.parse [] "ent x ;").1 = .ok true ∧
      (empty.parse (empty.tokenize "ent x ;").tokens "ent x ;").1 = .ok false ∧
      (empty.parse (empty.tokenize "ent x ;").tokens "ent x ;").2.ledger.syntactic = [refusal] :=
  ⟨rfl, rfl, rfl, rfl⟩

end Session

end Analizador
