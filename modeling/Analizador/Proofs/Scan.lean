import Mathlib.Data.List.TakeWhile
import Analizador.Token.Scan

/-! # Tokens of a text

A scan takes one lexeme after the other, each by the first class that fits. Every token is the
lexeme that stands at its place, so its characters are those of the class of its kind. -/

namespace Analizador

/-- The kinds that have a single spelling, with it. -/
def Kind.spellings : List (String × Kind) := keywords ++ marks

/-- The characters that tokens of a kind consist of. -/
def Kind.Reads (cs : List Char) : Kind → Prop
  | .identifier =>
    (∃ c rest, cs = c :: rest ∧ Scan.isWordStart c = true ∧ ∀ d ∈ rest, Scan.isWordRest d = true) ∧
      ofWord (String.ofList cs) = .identifier
  | .integer => cs ≠ [] ∧ ∀ c ∈ cs, c.isDigit = true
  | .decimal => ∃ ds es, cs = ds ++ '.' :: es ∧ ds ≠ [] ∧ es ≠ [] ∧
      (∀ c ∈ ds, c.isDigit = true) ∧ ∀ c ∈ es, c.isDigit = true
  | .text => ∃ body, cs = '"' :: body ++ ['"'] ∧ '"' ∉ body
  | kind => (String.ofList cs, kind) ∈ spellings

namespace Scan

theorem take_run (p : Char → Bool) (cs : List Char) : cs.take (run p cs) = cs.takeWhile p :=
  (List.prefix_iff_eq_take.mp (List.takeWhile_prefix p)).symm

theorem drop_run (p : Char → Bool) (cs : List Char) : cs.drop (run p cs) = cs.dropWhile p := by
  have hsplit : cs.take (run p cs) ++ cs.drop (run p cs) =
      cs.takeWhile p ++ cs.dropWhile p := by simp
  rw [take_run] at hsplit
  exact List.append_cancel_left hsplit

/-- The lexeme at the front belongs to the first class that fits. -/
theorem lexeme?_eq_some_iff {cs : List Char} {lexeme : Lexeme} :
    lexeme? cs = some lexeme ↔
      (∃ n, comment? cs = some n ∧ ⟨none, n⟩ = lexeme) ∨ comment? cs = none ∧
      ((∃ n, word? cs = some n ∧ ⟨some (Kind.ofWord (String.ofList (cs.take n))), n⟩ = lexeme) ∨
        word? cs = none ∧
      ((∃ n, decimal? cs = some n ∧ ⟨some .decimal, n⟩ = lexeme) ∨ decimal? cs = none ∧
      ((∃ n, space? cs = some n ∧ ⟨none, n⟩ = lexeme) ∨ space? cs = none ∧
      ((∃ n, text? cs = some n ∧ ⟨some .text, n⟩ = lexeme) ∨ text? cs = none ∧
      ((∃ n, integer? cs = some n ∧ ⟨some .integer, n⟩ = lexeme) ∨ integer? cs = none ∧
      ∃ kind n, mark? cs = some (kind, n) ∧ ⟨some kind, n⟩ = lexeme))))) := by
  simp [lexeme?, Option.or_eq_some_iff]

theorem reads_of_mem_spellings {sign : String} {kind : Kind} (h : (sign, kind) ∈ Kind.spellings) :
    kind.Reads sign.toList := by
  have hall : ∀ entry ∈ Kind.spellings,
      entry.2 ≠ .identifier ∧ entry.2 ≠ .integer ∧ entry.2 ≠ .decimal ∧ entry.2 ≠ .text := by decide
  obtain ⟨hidentifier, hinteger, hdecimal, htext⟩ := hall _ h
  unfold Kind.Reads
  split <;> first | contradiction | simpa using h

theorem reads_of_word? {cs : List Char} {n : Nat} (h : word? cs = some n) :
    (Kind.ofWord (String.ofList (cs.take n))).Reads (cs.take n) := by
  cases hlookup : Kind.keywords.lookup (String.ofList (cs.take n)) with
  | some kind =>
    obtain ⟨before, after, heq, -⟩ := List.lookup_eq_some_iff.mp hlookup
    have hmem : (String.ofList (cs.take n), kind) ∈ Kind.spellings := by simp [Kind.spellings, heq]
    simpa [Kind.ofWord, hlookup] using reads_of_mem_spellings hmem
  | none =>
    have hword : Kind.ofWord (String.ofList (cs.take n)) = .identifier := by
      simp [Kind.ofWord, hlookup]
    rw [hword]
    refine ⟨?_, hword⟩
    cases cs with
    | nil => cases h
    | cons c rest =>
      obtain ⟨hstart, rfl⟩ : isWordStart c = true ∧ 1 + run isWordRest rest = n := by
        simpa [word?] using h
      refine ⟨c, rest.takeWhile isWordRest, ?_, hstart, fun d hd => List.mem_takeWhile_imp hd⟩
      rw [Nat.add_comm, List.take_succ_cons, take_run]

theorem reads_of_mark? {cs : List Char} {kind : Kind} {n : Nat} (h : mark? cs = some (kind, n)) :
    kind.Reads (cs.take n) := by
  obtain ⟨⟨sign, kind'⟩, hfind, heq⟩ := Option.map_eq_some_iff.mp h
  obtain ⟨rfl, rfl⟩ := Prod.mk.inj heq
  have hstarts : sign.toList <+: cs := by simpa using List.find?_some hfind
  rw [← List.prefix_iff_eq_take.mp hstarts]
  exact reads_of_mem_spellings (List.mem_append_right _ (List.mem_of_find?_eq_some hfind))

theorem reads_of_text? {cs : List Char} {n : Nat} (h : text? cs = some n) :
    Kind.text.Reads (cs.take n) := by
  unfold text? at h
  split at h
  next rest =>
    obtain ⟨hlength, rfl⟩ : run (· != '"') rest < rest.length ∧ run (· != '"') rest + 2 = n := by
      simpa using h
    cases hdrop : rest.dropWhile (· != '"') with
    | nil =>
      rw [← drop_run, List.drop_eq_nil_iff] at hdrop
      omega
    | cons c after =>
      obtain rfl : c = '"' := by simpa [hdrop] using List.head?_dropWhile_not (· != '"') rest
      refine ⟨rest.takeWhile (· != '"'), ?_, fun hmem => by simpa using List.mem_takeWhile_imp hmem⟩
      rw [List.take_succ_cons, List.take_add, take_run, drop_run, hdrop]
      rfl
  next => cases h

/-- Digits at the front are taken as far as they go. -/
theorem reads_of_integer? {cs : List Char} {n : Nat} (h : integer? cs = some n) :
    Kind.integer.Reads (cs.take n) := by
  obtain ⟨hne, rfl⟩ : ¬ run Char.isDigit cs = 0 ∧ run Char.isDigit cs = n := by
    simpa [integer?] using h
  rw [take_run]
  refine ⟨fun hnil => hne (by simp [run, hnil]), fun c hc => List.mem_takeWhile_imp hc⟩

/-- A decimal at the front is digits, a point and digits. -/
theorem reads_of_decimal? {cs : List Char} {n : Nat} (h : decimal? cs = some n) :
    Kind.decimal.Reads (cs.take n) := by
  obtain ⟨whole, hwhole, hpoint⟩ := Option.bind_eq_some_iff.mp h
  split at hpoint
  next rest hdrop =>
    obtain ⟨fraction, hfraction, heq⟩ := Option.bind_eq_some_iff.mp hpoint
    obtain rfl : whole + 1 + fraction = n := Option.some.inj heq
    have hds := reads_of_integer? hwhole
    have hes := reads_of_integer? hfraction
    refine ⟨cs.take whole, rest.take fraction, ?_, hds.1, hes.1, hds.2, hes.2⟩
    rw [Nat.add_assoc, List.take_add, hdrop, Nat.add_comm 1, List.take_succ_cons]
  next => cases hpoint

/-- A lexeme that is kept consists of the characters of its kind. -/
theorem reads_of_lexeme? {cs : List Char} {kind : Kind} {n : Nat}
    (h : lexeme? cs = some ⟨some kind, n⟩) : kind.Reads (cs.take n) := by
  simp only [lexeme?_eq_some_iff, Lexeme.mk.injEq, Option.some.injEq, reduceCtorEq, false_and,
    and_false, exists_const, false_or] at h
  obtain ⟨-, ⟨m, hword, rfl, rfl⟩ | ⟨-, ⟨m, hdecimal, rfl, rfl⟩ | ⟨-, -, ⟨m, htext, rfl, rfl⟩ | ⟨-,
    ⟨m, hinteger, rfl, rfl⟩ | ⟨-, kind', m, hmark, rfl, rfl⟩⟩⟩⟩⟩ := h
  · exact reads_of_word? hword
  · exact reads_of_decimal? hdecimal
  · exact reads_of_text? htext
  · exact reads_of_integer? hinteger
  · exact reads_of_mark? hmark

theorem tokensFrom_reads {spot : Spot} {skip : Nat} {cs : List Char} {t : Token}
    (h : t ∈ (tokensFrom spot skip cs).1) : t.kind.Reads t.text.toList := by
  induction cs generalizing spot skip with
  | nil => cases h
  | cons c rest ih =>
    unfold tokensFrom at h
    cases skip with
    | succ skip => exact ih h
    | zero =>
      dsimp only at h
      split at h
      next => cases h
      next lexeme hlexeme =>
        obtain ⟨kind, n⟩ := lexeme
        cases kind with
        | none => exact ih h
        | some kind =>
          rcases List.mem_cons.mp h with rfl | h
          · simpa using reads_of_lexeme? hlexeme
          · exact ih h

/-- Every token consists of the characters of its kind. -/
theorem ofText_reads {code : String} {t : Token} (h : t ∈ (ofText code).tokens) :
    t.kind.Reads t.text.toList :=
  tokensFrom_reads h

end Scan

end Analizador
