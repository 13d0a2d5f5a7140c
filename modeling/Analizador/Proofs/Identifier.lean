import Analizador.Identifier
import Analizador.Proofs.Scan.Seam
import Analizador.Proofs.Scan.Tiling

/-! # Valid identifiers and tokens

A text is a valid identifier if it is one token, an identifier. The other valid identifiers are
words, the reserved ones among them, with a line end after them, which no token has. -/

namespace Analizador

/-! ## Texts that are one token -/

/-- Nothing is reported on a text, and its only token has the given kind and text. -/
def Session.Lexes (s : Session) (code : String) (kind : Kind) (text : String) : Prop :=
  (s.tokenize code).ledger.lexical = [] ∧ ∃ spot, (s.tokenize code).tokens = [⟨kind, text, spot⟩]

namespace Scan

variable {kind : Kind} {word : String}

theorem lexes_iff_ofText {s : Session} {code : String} :
    s.Lexes code kind word ↔ ∃ spot, ofText code = ⟨[⟨kind, word, spot⟩], none⟩ := by
  simp only [Session.Lexes, Session.tokenize, diagnostics_eq_nil_iff]
  constructor
  · rintro ⟨hstray, spot, htokens⟩
    exact ⟨spot, by rw [← htokens, ← hstray]⟩
  · rintro ⟨spot, hscan⟩
    simp [hscan]

/-- A text with nothing but blanks after it is one token exactly if the token's kind reads it. -/
theorem lexes_append_iff (s : Session) (kind : Kind) (word blanks : String)
    (hblanks : ∀ c ∈ blanks.toList, isSpace c = true) :
    s.Lexes (word ++ blanks) kind word ↔ kind.Reads word.toList := by
  rw [lexes_iff_ofText]
  constructor
  · rintro ⟨spot, hscan⟩
    have hmem : ⟨kind, word, spot⟩ ∈ (ofText (word ++ blanks)).tokens := by simp [hscan]
    exact ofText_reads hmem
  · intro hreads
    have hparted : Parted blanks.toList := fun c hc => hblanks c (List.mem_of_head? hc)
    have hskipped := skipped_blanks hblanks (Spot.start.after word.toList) [] [] rfl
    rw [List.append_nil] at hskipped
    refine ⟨.start, ofText_eq_iff.mpr ?_⟩
    rw [String.toList_append]
    exact tokensFrom_token (t := ⟨kind, word, .start⟩) hreads (hparted.ends kind) .start hskipped

end Scan

/-! ## Words -/

namespace Identifier

open Scan (isSpace isWordStart isWordRest)

variable {cs : List Char}

/-- The form of an identifier is that of all words. -/
theorem wellFormed_iff :
    wellFormed cs = true ↔ ∃ kind : Kind, kind.isWord = true ∧ kind.Reads cs := by
  constructor
  · intro h
    cases cs with
    | nil => cases h
    | cons c rest =>
      obtain ⟨hstart, hrest⟩ : isWordStart c = true ∧ rest.all isWordRest = true :=
        Bool.and_eq_true_iff.mp h
      have hrun : rest.takeWhile isWordRest = rest :=
        List.takeWhile_eq_self_iff.mpr (List.all_eq_true.mp hrest)
      have hword : Scan.word? (c :: rest) = some (c :: rest).length := by
        rw [Scan.word?, if_pos hstart, Scan.run, hrun, List.length_cons, Nat.add_comm]
      have hreads := Scan.reads_of_word? hword
      rw [List.take_length] at hreads
      exact ⟨_, Scan.isWord_ofWord _, hreads⟩
  · rintro ⟨kind, hword, hreads⟩
    by_cases hkind : kind = .identifier
    · subst hkind
      obtain ⟨⟨c, rest, rfl, hstart, hrest⟩, -⟩ := hreads
      exact Bool.and_eq_true_iff.mpr ⟨hstart, List.all_eq_true.mpr hrest⟩
    · obtain ⟨entry, hmem, rfl⟩ : ∃ entry ∈ Kind.keywords, entry.2 = kind := by
        simpa [Kind.isWord, hkind] using hword
      have hall : ∀ entry ∈ Kind.keywords, wellFormed entry.1.toList = true := by decide
      -- A reserved word has one spelling.
      have htext : String.ofList cs = entry.1 :=
        (Scan.kind_eq_iff_of_mem_keywords (t := ⟨entry.2, String.ofList cs, .start⟩)
          (by simpa using hreads) hmem).mp rfl
      rw [← String.toList_ofList (l := cs), htext]
      exact hall entry hmem

theorem ofWord_eq_identifier_iff (word : String) :
    Kind.ofWord word = .identifier ↔ (Kind.keywords.any (·.1 == word)) = false := by
  have hall : ∀ entry ∈ Kind.keywords, entry.2 ≠ .identifier := by decide
  cases hlookup : Kind.keywords.lookup word with
  | none =>
    have hne := List.lookup_eq_none_iff.mp hlookup
    refine iff_of_true (by simp [Kind.ofWord, hlookup]) (List.any_eq_false.mpr fun entry hmem => ?_)
    intro heq
    simpa [beq_iff_eq.mp heq] using hne entry hmem
  | some kind =>
    have hmem : (word, kind) ∈ Kind.keywords := by
      obtain ⟨before, after, heq, -⟩ := List.lookup_eq_some_iff.mp hlookup
      simp [heq]
    refine iff_of_false (by simpa [Kind.ofWord, hlookup] using hall _ hmem)
      (Bool.not_eq_false _ ▸ ?_)
    exact List.any_eq_true.mpr ⟨_, hmem, by simp⟩

/-- The words that are no names are the keywords of the scan. -/
theorem contains_reserved (word : String) :
    reserved.contains word = Kind.keywords.any (·.1 == word) := by
  have hwords : reserved = Kind.keywords.map Prod.fst := rfl
  rw [hwords, List.contains_eq_any_beq, List.any_map]
  exact List.any_congr rfl fun _ => Bool.beq_comm

/-- The identifiers among the tokens have the form of a word and are not reserved. -/
theorem reads_identifier_iff (word : String) :
    Kind.identifier.Reads word.toList ↔
      wellFormed word.toList = true ∧ (Kind.keywords.any (·.1 == word)) = false := by
  rw [← ofWord_eq_identifier_iff]
  constructor
  · intro hreads
    exact ⟨wellFormed_iff.mpr ⟨_, rfl, hreads⟩, by simpa using hreads.2⟩
  · rintro ⟨hform, hword⟩
    refine ⟨?_, by simpa using hword⟩
    cases hchars : word.toList with
    | nil =>
      rw [hchars] at hform
      cases hform
    | cons c rest =>
      rw [hchars] at hform
      obtain ⟨hstart, hrest⟩ := Bool.and_eq_true_iff.mp hform
      exact ⟨c, rest, rfl, hstart, List.all_eq_true.mp hrest⟩

/-! ## Line ends -/

theorem not_wellFormed_newline : wellFormed (cs ++ ['\n']) = false := by
  cases cs with
  | nil => rfl
  | cons c rest =>
    have hnewline : follows '\n' = false := by decide
    simp [wellFormed, hnewline]

/-- One line end after a word is passed over, and then the word may be a reserved one. -/
theorem isValid_newline (word : String) : isValid (word ++ "\n") = wellFormed word.toList := by
  have hall : ∀ entry ∈ Kind.keywords, entry.1.toList.getLast? ≠ some '\n' := by decide
  have hkeyword : (Kind.keywords.any (·.1 == word ++ "\n")) = false := by
    refine List.any_eq_false.mpr fun entry hmem heq => hall entry hmem ?_
    rw [beq_iff_eq.mp heq]
    simp
  rw [isValid, contains_reserved, hkeyword]
  simp [withoutLineEnd]

/-- A text without a line end at its end is a valid identifier if it is an identifier among the
tokens. -/
theorem isValid_iff_reads {name : String} (h : name.toList.getLast? ≠ some '\n') :
    isValid name = true ↔ Kind.identifier.Reads name.toList := by
  rw [reads_identifier_iff, isValid, contains_reserved, withoutLineEnd, if_neg h]
  simp

end Identifier

namespace Session

/-- A valid identifier is a text that is one token, an identifier, or else a word, reserved or not,
with a line end after it. Only in the latter case does the check of identifiers disagree with the
scan. -/
theorem isValid_iff_lexes (s : Session) (name : String) :
    (Identifier.isValid name = true ↔
      s.Lexes name .identifier name ∨
        ∃ word kind, name = word ++ "\n" ∧ Kind.isWord kind = true ∧ s.Lexes name kind word) ∧
    ((Identifier.isValid name = true ↔ s.Lexes name .identifier name) ↔
      ¬ ∃ word kind, name = word ++ "\n" ∧ Kind.isWord kind = true ∧ s.Lexes name kind word) := by
  have hname : s.Lexes name .identifier name ↔ Kind.identifier.Reads name.toList := by
    simpa using Scan.lexes_append_iff s .identifier name "" (by simp)
  by_cases hlast : name.toList.getLast? = some '\n'
  · obtain ⟨word, rfl⟩ : ∃ word, name = word ++ "\n" := by
      obtain ⟨cs, hcs⟩ := List.getLast?_eq_some_iff.mp hlast
      exact ⟨String.ofList cs, String.toList_inj.mp (by simpa using hcs)⟩
    have hno : ¬ s.Lexes (word ++ "\n") .identifier (word ++ "\n") := by
      rw [hname, Identifier.reads_identifier_iff, String.toList_append]
      simp [Identifier.not_wellFormed_newline]
    have hwords : Identifier.isValid (word ++ "\n") = true ↔
        ∃ w kind, word ++ "\n" = w ++ "\n" ∧ Kind.isWord kind = true ∧
        s.Lexes (word ++ "\n") kind w := by
      have hend : ∀ c ∈ "\n".toList, Scan.isSpace c = true := List.all_eq_true.mp rfl
      rw [Identifier.isValid_newline, Identifier.wellFormed_iff]
      constructor
      · rintro ⟨kind, hword, hreads⟩
        exact ⟨word, kind, rfl, hword, (Scan.lexes_append_iff s kind word "\n" hend).mpr hreads⟩
      · rintro ⟨w, kind, heq, hword, hlexes⟩
        obtain rfl : word = w := by simpa using heq
        exact ⟨kind, hword, (Scan.lexes_append_iff s kind word "\n" hend).mp hlexes⟩
    rw [← hwords]
    simp [hno]
  · have hwords : ¬ ∃ word kind, name = word ++ "\n" ∧ Kind.isWord kind = true ∧
        s.Lexes name kind word := by
      rintro ⟨word, kind, rfl, -, -⟩
      exact hlast (by simp)
    simp only [hwords, or_false, not_false_eq_true, iff_true, and_self]
    exact (Identifier.isValid_iff_reads hlast).trans hname.symm

/-- A reserved word with a line end after it is a valid identifier, but no identifier among the
tokens. -/
theorem isValid_newline_not_lexes :
    Identifier.isValid "x\n" = true ∧ ¬ empty.Lexes "x\n" .identifier "x\n" ∧
      Identifier.isValid "ent\n" = true ∧ ¬ empty.Lexes "ent\n" .identifier "ent\n" := by
  refine ⟨by decide, ?_, by decide, ?_⟩
  · rintro ⟨-, spot, htokens⟩
    have htext : (empty.tokenize "x\n").tokens.map Token.text = ["x"] := by decide
    simp [htokens] at htext
  · rintro ⟨-, spot, htokens⟩
    have htext : (empty.tokenize "ent\n").tokens.map Token.text = ["ent"] := by decide
    simp [htokens] at htext

end Session

end Analizador
