import Analizador.Proofs.Numeral
import Analizador.Proofs.Scan

/-! # Scanning written tokens

The characters of a token are the lexeme at their front, unless the next character goes on with it.
A blank ends every token, so tokens that are written one after the other with a space between them
are scanned back. Only the places are those of the text. -/

namespace Analizador

/-- A token without its place. -/
def Token.unplaced (t : Token) : Token := { t with spot := .start }

/-- A character may go on with a token of a kind. -/
def Kind.goesOn (c : Char) : Kind → Bool
  | ent | dec | cadena | si | oNo | mientras | repetir | sout | scan | identifier =>
    Scan.isWordRest c
  | integer => c.isDigit || c == '.'
  | decimal => c.isDigit
  | assign | less | greater => c == '='
  | slash => c == '/' || c == '*'
  | _ => false

namespace Scan

variable {cs rest : List Char}

/-! ## One lexeme -/

/-- A run goes on to the first character that is not in it. -/
theorem run_append {p : Char → Bool} (hcs : ∀ c ∈ cs, p c = true)
    (hrest : ∀ c ∈ rest.head?, p c = false) : run p (cs ++ rest) = cs.length := by
  have hstop : rest.takeWhile p = [] := by
    cases rest with
    | nil => rfl
    | cons c rest => simp [hrest c rfl]
  rw [run, List.takeWhile_append_of_pos hcs, hstop, List.append_nil]

/-- An integer goes on to the first character that is no digit. -/
theorem integer?_append (hne : cs ≠ []) (hcs : ∀ c ∈ cs, c.isDigit = true)
    (hrest : ∀ c ∈ rest.head?, c.isDigit = false) : integer? (cs ++ rest) = some cs.length := by
  simp [integer?, run_append hcs hrest, hne]

theorem comment?_cons {c : Char} (h : c ≠ '/') : comment? (c :: cs) = none := by
  unfold comment?
  split <;> simp_all

theorem text?_cons {c : Char} (h : c ≠ '"') : text? (c :: cs) = none := by
  unfold text?
  split <;> simp_all

theorem isWordStart_of_isDigit {c : Char} (h : c.isDigit = true) : isWordStart c = false := by
  have hne : c ≠ '_' := by rintro rfl; cases h
  obtain ⟨hlow, hhigh⟩ := Numeral.isDigit_bounds h
  have hupper : c.isUpper = false := by
    refine Bool.eq_false_iff.mpr fun hc => ?_
    have hc : 65 ≤ c.toNat := UInt32.le_iff_toNat_le.mp (of_decide_eq_true hc).1
    omega
  have hlower : c.isLower = false := by
    refine Bool.eq_false_iff.mpr fun hc => ?_
    have hc : 97 ≤ c.toNat := UInt32.le_iff_toNat_le.mp
      (of_decide_eq_true (Bool.and_eq_true_iff.mp hc).1)
    omega
  have halpha : c.isAlpha = false := Bool.or_eq_false_iff.mpr ⟨hupper, hlower⟩
  simp [isWordStart, halpha, hne]

theorem isSpace_of_isDigit {c : Char} (h : c.isDigit = true) : isSpace c = false := by
  simp only [isSpace, Bool.or_eq_false_iff, beq_eq_false_iff_ne]
  and_intros <;> rintro rfl <;> cases h

theorem isSpace_iff {c : Char} : isSpace c = true ↔ c ∈ [' ', '\t', '\r', '\n'] := by
  simp [isSpace, or_assoc]

/-- What ends a token of a kind: nothing more, or a character that does not go on with it. -/
def Ends (kind : Kind) (rest : List Char) : Prop := ∀ c ∈ rest.head?, kind.goesOn c = false

theorem ends_nil (kind : Kind) : Ends kind [] := by simp [Ends]

/-- What ends every token: nothing more, or a blank. -/
def Parted (rest : List Char) : Prop := ∀ c ∈ rest.head?, isSpace c = true

theorem Parted.head {p : Char → Bool} (h : Parted rest)
    (hp : [' ', '\t', '\r', '\n'].all (fun c => !p c) = true) : ∀ c ∈ rest.head?, p c = false := by
  intro c hc
  simpa using List.all_eq_true.mp hp c (isSpace_iff.mp (h c hc))

/-- What ends every token ends one of any kind. -/
theorem Parted.ends (h : Parted rest) (kind : Kind) : Ends kind rest :=
  h.head (by cases kind <;> decide)

/-- A word is taken up to the first character that cannot go on with it. -/
theorem lexeme?_word {c : Char} (hstart : isWordStart c = true)
    (hcs : ∀ d ∈ cs, isWordRest d = true) (hrest : ∀ d ∈ rest.head?, isWordRest d = false) :
    lexeme? (c :: cs ++ rest) =
      some ⟨some (Kind.ofWord (String.ofList (c :: cs))), (c :: cs).length⟩ := by
  have hcomment : comment? (c :: cs ++ rest) = none := comment?_cons (by rintro rfl; cases hstart)
  have hword : word? (c :: cs ++ rest) = some (c :: cs).length := by
    simp [word?, hstart, run_append hcs hrest, Nat.add_comm]
  simp only [lexeme?, hcomment, hword, Option.map_none, Option.map_some, List.take_left']
  rfl

/-- Digits start nothing but numbers. -/
theorem lexeme?_digits (hne : cs ≠ []) (hcs : ∀ d ∈ cs, d.isDigit = true)
    (hrest : ∀ c ∈ rest.head?, c.isDigit = false) : lexeme? (cs ++ rest) =
      ((decimal? (cs ++ rest)).map (Lexeme.mk (some .decimal))).or
        (some ⟨some .integer, cs.length⟩) := by
  have hinteger := integer?_append hne hcs hrest
  obtain ⟨c, ds, rfl⟩ := List.exists_cons_of_ne_nil hne
  have hc := hcs c List.mem_cons_self
  have hcomment : comment? (c :: ds ++ rest) = none := comment?_cons (by rintro rfl; cases hc)
  have hword : word? (c :: ds ++ rest) = none := by simp [word?, isWordStart_of_isDigit hc]
  have hspace : space? (c :: ds ++ rest) = none := by simp [space?, run, isSpace_of_isDigit hc]
  have htext : text? (c :: ds ++ rest) = none := text?_cons (by rintro rfl; cases hc)
  simp only [lexeme?, hcomment, hword, hspace, htext, hinteger]
  cases decimal? (c :: ds ++ rest) <;> rfl

/-- A text is taken with its quotes. -/
theorem lexeme?_text (h : '"' ∉ cs) :
    lexeme? ('"' :: cs ++ '"' :: rest) = some ⟨some .text, cs.length + 2⟩ := by
  have hrun : run (· != '"') (cs ++ '"' :: rest) = cs.length :=
    run_append (fun c hc => by simpa using ne_of_mem_of_not_mem hc h) (by simp)
  have htext : text? ('"' :: cs ++ '"' :: rest) = some (cs.length + 2) := by simp [text?, hrun]
  simp only [lexeme?, htext]
  rfl

theorem goesOn_of_mem_keywords {word : String} {kind : Kind} (h : (word, kind) ∈ Kind.keywords)
    (c : Char) :
    kind.goesOn c = isWordRest c := by
  suffices hall : ∀ entry ∈ Kind.keywords, entry.2.goesOn c = isWordRest c from hall (word, kind) h
  simp [Kind.keywords, Kind.goesOn]

/-- A keyword is taken if what comes next ends it. -/
theorem lexeme?_keyword {word : String} {kind : Kind} (h : (word, kind) ∈ Kind.keywords)
    (hrest : Ends kind rest) :
    lexeme? (word.toList ++ rest) = some ⟨some kind, word.toList.length⟩ := by
  have hall : ∀ entry ∈ Kind.keywords, Kind.ofWord entry.1 = entry.2 ∧
      entry.1.toList.head?.any isWordStart = true ∧
      entry.1.toList.tail.all isWordRest = true := by decide
  obtain ⟨hkind, hstart, hcs⟩ := hall (word, kind) h
  simp only [Ends, goesOn_of_mem_keywords h] at hrest
  rw [← String.ofList_toList (s := word)] at hkind
  cases hword : word.toList with
  | nil => simp [hword] at hstart
  | cons c cs =>
    rw [hword] at hkind hstart hcs
    rw [lexeme?_word (by simpa using hstart) (by simpa using hcs) hrest, hkind]

/-- A mark that an equals sign would go on with is taken alone before any other character. -/
theorem lexeme?_short {c x : Char} {kind : Kind}
    (h : (x, kind) ∈ [('=', Kind.assign), ('<', .less), ('>', .greater)])
    (hc : (c == '=') = false) :
    lexeme? (x :: c :: cs) = some ⟨some kind, 1⟩ := by
  have hlong : ('=' == c) = false := BEq.comm.trans hc
  simp only [List.mem_cons, Prod.mk.injEq, List.not_mem_nil, or_false] at h
  have hmark : mark? (x :: c :: cs) = some (kind, 1) := by
    rcases h with ⟨rfl, rfl⟩ | ⟨rfl, rfl⟩ | ⟨rfl, rfl⟩ <;>
      simp [mark?, Kind.marks, List.isPrefixOf, hlong]
  rcases h with ⟨rfl, rfl⟩ | ⟨rfl, rfl⟩ | ⟨rfl, rfl⟩ <;>
    · simp only [lexeme?, hmark]
      rfl

theorem lexeme?_slash {c : Char} (hc : (c == '/' || c == '*') = false) :
    lexeme? ('/' :: c :: cs) = some ⟨some .slash, 1⟩ := by
  have hcomment : comment? ('/' :: c :: cs) = none := by
    unfold comment?
    split <;> simp_all
  simp only [lexeme?, hcomment]
  rfl

/-- So is a mark. -/
theorem lexeme?_mark {sign : String} {kind : Kind} (h : (sign, kind) ∈ Kind.marks)
    (hrest : Ends kind rest) :
    lexeme? (sign.toList ++ rest) = some ⟨some kind, sign.toList.length⟩ := by
  suffices hall : ∀ entry ∈ Kind.marks, Ends entry.2 rest →
      lexeme? (entry.1.toList ++ rest) =
      some ⟨some entry.2, entry.1.toList.length⟩ from hall (sign, kind) h hrest
  cases rest with
  | nil =>
    simp only [List.append_nil, ends_nil, forall_const]
    decide
  | cons c tail =>
    -- The next character matters only to the marks that other marks or comments start with.
    simp only [Kind.marks, Ends, List.head?_cons, Option.mem_some_iff, forall_eq',
      List.forall_mem_cons]
    exact ⟨fun _ => rfl, fun _ => rfl, fun _ => rfl, fun _ => rfl, fun _ => rfl, fun _ => rfl,
      fun _ => rfl, lexeme?_short (x := '=') (by simp), fun _ => rfl, lexeme?_short (x := '<')
      (by simp), fun _ => rfl, fun _ => rfl, lexeme?_short (x := '>') (by simp), fun _ => rfl,
      fun _ => rfl, fun _ => rfl, fun _ => rfl, lexeme?_slash, fun _ => rfl, List.forall_mem_nil _⟩

/-- Blanks are taken together. -/
theorem lexeme?_blank {c : Char} (h : isSpace c = true) :
    lexeme? (c :: cs) = some ⟨none, run isSpace (c :: cs)⟩ := by
  have hspace : space? (c :: cs) = some (run isSpace (c :: cs)) := by simp [space?, run, h]
  simp only [isSpace, Bool.or_eq_true, beq_iff_eq] at h
  simp only [lexeme?, hspace]
  rcases h with ((rfl | rfl) | rfl) | rfl <;> rfl

/-- The characters of a token are its lexeme, up to a character that does not go on with it. -/
theorem lexeme?_of_reads {kind : Kind} (h : kind.Reads cs) (hrest : Ends kind rest) :
    lexeme? (cs ++ rest) = some ⟨some kind, cs.length⟩ := by
  unfold Kind.Reads at h
  split at h
  next =>
    obtain ⟨⟨c, ds, rfl, hstart, hds⟩, hword⟩ := h
    rw [lexeme?_word hstart hds hrest, hword]
  next =>
    simp only [Ends, Kind.goesOn, Bool.or_eq_false_iff, beq_eq_false_iff_ne] at hrest
    have hdigit : ∀ c ∈ rest.head?, c.isDigit = false := fun c hc => (hrest c hc).1
    have hdecimal : decimal? (cs ++ rest) = none := by
      rw [decimal?, integer?_append h.1 h.2 hdigit]
      cases rest with
      | nil => simp
      | cons c tail => simp [(hrest c rfl).2]
    rw [lexeme?_digits h.1 h.2 hdigit, hdecimal]
    rfl
  next =>
    obtain ⟨ds, es, rfl, hds, hes, hds', hes'⟩ := h
    have hdecimal : decimal? (ds ++ ('.' :: es ++ rest)) = some (ds ++ '.' :: es).length := by
      have hpoint : (ds ++ ('.' :: es ++ rest)).drop ds.length = '.' :: (es ++ rest) := by simp
      rw [decimal?, integer?_append hds hds' (by simp), Option.bind_eq_bind,
        Option.bind_some, hpoint]
      simp only [integer?_append hes hes' hrest, Option.bind_some]
      simp [Nat.add_assoc, Nat.add_comm 1]
    rw [List.append_assoc, lexeme?_digits hds hds' (by simp), hdecimal]
    rfl
  next =>
    obtain ⟨body, rfl, hbody⟩ := h
    simpa using lexeme?_text hbody
  next =>
    rcases List.mem_append.mp h with hword | hmark
    · simpa using lexeme?_keyword hword hrest
    · simpa using lexeme?_mark hmark hrest

/-- A token does not start with a blank. -/
theorem exists_cons_of_reads {kind : Kind} (h : kind.Reads cs) :
    ∃ c ds, cs = c :: ds ∧ isSpace c = false := by
  have hlexeme : lexeme? (cs ++ []) = some ⟨some kind, cs.length⟩ :=
    lexeme?_of_reads h (ends_nil kind)
  cases cs with
  | nil => cases hlexeme
  | cons c ds =>
    refine ⟨c, ds, rfl, Bool.eq_false_iff.mpr fun hspace => ?_⟩
    rw [List.cons_append, lexeme?_blank hspace] at hlexeme
    cases hlexeme

/-! ## One after the other -/

/-- Characters that belong to a lexeme are passed over. -/
theorem tokensFrom_skip (spot : Spot) (cs rest : List Char) :
    tokensFrom spot cs.length (cs ++ rest) =
      ((tokensFrom (spot.after cs) 0 rest).1,
        (tokensFrom (spot.after cs) 0 rest).2.map (· + cs.length)) := by
  induction cs generalizing spot with
  | nil => simp [Spot.after]
  | cons c cs ih =>
    simp only [List.length_cons, List.cons_append, tokensFrom, ih, Spot.after, List.foldl_cons,
      Option.map_map]
    rfl

/-- A scan takes the lexeme at the front and goes on after it. -/
theorem tokensFrom_lexeme {kind : Option Kind} (spot : Spot) (hne : cs ≠ [])
    (h : lexeme? (cs ++ rest) = some ⟨kind, cs.length⟩) :
    tokensFrom spot 0 (cs ++ rest) =
      ((kind.map fun kind => ⟨kind, String.ofList cs, spot⟩).toList ++
          (tokensFrom (spot.after cs) 0 rest).1,
        (tokensFrom (spot.after cs) 0 rest).2.map (· + cs.length)) := by
  obtain ⟨c, ds, rfl⟩ := List.exists_cons_of_ne_nil hne
  rw [List.cons_append] at h
  simp only [List.cons_append, tokensFrom, h, List.length_cons, Nat.add_sub_cancel, tokensFrom_skip]
  cases kind <;> simp [Spot.after, Function.comp_def, Nat.add_assoc]

/-- A token is taken if what comes next ends it, and the scan goes on after it. -/
theorem tokensFrom_token {t : Token} (ht : t.kind.Reads t.text.toList) (hrest : Ends t.kind rest)
    (spot : Spot) {us : List Token}
    (hscan : tokensFrom (spot.after t.text.toList) 0 rest = (us, none)) :
    tokensFrom spot 0 (t.text.toList ++ rest) = ({ t with spot } :: us, none) := by
  obtain ⟨c, ds, htext, -⟩ := exists_cons_of_reads ht
  rw [tokensFrom_lexeme spot (by simp [htext]) (lexeme?_of_reads ht hrest), hscan]
  simp

/-- The characters of tokens with a space before each. -/
def spaced (ts : List Token) : List Char := ts.flatMap fun t => ' ' :: t.text.toList

theorem parted_spaced (ts : List Token) : Parted (spaced ts) := by
  cases ts <;> simp [Parted, spaced, isSpace]

theorem intercalate_cons (t : Token) (ts : List Token) :
    [' '].intercalate ((t :: ts).map (·.text.toList)) = t.text.toList ++ spaced ts := by
  induction ts generalizing t with
  | nil => simp [spaced]
  | cons t' ts ih =>
    have hstep := ih t'
    simp only [List.map_cons] at hstep ⊢
    rw [List.intercalate_cons_cons, hstep]
    simp [spaced]

/-- Tokens with a space before each are scanned back, places aside. -/
theorem tokensFrom_spaced {ts : List Token} (h : ∀ t ∈ ts, t.kind.Reads t.text.toList)
    (spot : Spot) :
    ∃ us, us.map Token.unplaced = ts.map Token.unplaced ∧
      tokensFrom spot 0 (spaced ts) = (us, none) := by
  induction ts generalizing spot with
  | nil => exact ⟨[], rfl, rfl⟩
  | cons t ts ih =>
    obtain ⟨ht, hts⟩ := List.forall_mem_cons.mp h
    obtain ⟨us, hus, hscan⟩ := ih hts ((spot.after [' ']).after t.text.toList)
    have htoken := tokensFrom_token ht ((parted_spaced ts).ends _) _ hscan
    -- Blanks are skipped as one lexeme, which is the one space since the token starts with no
    -- blank.
    have hspace : lexeme? ([' '] ++ (t.text.toList ++ spaced ts)) = some ⟨none, [' '].length⟩ := by
      obtain ⟨c, ds, htext, hblank⟩ := exists_cons_of_reads ht
      rw [List.singleton_append, lexeme?_blank rfl, ← List.singleton_append,
        run_append (by simp [isSpace]) (by simp [htext, hblank])]
    refine ⟨{ t with spot := spot.after [' '] } :: us, by simp [hus, Token.unplaced], ?_⟩
    change tokensFrom spot 0 ([' '] ++ (t.text.toList ++ spaced ts)) = _
    rw [tokensFrom_lexeme spot (by simp) hspace, htoken]
    rfl

/-- Scanning tokens that are written with a space between them gives them back, up to their places.
-/
theorem ofText_intercalate {ts : List Token} (h : ∀ t ∈ ts, t.kind.Reads t.text.toList) :
    ∃ us, us.map Token.unplaced = ts.map Token.unplaced ∧
      ofText (" ".intercalate (ts.map Token.text)) = ⟨us, none⟩ := by
  have hchars : (" ".intercalate (ts.map Token.text)).toList =
      [' '].intercalate (ts.map (·.text.toList)) := by
    rw [String.toList_intercalate, List.map_map]
    rfl
  cases ts with
  | nil => exact ⟨[], rfl, by simp [ofText, tokensFrom]⟩
  | cons t ts =>
    obtain ⟨ht, hts⟩ := List.forall_mem_cons.mp h
    obtain ⟨us, hus, hscan⟩ := tokensFrom_spaced hts (Spot.start.after t.text.toList)
    refine ⟨{ t with spot := .start } :: us, by simp [hus, Token.unplaced], ?_⟩
    rw [ofText, hchars, intercalate_cons]
    simp only [tokensFrom_token ht ((parted_spaced ts).ends _) _ hscan]
    rfl

end Scan

end Analizador
