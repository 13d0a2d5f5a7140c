import Analizador.Proofs.Scan.Spaced
import Analizador.Session

/-! # Scanning laid out tokens

Tokens are scanned back whatever stands between them, as long as it starts with a blank: blanks,
comments up to the end of a line and comments up to their end mark, in any order. A scan passes over
each of these on its own, so that it does not matter how many there are or which of them the scan
takes together. -/

namespace Analizador

namespace Scan

/-- A kind with a text of that kind. -/
structure Word where
  kind : Kind
  text : String
  reads : kind.Reads text.toList

/-- What may stand between tokens: a blank, a comment with the end of its line, or a comment with
its end mark. -/
inductive Spacer where
  | blank (c : Char) (hblank : isSpace c = true)
  | line (body : List Char) (hbody : '\n' ∉ body)
  | block (body : List Char) (hbody : ¬ ['*', '/'] <:+: body)

/-- The characters of a spacer. -/
def Spacer.chars : Spacer → List Char
  | blank c _ => [c]
  | line body _ => '/' :: '/' :: body ++ ['\n']
  | block body _ => '/' :: '*' :: body ++ ['*', '/']

/-- A blank and then any spacers. -/
structure Separator where
  first : Char
  hblank : isSpace first = true
  rest : List Spacer

/-- The characters of a separator. -/
def Separator.chars (s : Separator) : List Char := s.first :: s.rest.flatMap Spacer.chars

/-- Words with what is written around them: spacers before the first, and a separator after each,
which only the last may lack. -/
structure Layout where
  lead : List Spacer
  parted : List (Word × Separator)
  last : Option Word

namespace Layout

/-- The words of a layout. -/
def words (l : Layout) : List Word := l.parted.map Prod.fst ++ l.last.toList

/-- The characters of words with a separator after each. -/
def partedChars (ws : List (Word × Separator)) : List Char :=
  ws.flatMap fun (w, s) => w.text.toList ++ s.chars

/-- The characters of a layout. -/
def chars (l : Layout) : List Char :=
  l.lead.flatMap Spacer.chars ++ (partedChars l.parted ++ l.last.toList.flatMap (·.text.toList))

/-- The text of a layout. -/
def text (l : Layout) : String := String.ofList l.chars

end Layout

variable {cs ds rest : List Char}

/-! ## Spacers are passed over -/

/-- A scan passes over the characters: with or without them before the rest of a text, it takes the
same tokens up to the end. -/
def Skipped (cs : List Char) : Prop :=
  ∀ spot rest ts, tokensFrom (spot.after cs) 0 rest = (ts, none) →
    tokensFrom spot 0 (cs ++ rest) = (ts, none)

theorem Skipped.append (hcs : Skipped cs) (hds : Skipped ds) : Skipped (cs ++ ds) := by
  intro spot rest ts hscan
  rw [Spot.after, List.foldl_append] at hscan
  rw [List.append_assoc]
  exact hcs spot _ ts (hds _ rest ts hscan)

theorem skipped_flatMap {α : Type} {f : α → List Char} (h : ∀ x, Skipped (f x)) (xs : List α) :
    Skipped (xs.flatMap f) := by
  induction xs with
  | nil =>
    intro spot rest ts hscan
    exact hscan
  | cons x xs ih => exact (h x).append ih

/-- It does not matter whether the blanks at the front have been taken already. -/
theorem tokensFrom_run (spot : Spot) (cs : List Char) :
    tokensFrom spot (run isSpace cs) cs = tokensFrom spot 0 cs := by
  cases cs with
  | nil => rfl
  | cons c cs =>
    by_cases hblank : isSpace c = true
    · have hrun : run isSpace (c :: cs) = run isSpace cs + 1 := by simp [run, hblank]
      simp [tokensFrom, lexeme?_blank hblank, hrun]
    · have hrun : run isSpace (c :: cs) = 0 := by simp [run, hblank]
      rw [hrun]

theorem skipped_blank {c : Char} (hblank : isSpace c = true) : Skipped [c] := by
  intro spot rest ts hscan
  have hscan : tokensFrom (spot.next c) 0 rest = (ts, none) := hscan
  have hrun : run isSpace (c :: rest) = run isSpace rest + 1 := by simp [run, hblank]
  simp [tokensFrom, lexeme?_blank hblank, hrun, tokensFrom_run, hscan]

/-- A comment is passed over if it is the lexeme before the rest. -/
theorem tokensFrom_comment {spot : Spot} {ts : List Token} (hne : cs ≠ [])
    (hcomment : comment? (cs ++ rest) = some cs.length)
    (hscan : tokensFrom (spot.after cs) 0 rest = (ts, none)) :
    tokensFrom spot 0 (cs ++ rest) = (ts, none) := by
  have hlexeme : lexeme? (cs ++ rest) = some ⟨none, cs.length⟩ :=
    lexeme?_eq_some_iff.mpr (.inl ⟨_, hcomment, rfl⟩)
  rw [tokensFrom_lexeme spot hne hlexeme, hscan]
  rfl

/-- An end mark after a body without one is found. -/
theorem commentEnd?_append (h : ¬ ['*', '/'] <:+: cs) (rest : List Char) :
    commentEnd? (cs ++ '*' :: '/' :: rest) = some (cs.length + 2) := by
  induction cs with
  | nil => rfl
  | cons c cs ih =>
    have hinner : ¬ ['*', '/'] <:+: cs := fun hinfix => h (List.infix_cons hinfix)
    -- The first character is no star before a slash, not even where the body ends after it.
    have hfront : ∀ tail, c = '*' → cs ++ '*' :: '/' :: rest = '/' :: tail → False := by
      rintro tail rfl heq
      cases cs with
      | nil => cases heq
      | cons d cs =>
        obtain rfl : d = '/' := (List.cons.inj heq).1
        exact h (List.prefix_append ['*', '/'] cs).isInfix
    rw [List.cons_append, commentEnd?.eq_3 _ _ hfront, ih hinner]
    rfl

theorem skipped_block (h : ¬ ['*', '/'] <:+: cs) : Skipped ('/' :: '*' :: cs ++ ['*', '/']) := by
  intro spot rest ts hscan
  refine tokensFrom_comment (by simp) ?_ hscan
  have hend := commentEnd?_append h rest
  simp only [List.cons_append, List.append_assoc, List.nil_append, comment?, hend, Option.map_some,
    List.length_cons, List.length_append, List.length_nil]
  congr 1
  omega

theorem skipped_line (h : '\n' ∉ cs) : Skipped ('/' :: '/' :: cs ++ ['\n']) := by
  intro spot rest ts hscan
  have hrun : run (· != '\n') (cs ++ '\n' :: rest) = cs.length :=
    run_append (fun c hc => by simpa using ne_of_mem_of_not_mem hc h) (by simp)
  -- The comment leaves the end of the line, which is a blank.
  rw [Spot.after, List.foldl_append] at hscan
  rw [List.append_assoc]
  refine tokensFrom_comment (by simp) ?_ (skipped_blank rfl _ rest ts hscan)
  simp only [List.cons_append, List.nil_append, comment?, hrun, List.length_cons]
  congr 1
  omega

theorem Spacer.skipped (s : Spacer) : Skipped s.chars := by
  cases s with
  | blank c hblank => exact skipped_blank hblank
  | line body hbody => exact skipped_line hbody
  | block body hbody => exact skipped_block hbody

theorem Separator.skipped (s : Separator) : Skipped s.chars :=
  (skipped_blank s.hblank).append (skipped_flatMap Spacer.skipped s.rest)

/-! ## Words are taken -/

/-- A scan of the characters, from whatever place, takes the given words and comes to the end. -/
def Scans (cs : List Char) (words : List Word) : Prop :=
  ∀ spot, ∃ ts : List Token, tokensFrom spot 0 cs = (ts, none) ∧
    ts.map (fun t => (t.kind, t.text)) = words.map fun w => (w.kind, w.text)

theorem scans_nil : Scans [] [] := fun _ => ⟨[], rfl, rfl⟩

theorem Scans.skip {words : List Word} (h : Scans rest words) (hcs : Skipped cs) :
    Scans (cs ++ rest) words := by
  intro spot
  obtain ⟨ts, hscan, hts⟩ := h (spot.after cs)
  exact ⟨ts, hcs spot rest ts hscan, hts⟩

theorem Scans.word {words : List Word} (h : Scans rest words) (w : Word)
    (hrest : Ends w.kind rest) :
    Scans (w.text.toList ++ rest) (w :: words) := by
  intro spot
  obtain ⟨ts, hscan, hts⟩ := h (spot.after w.text.toList)
  let t : Token := ⟨w.kind, w.text, spot⟩
  exact ⟨t :: ts, tokensFrom_token (t := t) w.reads hrest spot hscan, by simp [t, hts]⟩

theorem scans_parted (parted : List (Word × Separator)) {words : List Word} (h : Scans rest words) :
    Scans (Layout.partedChars parted ++ rest) (parted.map Prod.fst ++ words) := by
  induction parted with
  | nil => exact h
  | cons entry parted ih =>
    obtain ⟨w, s⟩ := entry
    have hparted : Parted (s.chars ++ (Layout.partedChars parted ++ rest)) := by
      simp [Parted, Separator.chars, s.hblank]
    simpa [Layout.partedChars] using (ih.skip s.skipped).word w (hparted.ends _)

theorem Layout.scans (l : Layout) : Scans l.chars l.words := by
  have hlast : Scans (l.last.toList.flatMap (·.text.toList)) l.last.toList := by
    cases l.last with
    | none => exact scans_nil
    | some w => simpa using scans_nil.word w (ends_nil _)
  exact (scans_parted l.parted hlast).skip (skipped_flatMap Spacer.skipped l.lead)

end Scan

namespace Session

/-- The tokens of a layout are its words, and there is nothing to report. -/
theorem tokenize_layout (s : Session) (l : Scan.Layout) :
    (s.tokenize l.text).tokens.map (fun t => (t.kind, t.text)) =
      l.words.map (fun w => (w.kind, w.text)) ∧
      (s.tokenize l.text).ledger.lexical = [] := by
  obtain ⟨ts, hscan, hts⟩ := l.scans .start
  have htext : Scan.ofText l.text = ⟨ts, none⟩ := by simp [Scan.ofText, Scan.Layout.text, hscan]
  simp [tokenize, htext, hts, Scan.diagnostics]

/-- A quotation mark in a comment starts no text, and a comment mark in a text no comment. -/
example : (empty.tokenize "/* \"*\" /**/x //*\n\"/*\n//\" = 1.50 ").tokens.map
    (fun t => (t.kind, t.text)) =
    [(.identifier, "x"), (.text, "\"/*\n//\""), (.assign, "="), (.decimal, "1.50")] := by
  decide +kernel

end Session

end Analizador
