import Mathlib.Data.List.Induction
import Analizador.Proofs.Scan.Spaced
import Analizador.Session

/-! # The tiling of a text by its tokens

The tokens of a text stand in it one after the other, each at its place and as long as it can be.
Between them are rows of blanks and whole comments only, up to the end of the text or to the first
place where nothing fits. -/

namespace Analizador

/-- The place after some characters of a text: a line down for every line end among them, and a
column on for every character since the last of these. -/
def Spot.following (before : List Char) : Spot :=
  ⟨1 + before.count '\n', 1 + (before.reverse.takeWhile (· != '\n')).length⟩

theorem Spot.after_append (spot : Spot) (cs ds : List Char) :
    spot.after (cs ++ ds) = (spot.after cs).after ds :=
  List.foldl_append

/-- Counting on from the start of a text gives the place after the characters. -/
theorem Spot.start_after (before : List Char) : start.after before = following before := by
  induction before using List.reverseRecOn with
  | nil => rfl
  | append_singleton before c ih =>
    rw [after_append, ih]
    by_cases hc : c = '\n'
    · subst hc
      simp [after, next, following, Nat.add_comm, Nat.add_left_comm]
    · simp [after, next, following, hc, Nat.add_comm]

/-- Every further character moves the place on. -/
theorem Spot.following_append_ne {before cs : List Char} (h : cs ≠ []) :
    following (before ++ cs) ≠ following before := by
  intro heq
  have hline := congrArg Spot.line heq
  have hcolumn := congrArg Spot.column heq
  simp only [following, List.count_append, List.reverse_append] at hline hcolumn
  -- There is no line end among the new characters, so all of them count for the column.
  have hcount : cs.count '\n' = 0 := by omega
  have hall : ∀ c ∈ cs.reverse, (c != '\n') = true := by
    intro c hc
    have hne : c ≠ '\n' := ne_of_mem_of_not_mem (List.mem_reverse.mp hc)
      (List.count_eq_zero.mp hcount)
    simpa using hne
  rw [List.takeWhile_append_of_pos hall, List.length_append, List.length_reverse] at hcolumn
  have hpositive := List.length_pos_iff.mpr h
  omega

/-- The kinds of words: identifiers and the reserved words. -/
def Kind.isWord (kind : Kind) : Bool := kind == identifier || keywords.any (·.2 == kind)

/-- A token of a kind is not made longer by the characters after it. -/
structure Kind.Unextended (kind : Kind) (after : List Char) : Prop where
  word : kind.isWord = true → ∀ c ∈ after.head?, Scan.isWordRest c = false
  integer : kind = .integer → (∀ c ∈ after.head?, c.isDigit = false) ∧
    ∀ c rest, after = '.' :: c :: rest → c.isDigit = false
  decimal : kind = .decimal → ∀ c ∈ after.head?, c.isDigit = false
  sign : kind ∈ [.assign, .less, .greater] → ∀ c ∈ after.head?, c ≠ '='

namespace Scan

/-- A row of blanks or a whole comment, where the given characters come after it. -/
inductive Filler (after : List Char) : List Char → Prop where
  | blanks {cs} (hne : cs ≠ []) (hcs : ∀ c ∈ cs, isSpace c = true) : Filler after cs
  | line {body} (hbody : '\n' ∉ body) (hend : ∀ c ∈ after.head?, c = '\n') :
      Filler after ('/' :: '/' :: body)
  | block {body} (hbody : ¬ ['*', '/'] <:+: body) : Filler after ('/' :: '*' :: body ++ ['*', '/'])

/-- Rows of blanks and whole comments one after the other, where the given characters come after
them. -/
inductive Gap (after : List Char) : List Char → Prop where
  | nil : Gap after []
  | cons {cs rest} (hcs : Filler (rest ++ after) cs) (hrest : Gap after rest) :
      Gap after (cs ++ rest)

/-- Tokens that stand in some characters with only gaps between them, up to what is left of the
characters. Before these characters the text has others, from which the places are counted. -/
inductive Tiles (left : List Char) : (before : List Char) → List Token → List Char → Prop where
  | gap {before cs} (hcs : Gap left cs) : Tiles left before [] (cs ++ left)
  | token {before cs t ts after} (hcs : Gap (t.text.toList ++ after) cs)
      (hspot : t.spot = .following (before ++ cs)) (hreads : t.kind.Reads t.text.toList)
      (hend : t.kind.Unextended after) (hts : Tiles left (before ++ cs ++ t.text.toList) ts after) :
      Tiles left before (t :: ts) (cs ++ (t.text.toList ++ after))

/-- Nothing fits at the front: no blanks, no comment and no token of any kind. -/
def Unmatched (cs : List Char) : Prop :=
  ∀ front after, cs = front ++ after → front ≠ [] →
    ¬ Filler after front ∧ ∀ kind : Kind, ¬ kind.Reads front

variable {cs : List Char} {n : Nat}

/-- A run stops at the first character that is not in it. -/
theorem head?_drop_run {p : Char → Bool} : ∀ c ∈ (cs.drop (run p cs)).head?, p c = false := by
  intro c hc
  rw [drop_run] at hc
  have hhead := List.head?_dropWhile_not p cs
  rw [Option.mem_def.mp hc] at hhead
  simpa using hhead

theorem run_le (p : Char → Bool) (cs : List Char) : run p cs ≤ cs.length :=
  (List.takeWhile_prefix p).length_le

/-! ## Blanks and comments -/

/-- The blanks that a scan skips are a filler. -/
theorem filler_of_space? (h : space? cs = some n) :
    n ≤ cs.length ∧ Filler (cs.drop n) (cs.take n) := by
  obtain ⟨hne, rfl⟩ : ¬ run isSpace cs = 0 ∧ run isSpace cs = n := by simpa [space?] using h
  refine ⟨run_le .., ?_⟩
  rw [take_run]
  exact .blanks (fun hnil => hne (by simp [run, hnil])) fun c hc => List.mem_takeWhile_imp hc

/-- A comment ends with the first end mark. -/
theorem block_of_commentEnd? (h : commentEnd? cs = some n) :
    n ≤ cs.length ∧ ∃ body, cs.take n = body ++ ['*', '/'] ∧ ¬ ['*', '/'] <:+: body := by
  fun_induction commentEnd? cs generalizing n with
  | case1 => cases h
  | case2 rest =>
    obtain rfl := Option.some.inj h
    exact ⟨by simp, [], rfl, by simp⟩
  | case3 c rest hne ih =>
    obtain ⟨m, hm, rfl⟩ := Option.map_eq_some_iff.mp h
    obtain ⟨hle, body, htake, hbody⟩ := ih hm
    refine ⟨by simpa using hle, c :: body, by rw [List.take_succ_cons, htake]; rfl,
      fun hinfix => ?_⟩
    rcases List.infix_cons_iff.mp hinfix with hfront | hinner
    · -- An end mark at the front would have been found first.
      obtain ⟨tail, heq⟩ := hfront
      obtain ⟨rfl, rfl⟩ : '*' = c ∧ '/' :: tail = body := by simpa using heq
      have hrest : rest = '/' :: (tail ++ ['*', '/'] ++ rest.drop m) := by
        rw [← List.cons_append, ← List.cons_append, ← htake, List.take_append_drop]
      exact hne _ rfl hrest
    · exact hbody hinner

/-- So is a comment. -/
theorem filler_of_comment? (h : comment? cs = some n) :
    n ≤ cs.length ∧ Filler (cs.drop n) (cs.take n) := by
  unfold comment? at h
  split at h
  next rest =>
    obtain rfl := Option.some.inj h
    have hrun := run_le (· != '\n') rest
    rw [Nat.add_comm, List.take_succ_cons, List.take_succ_cons, take_run, List.drop_succ_cons,
      List.drop_succ_cons]
    refine ⟨by simpa using hrun, ?_⟩
    refine .line (fun hmem => by simpa using List.mem_takeWhile_imp hmem) fun c hc => ?_
    simpa using head?_drop_run c hc
  next rest =>
    obtain ⟨m, hm, rfl⟩ := Option.map_eq_some_iff.mp h
    obtain ⟨hle, body, htake, hbody⟩ := block_of_commentEnd? hm
    refine ⟨by simp only [List.length_cons]; omega, ?_⟩
    rw [Nat.add_comm, List.take_succ_cons, List.take_succ_cons, htake]
    exact .block hbody
  next => cases h

/-! ## Tokens that are as long as they can be -/

theorem isWord_ofWord (word : String) : (Kind.ofWord word).isWord = true := by
  unfold Kind.ofWord
  cases hlookup : Kind.keywords.lookup word with
  | none => rfl
  | some kind =>
    obtain ⟨before, after, heq, -⟩ := List.lookup_eq_some_iff.mp hlookup
    simp [Kind.isWord, heq]

/-- The characters after a word do not make it longer. -/
theorem unextended_of_word? (h : word? cs = some n) :
    n ≤ cs.length ∧ (Kind.ofWord (String.ofList (cs.take n))).Unextended (cs.drop n) := by
  have hword := isWord_ofWord (String.ofList (cs.take n))
  generalize Kind.ofWord (String.ofList (cs.take n)) = kind at hword ⊢
  cases cs with
  | nil => cases h
  | cons c rest =>
    obtain ⟨-, rfl⟩ : isWordStart c = true ∧ 1 + run isWordRest rest = n := by simpa [word?] using h
    have hrun := run_le isWordRest rest
    rw [Nat.add_comm, List.drop_succ_cons]
    refine ⟨by simpa using hrun, ?_⟩
    refine ⟨fun _ => head?_drop_run, ?_, ?_, ?_⟩
    · rintro rfl
      cases hword
    · rintro rfl
      cases hword
    · intro hsign
      simp only [List.mem_cons, List.not_mem_nil, or_false] at hsign
      rcases hsign with rfl | rfl | rfl <;> cases hword

/-- Nor do those after an integer, where no decimal starts. -/
theorem unextended_of_integer? (hdecimal : decimal? cs = none) (h : integer? cs = some n) :
    n ≤ cs.length ∧ Kind.integer.Unextended (cs.drop n) := by
  have hinteger := h
  obtain ⟨-, rfl⟩ : ¬ run Char.isDigit cs = 0 ∧ run Char.isDigit cs = n := by
    simpa [integer?] using h
  refine ⟨run_le .., by rintro ⟨⟩, fun _ => ⟨head?_drop_run,
    fun c rest hdrop => ?_⟩, by rintro ⟨⟩, by simp⟩
  -- A digit after the point would make a decimal.
  refine Bool.eq_false_iff.mpr fun hc => ?_
  have hfraction : ∃ m, integer? (c :: rest) = some m := by simp [integer?, run, hc]
  obtain ⟨m, hm⟩ := hfraction
  simp [decimal?, hinteger, hdrop, hm] at hdecimal

/-- Nor do those after a decimal. -/
theorem unextended_of_decimal? (h : decimal? cs = some n) :
    n ≤ cs.length ∧ Kind.decimal.Unextended (cs.drop n) := by
  obtain ⟨whole, hwhole, hpoint⟩ := Option.bind_eq_some_iff.mp h
  split at hpoint
  next rest hdrop =>
    obtain ⟨fraction, hfraction, heq⟩ := Option.bind_eq_some_iff.mp hpoint
    obtain rfl : whole + 1 + fraction = n := Option.some.inj heq
    obtain ⟨-, rfl⟩ : ¬ run Char.isDigit rest = 0 ∧ run Char.isDigit rest = fraction := by
      simpa [integer?] using hfraction
    have hlength : cs.length - whole = rest.length + 1 := by rw [← List.length_drop, hdrop]; rfl
    have hrun := run_le Char.isDigit rest
    refine ⟨by omega, ?_⟩
    rw [Nat.add_assoc, ← List.drop_drop, hdrop, Nat.add_comm 1, List.drop_succ_cons]
    exact ⟨by rintro ⟨⟩, by rintro ⟨⟩, fun _ => head?_drop_run, by simp⟩
  next => cases hpoint

theorem unextended_of_text? (h : text? cs = some n) :
    n ≤ cs.length ∧ Kind.text.Unextended (cs.drop n) := by
  refine ⟨?_, by rintro ⟨⟩, by rintro ⟨⟩, by rintro ⟨⟩, by simp⟩
  unfold text? at h
  split at h
  next rest =>
    obtain ⟨hlength, rfl⟩ : run (· != '"') rest < rest.length ∧ run (· != '"') rest + 2 = n := by
      simpa using h
    simp only [List.length_cons]
    omega
  next => cases h

/-- Nor do those after a mark. -/
theorem unextended_of_mark? {kind : Kind} (h : mark? cs = some (kind, n)) :
    n ≤ cs.length ∧ kind.Unextended (cs.drop n) := by
  obtain ⟨⟨sign, kind'⟩, hfind, heq⟩ := Option.map_eq_some_iff.mp h
  obtain ⟨rfl, rfl⟩ := Prod.mk.inj heq
  have hstarts : sign.toList <+: cs := by simpa using List.find?_some hfind
  have hmem := List.mem_of_find?_eq_some hfind
  obtain ⟨after, rfl⟩ := hstarts
  have hall : ∀ entry ∈ Kind.marks, entry.2.isWord = false ∧ entry.2 ≠ .integer ∧
      entry.2 ≠ .decimal ∧
      (entry.2 ∈ [Kind.assign, .less, .greater] →
        entry ∈ [("=", .assign), ("<", .less), (">", .greater)]) := by
    decide
  obtain ⟨hword, hinteger, hdecimal, hsign⟩ := hall _ hmem
  rw [List.drop_left]
  refine ⟨by simp, by simp [hword], fun hkind => absurd hkind hinteger,
    fun hkind => absurd hkind hdecimal, fun hkind c hc hequals => ?_⟩
  -- With an equals sign after it, a longer mark would have been found first.
  subst hequals
  obtain ⟨rest, rfl⟩ : ∃ rest, after = '=' :: rest := by
    cases after with
    | nil => cases hc
    | cons d rest => exact ⟨rest, by simpa using hc⟩
  have hentry := hsign hkind
  simp only [List.mem_cons, List.not_mem_nil, or_false, Prod.mk.injEq] at hentry
  rcases hentry with ⟨rfl, rfl⟩ | ⟨rfl, rfl⟩ | ⟨rfl, rfl⟩ <;> cases h

/-! ## One lexeme after the other -/

/-- What a scan skips is a filler. -/
theorem filler_of_lexeme? (h : lexeme? cs = some ⟨none, n⟩) :
    n ≤ cs.length ∧ Filler (cs.drop n) (cs.take n) := by
  simp only [lexeme?_eq_some_iff, Lexeme.mk.injEq, reduceCtorEq, false_and, and_false, exists_const,
    true_and, exists_eq_right, or_false, false_or] at h
  rcases h with hcomment | ⟨-, -, -, hspace⟩
  · exact filler_of_comment? hcomment
  · exact filler_of_space? hspace

/-- The characters after a token do not make it longer. -/
theorem unextended_of_lexeme? {kind : Kind} (h : lexeme? cs = some ⟨some kind, n⟩) :
    n ≤ cs.length ∧ kind.Unextended (cs.drop n) := by
  simp only [lexeme?_eq_some_iff, Lexeme.mk.injEq, Option.some.injEq, reduceCtorEq, false_and,
    and_false, exists_const, false_or] at h
  obtain ⟨-, ⟨m, hword, rfl, rfl⟩ | ⟨-, ⟨m, hdecimal, rfl, rfl⟩ | ⟨hdecimal, -,
      ⟨m, htext, rfl, rfl⟩ | ⟨-, ⟨m, hinteger, rfl, rfl⟩ | ⟨-, kind', m, hmark, rfl, rfl⟩⟩⟩⟩⟩ := h
  · exact unextended_of_word? hword
  · exact unextended_of_decimal? hdecimal
  · exact unextended_of_text? htext
  · exact unextended_of_integer? hdecimal hinteger
  · exact unextended_of_mark? hmark

theorem Filler.ne_nil {after : List Char} (h : Filler after cs) : cs ≠ [] := by
  cases h with
  | blanks hne _ => exact hne
  | line | block => simp

/-- A lexeme is a front part of the characters that is not empty. -/
theorem exists_front_of_lexeme? {kind : Option Kind} (h : lexeme? cs = some ⟨kind, n⟩) :
    ∃ front rest, cs = front ++ rest ∧ front ≠ [] ∧ front.length = n := by
  have hfront : n ≤ cs.length ∧ cs.take n ≠ [] := by
    cases kind with
    | none => exact ⟨(filler_of_lexeme? h).1, (filler_of_lexeme? h).2.ne_nil⟩
    | some kind =>
      obtain ⟨c, ds, htake, -⟩ := exists_cons_of_reads (reads_of_lexeme? h)
      exact ⟨(unextended_of_lexeme? h).1, by simp [htake]⟩
  exact ⟨cs.take n, cs.drop n, (List.take_append_drop n cs).symm, hfront.2,
    List.length_take_of_le hfront.1⟩

/-- Induction along the lexemes of a text: it is empty, or nothing fits at its front, or a lexeme
stands before the rest. -/
theorem lexeme_induction {motive : List Char → Prop} (nil : motive [])
    (stray : ∀ c cs, lexeme? (c :: cs) = none → motive (c :: cs))
    (lexeme : ∀ kind front rest, front ≠ [] → lexeme? (front ++ rest) = some ⟨kind, front.length⟩ →
      motive rest → motive (front ++ rest)) (cs : List Char) : motive cs := by
  induction hlength : cs.length using Nat.strong_induction_on generalizing cs with
  | _ length ih =>
    cases cs with
    | nil => exact nil
    | cons c cs =>
      cases hlexeme : lexeme? (c :: cs) with
      | none => exact stray c cs hlexeme
      | some found =>
        obtain ⟨kind, n⟩ := found
        obtain ⟨front, rest, hsplit, hne, rfl⟩ := exists_front_of_lexeme? hlexeme
        rw [hsplit] at hlexeme hlength ⊢
        refine lexeme kind front rest hne hlexeme (ih rest.length ?_ rest rfl)
        have hpositive := List.length_pos_iff.mpr hne
        rw [← hlength, List.length_append]
        omega

/-- A filler in front of tiled characters belongs to their first gap. -/
theorem Tiles.fill {left before front : List Char} {ts : List Token} (hfront : Filler cs front)
    (h : Tiles left (before ++ front) ts cs) : Tiles left before ts (front ++ cs) := by
  cases h with
  | gap hcs =>
    rw [← List.append_assoc]
    exact .gap (.cons hfront hcs)
  | token hcs hspot hreads hend hts =>
    rw [← List.append_assoc]
    rw [List.append_assoc] at hspot
    rw [List.append_assoc before] at hts
    exact .token (.cons hfront hcs) hspot hreads hend hts

/-- A token put before a text that is tiled. -/
theorem Tiles.cons {left before front rest : List Char} {ts : List Token} {kind : Kind}
    (h : Tiles left (before ++ front) ts rest) (hreads : kind.Reads front)
    (hend : kind.Unextended rest) :
    Tiles left before (⟨kind, String.ofList front, .following before⟩ :: ts) (front ++ rest) := by
  let t : Token := ⟨kind, String.ofList front, .following before⟩
  have htext : t.text.toList = front := by simp [t]
  rw [← htext] at h hreads
  have htoken : Tiles left before (t :: ts) ([] ++ (t.text.toList ++ rest)) :=
    .token .nil (by simp [t]) hreads hend (by simpa using h)
  rwa [htext, List.nil_append] at htoken

/-- A scan tiles the characters up to their end, or up to where it stops because nothing fits. -/
theorem exists_tiles (before cs : List Char) :
    ∃ left, Tiles left before (tokensFrom (.following before) 0 cs).1 cs ∧
      match (tokensFrom (.following before) 0 cs).2 with
      | none => left = []
      | some offset => left ≠ [] ∧ lexeme? left = none ∧ cs.drop offset = left := by
  induction cs using lexeme_induction generalizing before with
  | nil => exact ⟨[], .gap .nil, rfl⟩
  | stray c cs hnone =>
    refine ⟨c :: cs, ?_, ?_⟩
    · simp only [tokensFrom, hnone]
      exact .gap .nil
    · simp only [tokensFrom, hnone]
      exact ⟨by simp, trivial, rfl⟩
  | lexeme kind front rest hne hlexeme ih =>
    obtain ⟨left, htiles, hstop⟩ := ih (before ++ front)
    rw [← Spot.start_after, Spot.after_append, Spot.start_after] at htiles hstop
    rw [tokensFrom_lexeme _ hne hlexeme]
    refine ⟨left, ?_, ?_⟩
    · cases kind with
      | none =>
        have hfiller := (filler_of_lexeme? hlexeme).2
        rw [List.take_left, List.drop_left] at hfiller
        exact htiles.fill hfiller
      | some kind =>
        have hend := (unextended_of_lexeme? hlexeme).2
        have hreads := reads_of_lexeme? hlexeme
        rw [List.drop_left] at hend
        rw [List.take_left] at hreads
        exact htiles.cons hreads hend
    · cases hoffset : (tokensFrom ((Spot.following before).after front) 0 rest).2 with
      | none => simpa [hoffset] using hstop
      | some offset => simpa [hoffset, Nat.add_comm offset, ← List.drop_drop] using hstop

/-! ## Distinct places -/

/-- Every token of a tiled text stands after the characters before the tiles and perhaps some more,
and starts before the text ends. -/
theorem Tiles.exists_spot {left before : List Char} {ts : List Token} (h : Tiles left before ts cs)
    {t : Token} (ht : t ∈ ts) :
    ∃ more, t.spot = .following (before ++ more) ∧ more.length < cs.length := by
  induction h with
  | gap => cases ht
  | token _ hspot hreads _ _ ih =>
    obtain ⟨c, ds, htext, -⟩ := exists_cons_of_reads hreads
    rcases List.mem_cons.mp ht with rfl | ht
    · refine ⟨_, hspot, ?_⟩
      simp only [htext, List.length_append, List.length_cons]
      omega
    · obtain ⟨more, hmore, hlength⟩ := ih ht
      refine ⟨_, by rw [hmore, List.append_assoc, List.append_assoc], ?_⟩
      simp only [List.length_append]
      omega

/-- No two tokens of a tiled text stand at one place. -/
theorem Tiles.nodup_spots {left before : List Char} {ts : List Token}
    (h : Tiles left before ts cs) :
    (ts.map Token.spot).Nodup := by
  induction h with
  | gap => exact List.nodup_nil
  | token _ hspot hreads _ hts ih =>
    rw [List.map_cons, List.nodup_cons]
    refine ⟨?_, ih⟩
    intro hmem
    obtain ⟨t', ht', hsame⟩ := List.mem_map.mp hmem
    obtain ⟨more, hmore, -⟩ := hts.exists_spot ht'
    obtain ⟨c, ds, htext, -⟩ := exists_cons_of_reads hreads
    rw [hmore, hspot, List.append_assoc] at hsame
    refine Spot.following_append_ne ?_ hsame
    simp [htext]

/-- No two tokens of a text have the same place. -/
theorem nodup_spots_ofText (code : String) : ((ofText code).tokens.map Token.spot).Nodup := by
  obtain ⟨left, htiles, -⟩ := exists_tiles [] code.toList
  exact htiles.nodup_spots

/-! ## Where a scan stops -/

/-- No lexeme starts exactly where none of any sort does. -/
theorem lexeme?_eq_none_iff :
    lexeme? cs = none ↔ comment? cs = none ∧ word? cs = none ∧ decimal? cs = none ∧
    space? cs = none ∧ text? cs = none ∧ integer? cs = none ∧ mark? cs = none := by
  simp [lexeme?]

/-- A comment that is closed somewhere has an end. -/
theorem commentEnd?_ne_none (body after : List Char) :
    commentEnd? (body ++ '*' :: '/' :: after) ≠ none := by
  induction body with
  | nil => simp [commentEnd?]
  | cons c body ih =>
    rw [List.cons_append]
    unfold commentEnd?
    split
    · simp_all
    · simp
    · simp_all

theorem word?_of_mem_keywords {word : String} {kind : Kind} (h : (word, kind) ∈ Kind.keywords)
    (after : List Char) : word? (word.toList ++ after) ≠ none := by
  have hall : ∀ entry ∈ Kind.keywords, entry.1.toList.head?.any isWordStart = true := by decide
  have hstart := hall _ h
  cases hword : word.toList with
  | nil => simp [hword] at hstart
  | cons c ds => simpa [hword, word?] using hstart

theorem mark?_of_mem_marks {sign : String} {kind : Kind} (h : (sign, kind) ∈ Kind.marks)
    (after : List Char) :
    mark? (sign.toList ++ after) ≠ none := by
  simp only [mark?, ne_eq, Option.map_eq_none_iff, List.find?_eq_none, not_forall]
  exact ⟨(sign, kind), h, by simp⟩

/-- Where no lexeme is found nothing fits. -/
theorem unmatched_of_lexeme? (h : lexeme? cs = none) : Unmatched cs := by
  obtain ⟨hcomment, hword, -, hspace, htext, hinteger, hmark⟩ := lexeme?_eq_none_iff.mp h
  rintro front after rfl hne
  have hdigit {c : Char} {ds : List Char} (hc : c.isDigit = true) : integer? (c :: ds) ≠ none := by
    simp [integer?, run, hc]
  constructor
  · intro hfiller
    cases hfiller with
    | blanks _ hcs =>
      obtain ⟨c, ds, rfl⟩ := List.exists_cons_of_ne_nil hne
      simp [space?, run, hcs c List.mem_cons_self] at hspace
    | line _ _ => simp [comment?] at hcomment
    | @block body _ =>
      simp only [List.cons_append, List.append_assoc, comment?, Option.map_eq_none_iff] at hcomment
      exact commentEnd?_ne_none body after hcomment
  · intro kind hreads
    unfold Kind.Reads at hreads
    split at hreads
    next =>
      obtain ⟨⟨c, ds, rfl, hstart, -⟩, -⟩ := hreads
      simp [word?, hstart] at hword
    next =>
      obtain ⟨c, ds, rfl⟩ := List.exists_cons_of_ne_nil hne
      exact hdigit (hreads.2 c List.mem_cons_self) hinteger
    next =>
      obtain ⟨ds, es, rfl, hds, -, hdigits, -⟩ := hreads
      obtain ⟨c, ds, rfl⟩ := List.exists_cons_of_ne_nil hds
      exact hdigit (hdigits c List.mem_cons_self) hinteger
    next =>
      obtain ⟨body, rfl, hbody⟩ := hreads
      have hrun : run (· != '"') (body ++ '"' :: after) = body.length :=
        run_append (fun c hc => by simpa using ne_of_mem_of_not_mem hc hbody) (by simp)
      simp [text?, hrun] at htext
    next =>
      rcases List.mem_append.mp hreads with hkeyword | hsign
      · exact word?_of_mem_keywords hkeyword after (by simpa using hword)
      · exact mark?_of_mem_marks hsign after (by simpa using hmark)

/-- A token has the kind of a reserved word exactly if it is that word. -/
theorem kind_eq_iff_of_mem_keywords {t : Token} (h : t.kind.Reads t.text.toList) {word : String}
    {kind : Kind} (hword : (word, kind) ∈ Kind.keywords) : t.kind = kind ↔ t.text = word := by
  constructor
  · intro hkind
    have hall : ∀ entry ∈ Kind.keywords, entry.2 ∉ [Kind.identifier, .integer, .decimal, .text] ∧
        ∀ other ∈ Kind.spellings, other.2 = entry.2 → other.1 = entry.1 := by decide
    obtain ⟨hspelled, hunique⟩ := hall _ hword
    simp only [List.mem_cons, List.not_mem_nil, or_false, not_or, ← hkind] at hspelled
    unfold Kind.Reads at h
    split at h
    · exact absurd ‹_› hspelled.1
    · exact absurd ‹_› hspelled.2.1
    · exact absurd ‹_› hspelled.2.2.1
    · exact absurd ‹_› hspelled.2.2.2
    · simpa using hunique _ h hkind
  · rintro rfl
    have hread := lexeme?_of_reads h (ends_nil _)
    rw [lexeme?_keyword hword (ends_nil _)] at hread
    simpa using hread.symm

end Scan

/-- A scan has nothing to report exactly if it has no stray character. -/
theorem Scan.diagnostics_eq_nil_iff {scan : Scan} : scan.diagnostics = [] ↔ scan.stray = none := by
  unfold diagnostics
  cases scan.stray <;> simp

/-- A report on a stray character starts with the character and its place. -/
theorem Stray.exists_message_eq (stray : Stray) : ∃ details, stray.message =
    "No terminal matches '" ++ String.ofList [stray.char] ++ "' in the current parser context, " ++
      s!"at line {stray.spot.line} col {stray.spot.column}" ++ details := by
  unfold message
  simp only [String.append_assoc]
  exact ⟨_, rfl⟩

namespace Session

/-- The tokens of a text tile it, up to its end or to the first place where nothing fits; in the
latter case one report is left, which names the character there and its place. A token has the kind
of a reserved word exactly if it is that word. -/
theorem tokenize_tiles (s : Session) (code : String) :
    ∃ before left, code.toList = before ++ left ∧
      Scan.Tiles left [] (s.tokenize code).tokens code.toList ∧
      (∀ t ∈ (s.tokenize code).tokens, ∀ entry ∈ Kind.keywords, t.kind = entry.2 ↔
        t.text = entry.1) ∧
      (left = [] ∧ (s.tokenize code).ledger.lexical = [] ∨
        ∃ c rest details, left = c :: rest ∧ Scan.Unmatched left ∧
          (s.tokenize code).ledger.lexical =
            [.ofLexical ("No terminal matches '" ++ String.ofList [c] ++
            "' in the current parser context, " ++
            s!"at line {(Spot.following before).line} col {(Spot.following before).column}" ++
              details)]) := by
  obtain ⟨left, htiles, hstop⟩ := Scan.exists_tiles [] code.toList
  have hwords : ∀ t ∈ (s.tokenize code).tokens, ∀ entry ∈ Kind.keywords, t.kind = entry.2 ↔
      t.text = entry.1 := fun t ht entry hentry =>
      Scan.kind_eq_iff_of_mem_keywords (Scan.ofText_reads ht) hentry
  have hscan : Spot.following [] = .start := rfl
  rw [hscan] at htiles hstop
  cases hoffset : (Scan.tokensFrom .start 0 code.toList).2 with
  | none =>
    rw [hoffset] at hstop
    obtain rfl := hstop
    refine ⟨code.toList, [], by simp, htiles, hwords, .inl ⟨rfl, ?_⟩⟩
    simp [tokenize, Scan.ofText, hoffset, Scan.diagnostics]
  | some offset =>
    rw [hoffset] at hstop
    obtain ⟨hne, hlexeme, hleft⟩ := hstop
    obtain ⟨c, rest, rfl⟩ := List.exists_cons_of_ne_nil hne
    let stray := Stray.locate code.toList offset (Scan.tokensFrom .start 0 code.toList).1.getLast?
    have hstray : (Scan.ofText code).stray = some stray := by simp [Scan.ofText, hoffset, stray]
    have hchar : stray.char = c := by simp [stray, Stray.locate, hleft]
    have hspot : stray.spot = .following (code.toList.take offset) := Spot.start_after _
    obtain ⟨details, hmessage⟩ := stray.exists_message_eq
    refine ⟨code.toList.take offset, c :: rest, ?_, htiles, hwords, .inr ⟨c, rest, details, rfl,
      Scan.unmatched_of_lexeme? hlexeme, ?_⟩⟩
    · rw [← hleft, List.take_append_drop]
    · rw [hchar, hspot] at hmessage
      simp only [tokenize, Scan.diagnostics, hstray, hmessage]

end Session

end Analizador
