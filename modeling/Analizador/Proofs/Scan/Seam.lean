import Analizador.Proofs.Program.Relocation
import Analizador.Proofs.Scan.Layout
import Analizador.Proofs.Scan.Tiling

/-! # Scanning texts one after the other

A line end parts two texts: no class but the blanks goes on over it, and a comment that is open at
the end of the first text is no comment there. So the tokens of the first text are followed by those
of the second, which are as many lines further down as the first text has, unless the first text
opens a comment and does not close it. -/

namespace Analizador

/-- A place some lines further down. -/
def Spot.down (lines : Nat) (spot : Spot) : Spot := { spot with line := spot.line + lines }

/-- A place moves on alike some lines further down. -/
theorem Spot.next_down (lines : Nat) (spot : Spot) (c : Char) :
    (spot.down lines).next c = (spot.next c).down lines := by
  by_cases hc : c = '\n' <;> simp [next, down, hc, Nat.add_right_comm]

/-- A text that ends with a newline leads to the start of a line. -/
theorem Spot.start_after_newline (cs : List Char) :
    start.after (cs ++ ['\n']) = start.down (cs.count '\n' + 1) := by
  rw [start_after]
  simp [following, down, start]

namespace Scan

variable {cs : List Char} {n : Nat}

/-! ## Each class before a line end -/

theorem run_newline {p : Char → Bool} (hp : p '\n' = false) (cs rest : List Char) :
    run p (cs ++ '\n' :: rest) = run p cs := by
  induction cs with
  | nil => simp [run, hp]
  | cons c cs ih =>
    simp only [run, List.cons_append, List.takeWhile_cons] at ih ⊢
    split
    next => rw [List.length_cons, List.length_cons, ih]
    next => rfl

/-- A run that ends within some characters does not depend on what comes after them. -/
theorem run_append_of_lt {p : Char → Bool} (h : run p cs < cs.length) (rest : List Char) :
    run p (cs ++ rest) = run p cs := by
  have hstop : (cs.takeWhile p).length ≠ cs.length := Nat.ne_of_lt h
  rw [run, List.takeWhile_append, if_neg hstop, run]

/-- Nor does a comment that ends within them. -/
theorem commentEnd?_append_of_some (h : commentEnd? cs = some n) (rest : List Char) :
    commentEnd? (cs ++ rest) = some n := by
  fun_induction commentEnd? cs generalizing n with
  | case1 => cases h
  | case2 tail => exact h
  | case3 c tail hne ih =>
    obtain ⟨m, hm, rfl⟩ := Option.map_eq_some_iff.mp h
    -- The rest makes no end mark at the front, since the tail is not empty.
    have hfront : ∀ after, c = '*' → tail ++ rest = '/' :: after → False := by
      rintro after rfl heq
      cases tail with
      | nil => cases hm
      | cons d tail =>
        obtain rfl : d = '/' := (List.cons.inj heq).1
        exact hne tail rfl rfl
    rw [List.cons_append, commentEnd?.eq_3 _ _ hfront, ih hm]
    rfl

theorem comment?_newline_of_some (h : comment? cs = some n) (rest : List Char) :
    comment? (cs ++ '\n' :: rest) = some n := by
  unfold comment? at h
  split at h
  next tail => simpa only [List.cons_append, comment?, run_newline (p := (· != '\n')) rfl] using h
  next tail =>
    obtain ⟨m, hm, rfl⟩ := Option.map_eq_some_iff.mp h
    simp only [List.cons_append, comment?, commentEnd?_append_of_some hm, Option.map_some]
  next => cases h

/-- Where no comment starts and none is opened, none starts with more lines after. -/
theorem comment?_newline_of_none (h : comment? cs = none) (hopen : ¬ ['/', '*'] <+: cs)
    (rest : List Char) :
    comment? (cs ++ '\n' :: rest) = none := by
  cases cs with
  | nil => rfl
  | cons c cs =>
    by_cases hc : c = '/'
    · subst hc
      cases cs with
      | nil => rfl
      | cons d cs =>
        have hslash : d ≠ '/' := by
          rintro rfl
          cases h
        have hstar : d ≠ '*' := by
          rintro rfl
          exact hopen ⟨cs, rfl⟩
        simp [comment?, hslash, hstar]
    · exact comment?_cons hc

/-- A word does not depend on the lines after it. -/
theorem word?_newline (cs rest : List Char) : word? (cs ++ '\n' :: rest) = word? cs := by
  cases cs with
  | nil => rfl
  | cons c cs => simp only [List.cons_append, word?, run_newline (p := isWordRest) rfl]

/-- Nor does an integer. -/
theorem integer?_newline (cs rest : List Char) : integer? (cs ++ '\n' :: rest) = integer? cs := by
  simp only [integer?, run_newline (p := Char.isDigit) rfl]

/-- Nor does a decimal. -/
theorem decimal?_newline (cs rest : List Char) : decimal? (cs ++ '\n' :: rest) = decimal? cs := by
  rw [decimal?, decimal?, integer?_newline]
  cases hinteger : integer? cs with
  | none => rfl
  | some whole =>
    have hwhole : whole ≤ cs.length := by
      obtain ⟨-, rfl⟩ : ¬ run Char.isDigit cs = 0 ∧ run Char.isDigit cs = whole := by
        simpa [integer?] using hinteger
      exact run_le ..
    simp only [Option.bind_eq_bind, Option.bind_some, List.drop_append_of_le_length hwhole]
    cases cs.drop whole with
    | nil => rfl
    | cons c tail =>
      by_cases hc : c = '.'
      · subst hc
        simp only [List.cons_append, integer?_newline]
      · simp [hc]

theorem space?_newline_of_none (hne : cs ≠ []) (h : space? cs = none) (rest : List Char) :
    space? (cs ++ '\n' :: rest) = none := by
  obtain ⟨c, cs, rfl⟩ := List.exists_cons_of_ne_nil hne
  have hc : isSpace c = false := by
    refine Bool.eq_false_iff.mpr fun hblank => ?_
    simp [space?, run, hblank] at h
  simp [space?, run, hc]

/-- Nor does a text that is closed. -/
theorem text?_newline_of_some (h : text? cs = some n) (rest : List Char) :
    text? (cs ++ '\n' :: rest) = some n := by
  unfold text? at h
  split at h
  next tail =>
    obtain ⟨hlength, rfl⟩ : run (· != '"') tail < tail.length ∧ run (· != '"') tail + 2 = n := by
      simpa using h
    simp only [List.cons_append, text?, run_append_of_lt hlength, List.length_append]
    rw [if_pos (by omega)]
  next => cases h

/-- Nor does whether a sign comes first. -/
theorem prefix_newline_iff {sign : List Char} (h : '\n' ∉ sign) (cs rest : List Char) :
    sign <+: cs ++ '\n' :: rest ↔ sign <+: cs := by
  induction sign generalizing cs with
  | nil => simp
  | cons c sign ih =>
    obtain ⟨hc, hsign⟩ := not_or.mp (mt List.mem_cons.mpr h)
    cases cs with
    | nil => simp [Ne.symm hc]
    | cons d cs => rw [List.cons_append, List.cons_prefix_cons, List.cons_prefix_cons, ih hsign]

theorem mark?_newline (cs rest : List Char) : mark? (cs ++ '\n' :: rest) = mark? cs := by
  have hmarks : ∀ entry ∈ Kind.marks, '\n' ∉ entry.1.toList := by decide
  have hfind (marks : List (String × Kind)) (h : ∀ entry ∈ marks, '\n' ∉ entry.1.toList) :
      marks.find? (fun entry => entry.1.toList.isPrefixOf (cs ++ '\n' :: rest)) =
        marks.find? (fun entry => entry.1.toList.isPrefixOf cs) := by
    induction marks with
    | nil => rfl
    | cons entry marks ih =>
      obtain ⟨hentry, hmarks⟩ := List.forall_mem_cons.mp h
      have hstarts : entry.1.toList.isPrefixOf (cs ++ '\n' :: rest) =
          entry.1.toList.isPrefixOf cs := by
        rw [Bool.eq_iff_iff, List.isPrefixOf_iff_prefix, List.isPrefixOf_iff_prefix,
          prefix_newline_iff hentry]
      rw [List.find?_cons, List.find?_cons, hstarts, ih hmarks]
  exact congrArg (Option.map fun entry => (entry.2, entry.1.toList.length))
    (hfind Kind.marks hmarks)

/-- A quotation mark starts a text or nothing. -/
theorem text?_newline_of_none (h : text? cs = none) (hother : integer? cs ≠ none ∨ mark? cs ≠ none)
    (rest : List Char) : text? (cs ++ '\n' :: rest) = none := by
  cases cs with
  | nil => rfl
  | cons c cs =>
    refine text?_cons ?_
    rintro rfl
    rcases hother with hinteger | hmark
    · exact hinteger rfl
    · exact hmark rfl

/-! ## Lexemes before a line end -/

/-- Nor does a token, where no comment is opened. -/
theorem lexeme?_newline {kind : Kind} (h : lexeme? cs = some ⟨some kind, n⟩)
    (hopen : ¬ ['/', '*'] <+: cs) (rest : List Char) :
    lexeme? (cs ++ '\n' :: rest) = some ⟨some kind, n⟩ := by
  have hne : cs ≠ [] := by
    rintro rfl
    cases h
  have hlength := (unextended_of_lexeme? h).1
  simp only [lexeme?_eq_some_iff, Lexeme.mk.injEq, Option.some.injEq, reduceCtorEq, false_and,
    and_false, exists_const, false_or, word?_newline, decimal?_newline, integer?_newline,
    mark?_newline] at h ⊢
  obtain ⟨hcomment, h⟩ := h
  refine ⟨comment?_newline_of_none hcomment hopen rest, ?_⟩
  rcases h with ⟨m, hword, hkind, rfl⟩ | ⟨hword, ⟨m, hdecimal, hkind, rfl⟩ | ⟨hdecimal, hspace, h⟩⟩
  · refine .inl ⟨m, hword, ?_, rfl⟩
    rw [List.take_append_of_le_length hlength, hkind]
  · exact .inr ⟨hword, .inl ⟨m, hdecimal, hkind, rfl⟩⟩
  · refine .inr ⟨hword, .inr ⟨hdecimal, space?_newline_of_none hne hspace rest, ?_⟩⟩
    rcases h with ⟨m, htext, hkind, rfl⟩ | ⟨htext, ⟨m, hinteger, hkind, rfl⟩ | ⟨hinteger, hmark⟩⟩
    · exact .inl ⟨m, text?_newline_of_some htext rest, hkind, rfl⟩
    · exact .inr ⟨text?_newline_of_none htext (.inl (by simp [hinteger])) rest,
        .inl ⟨m, hinteger, hkind, rfl⟩⟩
    · obtain ⟨kind', m, hmark, hkind⟩ := hmark
      exact .inr ⟨text?_newline_of_none htext (.inr (by simp [hmark])) rest,
        .inr ⟨hinteger, kind', m, hmark, hkind⟩⟩

/-- Where a comment is opened and not closed stand a slash and a star. -/
theorem lexeme?_open {kind : Kind} (h : lexeme? ('/' :: '*' :: cs) = some ⟨some kind, n⟩) :
    kind = .slash ∧ n = 1 := by
  have hslash : mark? ('/' :: '*' :: cs) = some (.slash, 1) := rfl
  simp only [lexeme?_eq_some_iff, Lexeme.mk.injEq, Option.some.injEq, reduceCtorEq, false_and,
    and_false, exists_const, false_or, hslash, Prod.mk.injEq] at h
  obtain ⟨-, ⟨m, hword, -⟩ | ⟨-, ⟨m, hdecimal, -⟩ | ⟨-, -,
      ⟨m, htext, -⟩ | ⟨-, ⟨m, hinteger, -⟩ | ⟨-, kind', m, ⟨rfl, rfl⟩, rfl, rfl⟩⟩⟩⟩⟩ := h
  · cases hword
  · cases hdecimal
  · cases htext
  · cases hinteger
  · exact ⟨rfl, rfl⟩

theorem skipped_blanks (h : ∀ c ∈ cs, isSpace c = true) : Skipped cs := by
  induction cs with
  | nil =>
    intro spot rest ts hscan
    exact hscan
  | cons c cs ih =>
    obtain ⟨hc, hcs⟩ := List.forall_mem_cons.mp h
    exact (skipped_blank hc).append (ih hcs)

/-- What is dropped before a line end is dropped when more text comes after that. -/
theorem tokensFrom_dropped {front after rest : List Char} {spot : Spot} {ts : List Token}
    (hne : front ≠ []) (h : lexeme? (front ++ after) = some ⟨none, front.length⟩)
    (hscan : tokensFrom (spot.after front) 0 (after ++ '\n' :: rest) = (ts, none)) :
    tokensFrom spot 0 (front ++ (after ++ '\n' :: rest)) = (ts, none) := by
  simp only [lexeme?_eq_some_iff, Lexeme.mk.injEq, reduceCtorEq, false_and, and_false, exists_const,
    true_and, exists_eq_right, or_false, false_or] at h
  rcases h with hcomment | ⟨-, -, -, hspace⟩
  · refine tokensFrom_comment hne ?_ hscan
    rw [← List.append_assoc]
    exact comment?_newline_of_some hcomment rest
  · obtain ⟨-, hrun⟩ : ¬ run isSpace (front ++ after) = 0 ∧
        run isSpace (front ++ after) = front.length := by
      simpa [space?] using hspace
    have hfront : front = (front ++ after).takeWhile isSpace := by
      rw [← take_run, hrun, List.take_left]
    refine skipped_blanks (fun c hc => ?_) spot _ ts hscan
    rw [hfront] at hc
    exact List.mem_takeWhile_imp hc

/-! ## Two texts -/

/-- A scan over a line end takes the tokens before it and then those after it, unless a comment is
open. -/
theorem tokensFrom_newline {rest : List Char} {spot : Spot} {ts us : List Token}
    (hts : tokensFrom spot 0 cs = (ts, none)) (hopen : ¬ [Kind.slash, .star] <:+: ts.map Token.kind)
    (hus : tokensFrom (spot.after (cs ++ ['\n'])) 0 rest = (us, none)) :
    tokensFrom spot 0 (cs ++ '\n' :: rest) = (ts ++ us, none) := by
  induction cs using lexeme_induction generalizing spot ts with
  | nil =>
    obtain rfl : [] = ts := (Prod.mk.inj hts).1
    exact skipped_blank rfl spot rest us hus
  | stray c cs hnone =>
    simp only [tokensFrom, hnone, Prod.mk.injEq, reduceCtorEq, and_false] at hts
  | lexeme kind front after hne hlexeme ih =>
    rw [tokensFrom_lexeme spot hne hlexeme] at hts
    obtain ⟨rfl, hstop⟩ := Prod.mk.inj hts
    have hstop : (tokensFrom (spot.after front) 0 after).2 = none := Option.map_eq_none_iff.mp hstop
    have hafter : tokensFrom (spot.after front) 0 after =
        ((tokensFrom (spot.after front) 0 after).1, none) := Prod.ext rfl hstop
    rw [List.append_assoc, Spot.after_append] at hus
    rw [List.append_assoc]
    cases kind with
    | none => exact tokensFrom_dropped hne hlexeme (ih hafter hopen hus)
    | some kind =>
      rw [Option.map_some, Option.toList_some, List.singleton_append, List.map_cons] at hopen
      have hclosed : ¬ ['/', '*'] <+: front ++ after := by
        rintro ⟨tail, htail⟩
        rw [← htail] at hlexeme
        obtain ⟨rfl, hlength⟩ := lexeme?_open hlexeme
        obtain ⟨c, rfl⟩ := List.length_eq_one_iff.mp hlength
        obtain ⟨-, rfl⟩ := List.cons.inj htail
        have hstar : lexeme? (['*'] ++ tail) = some ⟨some .star, ['*'].length⟩ := rfl
        refine hopen (List.IsPrefix.isInfix ?_)
        change _ <+: Kind.slash :: (tokensFrom (spot.after [c]) 0 (['*'] ++ tail)).1.map Token.kind
        rw [tokensFrom_lexeme _ (by simp) hstar]
        exact List.prefix_append [Kind.slash, .star] _
      have hjoined := lexeme?_newline hlexeme hclosed rest
      rw [List.append_assoc] at hjoined
      have hrest := ih hafter (fun hinfix => hopen (List.infix_cons hinfix)) hus
      rw [tokensFrom_lexeme spot hne hjoined, hrest]
      rfl

/-- A scan that starts some lines further down gives the same tokens further down. -/
theorem tokensFrom_down (lines : Nat) (spot : Spot) (skip : Nat) (cs : List Char) :
    tokensFrom (spot.down lines) skip cs =
      ((tokensFrom spot skip cs).1.map (Token.relocate (.down lines)),
        (tokensFrom spot skip cs).2) := by
  induction cs generalizing spot skip with
  | nil => rfl
  | cons c cs ih =>
    cases skip with
    | succ skip => simp only [tokensFrom, Spot.next_down, ih]
    | zero =>
      simp only [tokensFrom, Spot.next_down, ih]
      cases lexeme? (c :: cs) with
      | none => rfl
      | some lexeme =>
        obtain ⟨kind, n⟩ := lexeme
        cases kind <;> rfl

theorem ofText_eq_iff {code : String} {ts : List Token} :
    ofText code = ⟨ts, none⟩ ↔ tokensFrom .start 0 code.toList = (ts, none) := by
  simp [ofText, Prod.ext_iff]

/-- The tokens of two texts that are joined by a line end. -/
theorem ofText_newline {a b : String} {ts us : List Token} (ha : ofText a = ⟨ts, none⟩)
    (hb : ofText b = ⟨us, none⟩) (hopen : ¬ [Kind.slash, .star] <:+: ts.map Token.kind) :
    ofText (a ++ "\n" ++ b) = ⟨ts ++ us.map (Token.relocate (.down (a.toList.count '\n' + 1))),
      none⟩ := by
  rw [ofText_eq_iff] at ha hb ⊢
  have hchars : (a ++ "\n" ++ b).toList = a.toList ++ '\n' :: b.toList := by simp
  rw [hchars]
  refine tokensFrom_newline ha hopen ?_
  rw [Spot.start_after_newline, tokensFrom_down, hb]

end Scan

end Analizador
