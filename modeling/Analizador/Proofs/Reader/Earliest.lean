import Analizador.Proofs.Reader.Acceptance

/-! # Where a report points

A report on an unexpected token points to the first token at which no text of the grammar can go on.
The reader may end phrases before a token that it then refuses, but it takes a token only if what
has been read, with that token, still starts some text of the grammar. -/

namespace Analizador

open Grammar

namespace Reader

/-- The first point, in tokens that come after the place `last`, up to which a wanted list of kinds
could still go on and with which none does: one of the tokens, or the end of the text, at the place
of the last token. -/
inductive Earliest (wants : List Kind → Prop) (last : Spot) (ts : List Token) :
    Look → Spot → Prop where
  | token {before t after} (hsplit : ts = before ++ t :: after)
      (hviable : ∃ w, wants (before.map Token.kind ++ w))
      (hdead : ∀ w, ¬ wants (before.map Token.kind ++ t.kind :: w)) :
      Earliest wants last ts (.token t) t.spot
  | finish (hviable : ∃ w, wants (ts.map Token.kind ++ w)) (hdead : ¬ wants (ts.map Token.kind)) :
      Earliest wants last ts .finish ((ts.getLast?.map Token.spot).getD last)

variable {wants wants' : List Kind → Prop} {last spot : Spot} {t : Token} {ts : List Token}
  {look : Look}

/-- A token that is taken stands before the point where the rest goes wrong. -/
theorem Earliest.cons (h : Earliest wants' t.spot ts look spot)
    (hwants : ∀ w, wants (t.kind :: w) ↔ wants' w) :
    Earliest wants last (t :: ts) look spot := by
  cases h with
  | @token before u after hsplit hviable hdead =>
    obtain ⟨w, hw⟩ := hviable
    have hsplit' : t :: ts = (t :: before) ++ u :: after := by rw [hsplit, List.cons_append]
    exact .token hsplit' ⟨w, (hwants _).mpr hw⟩ fun w hw => hdead w ((hwants _).mp hw)
  | finish hviable hdead =>
    obtain ⟨w, hw⟩ := hviable
    have hspot : (ts.getLast?.map Token.spot).getD t.spot =
        ((t :: ts).getLast?.map Token.spot).getD last := by
      rw [List.getLast?_cons]
      cases ts.getLast? <;> rfl
    rw [hspot]
    exact .finish ⟨w, (hwants _).mpr hw⟩ fun hw => hdead ((hwants _).mp hw)

/-- Tokens that can all be built are read as a program, or the report points to the first one that
cannot come. -/
theorem run_earliest (r : Reader) (last : Spot) (ts : List Token) (htidy : r.Tidy)
    (hr : r.breaksOn? = none) (hts : ∀ t ∈ ts, t.breaksOn? = none) :
    (∃ p log, r.run last none ts = .program p log) ∨
      ∃ look spot ks, r.run last none ts = .fault (.unexpected look spot ks) ∧
        Earliest (Spells r.rest) last ts look spot := by
  -- What the reader wants after a token is what was wanted with that token at the front.
  induction ts generalizing r last with
  | nil =>
    rcases r.look_finish with ⟨-, p, log, hlook⟩ | ⟨hdead, r', hlook⟩
    · exact .inl ⟨p, log, by simp [run, hlook]⟩
    · have hr' : r'.Tidy ∧ r'.breaksOn? = none := by
        rcases look_finish_stuck hlook with rfl | hcalm
        · exact ⟨htidy, hr⟩
        · exact ⟨calm_tidy hcalm, calm_breaksOn? hcalm⟩
      obtain ⟨ks, hks⟩ := reject_fault hr'.1 hr'.2 .finish last
      exact .inr ⟨.finish, last, ks, by simp [run, hlook, hks], .finish r.exists_spells_rest hdead⟩
  | cons t ts ih =>
    obtain ⟨ht, hts⟩ := List.forall_mem_cons.mp hts
    have hfits := r.look_fits t
    have hsane := r.look_sane t htidy hr
    cases hlook : r.look (.token t) with
    | moved r' =>
      rw [hlook] at hfits hsane
      obtain ⟨htidy', hr'⟩ := hsane
      have hrun : r.run last none (t :: ts) = r'.run t.spot none ts := by simp [run, hlook]
      rw [hrun]
      rcases ih r' t.spot htidy' (hr'.trans ht) hts with hprogram | ⟨look, spot, ks, hreport,
        hearliest⟩
      · exact .inl hprogram
      · exact .inr ⟨look, spot, ks, hreport, hearliest.cons hfits⟩
    | stuck r' =>
      rw [hlook] at hfits hsane
      obtain ⟨ks, hks⟩ := reject_fault hsane.1 hsane.2 (.token t) t.spot
      have hviable : ∃ w, Spells r.rest (([] : List Token).map Token.kind ++ w) :=
        r.exists_spells_rest
      exact .inr ⟨.token t, t.spot, ks, by simp [run, hlook, hks], .token rfl hviable hfits⟩
    | accepted p log =>
      rw [hlook] at hsane
      exact hsane.elim
    | failed f =>
      rw [hlook] at hsane
      exact hsane.elim

end Reader

namespace Session

/-- The report on a text that is no program, although every token of it could be built, points to
the first token, or to the end, where the kinds so far start some derivable list and with it start
none. -/
theorem parse_report_earliest (s : Session) (code : String)
    (hwhole : (Scan.ofText code).stray = none)
    (hplain : ∀ t ∈ (Scan.ofText code).tokens, t.kind ≠ .both ∧ t.kind ≠ .either)
    (hshort : ∀ t ∈ (Scan.ofText code).tokens, t.kind = .integer →
      t.text.length ≤ Numeral.digitLimit)
    (hrejected : (s.parse [] code).2.program = none) :
    ∃ look spot ks,
      (s.parse [] code).2.ledger.syntactic =
        [.ofSyntactic (syntaxMessage (SyntaxFault.unexpected look spot ks).message)] ∧
      Reader.Earliest Derivable .start (Scan.ofText code).tokens look spot := by
  have hbuilt : ∀ t ∈ (Scan.ofText code).tokens, t.breaksOn? = none := by
    intro t ht
    rw [Token.breaksOn?_of_reads (Scan.ofText_reads ht)]
    simpa [Token.isBarred, Kind.isLogical_iff] using And.intro (hplain t ht) (hshort t ht)
  have hwants : Spells Reader.start.rest = Derivable :=
    funext fun w => propext Reader.spells_start_rest
  have hrun : Reading.ofText code = Reader.start.run .start none (Scan.ofText code).tokens := by
    rw [Reading.ofText, Reading.ofScan, hwhole]
  rcases Reader.run_earliest .start .start _ trivial rfl hbuilt with
    ⟨p, log, hprogram⟩ | ⟨look, spot, ks, hreport, h⟩
  · rw [← hrun] at hprogram
    simp [parse, Parsing.ofText, hprogram] at hrejected
  · rw [hwants] at h
    rw [← hrun] at hreport
    exact ⟨look, spot,
      ks, by simp [parse, Parsing.ofText, hreport, Ledger.add, Diagnostic.ofSyntactic], h⟩

/-- The semicolon ends the number and the expression before it, and still is where the report
points. -/
theorem parse_report_earliest_unclosed :
    let code := "ent x ; x = ( 1 ; y"
    (empty.parse [] code).2.program = none ∧
      ∃ look spot ks,
        (empty.parse [] code).2.ledger.syntactic =
          [.ofSyntactic (syntaxMessage (SyntaxFault.unexpected look spot ks).message)] ∧
        Reader.Earliest Derivable .start (Scan.ofText code).tokens look spot :=
  ⟨rfl, parse_report_earliest empty _ rfl (by decide +kernel) (by decide +kernel) rfl⟩

end Session

end Analizador
