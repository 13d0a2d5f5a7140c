import Analizador.Proofs.Analysis.Relocation
import Analizador.Proofs.Analysis.Verdict
import Analizador.Proofs.Reader.Places

/-! # Layout does not matter

Texts with the same tokens are analysed alike, whatever stands between the tokens: the reader comes
to the same outcome, and the walk of two programs that differ in places alone gives the same marks,
symbols and faults, again up to places. -/

namespace Analizador

/-! ## Reading the same tokens -/

/-- Steps that are the same without places are of one kind. -/
theorem Step.cases_of_unplaced {step step' : Step} (h : step.unplaced = step'.unplaced) :
    (∃ r r', step = .moved r ∧ step' = .moved r' ∧ r.unplaced = r'.unplaced) ∨
      (∃ p p' log, step = .accepted p log ∧ step' = .accepted p' log ∧ p.unplaced = p'.unplaced) ∨
      (∃ r r', step = .stuck r ∧ step' = .stuck r' ∧ r.unplaced = r'.unplaced) ∨
      ∃ f, step = .failed f ∧ step' = .failed f := by
  cases step with
  | moved r =>
    cases step' with
    | moved r' => exact .inl ⟨r, r', rfl, rfl, Step.moved.inj h⟩
    | _ => cases h
  | accepted p log =>
    cases step' with
    | accepted p' log' =>
      obtain ⟨hp, rfl⟩ := Step.accepted.inj h
      exact .inr (.inl ⟨p, p', log, rfl, rfl, hp⟩)
    | _ => cases h
  | stuck r =>
    cases step' with
    | stuck r' => exact .inr (.inr (.inl ⟨r, r', rfl, rfl, Step.stuck.inj h⟩))
    | _ => cases h
  | failed f =>
    cases step' with
    | failed f' =>
      obtain rfl := Step.failed.inj h
      exact .inr (.inr (.inr ⟨f, rfl, rfl⟩))
    | _ => cases h

/-- Tokens of the same kinds and texts are the same without places. -/
theorem Token.unplaced_of_words {ts us : List Token}
    (h : ts.map (fun t => (t.kind, t.text)) = us.map fun t => (t.kind, t.text)) :
    ts.map unplaced = us.map unplaced := by
  have hmap := congrArg (List.map fun k : Kind × String => (⟨k.1, k.2, .start⟩ : Token)) h
  rw [List.map_map, List.map_map] at hmap
  exact hmap

/-- What comes of reading, places and reports aside. -/
def Reading.outcome : Reading → Except Failure (Option Program)
  | .program p _ => .ok (some p.unplaced)
  | .fault _ => .ok none
  | .aborted f => .error f

namespace Reader

variable {r r' : Reader}

theorem wanted_unplaced (r : Reader) (ks : List (Option Kind)) :
    r.unplaced.wanted ks = r.wanted ks := by
  induction ks with
  | nil => rfl
  | cons k ks ih =>
    have hsample : (Look.sample k).unplaced = Look.sample k := by cases k <;> rfl
    have hlook := look_unplaced r (.sample k)
    rw [hsample] at hlook
    simp only [wanted, hlook, ih]
    cases r.look (.sample k) <;> rfl

theorem outcome_reject (h : r.unplaced = r'.unplaced) (next next' : Look) (spot spot' : Spot) :
    (r.reject next spot).outcome = (r'.reject next' spot').outcome := by
  have hwanted : r.wanted Look.terminals = r'.wanted Look.terminals := by
    rw [← wanted_unplaced, h, wanted_unplaced]
  simp only [reject, hwanted]
  cases r'.wanted Look.terminals <;> rfl

theorem look_of_unplaced (h : r.unplaced = r'.unplaced) (next next' : Look)
    (hnext : next.unplaced = next'.unplaced) :
    (r.look next).unplaced = (r'.look next').unplaced := by
  rw [← look_unplaced, ← look_unplaced, h, hnext]

/-- Readers that are the same without places come to the same outcome on the same tokens. -/
theorem outcome_run (h : r.unplaced = r'.unplaced) {ts us : List Token}
    (htokens : ts.map Token.unplaced = us.map Token.unplaced) (last last' : Spot) :
    (r.run last none ts).outcome = (r'.run last' none us).outcome := by
  induction ts generalizing r r' us last last' with
  | nil =>
    obtain rfl : us = [] := List.map_eq_nil_iff.mp htokens.symm
    have hstep := look_of_unplaced h .finish .finish rfl
    rcases Step.cases_of_unplaced hstep with ⟨m, m', hm, hm', heq⟩ | ⟨p, p', log, hp, hp', heq⟩ |
      ⟨m, m', hm, hm', heq⟩ | ⟨f, hf, hf'⟩
    · simp only [run, hm, hm']
      exact outcome_reject heq _ _ _ _
    · simp only [run, hp, hp', Reading.outcome, heq]
    · simp only [run, hm, hm']
      exact outcome_reject heq _ _ _ _
    · simp only [run, hf, hf']
  | cons t ts ih =>
    cases us with
    | nil => cases htokens
    | cons u us =>
      obtain ⟨htoken, hrest⟩ := List.cons.inj htokens
      have hstep := look_of_unplaced h (.token t) (.token u) (congrArg Look.token htoken)
      rcases Step.cases_of_unplaced hstep with ⟨m, m', hm, hm', heq⟩ | ⟨p, p', log, hp, hp', heq⟩ |
        ⟨m, m', hm, hm', heq⟩ | ⟨f, hf, hf'⟩
      · simp only [run, hm, hm']
        exact ih heq hrest _ _
      · simp only [run, hp, hp', Reading.outcome, heq]
      · simp only [run, hm, hm']
        exact outcome_reject heq _ _ _ _
      · simp only [run, hf, hf']

end Reader

/-! ## Walking the same program -/

/-- A symbol without its place. -/
def Symbol.unplaced (s : Symbol) : Symbol := { s with spot := .start }

theorem Program.walk_unplaced (p : Program) :
    (p.unplaced).walk =
      p.walk.relocate (fun _ => .start) (List.map (Item.relocate fun _ => .start)) := by
  rw [unplaced_eq, walk_relocate]

/-- Faults that are the same without places are reported alike. -/
theorem Fault.diagnostics_of_relocate {f : Spot → Spot} {faults faults' : List Fault}
    (h : faults.map (relocate f) = faults'.map (relocate f)) :
    (faults.map diagnostic).map (fun d => (d.kind, d.message)) =
      (faults'.map diagnostic).map fun d => (d.kind, d.message) := by
  have hshown (fault : Fault) : (fault.diagnostic.kind, fault.diagnostic.message) =
      ((fault.relocate f).diagnostic.kind, (fault.relocate f).diagnostic.message) := by
    rw [(diagnostic_relocate f fault).1, (diagnostic_relocate f fault).2]
  have hmap := congrArg (List.map fun d : Fault => (d.diagnostic.kind, d.diagnostic.message)) h
  simpa only [List.map_map, Function.comp_def, ← hshown] using hmap

namespace Session

/-- The analyses of two sessions agree, places aside: they come to the same result and leave the
same program, the same table and, one by one, reports of the same kind with the same message. -/
structure AnalysedAlike (s s' : Session) : Prop where
  result : ∃ result, s.analyse.1 = .ok result ∧ s'.analyse.1 = .ok result
  program : s.analyse.2.2.program.map Program.unplaced = s'.analyse.2.2.program.map Program.unplaced
  table : s.analyse.2.2.table.map Symbol.unplaced = s'.analyse.2.2.table.map Symbol.unplaced
  reports : s.analyse.2.2.ledger.semantic.map (fun d => (d.kind, d.message)) =
    s'.analyse.2.2.ledger.semantic.map fun d => (d.kind, d.message)

theorem parse_eq_outcome (s : Session) (code : String) :
    (s.parse [] code).1 = (Reading.ofText code).outcome.map Option.isSome := by
  cases hreading : Reading.ofText code <;>
    simp [parse, Parsing.ofText, hreading, Reading.outcome, Except.map]

theorem stray_of_tokenize {s : Session} {code : String}
    (h : (s.tokenize code).ledger.lexical = []) :
    (Scan.ofText code).stray = none := by
  simp only [tokenize, Scan.diagnostics] at h
  split at h
  next => cases h
  next hstray => exact hstray

/-- Texts that are scanned whole into the same tokens are read with the same outcome. -/
theorem outcome_of_tokens {s s' : Session} {a b : String} (ha : (s.tokenize a).ledger.lexical = [])
    (hb : (s'.tokenize b).ledger.lexical = [])
    (htokens : (s.tokenize a).tokens.map (fun t => (t.kind, t.text)) =
      (s'.tokenize b).tokens.map fun t => (t.kind, t.text)) :
    (Reading.ofText a).outcome = (Reading.ofText b).outcome := by
  rw [Reading.ofText, Reading.ofText, Reading.ofScan, Reading.ofScan, stray_of_tokenize ha,
    stray_of_tokenize hb]
  exact Reader.outcome_run rfl (Token.unplaced_of_words htokens) _ _

theorem analysedAlike {s s' : Session} {a b : String} {p q : Program}
    (hp : (s.parse [] a).2.program = some p) (hq : (s'.parse [] b).2.program = some q)
    (hunplaced : p.unplaced = q.unplaced) :
    AnalysedAlike (s.parse [] a).2 (s'.parse [] b).2 := by
  have hwalk := p.walk_unplaced.symm.trans ((congrArg Program.walk hunplaced).trans q.walk_unplaced)
  simp only [Enrolled.relocate, Walked.relocate, Enrolled.mk.injEq, Walked.mk.injEq] at hwalk
  obtain ⟨⟨hpart, htable, hfaults⟩, -⟩ := hwalk
  obtain ⟨hresult, hprogram, hsemantic⟩ := analyse_of_parse hp
  obtain ⟨hresult', hprogram', hsemantic'⟩ := analyse_of_parse hq
  have hlength : p.walk.faults.isEmpty = q.walk.faults.isEmpty := by
    simpa only [List.isEmpty_map] using congrArg List.isEmpty hfaults
  constructor
  case result => exact ⟨_, hresult, hresult'.trans (by rw [hlength])⟩
  case program =>
    rw [hprogram, hprogram', Option.map_some, Option.map_some, Program.unplaced_eq]
    exact congrArg (fun items => some (Program.mk items)) hpart
  case table =>
    rw [table_of_parse hp, table_of_parse hq]
    exact htable
  case reports =>
    rw [hsemantic, hsemantic']
    exact Fault.diagnostics_of_relocate hfaults

/-- Two texts of the same tokens are both read or both rejected, and the programs read from them are
the same and are analysed alike, places aside. -/
theorem analyse_of_tokens (s s' : Session) (a b : String) (ha : (s.tokenize a).ledger.lexical = [])
    (hb : (s'.tokenize b).ledger.lexical = [])
    (htokens : (s.tokenize a).tokens.map (fun t => (t.kind, t.text)) =
      (s'.tokenize b).tokens.map fun t => (t.kind, t.text)) :
    (s.parse [] a).1 = (s'.parse [] b).1 ∧
      ∀ p, (s.parse [] a).2.program = some p →
        ∃ q, (s'.parse [] b).2.program = some q ∧ p.unplaced = q.unplaced ∧
          AnalysedAlike (s.parse [] a).2 (s'.parse [] b).2 := by
  have houtcome := outcome_of_tokens ha hb htokens
  refine ⟨by rw [parse_eq_outcome, parse_eq_outcome, houtcome], fun p hp => ?_⟩
  obtain ⟨log, hreading⟩ := reading_of_parse hp
  rw [hreading] at houtcome
  cases hread : Reading.ofText b with
  | program q log' =>
    rw [hread] at houtcome
    have hunplaced : p.unplaced = q.unplaced := Option.some.inj (Except.ok.inj houtcome)
    have hq := (parse_of_reading s' hread).2
    exact ⟨q, hq, hunplaced, analysedAlike hp hq hunplaced⟩
  | fault f =>
    rw [hread] at houtcome
    cases Except.ok.inj houtcome
  | aborted f =>
    rw [hread] at houtcome
    cases houtcome

/-- A comment, blanks and ends of lines move the two faults and change nothing else. -/
theorem analyse_of_tokens_commented :
    let a := "ent x ; x = y + 1 ; ent x ;"
    let b := "/* ; */ent x;// y\n\nx=y+1;\n ent\tx;"
    (empty.parse [] a).1 = .ok true ∧ (empty.parse [] b).1 = .ok true ∧
      ∃ p q, (empty.parse [] a).2.program = some p ∧ (empty.parse [] b).2.program = some q ∧
        p.unplaced = q.unplaced ∧ AnalysedAlike (empty.parse [] a).2 (empty.parse [] b).2 := by
  obtain ⟨hresult, hprogram⟩ := analyse_of_tokens empty empty "ent x ; x = y + 1 ; ent x ;"
    "/* ; */ent x;// y\n\nx=y+1;\n ent\tx;" rfl rfl (by decide +kernel)
  have haccepted : (empty.parse [] "ent x ; x = y + 1 ; ent x ;").1 = .ok true := rfl
  obtain ⟨q, hq⟩ := hprogram _ rfl
  exact ⟨haccepted, hresult.symm.trans haccepted, _, q, rfl, hq⟩

end Session

end Analizador
