import Analizador.Proofs.Reader.Remainder

/-! # Outcomes of reading

Two sorts of tokens cannot be built into a program: logical operators, and literals whose text
cannot be read. A reader that has just taken one fails as soon as the next token lets the phrase
end, and cannot even say what it would have taken instead when the next token does not. -/

namespace Analizador

open Grammar

/-- The kinds before which the phrase of a token is built and fails; none if it does not fail. -/
def Token.breaksOn? (t : Token) : Option (Kind → Bool) :=
  if t.kind.isLogical then some Kind.startsOperand
  else match t.toExpr with
    | .ok _ => none
    | .error _ => some Kind.followsOperand

namespace Reader

/-- The kinds on which a reader fails because of the token that it holds. -/
def breaksOn? (r : Reader) : Option (Kind → Bool) :=
  match r.phase with
  | .logical .. => some Kind.startsOperand
  | .holding _ _ _ (.loose t) | .counting t => t.breaksOn?
  | _ => none

/-- The tokens that a reader holds are of the kinds that it can hold. -/
def Tidy (r : Reader) : Prop :=
  match r.phase with
  | .holding _ _ _ (.loose t) => t.kind ∈ leaves
  | .counting t => t.kind = .integer
  | .lone t => t.kind = .text
  | _ => True

end Reader

namespace Step

/-- A step from a reader that holds nothing broken: after a token that was taken, the reader fails
on what the token fails on. -/
def Sane (step : Step) (t : Token) : Prop :=
  match step with
  | .moved r => r.Tidy ∧ r.breaksOn? = t.breaksOn?
  | .accepted .. => False
  | .stuck r => r.Tidy ∧ r.breaksOn? = none
  | .failed _ => False

end Step

/-- The kinds of the tokens that may fail. -/
def Kind.failing : List Kind := [.both, .either, .integer, .decimal]

namespace Token

variable {t : Token}

/-- Only logical operators and numerals can fail. -/
theorem breaksOn?_eq_none {k : Kind} (hkind : t.kind = k) (hk : k ∉ Kind.failing) :
    t.breaksOn? = none := by
  obtain ⟨kind, text, spot⟩ := t
  obtain rfl : kind = k := hkind
  cases kind <;> first | rfl | exact absurd (by decide) hk

theorem breaksOn?_of_eq_some {α : Type} {f : Kind → Option α} {a : α}
    (hf : ∀ k ∈ Kind.failing, f k = none) (h : f t.kind = some a) : t.breaksOn? = none := by
  refine breaksOn?_eq_none rfl fun hmem => ?_
  simp [hf _ hmem] at h

/-- A token that can be built has an expression. -/
theorem exists_toExpr_of_breaksOn? (h : t.breaksOn? = none) :
    ∃ e, t.toExpr = .ok e := by
  unfold breaksOn? at h
  split at h
  next => cases h
  next =>
    cases hexpr : t.toExpr with
    | ok e => exact ⟨e, rfl⟩
    | error f => simp [hexpr] at h

theorem toExpr_integer (hkind : t.kind = .integer) :
    t.toExpr = (Numeral.readInteger t.text).map fun n => .number (.whole n) t.spot := by
  unfold toExpr
  rw [hkind]
  cases Numeral.readInteger t.text <;> rfl

/-- An integer that can be built can be read. -/
theorem exists_readInteger (hkind : t.kind = .integer) (h : t.breaksOn? = none) :
    ∃ n, Numeral.readInteger t.text = .ok n := by
  obtain ⟨e, he⟩ := exists_toExpr_of_breaksOn? h
  rw [toExpr_integer hkind] at he
  cases hread : Numeral.readInteger t.text with
  | ok n => exact ⟨n, rfl⟩
  | error f => simp [hread, Except.map] at he

/-- A leaf that cannot be built has no expression, and fails before what follows an operand. -/
theorem breaksOn?_leaf {f : Kind → Bool} (hleaf : t.kind ∈ leaves) (h : t.breaksOn? = some f) :
    f = Kind.followsOperand ∧ ∃ e, t.toExpr = .error e := by
  have hlogical : ¬ t.kind.isLogical = true := by
    rw [Kind.isLogical_iff]
    intro hmem
    simp only [leaves, List.mem_cons, List.not_mem_nil, or_false] at hleaf hmem
    rcases hmem with hmem | hmem <;> simp [hmem] at hleaf
  rw [breaksOn?, if_neg hlogical] at h
  split at h
  next => cases h
  next e he => exact ⟨(Option.some.inj h).symm, e, he⟩

end Token

/-- The phases in which nothing is left to be built from a token. -/
def Phase.isCalm : Phase → Bool
  | .logical .. | .holding _ _ _ (.loose _) | .counting _ | .lone _ => false
  | _ => true

namespace Reader

variable {r : Reader} {t : Token}

theorem calm_tidy (h : r.phase.isCalm = true) : r.Tidy := by
  unfold Tidy
  split <;> simp_all [Phase.isCalm]

/-- A calm reader is not broken. -/
theorem calm_breaksOn? (h : r.phase.isCalm = true) : r.breaksOn? = none := by
  unfold breaksOn?
  split <;> simp_all [Phase.isCalm]

theorem complete_isCalm (r : Reader) (s : Stmt) : (r.complete s).phase.isCalm = true := by
  unfold complete
  split <;> rfl

theorem closeBlock_isCalm (r : Reader) (f : Frame) (fs : List Frame) :
    (r.closeBlock f fs).phase.isCalm = true := by
  unfold closeBlock
  cases f.role <;> simp only [complete_isCalm]
  rfl

/-- Ending a phrase leaves nothing broken. -/
theorem Ends.tidy {r' : Reader} {k : Kind} (h : r.Ends k r') (htidy : r.Tidy) :
    r'.Tidy ∧ r'.breaksOn? = none := by
  have hcalm {q : Reader} (hq : q.phase.isCalm = true) : q.Tidy ∧ q.breaksOn? = none :=
    ⟨calm_tidy hq, calm_breaksOn? hq⟩
  cases h with
  | conditional => exact hcalm (complete_isCalm _ _)
  | @lone r s =>
    have hkind : s.kind = .text := htidy
    exact ⟨by simp [Tidy, inPhase, hkind, leaves], Token.breaksOn?_eq_none hkind (by decide)⟩
  | leaf | operation | plain | comparison | whole | count => exact hcalm rfl

/-- After a token that was taken, the reader fails on what the token fails on. -/
theorem Shifts.tidy {r' : Reader} (h : r.Shifts t r') : r'.Tidy ∧ r'.breaksOn? = t.breaksOn? := by
  have hcalm {q : Reader} (hq : q.phase.isCalm = true) (ht : t.breaksOn? = none) :
      q.Tidy ∧ q.breaksOn? = t.breaksOn? :=
    ⟨calm_tidy hq, (calm_breaksOn? hq).trans ht.symm⟩
  have hkind {k : Kind} (h : t.kind = k) (hk : k ∉ Kind.failing) : t.breaksOn? = none :=
    Token.breaksOn?_eq_none h hk
  cases h with
  | keyword hkeyword =>
    refine hcalm rfl (hkind rfl fun hmem => ?_)
    revert hkeyword hmem
    cases t.kind <;> simp [Kind.opensStatement, Kind.failing]
  | close h => exact hcalm (closeBlock_isCalm ..) (hkind h (by decide))
  | type hty => exact hcalm rfl (Token.breaksOn?_of_eq_some (by decide) hty)
  | @inside r k h => exact hcalm (by cases k <;> rfl) (hkind h (by decide))
  | lone h => exact ⟨h, (hkind h (by decide)).symm⟩
  | operand hstarts hparen => exact ⟨(Kind.startsOperand_iff.mp hstarts).resolve_left hparen, rfl⟩
  | arithmetic hop => exact hcalm rfl (Token.breaksOn?_of_eq_some (by decide) hop)
  | relational hop => exact hcalm rfl (Token.breaksOn?_of_eq_some (by decide) hop)
  | logical hlogical => exact ⟨trivial, by simp [inPhase, breaksOn?, Token.breaksOn?, hlogical]⟩
  | count h => exact ⟨h, rfl⟩
  | assigned h | statement h => exact hcalm (complete_isCalm ..) (hkind h (by decide))
  | target h | bare h | otherwise h | name h | comma h | declaration h | assign h | paren h
  | closeParen h | si h | mientras h | sout h | loneSout h | counted h | inputName h | input h
  | block h => exact hcalm rfl (hkind h (by decide))

/-- Only a reader that holds something broken fails. -/
theorem Fails.breaksOn? {k : Kind} {f : Failure} (h : r.Fails k f) (htidy : r.Tidy) :
    r.breaksOn? ≠ none := by
  intro hr
  cases h with
  | leaf hk hf =>
    obtain ⟨e, he⟩ := Token.exists_toExpr_of_breaksOn? hr
    simp [he] at hf
  | lone hk hf =>
    -- A text is always built, so holding one breaks nothing.
    obtain ⟨e, he⟩ := Token.exists_toExpr_of_breaksOn? (Token.breaksOn?_eq_none htidy (by decide))
    simp [he] at hf
  | count hk hf =>
    obtain ⟨n, hn⟩ := Token.exists_readInteger htidy hr
    simp [hn] at hf
  | logical => cases hr

/-- A reader that holds nothing broken does not fail, and takes a broken token as such. -/
theorem look_sane (r : Reader) (t : Token) (htidy : r.Tidy) (hr : r.breaksOn? = none) :
    (r.look (.token t)).Sane t := by
  have hlooks := r.looks t
  generalize r.look (.token t) = step at hlooks ⊢
  induction hlooks with
  | ends hends _ ih =>
    obtain ⟨htidy', hr'⟩ := hends.tidy htidy
    exact ih htidy' hr'
  | shifts hshifts => exact hshifts.tidy
  | refuses => exact ⟨htidy, hr⟩
  | fails hfails => exact hfails.breaksOn? htidy hr

/-- At the end of the text a reader is left where it was, or between two items. -/
theorem look_finish_stuck {r r' : Reader} (h : r.look .finish = .stuck r') :
    r' = r ∨ r'.phase.isCalm = true := by
  obtain ⟨items, frames, phase, log⟩ := r
  cases phase <;> simp only [look, ready] at h <;> (try split at h) <;> cases h <;>
    first | exact .inl rfl | exact .inr rfl

/-! ## Broken readers -/

/-- A broken reader fails on what starts an operand or on what follows one. -/
theorem breaksOn?_eq {r : Reader} {f : Kind → Bool} (hr : r.breaksOn? = some f) :
    f = Kind.startsOperand ∨ f = Kind.followsOperand := by
  have htoken {t : Token} (h : t.breaksOn? = some f) :
      f = Kind.startsOperand ∨ f = Kind.followsOperand := by
    unfold Token.breaksOn? at h
    split at h
    next => exact .inl (Option.some.inj h).symm
    next =>
      split at h
      next => cases h
      next => exact .inr (Option.some.inj h).symm
  unfold breaksOn? at hr
  split at hr
  next => exact .inl (Option.some.inj hr).symm
  next => exact htoken hr
  next => exact htoken hr
  next => cases hr

/-- A reader that holds something broken fails before some kinds and is stuck before all others. -/
theorem look_broken {r : Reader} {f : Kind → Bool} (htidy : r.Tidy) (hr : r.breaksOn? = some f)
    (t : Token) : if f t.kind = true then ∃ e, r.look (.token t) = .failed e
      else r.look (.token t) = .stuck r := by
  obtain ⟨items, frames, phase, log⟩ := r
  cases phase with
  | logical place outer =>
    obtain rfl : Kind.startsOperand = f := Option.some.inj hr
    simp only [look]
    split
    next => exact ⟨_, rfl⟩
    next => rfl
  | holding place level outer x =>
    cases x with
    | built e => cases hr
    | loose s =>
      obtain ⟨rfl, e, he⟩ := Token.breaksOn?_leaf htidy hr
      simp only [look, afterOperand, Operand.build, he]
      split
      next => exact ⟨_, rfl⟩
      next => rfl
  | counting s =>
    have hkind : s.kind = .integer := htidy
    obtain ⟨rfl, e, he⟩ := Token.breaksOn?_leaf (by simp [hkind, leaves]) hr
    rw [Token.toExpr_integer hkind] at he
    simp only [look]
    cases hread : Numeral.readInteger s.text with
    | ok n => simp [hread, Except.map] at he
    | error e =>
      split
      next => exact ⟨_, rfl⟩
      next => rfl
  | ready | afterThen | nextName | named | target | keyword | wanting | compared | whole | lone
  | count | counted | inputName | inputNamed | opening | ending => cases hr

/-- A broken reader is stuck at the end. -/
theorem look_finish_broken {r : Reader} {f : Kind → Bool} (hr : r.breaksOn? = some f) :
    r.look .finish = .stuck r := by
  obtain ⟨items, frames, phase, log⟩ := r
  cases phase <;> first | rfl | cases hr

/-! ## What a report would list -/

/-- What a tidy reader that is not broken wants can be told. -/
theorem wanted_ok {r : Reader} (htidy : r.Tidy) (hr : r.breaksOn? = none)
    (ks : List (Option Kind)) :
    ∃ ls, r.wanted ks = .ok ls := by
  induction ks with
  | nil => exact ⟨[], rfl⟩
  | cons k ks ih =>
    obtain ⟨ls, hls⟩ := ih
    have hfailed (f : Failure) : r.look (.sample k) ≠ .failed f := by
      intro h
      cases k with
      | none =>
        rcases r.look_finish with ⟨-, p, log, hlook⟩ | ⟨-, r', hlook⟩ <;>
          simp [Look.sample, hlook] at h
      | some k =>
        have hsane := r.look_sane ⟨k, "", .start⟩ htidy hr
        rw [show r.look (.token ⟨k, "", .start⟩) = .failed f from h] at hsane
        exact hsane
    unfold wanted
    cases hlook : r.look (.sample k) with
    | moved r' => exact ⟨k :: ls, by simp [hls, bind, Except.bind, pure, Except.pure]⟩
    | accepted p log => exact ⟨k :: ls, by simp [hls, bind, Except.bind, pure, Except.pure]⟩
    | stuck r' => exact ⟨ls, hls⟩
    | failed f => exact absurd hlook (hfailed f)

/-- What a reader wants cannot be told if it fails at one of the kinds. -/
theorem wanted_error {r : Reader} {ks : List (Option Kind)} {k : Kind} {e : Failure}
    (hmem : some k ∈ ks) (hlook : r.look (.sample (some k)) = .failed e) :
    ∃ e', r.wanted ks = .error e' := by
  induction ks with
  | nil => cases hmem
  | cons l ks ih =>
    unfold wanted
    rcases List.mem_cons.mp hmem with rfl | hmem
    · exact ⟨e, by simp [hlook]⟩
    · obtain ⟨e', he'⟩ := ih hmem
      cases r.look (.sample l) with
      | moved r' => exact ⟨e', by simp [he', bind, Except.bind]⟩
      | accepted p log => exact ⟨e', by simp [he', bind, Except.bind]⟩
      | stuck r' => exact ⟨e', he'⟩
      | failed f => exact ⟨f, rfl⟩

/-- A tidy reader that is not broken rejects with a fault. -/
theorem reject_fault {r : Reader} (htidy : r.Tidy) (hr : r.breaksOn? = none) (look : Look)
    (spot : Spot) :
    ∃ ks, r.reject look spot = .fault (.unexpected look spot ks) := by
  obtain ⟨ks, hks⟩ := wanted_ok htidy hr Look.terminals
  exact ⟨ks, by simp [reject, hks]⟩

/-- A tidy reader that is broken gives up when it rejects. -/
theorem reject_aborted {r : Reader} {f : Kind → Bool} (htidy : r.Tidy) (hr : r.breaksOn? = some f)
    (look : Look) (spot : Spot) : ∃ e, r.reject look spot = .aborted e := by
  -- A report tries every kind, and one of them makes the reader fail.
  obtain ⟨k, hmem, hk⟩ : ∃ k, some k ∈ Look.terminals ∧ f k = true := by
    rcases breaksOn?_eq hr with rfl | rfl
    · exact ⟨.integer, by decide, rfl⟩
    · exact ⟨.semicolon, by decide, rfl⟩
  have hbroken := look_broken htidy hr ⟨k, "", .start⟩
  rw [if_pos hk] at hbroken
  obtain ⟨e, he⟩ := hbroken
  obtain ⟨e', he'⟩ := wanted_error hmem he
  exact ⟨e', by simp [reject, he']⟩

end Reader

/-! ## Whole texts -/

/-- Some tokens spell what is wanted, and all of them can be built. -/
def Readable (wants : List Kind → Prop) (stray : Option Stray) (ts : List Token) : Prop :=
  stray = none ∧ wants (ts.map Token.kind) ∧ ∀ t ∈ ts, t.breaksOn? = none

/-- No kind of the given ones comes next. At a character that starts no lexeme this cannot be said.
-/
def Unfollowed (breaks : Kind → Bool) (stray : Option Stray) : List Token → Prop
  | [] => stray = none
  | next :: _ => breaks next.kind = false

/-- The first token that cannot be built continues the text in a way that is wanted, and what comes
after it, the end of the text included, is no kind before which it would be built. -/
def Choking (wants : List Kind → Prop) (stray : Option Stray) (ts : List Token) : Prop :=
  ∃ before t after breaks, ts = before ++ t :: after ∧ (∀ b ∈ before, b.breaksOn? = none) ∧
    t.breaksOn? = some breaks ∧ (∃ w, wants (before.map Token.kind ++ t.kind :: w)) ∧
    Unfollowed breaks stray after

section Whole

variable {wants wants' : List Kind → Prop} {stray : Option Stray} {t : Token} {ts : List Token}

/-- After a token that can be built, the rest decides whether a text is readable. -/
theorem readable_cons (ht : t.breaksOn? = none) (hwants : ∀ w, wants (t.kind :: w) ↔ wants' w) :
    Readable wants stray (t :: ts) ↔ Readable wants' stray ts := by
  simp [Readable, ht, hwants]

/-- So with choking. -/
theorem choking_cons (ht : t.breaksOn? = none) (hwants : ∀ w, wants (t.kind :: w) ↔ wants' w) :
    Choking wants stray (t :: ts) ↔ Choking wants' stray ts := by
  constructor
  · rintro ⟨before, u, after, breaks, heq, hbefore, hu, ⟨w, hw⟩, hafter⟩
    cases before with
    | nil =>
      obtain ⟨rfl, -⟩ := List.cons.inj heq
      simp [ht] at hu
    | cons b before =>
      obtain ⟨rfl, rfl⟩ := List.cons.inj heq
      exact ⟨before, u, after, breaks, rfl, fun c hc => hbefore c (List.mem_cons_of_mem _ hc), hu,
        ⟨w, (hwants _).mp hw⟩, hafter⟩
  · rintro ⟨before, u, after, breaks, rfl, hbefore, hu, ⟨w, hw⟩, hafter⟩
    refine ⟨t :: before, u, after, breaks, rfl, ?_, hu, ⟨w, (hwants _).mpr hw⟩, hafter⟩
    exact List.forall_mem_cons.mpr ⟨ht, hbefore⟩

/-- A text is not readable if nothing that is wanted starts with its first token. -/
theorem not_readable_cons (hwants : ∀ w, ¬ wants (t.kind :: w)) :
    ¬ Readable wants stray (t :: ts) :=
  fun h => hwants _ h.2.1

theorem not_choking_cons (hwants : ∀ w, ¬ wants (t.kind :: w)) :
    ¬ Choking wants stray (t :: ts) := by
  rintro ⟨before, u, after, breaks, heq, -, -, ⟨w, hw⟩, -⟩
  cases before with
  | nil =>
    obtain ⟨rfl, -⟩ := List.cons.inj heq
    exact hwants w hw
  | cons b before =>
    obtain ⟨rfl, -⟩ := List.cons.inj heq
    exact hwants _ hw

/-- A broken token at the front decides by itself whether the text chokes. -/
theorem choking_broken {breaks : Kind → Bool} (ht : t.breaksOn? = some breaks)
    (hwants : ∃ w, wants (t.kind :: w)) :
    Choking wants stray (t :: ts) ↔ Unfollowed breaks stray ts := by
  constructor
  · rintro ⟨before, u, after, breaks', heq, hbefore, hu, -, hafter⟩
    cases before with
    | nil =>
      obtain ⟨rfl, rfl⟩ := List.cons.inj heq
      obtain rfl : breaks = breaks' := Option.some.inj (ht.symm.trans hu)
      exact hafter
    | cons b before =>
      obtain ⟨rfl, -⟩ := List.cons.inj heq
      simp [hbefore t List.mem_cons_self] at ht
  · exact fun hafter => ⟨[], t, ts, breaks, rfl, by simp, ht, hwants, hafter⟩

end Whole

namespace Reader

/-- The outcome of reading from a reader on, by what the reader still wants. -/
inductive Outcome (wants : List Kind → Prop) (stray : Option Stray) (ts : List Token) :
    Reading → Prop where
  | program {p log} (hread : Readable wants stray ts) (hchoke : ¬ Choking wants stray ts) :
      Outcome wants stray ts (.program p log)
  | fault {f} (hread : ¬ Readable wants stray ts) (hchoke : ¬ Choking wants stray ts) :
      Outcome wants stray ts (.fault f)
  | aborted {f} (hread : ¬ Readable wants stray ts) (hchoke : Choking wants stray ts) :
      Outcome wants stray ts (.aborted f)

theorem Outcome.congr {wants wants' : List Kind → Prop} {stray : Option Stray} {ts ts' : List Token}
    {reading : Reading} (h : Outcome wants' stray ts' reading)
    (hread : Readable wants stray ts ↔ Readable wants' stray ts')
    (hchoke : Choking wants stray ts ↔ Choking wants' stray ts') :
    Outcome wants stray ts reading := by
  cases h with
  | program hr hc => exact .program (hread.mpr hr) (mt hchoke.mp hc)
  | fault hr hc => exact .fault (mt hread.mp hr) (mt hchoke.mp hc)
  | aborted hr hc => exact .aborted (mt hread.mp hr) (hchoke.mpr hc)

/-- A broken reader gives up if no kind that it fails on comes next, and reports a fault
otherwise. -/
theorem run_broken {r : Reader} {breaks : Kind → Bool} (htidy : r.Tidy)
    (hr : r.breaksOn? = some breaks) (last : Spot) (stray : Option Stray) (ts : List Token) :
    (Unfollowed breaks stray ts ∧ ∃ e, r.run last stray ts = .aborted e) ∨
      (¬ Unfollowed breaks stray ts ∧ ∃ f, r.run last stray ts = .fault f) := by
  cases ts with
  | nil =>
    cases stray with
    | some s => exact .inr ⟨by simp [Unfollowed], _, rfl⟩
    | none =>
      obtain ⟨e, he⟩ := reject_aborted htidy hr .finish last
      exact .inl ⟨rfl, e, by simp [run, look_finish_broken hr, he]⟩
  | cons t ts =>
    have hbroken := look_broken htidy hr t
    split at hbroken
    next hbreaks =>
      obtain ⟨e, he⟩ := hbroken
      exact .inr ⟨by simp [Unfollowed, hbreaks], .failure e, by simp [run, he]⟩
    next hbreaks =>
      obtain ⟨e, he⟩ := reject_aborted htidy hr (.token t) t.spot
      exact .inl ⟨by simpa [Unfollowed] using hbreaks, e, by simp [run, hbroken, he]⟩

/-- A tidy reader that is not broken comes to the outcome that the grammar tells. -/
theorem run_outcome (r : Reader) (last : Spot) (stray : Option Stray) (ts : List Token)
    (htidy : r.Tidy) (hr : r.breaksOn? = none) :
    Outcome (Spells r.rest) stray ts (r.run last stray ts) := by
  -- What the reader wants changes with every token, so the reader is general in the induction. It
  -- never holds anything broken: at the first broken token `run_broken` settles the rest of the
  -- text.
  induction ts generalizing r last with
  | nil =>
    have hchoke : ¬ Choking (Spells r.rest) stray [] := by
      rintro ⟨before, t, after, breaks, heq, -⟩
      simp at heq
    unfold run
    cases stray with
    | some s => exact .fault (by simp [Readable]) hchoke
    | none =>
      rcases r.look_finish with ⟨hspells, p, log, hlook⟩ | ⟨hspells, r', hlook⟩
      · simp only [hlook]
        exact .program ⟨rfl, hspells, by simp⟩ hchoke
      · have hr' : r'.Tidy ∧ r'.breaksOn? = none := by
          rcases look_finish_stuck hlook with rfl | hcalm
          · exact ⟨htidy, hr⟩
          · exact ⟨calm_tidy hcalm, calm_breaksOn? hcalm⟩
        obtain ⟨ks, hks⟩ := reject_fault hr'.1 hr'.2 .finish last
        simp only [hlook, hks]
        exact .fault (fun h => hspells h.2.1) hchoke
  | cons t ts ih =>
    have hfits := r.look_fits t
    have hsane := r.look_sane t htidy hr
    unfold run
    cases hlook : r.look (.token t) with
    | moved r' =>
      rw [hlook] at hfits hsane
      obtain ⟨htidy', hr'⟩ := hsane
      cases ht : t.breaksOn? with
      | none =>
        exact (ih r' t.spot htidy' (hr'.trans ht)).congr (readable_cons ht hfits)
          (choking_cons ht hfits)
      | some breaks =>
        have hread : ¬ Readable (Spells r.rest) stray (t :: ts) := fun h => by
          simp [h.2.2 t List.mem_cons_self] at ht
        -- The token was taken, so some text goes on with it.
        have hwants : ∃ w, Spells r.rest (t.kind :: w) := by
          obtain ⟨w, hw⟩ := r'.exists_spells_rest
          exact ⟨w, (hfits w).mpr hw⟩
        rcases run_broken htidy' (hr'.trans ht) t.spot stray ts with ⟨hnext, e, he⟩ | ⟨hnext, f, hf⟩
        · simp only [he]
          exact .aborted hread ((choking_broken ht hwants).mpr hnext)
        · simp only [hf]
          exact .fault hread (mt (choking_broken ht hwants).mp hnext)
    | accepted p log =>
      rw [hlook] at hsane
      exact hsane.elim
    | stuck r' =>
      rw [hlook] at hfits hsane
      obtain ⟨ks, hks⟩ := reject_fault hsane.1 hsane.2 (.token t) t.spot
      simp only [hks]
      exact .fault (not_readable_cons hfits) (not_choking_cons hfits)
    | failed f =>
      rw [hlook] at hsane
      exact hsane.elim

end Reader

end Analizador
