import Mathlib.Data.Nat.Digits.Lemmas
import Analizador.Proofs.Analysis.Moments

/-! # Values at every moment of an analysis

All values that stay can be shown: the analysis leaves no integer of too many digits, and so it
always comes to a result. While it is calculated, an operation may hold a longer integer. Then it
has no value at the next moment. -/

namespace Analizador

/-! ## Calculations -/

namespace Folding

/-- Every value that the calculation holds can be shown, or the last one cannot and the calculation
fails. -/
def Calculation.Cautious (x : Calculation α) : Prop :=
  (∀ c ∈ x.run.trace, c.Shows) ∨
    ∃ held c f, x.run.trace = held ++ [c] ∧ (∀ c ∈ held, c.Shows) ∧ x.run.value = .error f

namespace Calculation.Cautious

variable {α β : Type}

theorem pure (a : α) : Cautious (pure a) := .inl (List.forall_mem_nil _)

theorem lift_bind {x : Except Failure α} {next : α → Calculation β}
    (h : ∀ a, x = .ok a → Cautious (next a)) : Cautious (liftM x >>= next) := by
  cases x with
  | error f => exact .inl (List.forall_mem_nil _)
  | ok a => exact h a rfl

theorem hold_bind {c : Constant} {next : Unit → Calculation β} (hc : c.Shows)
    (h : Cautious (next ())) : Cautious (hold c >>= next) := by
  rcases h with hshows | ⟨held, last, f, htrace, hshows, hvalue⟩
  · exact .inl (List.forall_mem_cons.mpr ⟨hc, hshows⟩)
  · exact .inr ⟨c :: held, last, f, congrArg (c :: ·) htrace, List.forall_mem_cons.mpr ⟨hc, hshows⟩,
      hvalue⟩

/-- A value may be held that cannot be shown, if what comes next fails then. -/
theorem hold_lift_bind {c : Constant} {x : Except Failure α} {next : α → Calculation β}
    (h : ∀ a, x = .ok a → c.Shows ∧ Cautious (next a)) :
    Cautious (hold c >>= fun _ => liftM x >>= next) := by
  cases x with
  | error f => exact .inr ⟨[], c, f, rfl, List.forall_mem_nil _, rfl⟩
  | ok a => exact hold_bind (h a rfl).1 (h a rfl).2

/-- A result is held before its line is made. -/
theorem result {op : Operator} {a b c : Constant} {next : String → Calculation β}
    (h : c.Shows → ∀ line, Cautious (next line)) :
    Cautious (hold c >>= fun _ => liftM (resultLine op a b c) >>= next) :=
  hold_lift_bind fun line hline => ⟨shows_of_resultLine hline, h (shows_of_resultLine hline) line⟩

end Calculation.Cautious

variable {a b : Constant}

theorem shows_of_quotient {q : Constant} (h : Constant.quotient a b = .ok q) : q.Shows := by
  obtain ⟨d, rfl⟩ : ∃ d, q = .decimal d := by
    unfold Constant.quotient at h
    split at h
    next =>
      split at h
      next => cases h
      next => exact ⟨_, (Except.ok.inj h).symm⟩
    next =>
      obtain ⟨_, -, h⟩ := exists_ok_of_bind h
      obtain ⟨_, -, h⟩ := exists_ok_of_bind h
      exact ⟨_, (Except.ok.inj h).symm⟩
    next => cases h
  exact ⟨_, rfl⟩

open Calculation in
/-- Operations on values that can be shown hold no other value for long. -/
theorem cautious_calculation (ha : a.Shows) (hb : b.Shows) (op : Operator) (whole : Bool) :
    Cautious (calculation op whole a b) := by
  cases op with
  | add | mul => exact .lift_bind fun c _ => .result fun _ _ => .pure _
  | sub =>
    refine .lift_bind fun c _ => .result fun hc line => ?_
    split
    next => exact .pure _
    next => exact .lift_bind fun _ _ => .hold_bind hc (.pure _)
  | div =>
    dsimp only [calculation]
    split
    next => exact .pure _
    next =>
      refine .lift_bind fun q hq => .hold_bind (shows_of_quotient hq) ?_
      split
      next => exact .lift_bind fun c _ => .result fun _ _ => .pure _
      next => exact .result fun _ _ => .pure _
  | eq | ne | gt | lt | ge | le | both | either =>
    refine .lift_bind fun c hc => .hold_bind (shows_of_apply (by decide) ha hb hc) (.pure _)

end Folding

/-! ## Digits -/

/-- If the constant is an integer, it has no more digits than can be shown. -/
def Constant.Bounded (c : Constant) : Prop :=
  ∀ n, c = .integer n → (Nat.digits 10 n.natAbs).length ≤ Numeral.digitLimit

/-- The value, if there is one, has no more digits than can be shown. -/
def Mark.Bounded (k : Mark) : Prop := ∀ c ∈ k.value, c.Bounded

/-- What is put down has no more digits than can be shown. -/
def Moment.Bounded : Moment → Prop
  | mark site => site.mark.Bounded
  | trial _ c => c.Bounded
  | table t => ∀ symbol ∈ t.entries, symbol.mark.Bounded

theorem Constant.bounded_integer_iff (n : Int) :
    (integer n).Bounded ↔ n.natAbs < Nat.pow 10 Numeral.digitLimit := by
  -- The limit is a large number that must not be unfolded.
  unfold Bounded
  generalize Numeral.digitLimit = limit
  rw [Nat.pow_eq, ← Nat.digits_length_le_iff (by decide)]
  simp

theorem Constant.bounded_of_shows {c : Constant} (h : c.Shows) : c.Bounded := by
  cases c with
  | integer n =>
    obtain ⟨text, htext⟩ := h
    rw [render, integerText] at htext
    split at htext
    next => cases htext
    next hshort => exact (bounded_integer_iff n).mpr (Nat.not_le.mp hshort)
  | decimal | text | truth => rintro n ⟨⟩

instance : DecidablePred Constant.Bounded
  | .integer n => decidable_of_iff _ (Constant.bounded_integer_iff n).symm
  | .decimal _ | .text _ | .truth _ => isTrue nofun

instance : DecidablePred Mark.Bounded := fun k =>
  inferInstanceAs (Decidable (∀ c ∈ k.value, c.Bounded))

instance : DecidablePred Moment.Bounded
  | .mark site => inferInstanceAs (Decidable site.mark.Bounded)
  | .trial _ c => inferInstanceAs (Decidable c.Bounded)
  | .table t => inferInstanceAs (Decidable (∀ symbol ∈ t.entries, symbol.mark.Bounded))

theorem Mark.bounded_of_shows {k : Mark} (h : ShowsValue k.value) : k.Bounded :=
  fun c hc => Constant.bounded_of_shows (h c hc)

theorem showsValue_none : ShowsValue none := by
  simp [ShowsValue]

theorem Site.Initial.shows {site : Site} (h : site.Initial) : ShowsValue site.mark.value := by
  cases h with
  | unvalued => exact showsValue_none
  | number hshows => simpa [ShowsValue] using hshows
  | @text s =>
    rintro _ ⟨⟩
    exact ⟨s, rfl⟩

/-- In some moments everything is bounded except what an operation holds while it is calculated, and
then the operation has no value at the next moment. -/
def Moment.Recovers (ms : List Moment) : Prop :=
  ∀ before m after, ms = before ++ m :: after → m.Bounded ∨
    ∃ op c ty rest, m = .trial op c ∧ after = .mark ⟨.operation op, ⟨ty, none⟩⟩ :: rest

namespace Moment.Recovers

variable {ms ms' : List Moment}

theorem nil : Recovers [] := by
  intro before m after h
  simp at h

theorem of_bounded (h : ∀ m ∈ ms, m.Bounded) : Recovers ms := by
  rintro before m after rfl
  exact .inl (h m (by simp))

theorem append (h : Recovers ms) (h' : Recovers ms') : Recovers (ms ++ ms') := by
  intro before m after heq
  rcases List.append_eq_append_iff.mp heq with ⟨more, rfl, hms'⟩ | ⟨more, rfl, hafter⟩
  · exact h' more m after hms'
  · cases more with
    | nil => exact h' [] m after (by simpa using hafter.symm)
    | cons m' more =>
      obtain ⟨rfl, rfl⟩ : m = m' ∧ after = more ++ ms' := by simpa using hafter
      -- What follows the moment follows it in the longer list, too.
      rcases h before m more rfl with hbounded | ⟨op, c, ty, rest, rfl, rfl⟩
      · exact .inl hbounded
      · exact .inr ⟨op, c, ty, rest ++ ms', rfl, rfl⟩

/-- The moments of a calculation on values that can be shown. -/
theorem calculation {a b : Constant} (ha : a.Shows) (hb : b.Shows) (op : Operator) (whole : Bool)
    (ty : Option Ty) :
    Recovers ((Folding.trials op whole a b).map (.trial op) ++
      [.mark ⟨.operation op, ⟨ty, (Folding.ofOperation op whole a b).value.getD none⟩⟩]) := by
  have hbounded {held : List Constant} (hheld : ∀ c ∈ held, c.Shows) :
      ∀ m ∈ held.map (Moment.trial op), m.Bounded := by
    intro m hm
    obtain ⟨c, hc, rfl⟩ := List.mem_map.mp hm
    exact Constant.bounded_of_shows (hheld c hc)
  rcases Folding.cautious_calculation ha hb op whole with hshows | ⟨held, c, f, htrace,
    hheld, hfails⟩
  · refine append (of_bounded (hbounded hshows)) (of_bounded (List.forall_mem_singleton.mpr ?_))
    exact Mark.bounded_of_shows (Folding.shows_ofOperation ha hb showsValue_none op whole)
  · have htrials : Folding.trials op whole a b = held ++ [c] := htrace
    have hattempt : Folding.attempt op whole a b = .error f := hfails
    rw [htrials, Folding.ofOperation, hattempt, List.map_append, List.append_assoc]
    refine append (of_bounded (hbounded hheld)) ?_
    intro before m after heq
    rcases before with - | ⟨m₁, - | ⟨m₂, before⟩⟩
    · obtain ⟨rfl, rfl⟩ := List.cons.inj heq
      exact .inr ⟨op, c, ty, [], rfl, rfl⟩
    · obtain ⟨-, heq⟩ := List.cons.inj heq
      obtain ⟨rfl, -⟩ := List.cons.inj heq
      exact .inl (by simp [Moment.Bounded, Mark.Bounded])
    · simp at heq

end Moment.Recovers

theorem Program.sound_shows {p : Program} (hp : ∀ site ∈ p.sites, site.Initial) :
    (p.account (fun k => ShowsValue k.value) Moment.Recovers).Sound where
  lasting := ⟨fun _ => showsValue_none, fun _ _ _ _ h => h⟩
  first := fun site hsite => (hp site hsite).shows
  nil := .nil
  append := .append
  mark := fun _ h => .of_bounded (List.forall_mem_singleton.mpr (Mark.bounded_of_shows h))
  table := fun _ h => .of_bounded (List.forall_mem_singleton.mpr fun symbol hsymbol =>
    Mark.bounded_of_shows (h symbol hsymbol))
  calculation := fun op _ _ a b ty whole hleft hright ha hb =>
    .calculation (hleft a ha) (hright b hb) op whole ty
  operation := fun op _ _ _ _ hleft hright =>
    Expr.shows_operationMark hleft hright showsValue_none op

namespace Session

/-- The analysis of a program that was read comes to a result. At first and in the end no integer
has more digits than can be shown, and neither has any on the way except one that an operation holds
while it is calculated. The operation has no value at the moment after that. -/
theorem analyse_digits_bounded (s : Session) (code : String) (p : Program)
    (hread : (s.parse [] code).2.program = some p) :
    ∃ result q, (s.parse [] code).2.analyse.1 = .ok result ∧
      (s.parse [] code).2.analyse.2.2.program = some q ∧
      (∀ site ∈ p.sites, site.mark.Bounded) ∧
      (∀ before m after, p.moments = before ++ m :: after → m.Bounded ∨
        ∃ op c ty rest, m = .trial op c ∧ after = .mark ⟨.operation op, ⟨ty, none⟩⟩ :: rest) ∧
      (∀ site ∈ q.sites, site.mark.Bounded ∧ (site ∈ p.sites ∨ .mark site ∈ p.moments)) ∧
      let table := (s.parse [] code).2.analyse.2.2.table
      (∀ symbol ∈ table.entries, symbol.mark.Bounded) ∧
        (table = .empty ∨ .table table ∈ p.moments) := by
  obtain ⟨log, hreading⟩ := reading_of_parse hread
  obtain ⟨hresult, hprogram, -⟩ := analyse_of_parse hread
  have hinitial := Reading.initial_sites hreading
  obtain ⟨hmoments, hsites, htable⟩ := Reading.keeps_account hreading (p.sound_shows hinitial)
  refine ⟨_, _, hresult, hprogram, ?_, hmoments, ?_, ?_⟩
  · exact fun site hsite => Mark.bounded_of_shows (hinitial site hsite).shows
  · exact fun site hsite => ⟨Mark.bounded_of_shows (hsites site hsite).settled,
      (hsites site hsite).told⟩
  · rw [table_of_parse hread]
    exact ⟨fun symbol hsymbol => Mark.bounded_of_shows (htable.symbols symbol hsymbol), htable.told⟩

/-- Squares of a variable in a loop, and a quotient that has no value. -/
theorem analyse_digits_bounded_squares :
    let code :=
  "ent x ; x = 99999 * 99999 ; mientras ( x > 0 ) \x7b x = x * x ; \x7d sout ( x / 0 ) ;"
    ∃ p result q, (empty.parse [] code).2.program = some p ∧
      (empty.parse [] code).2.analyse.1 = .ok result ∧
      (empty.parse [] code).2.analyse.2.2.program = some q ∧
      (∀ site ∈ p.sites, site.mark.Bounded) ∧
      (∀ before m after, p.moments = before ++ m :: after → m.Bounded ∨
        ∃ op c ty rest, m = .trial op c ∧ after = .mark ⟨.operation op, ⟨ty, none⟩⟩ :: rest) ∧
      (∀ site ∈ q.sites, site.mark.Bounded ∧ (site ∈ p.sites ∨ .mark site ∈ p.moments)) ∧
      let table := (empty.parse [] code).2.analyse.2.2.table
      (∀ symbol ∈ table.entries, symbol.mark.Bounded) ∧
        (table = .empty ∨ .table table ∈ p.moments) := by
  let x (column : Nat) : Name := ⟨"x", ⟨1, column⟩, .blank⟩
  let number (n : Nat) (column : Nat) : Expr := .number (.whole n) ⟨1, column⟩
  let p : Program := ⟨[.declaration .ent none [x 5],
    .statement (.assign (x 9) (.operation .mul (number 99999 13) (number 99999 21)) none),
    .statement (.whileLoop (.operation .gt (.use (x 40)) (number 0 44))
      [.assign (x 50) (.operation .mul (.use (x 54)) (.use (x 58))) none]),
    .statement (.print (.operation .div (.use (x 71)) (number 0 75)))]⟩
  have hread :
      (empty.parse []
        "ent x ; x = 99999 * 99999 ; mientras ( x > 0 ) \x7b x = x * x ; \x7d sout ( x / 0 ) ;"
        ).2.program = some p := rfl
  obtain ⟨result, q, hanalysed⟩ := analyse_digits_bounded empty _ p hread
  exact ⟨p, result, q, hread, hanalysed⟩

/-- Squares of squares: the last one is held for a moment, although it is too long to be shown. -/
theorem analyse_long_square :
    let code := "ent x; x = 999999999*999999999; " ++
      "x=x*x; x=x*x; x=x*x; x=x*x; x=x*x; x=x*x; x=x*x; x=x*x;"
    ∃ p m, (empty.parse [] code).2.program = some p ∧ m ∈ p.moments ∧ ¬ m.Bounded := by
  intro code
  have hlong : ((empty.parse [] code).2.program.any fun p =>
      p.moments.any fun m => !decide m.Bounded) = true := by
    decide +kernel
  cases hread : (empty.parse [] code).2.program with
  | none =>
    rw [hread] at hlong
    cases hlong
  | some p =>
    rw [hread] at hlong
    obtain ⟨m, hm, hbounded⟩ := List.any_eq_true.mp hlong
    exact ⟨p, m, rfl, hm, by simpa using hbounded⟩

end Session

end Analizador
