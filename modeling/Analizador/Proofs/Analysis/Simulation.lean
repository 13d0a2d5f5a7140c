import Analizador.Proofs.Analysis.Walk
import Analizador.Proofs.Program

/-! # The analysis follows the walk

If every value in a program can be shown, the analysis does not stop, and its outcome is that of the
walk: the log tells what is done and changes nothing. -/

namespace Analizador

/-! ## Values that are calculated -/

theorem exists_ok_of_bind {α β : Type} {x : Except Failure α} {f : α → Except Failure β} {b : β}
    (h : x >>= f = .ok b) : ∃ a, x = .ok a ∧ f a = .ok b := by
  cases x with
  | error e => cases h
  | ok a => exact ⟨a, rfl, h⟩

namespace Folding

theorem outcome_bind {α β : Type} (c : Calculation α) (next : α → Calculation β) :
    (c >>= next).run.value = c.run.value >>= fun a => (next a).run.value := by
  change (ExceptT.bindCont next c.run.value).value = _
  cases c.run.value <;> rfl

/-- What a calculation comes to, the values on the way left out. -/
theorem attempt_eq (op : Operator) (whole : Bool) (a b : Constant) :
    attempt op whole a b =
      match op with
      | .add | .mul => do
        let result ← Constant.apply op a b
        return ⟨some (some result), [← resultLine op a b result]⟩
      | .sub => do
        let result ← Constant.apply op a b
        let line ← resultLine op a b result
        if result.equal result then return ⟨some (some result), [line]⟩
        else return ⟨some (some result), [line, ← doubtLine result]⟩
      | .div =>
        if b.isZero then return ⟨none, []⟩
        else do
          let quotient ← Constant.quotient a b
          let result ← if whole then quotient.settled else pure quotient
          return ⟨some (some result), [← resultLine op a b result]⟩
      | op => do
        let result ← Constant.apply op a b
        return ⟨some (some result), []⟩ := by
  have hlift {α : Type} (x : Except Failure α) : (liftM x : Calculation α).run.value = x := rfl
  have hhold (c : Constant) : (hold c).run.value = .ok () := rfl
  have hite {α : Type} (p : Prop) [Decidable p] (c d : Calculation α) :
      (if p then c else d).run.value = if p then c.run.value else d.run.value :=
        apply_ite (·.run.value) p c d
  cases op with
  | add | mul | eq | ne | gt | lt | ge | le | both | either =>
    simp only [attempt, calculation, outcome_bind, hlift, hhold]
    rfl
  | sub =>
    simp only [attempt, calculation, outcome_bind, hlift, hhold, hite]
    rfl
  | div =>
    simp only [attempt, calculation, outcome_bind, hlift, hhold, hite]
    rfl

/-- A result whose line is logged can be shown. -/
theorem shows_of_resultLine {op : Operator} {a b result : Constant} {line : String}
    (h : resultLine op a b result = .ok line) : result.Shows := by
  obtain ⟨_, -, h⟩ := exists_ok_of_bind h
  obtain ⟨_, -, h⟩ := exists_ok_of_bind h
  obtain ⟨text, htext, -⟩ := exists_ok_of_bind h
  exact ⟨text, htext⟩

theorem shows_truth (b : Bool) : (Constant.truth b).Shows := ⟨_, rfl⟩

/-- Signs that are not arithmetic give constants that can be shown, of operands that can be. -/
theorem shows_of_apply {op : Operator} {a b result : Constant} (hop : op.family ≠ .arithmetic)
    (ha : a.Shows) (hb : b.Shows) (h : Constant.apply op a b = .ok result) : result.Shows := by
  cases op with
  | add | sub | mul | div => exact absurd rfl hop
  | eq | ne =>
    obtain rfl := Except.ok.inj h
    exact shows_truth _
  | gt | lt | ge | le =>
    obtain ⟨holds, -, heq⟩ := exists_ok_of_bind h
    obtain rfl := Except.ok.inj heq
    exact shows_truth _
  | both | either =>
    obtain rfl := Except.ok.inj h
    split <;> assumption

/-- What a value that is kept comes of: it is the result of the operation or, for a quotient,
perhaps the integer that it is equal to. -/
def Origin (op : Operator) (a b c : Constant) : Prop :=
  op ≠ .div ∧ Constant.apply op a b = .ok c ∨
    op = .div ∧ ∃ q, Constant.quotient a b = .ok q ∧ (c = q ∨ q.settled = .ok c)

/-- Where the line of a result can be written, the result is kept and can be shown. -/
theorem kept {op : Operator} {a b result c : Constant} {f : Folding}
    (h : (do return ⟨some (some result), [← resultLine op a b result]⟩) = Except.ok f)
    (hc : f.value = some (some c)) : result = c ∧ c.Shows := by
  obtain ⟨line, hline, h⟩ := exists_ok_of_bind h
  obtain rfl := Except.ok.inj h
  obtain rfl : result = c := by simpa using hc
  exact ⟨rfl, shows_of_resultLine hline⟩

/-- A value is kept only with its origin, and the result of arithmetic only after it has been shown.
-/
theorem origin_of_attempt {op : Operator} {whole : Bool} {a b c : Constant} {f : Folding}
    (h : attempt op whole a b = .ok f) (hc : f.value = some (some c)) :
    Origin op a b c ∧ (op.family = .arithmetic → c.Shows) := by
  rw [attempt_eq] at h
  cases op with
  | add | mul =>
    obtain ⟨result, hresult, h⟩ := exists_ok_of_bind h
    obtain ⟨rfl, hshows⟩ := kept h hc
    exact ⟨.inl ⟨by decide, hresult⟩, fun _ => hshows⟩
  | sub =>
    obtain ⟨result, hresult, h⟩ := exists_ok_of_bind h
    obtain ⟨line, hline, h⟩ := exists_ok_of_bind h
    -- A result that is not equal to itself gets one line more, and is kept all the same.
    have hvalue : f.value = some (some result) := by
      split at h
      next =>
        obtain rfl := Except.ok.inj h
        rfl
      next =>
        obtain ⟨_, -, h⟩ := exists_ok_of_bind h
        obtain rfl := Except.ok.inj h
        rfl
    obtain rfl : result = c := by simpa [hvalue] using hc
    exact ⟨.inl ⟨by decide, hresult⟩, fun _ => shows_of_resultLine hline⟩
  | div =>
    dsimp only at h
    split at h
    next =>
      obtain rfl := Except.ok.inj h
      cases hc
    next =>
      obtain ⟨quotient, hquotient, h⟩ := exists_ok_of_bind h
      split at h
      next =>
        obtain ⟨result, hresult, h⟩ := exists_ok_of_bind h
        obtain ⟨rfl, hshows⟩ := kept h hc
        exact ⟨.inr ⟨rfl, quotient, hquotient, .inr hresult⟩, fun _ => hshows⟩
      next =>
        obtain ⟨rfl, hshows⟩ := kept h hc
        exact ⟨.inr ⟨rfl, quotient, hquotient, .inl rfl⟩, fun _ => hshows⟩
  | eq | ne | gt | lt | ge | le | both | either =>
    obtain ⟨result, hresult, h⟩ := exists_ok_of_bind h
    obtain rfl := Except.ok.inj h
    obtain rfl : result = c := by simpa using hc
    exact ⟨.inl ⟨by decide, hresult⟩, by rintro ⟨⟩⟩

/-- What an attempt keeps as a value can be shown. -/
theorem shows_of_attempt {op : Operator} {whole : Bool} {a b c : Constant} {f : Folding}
    (ha : a.Shows) (hb : b.Shows) (h : attempt op whole a b = .ok f)
    (hc : f.value = some (some c)) : c.Shows := by
  obtain ⟨horigin, hshows⟩ := origin_of_attempt h hc
  by_cases hop : op.family = .arithmetic
  · exact hshows hop
  · rcases horigin with ⟨-, hresult⟩ | ⟨rfl, -⟩
    · exact shows_of_apply hop ha hb hresult
    · exact absurd rfl hop

/-- Operations on constants that can be shown leave values that can be shown. -/
theorem shows_ofOperation {a b : Constant} {old : Option Constant} (ha : a.Shows) (hb : b.Shows)
    (hold : ShowsValue old) (op : Operator) (whole : Bool) :
    ShowsValue ((ofOperation op whole a b).value.getD old) := by
  intro c hc
  unfold ofOperation at hc
  split at hc
  next f hf =>
    cases hvalue : f.value with
    | none => exact hold c (by simpa [hvalue] using hc)
    | some value =>
      obtain rfl : value = some c := by simpa [hvalue] using hc
      exact shows_of_attempt ha hb hf hvalue
  next => cases hc

end Folding

namespace Expr

variable {t : Table String Symbol}

/-- An expression whose parts can be shown has a value that can be. -/
theorem shows_value {e : Expr} (h : e.Shows) : ShowsValue e.value := by
  cases e with
  | number n spot =>
    rintro _ ⟨⟩
    exact h
  | text s spot =>
    rintro _ ⟨⟩
    exact ⟨s, rfl⟩
  | use name => exact h
  | binary op left right mark => exact h.2.2

/-- The mark of an operation holds a value that can be shown, if the operands and the old mark
do. -/
theorem shows_operationMark {left right : Expr} {mark : Mark} (hleft : ShowsValue left.value)
    (hright : ShowsValue right.value) (hmark : ShowsValue mark.value) (op : Operator) :
    ShowsValue (operationMark op left right mark).value := by
  unfold operationMark
  split
  next a b ha hb => exact Folding.shows_ofOperation (hleft a ha) (hright b hb) hmark op _
  next => exact hmark

/-- The marks that an expression gets can be shown. -/
theorem shows_marked (ht : t.Shows) {e : Expr} (h : e.Shows) : (e.marked t).Shows := by
  induction e with
  | number | text => exact h
  | use name =>
    unfold marked
    split
    next => exact h
    next symbol hlookup => exact ht symbol (Table.mem_of_lookup hlookup)
  | binary op left right mark ihleft ihright =>
    have hleft := ihleft h.1
    have hright := ihright h.2.1
    exact ⟨hleft, hright, shows_operationMark (shows_value hleft) (shows_value hright) h.2.2 op⟩

end Expr

/-! ## Tables -/

/-- Storing a value that can be shown keeps a table all of whose values can be. -/
theorem Table.shows_assign {t : Table String Symbol} (ht : t.Shows) {value : Option Constant}
    (hvalue : ShowsValue value) (name : String) : (t.assign name value).Shows := by
  let P (s : Symbol) : Prop := ShowsValue s.value
  have hgiven (s : Symbol) (_ : P s) : P { s with value } := hvalue
  exact forall_modifyIndexed hgiven (forall_modifyLocated hgiven ht name) name

theorem Table.shows_enter {t : Table String Symbol} (ht : t.Shows) : t.enter.Shows := ht

theorem Table.shows_exit {t : Table String Symbol} (ht : t.Shows) : t.exit.Shows := by
  rwa [Shows, entries_exit]

/-- An assignment leaves a table all of whose values can be shown. -/
theorem Name.shows_assigned {t : Table String Symbol} (ht : t.Shows) {value : Expr}
    (hvalue : value.Shows) (target : Name) (old : Option Ty) :
    (target.assigned t value old).table.Shows := by
  unfold Name.assigned
  cases t.lookup target.text with
  | none => exact ht
  | some symbol =>
    dsimp only
    split
    next => exact ht
    next =>
      split
      next => exact Table.shows_assign ht (Expr.shows_value hvalue) _
      next => exact ht

mutual

/-- After a statement the table still holds only values that can be shown. -/
theorem Stmt.shows_walk {t : Table String Symbol} (ht : t.Shows) :
    ∀ s : Stmt, s.Every Expr.Shows → (s.walk t).table.Shows
  | .assign target value ty, hs => Name.shows_assigned ht (Expr.shows_marked ht hs) target ty
  | .conditional condition body other, hs => by
    unfold Stmt.walk
    dsimp only
    split
    next => exact ht
    next =>
      have hbody := shows_walkAll (Table.shows_enter ht) body hs.2.1
      exact shows_walkOther (Table.shows_exit hbody) other hs.2.2
  | .whileLoop condition body, hs => by
    unfold Stmt.walk
    dsimp only
    split
    next => exact ht
    next => exact Table.shows_exit (shows_walkAll (Table.shows_enter ht) body hs.2)
  | .repeatLoop count spot body,
      hs => Table.shows_exit (shows_walkAll (Table.shows_enter ht) body hs.2)
  | .print value, _ => ht
  | .input target, _ => by
    unfold Stmt.walk
    split <;> exact ht
  | .block body, hs => shows_walkAll ht body hs

theorem Stmt.shows_walkOther {t : Table String Symbol} (ht : t.Shows) :
    ∀ other : Option (List Stmt), EveryOther Expr.Shows other → (walkOther t other).table.Shows
  | none, _ => ht
  | some body, hs => Table.shows_exit (shows_walkAll (Table.shows_enter ht) body hs)

/-- So does a whole body. -/
theorem Stmt.shows_walkAll {t : Table String Symbol} (ht : t.Shows) :
    ∀ body : List Stmt, EveryAll Expr.Shows body → (walkAll t body).table.Shows
  | [], _ => ht
  | s :: rest, hs => shows_walkAll (shows_walk ht s hs.1) rest hs.2

end

/-- Declared variables have no value yet, so nothing is added that could not be shown. -/
theorem Name.shows_declareAll {t : Table String Symbol} (ht : t.Shows) (declared : List String)
    (ty : Ty) (names : List Name) : (declareAll t declared ty names).table.Shows := by
  induction names generalizing t declared with
  | nil => exact ht
  | cons n rest ih =>
    refine ih ?_ _
    unfold declare
    split
    next => exact ht
    next =>
      cases hinsert : t.insert? n.text ⟨n.text, ty, none, n.spot⟩ with
      | none => exact ht
      | some t' =>
        have hnone : ShowsValue none := fun _ hc => by cases hc
        exact Table.forall_insert? (P := fun s : Symbol => ShowsValue s.value) ht hnone hinsert

theorem Item.shows_walk {t : Table String Symbol} (ht : t.Shows) {i : Item}
    (hi : i.Every Expr.Shows) (declared : List String) : (i.walk t declared).table.Shows := by
  cases i with
  | declaration ty listType names => exact Name.shows_declareAll ht declared ty names
  | statement s => exact Stmt.shows_walk ht s hi

/-- All items of a program, one after the other, leave a table all of whose values can be shown. -/
theorem Item.shows_walkAll {t : Table String Symbol} (ht : t.Shows) {is : List Item}
    (his : ∀ i ∈ is, i.Every Expr.Shows) (declared : List String) :
    (walkAll t declared is).table.Shows := by
  induction is generalizing t declared with
  | nil => exact ht
  | cons i rest ih =>
    exact ih (shows_walk ht (his i List.mem_cons_self) declared)
      (fun j hj => his j (List.mem_cons_of_mem i hj)) _

/-! ## Steps of the analysis -/

namespace Analysis

variable {α β : Type} {t t' : Table String Symbol} {declared declared' : List String}

/-- From every state with the given table and declared names, a step ends with the given outcome.
What it logs is left open. -/
def Gives (step : Analysis α) (t : Table String Symbol) (declared : List String) (w : Enrolled α) :
    Prop :=
  ∀ s : Findings, s.table = t → s.declared = declared →
    ∃ log, step.run s = (.ok w.part, ⟨w.table, s.faults ++ w.faults, w.declared, s.log ++ log⟩)

/-- An answer alone changes nothing. -/
theorem gives_pure (a : α) : Gives (pure a) t declared ⟨⟨a, t, []⟩, declared⟩ := by
  rintro s rfl rfl
  exact ⟨[], by simp; rfl⟩

theorem gives_say (message : String) : Gives (say message) t declared ⟨⟨(), t, []⟩, declared⟩ := by
  rintro s rfl rfl
  exact ⟨[message], by simp; rfl⟩

/-- A report adds its fault and nothing else. -/
theorem gives_report (f : Fault) : Gives (report f) t declared ⟨⟨(), t, [f]⟩, declared⟩ := by
  rintro s rfl rfl
  exact ⟨[], by simp; rfl⟩

/-- A step that can fail and does not. -/
theorem gives_lift {x : Except Failure α} {a : α} (h : x = .ok a) :
    Gives (liftM x) t declared ⟨⟨a, t, []⟩, declared⟩ := by
  subst h
  exact gives_pure a

theorem gives_note (m : Moment) : Gives (note m) t declared ⟨⟨(), t, []⟩, declared⟩ := by
  rintro s rfl rfl
  exact ⟨[], by simp; rfl⟩

/-- The table is changed as told. -/
theorem gives_turn (f : Table String Symbol → Table String Symbol) :
    Gives (turn f) t declared ⟨⟨(), f t, []⟩, declared⟩ := by
  rintro s rfl rfl
  exact ⟨[], by simp; rfl⟩

theorem gives_markName (n : Name) (mark : Mark) :
    Gives (markName n mark) t declared ⟨⟨{ n with mark }, t, []⟩, declared⟩ := by
  rintro s rfl rfl
  exact ⟨[], by simp; rfl⟩

theorem gives_markOperation (op : Operator) (mark : Mark) :
    Gives (markOperation op mark) t declared ⟨⟨mark, t, []⟩, declared⟩ := by
  rintro s rfl rfl
  exact ⟨[], by simp; rfl⟩

/-- A step that ends hands its answer and its findings on. -/
theorem run_bind {step : Analysis α} {next : α → Analysis β} {s s' : Findings} {a : α}
    (h : step.run s = (.ok a, s')) : (step >>= next).run s = (next a).run s' := by
  have hbind : (step >>= next).run s =
      (ExceptT.bindCont next (step.run s).1 (step.run s).2).value := rfl
  rw [hbind, h]
  rfl

/-- One step after the other; the faults add up. -/
theorem Gives.bind {step : Analysis α} {next : α → Analysis β} {a : α} {b : β} {fs fs' : List Fault}
    {t'' : Table String Symbol} {declared'' : List String}
    (hstep : Gives step t declared ⟨⟨a, t', fs⟩, declared'⟩)
    (hnext : Gives (next a) t' declared' ⟨⟨b, t'', fs'⟩, declared''⟩) :
    Gives (step >>= next) t declared ⟨⟨b, t'', fs ++ fs'⟩, declared''⟩ := by
  intro s ht hdeclared
  obtain ⟨log, hlog⟩ := hstep s ht hdeclared
  obtain ⟨log', hlog'⟩ := hnext ⟨t', s.faults ++ fs, declared', s.log ++ log⟩ rfl rfl
  refine ⟨log ++ log', ?_⟩
  rw [run_bind hlog, hlog']
  simp

/-- A step that reports, and then one that does not. -/
theorem Gives.bind_quiet {step : Analysis α} {next : α → Analysis β} {a : α} {b : β}
    {fs : List Fault} {t'' : Table String Symbol} {declared'' : List String}
    (hstep : Gives step t declared ⟨⟨a, t', fs⟩, declared'⟩)
    (hnext : Gives (next a) t' declared' ⟨⟨b, t'', []⟩, declared''⟩) :
    Gives (step >>= next) t declared ⟨⟨b, t'', fs⟩, declared''⟩ := by
  rw [← List.append_nil fs]
  exact hstep.bind hnext

/-- What is made of an answer afterwards changes nothing else. -/
theorem Gives.map {step : Analysis α} {a : α} {fs : List Fault}
    (hstep : Gives step t declared ⟨⟨a, t', fs⟩, declared'⟩) (f : α → β) :
    Gives (do return f (← step)) t declared ⟨⟨f a, t', fs⟩, declared'⟩ :=
  hstep.bind_quiet (gives_pure (f a))

section Sequences

variable {w : Enrolled β}

/-- A step that does not report, and then any step. -/
theorem Gives.quiet_bind {step : Analysis α} {next : α → Analysis β} {a : α}
    (hstep : Gives step t declared ⟨⟨a, t', []⟩, declared'⟩)
    (hnext : Gives (next a) t' declared' w) :
    Gives (step >>= next) t declared w :=
  hstep.bind hnext

/-- A logged line is of no account. -/
theorem Gives.say_bind {next : Unit → Analysis β} (message : String)
    (hnext : Gives (next ()) t declared w) :
    Gives (say message >>= next) t declared w :=
  (gives_say message).quiet_bind hnext

theorem Gives.lift_bind {x : Except Failure α} {a : α} {next : α → Analysis β} (hx : x = .ok a)
    (hnext : Gives (next a) t declared w) : Gives (liftM x >>= next) t declared w :=
  (gives_lift hx).quiet_bind hnext

theorem Gives.turn_bind {next : Unit → Analysis β} (f : Table String Symbol → Table String Symbol)
    (hnext : Gives (next ()) (f t) declared w) : Gives (turn f >>= next) t declared w :=
  (gives_turn f).quiet_bind hnext

/-- A step may look at the table and at the declared names. -/
theorem Gives.get_bind {next : Findings → Analysis β}
    (hnext : ∀ s : Findings, s.table = t → s.declared = declared → Gives (next s) t declared w) :
    Gives (get >>= next) t declared w :=
  fun s ht hdeclared => hnext s ht hdeclared s ht hdeclared

end Sequences

/-- A value that can be shown has a text. -/
theorem shown_ok {value : Option Constant} (h : ShowsValue value) :
    ∃ text, shown value = .ok text := by
  cases value with
  | none => exact ⟨"None", rfl⟩
  | some c => exact h c rfl

/-! ## Expressions -/

/-- A used name is looked up: it gets the mark of its variable, or is reported. -/
theorem gives_useName (n : Name) : Gives (useName n) t declared
    (match t.lookup n.text with
      | none => ⟨⟨n, t, [.undeclared n.text n.spot]⟩, declared⟩
      | some symbol => ⟨⟨{ n with mark := ⟨some symbol.ty, symbol.value⟩ }, t, []⟩, declared⟩) := by
  refine .say_bind _ (.get_bind fun s ht _ => ?_)
  rw [ht]
  cases t.lookup n.text with
  | none => exact (gives_report _).bind (gives_pure n)
  | some symbol =>
    exact (gives_markName _ _).quiet_bind
      ((gives_markName _ _).quiet_bind (.say_bind _ (gives_pure _)))

/-- A visit of a number that can be shown is of no account. -/
theorem gives_visitNumber {n : Constant.Number} (h : n.toConstant.Shows) :
    Gives (visitNumber n) t declared ⟨⟨(), t, []⟩, declared⟩ := by
  obtain ⟨text, htext⟩ := h
  exact .lift_bind htext (gives_say _)

theorem gives_lines (lines : List String) :
    Gives (lines.forM say) t declared ⟨⟨(), t, []⟩, declared⟩ := by
  induction lines with
  | nil => exact gives_pure ()
  | cons line lines ih =>
    exact .say_bind line ih

theorem gives_trials (op : Operator) (trials : List Constant) :
    Gives (trials.forM fun c => note (.trial op c)) t declared ⟨⟨(), t, []⟩, declared⟩ := by
  induction trials with
  | nil => exact gives_pure ()
  | cons c trials ih => exact (gives_note _).quiet_bind ih

/-- A calculation gives the mark the value that is folded, if one is. -/
theorem gives_calculate (op : Operator) (whole : Bool) (a b : Constant) (mark : Mark) :
    Gives (calculate op whole a b mark) t declared
      ⟨⟨{ mark with value := (Folding.ofOperation op whole a b).value.getD mark.value }, t, []⟩,
        declared⟩ :=
  (gives_trials op _).quiet_bind ((gives_lines _).quiet_bind (gives_markOperation op _))

/-- An operation gets its mark, and its operands are reported where they do not fit. -/
theorem gives_operate {left right : Expr} {mark : Mark} (hleft : left.Shows) (hright : right.Shows)
    (op : Operator) : Gives (operate op left right mark) t declared
      ⟨⟨Expr.operationMark op left right mark, t, Expr.operationFaults op left right⟩,
        declared⟩ := by
  obtain ⟨leftText, hleftText⟩ := shown_ok (Expr.shows_value hleft)
  obtain ⟨rightText, hrightText⟩ := shown_ok (Expr.shows_value hright)
  refine .lift_bind hleftText (.lift_bind hrightText (.say_bind _ ?_))
  unfold Expr.operationMark Expr.operationFaults
  cases left.value with
  | none => exact gives_pure _
  | some a =>
    cases right.value with
    | none => exact gives_pure _
    | some b =>
      refine (gives_calculate op _ a b mark).quiet_bind ?_
      cases left.ty with
      | none => exact gives_markOperation op _
      | some l =>
        cases right.ty with
        | none => exact gives_markOperation op _
        | some r =>
          simp only [Option.bind_eq_bind, Option.bind_some]
          cases op.resultType? l r with
          | none => exact (gives_report _).bind (gives_markOperation op _)
          | some ty => exact gives_markOperation op _

/-- Walking an expression gives its marks and its faults, and leaves the table as it is. -/
theorem gives_expr (ht : t.Shows) {e : Expr} (he : e.Shows) :
    Gives (expr e) t declared ⟨⟨e.marked t, t, e.faults t⟩, declared⟩ := by
  induction e with
  | number n spot => exact (gives_visitNumber he).quiet_bind (gives_pure _)
  | text s spot => exact .say_bind _ (gives_pure _)
  | use name =>
    have hname : Gives (useName name) t declared _ := gives_useName name
    unfold Expr.marked Expr.faults
    cases hlookup : t.lookup name.text with
    | none =>
      rw [hlookup] at hname
      exact hname.map Expr.use
    | some symbol =>
      rw [hlookup] at hname
      exact hname.map Expr.use
  | binary op left right mark ihleft ihright =>
    have hoperate : Gives (operate op (left.marked t) (right.marked t) mark) t declared _ :=
      gives_operate (Expr.shows_marked ht he.1) (Expr.shows_marked ht he.2.1) op
    refine .say_bind _ ?_
    rw [Expr.faults, List.append_assoc]
    exact (ihleft he.1).bind ((ihright he.2.1).bind (hoperate.map _))

/-! ## Statements -/

/-- A scope is opened and closed around a step. -/
theorem Gives.inScope {step : Analysis α} {a : α} {fs : List Fault}
    (hstep : Gives step t.enter declared ⟨⟨a, t', fs⟩, declared'⟩) :
    Gives (inScope step) t declared ⟨⟨a, t'.exit, fs⟩, declared'⟩ :=
  .turn_bind Table.enter (hstep.bind_quiet (.turn_bind Table.exit (gives_pure a)))

/-- The statements of a block are walked in a scope of their own. -/
theorem Gives.scopedBlock {body part : List Stmt} {fs : List Fault}
    (hbody : Gives (stmts body) t.enter declared ⟨⟨part, t', fs⟩, declared'⟩) :
    Gives (Analysis.inScope do visitBlock body; stmts body) t declared
      ⟨⟨part, t'.exit, fs⟩, declared'⟩ :=
  .inScope (.say_bind _ hbody)

/-- A condition is judged: it fits, or its type is reported. -/
theorem gives_guarded (guard : Guard) (condition : Expr) :
    Gives (guarded guard condition) t declared
    (match condition.mistyped? with
      | none => ⟨⟨true, t, []⟩, declared⟩
      | some found => ⟨⟨false, t, [.condition guard found condition.spot?]⟩, declared⟩) := by
  unfold guarded Expr.mistyped?
  cases condition.ty with
  | none => exact gives_pure true
  | some ty =>
    cases ty with
    | bool => exact gives_pure true
    | ent | dec | cadena => exact (gives_report _).bind (gives_pure false)

theorem gives_warnBareVariable (condition : Expr) :
    Gives (warnBareVariable condition) t declared ⟨⟨(), t, []⟩, declared⟩ := by
  unfold warnBareVariable
  split
  next => exact gives_say _
  next => exact gives_pure ()

theorem gives_visitSentence : Gives visitSentence t declared ⟨⟨(), t, []⟩, declared⟩ :=
  .say_bind _ (gives_say _)

theorem render_ofConstant? {value : Option Constant} (h : ShowsValue value) :
    ∃ text, (Datum.ofConstant? value).render = .ok text := by
  cases value with
  | none => exact ⟨"None", rfl⟩
  | some c => exact h c rfl

/-- The line about a changed value can be written if both values can be shown. -/
theorem updatedLine_ok {old new : Option Constant} (hold : ShowsValue old) (hnew : ShowsValue new)
    (name : String) :
    ∃ line, Record.updatedLine (.ofText name) (.ofConstant? old) (.ofConstant? new) = .ok line := by
  obtain ⟨oldText, hold⟩ := render_ofConstant? hold
  obtain ⟨newText, hnew⟩ := render_ofConstant? hnew
  unfold Record.updatedLine
  rw [hold, hnew]
  exact ⟨_, rfl⟩

/-- The target of an input gets the type of its variable, or is reported. -/
theorem gives_input (n : Name) : Gives (input n) t declared
    (match t.lookup n.text with
      | none => ⟨⟨n, t, [.undeclared n.text n.spot]⟩, declared⟩
      | some symbol => ⟨⟨{ n with mark := { n.mark with ty := some symbol.ty } }, t, []⟩,
          declared⟩) := by
  refine .say_bind _ (.get_bind fun s ht _ => ?_)
  rw [ht]
  cases t.lookup n.text with
  | none => exact (gives_report _).bind (gives_pure n)
  | some symbol => exact gives_markName _ _

/-- An assignment stores the value and gets the type of the variable, or is reported. -/
theorem gives_assign (ht : t.Shows) {value : Expr} (hvalue : value.Shows) (target : Name)
    (old : Option Ty) :
    Gives (assign target value old) t declared ⟨target.assigned t value old, declared⟩ := by
  have hname : Gives (useName target) t declared _ := gives_useName target
  unfold Name.assigned
  cases hlookup : t.lookup target.text with
  | none =>
    rw [hlookup] at hname
    refine hname.bind (.get_bind fun s hs _ => ?_)
    rw [hs, hlookup]
    exact (gives_report _).bind (gives_pure _)
  | some symbol =>
    rw [hlookup] at hname
    refine hname.quiet_bind (.get_bind fun s hs _ => ?_)
    rw [hs, hlookup]
    refine (gives_markName _ _).quiet_bind ?_
    dsimp only
    cases value.ty with
    | none => exact gives_pure _
    | some source =>
      dsimp only
      split
      next =>
        obtain ⟨text, htext⟩ := shown_ok (Expr.shows_value hvalue)
        obtain ⟨line, hline⟩ := updatedLine_ok (ht symbol (Table.mem_of_lookup hlookup))
          (Expr.shows_value hvalue) target.text
        exact .lift_bind htext (.say_bind _ (.turn_bind _ (.lift_bind hline (.say_bind _
          (.turn_bind _ (.say_bind _ (gives_pure _)))))))
      next => exact (gives_report _).bind (gives_pure _)

mutual

/-- The analysis of a statement follows its walk. -/
theorem gives_stmt {t : Table String Symbol} {declared : List String} (ht : t.Shows) :
    ∀ s : Stmt, s.Every Expr.Shows → Gives (stmt s) t declared ⟨s.walk t, declared⟩
  | .assign target value ty, hs => by
    have hassign : Gives (assign target (value.marked t) ty) t declared _ :=
      gives_assign ht (Expr.shows_marked ht hs) target ty
    exact .say_bind _ ((gives_expr ht hs).bind (hassign.map _))
  | .conditional condition body other, hs => by
    have hguarded : Gives (guarded .si (condition.marked t)) t declared _ :=
      gives_guarded .si (condition.marked t)
    refine .say_bind _ (.say_bind _ ((gives_warnBareVariable condition).quiet_bind ?_))
    unfold Stmt.walk
    dsimp only
    cases hmistyped : (condition.marked t).mistyped? with
    | some found =>
      rw [hmistyped] at hguarded
      exact (gives_expr ht hs.1).bind (hguarded.bind (gives_pure _))
    | none =>
      rw [hmistyped] at hguarded
      have hbody : Gives (inScope do visitBlock body; stmts body) t declared _ :=
        .scopedBlock (gives_stmts (Table.shows_enter ht) body hs.2.1)
      have hinner := Table.shows_exit (Stmt.shows_walkAll (Table.shows_enter ht) body hs.2.1)
      exact (gives_expr ht hs.1).bind (hguarded.quiet_bind
        (hbody.bind ((gives_otherwise hinner other hs.2.2).map _)))
  | .whileLoop condition body, hs => by
    have hguarded : Gives (guarded .mientras (condition.marked t)) t declared _ :=
      gives_guarded .mientras (condition.marked t)
    refine .say_bind _ ?_
    unfold Stmt.walk
    dsimp only
    cases hmistyped : (condition.marked t).mistyped? with
    | some found =>
      rw [hmistyped] at hguarded
      exact (gives_expr ht hs.1).bind (hguarded.bind (gives_pure _))
    | none =>
      rw [hmistyped] at hguarded
      have hbody : Gives (inScope do visitBlock body; stmts body) t declared _ :=
        .scopedBlock (gives_stmts (Table.shows_enter ht) body hs.2)
      exact (gives_expr ht hs.1).bind (hguarded.quiet_bind (hbody.map _))
  | .repeatLoop count spot body, hs => by
    have hbody : Gives (inScope do visitBlock body; stmts body) t declared _ :=
      .scopedBlock (gives_stmts (Table.shows_enter ht) body hs.2)
    exact .say_bind _ ((gives_visitNumber (n := .whole count) hs.1).quiet_bind (hbody.map _))
  | .print value, hs => .say_bind _ ((gives_expr ht hs).map _)
  | .input target, _ => by
    have hinput : Gives (input target) t declared _ := gives_input target
    unfold Stmt.walk
    cases hlookup : t.lookup target.text with
    | none =>
      rw [hlookup] at hinput
      exact hinput.map _
    | some symbol =>
      rw [hlookup] at hinput
      exact hinput.map _
  | .block body, hs => .say_bind _ ((gives_stmts ht body hs).map _)

theorem gives_otherwise {t : Table String Symbol} {declared : List String} (ht : t.Shows) :
    ∀ other : Option (List Stmt), Stmt.EveryOther Expr.Shows other →
      Gives (otherwise other) t declared ⟨Stmt.walkOther t other, declared⟩
  | none, _ => gives_pure none
  | some body, hs => by
    have hbody : Gives (inScope do visitBlock body; stmts body) t declared _ :=
      .scopedBlock (gives_stmts (Table.shows_enter ht) body hs)
    exact hbody.map _

/-- The statements of a body are walked one after the other. -/
theorem gives_stmts {t : Table String Symbol} {declared : List String} (ht : t.Shows) :
    ∀ body : List Stmt, Stmt.EveryAll Expr.Shows body →
      Gives (stmts body) t declared ⟨Stmt.walkAll t body, declared⟩
  | [], _ => gives_pure []
  | s :: rest, hs => by
    have hfirst : Gives (stmt s) t declared _ := gives_stmt ht s hs.1
    have hrest : Gives (stmts rest) (s.walk t).table declared _ :=
      gives_stmts (Stmt.shows_walk ht s hs.1) rest hs.2
    exact gives_visitSentence.quiet_bind (hfirst.bind (hrest.map _))

end

/-! ## Items and programs -/

/-- A name is put down as declared. -/
theorem gives_enroll (name : String) :
    Gives (modify fun s => { s with declared := s.declared ++ [name] }) t declared
      ⟨⟨(), t, []⟩, declared ++ [name]⟩ := by
  rintro s rfl rfl
  exact ⟨[], by simp; rfl⟩

/-- A declared name gets a variable of its own, or is reported as declared again. -/
theorem gives_declare (ty : Ty) (n : Name) :
    Gives (declare ty n) t declared (n.declare t declared ty) := by
  unfold Name.declare
  refine .get_bind fun s _ hdeclared => ?_
  rw [hdeclared]
  split
  next => exact (gives_report _).bind (gives_pure n)
  next =>
    refine (gives_markName _ _).quiet_bind (.get_bind fun s hs _ => ?_)
    rw [hs]
    cases t.insert? n.text ⟨n.text, ty, none, n.spot⟩ with
    | none => exact (gives_enroll _).quiet_bind (gives_pure _)
    | some t' =>
      exact .turn_bind (fun _ => t') (.lift_bind rfl (.say_bind _
        ((gives_enroll _).quiet_bind (gives_pure _))))

/-- The names of a declaration are declared one after the other. -/
theorem gives_declareAll (ty : Ty) (names : List Name) :
    Gives (names.mapM (declare ty)) t declared (Name.declareAll t declared ty names) := by
  induction names generalizing t declared with
  | nil => exact gives_pure []
  | cons n rest ih =>
    rw [List.mapM_cons]
    exact (gives_declare ty n).bind (ih.map _)

/-- An item is walked as the reference walk does it. -/
theorem gives_item (ht : t.Shows) {i : Item} (hi : i.Every Expr.Shows) :
    Gives (item i) t declared (i.walk t declared) := by
  cases i with
  | declaration ty listType names =>
    have hnames : Gives (names.mapM (declare ty)) t declared _ := gives_declareAll ty names
    exact .say_bind _ (.say_bind _ (hnames.bind_quiet
      (.say_bind _ (.say_bind _ (.say_bind _ (gives_pure _))))))
  | statement s =>
    have hstmt : Gives (stmt s) t declared _ := gives_stmt ht s hi
    exact gives_visitSentence.quiet_bind (hstmt.map _)

/-- So are all items. -/
theorem gives_items (ht : t.Shows) (start : Nat) {is : List Item}
    (his : ∀ i ∈ is, i.Every Expr.Shows) :
    Gives (items start is) t declared (Item.walkAll t declared is) := by
  induction is generalizing t declared start with
  | nil => exact gives_pure []
  | cons i rest ih =>
    have hfirst : Gives (item i) t declared _ := gives_item ht (his i List.mem_cons_self)
    have hrest : Gives (items (start + 1) rest) (i.walk t declared).table
        (i.walk t declared).declared _ :=
          ih (Item.shows_walk ht (his i List.mem_cons_self) declared) (start + 1) fun j hj =>
          his j (List.mem_cons_of_mem i hj)
    exact .say_bind _ (hfirst.bind (hrest.map _))

/-- A loop that only logs. -/
theorem gives_forIn {γ : Type} {xs : List γ} {body : γ → Unit → Analysis (ForInStep Unit)}
    (hbody : ∀ x ∈ xs, Gives (body x ()) t declared ⟨⟨.yield (), t, []⟩, declared⟩) :
    Gives (forIn xs () body) t declared ⟨⟨(), t, []⟩, declared⟩ := by
  induction xs with
  | nil => exact gives_pure ()
  | cons x xs ih =>
    rw [List.forIn_cons]
    exact (hbody x List.mem_cons_self).quiet_bind
      (ih fun y hy => hbody y (List.mem_cons_of_mem x hy))

theorem listedLine_ok {value : Option Constant} (h : ShowsValue value) (name ty : String) :
    ∃ line, Record.listedLine (.ofText name) (.ofText ty) (.ofConstant? value) = .ok line := by
  obtain ⟨text, htext⟩ := render_ofConstant? h
  unfold Record.listedLine
  rw [htext]
  exact ⟨_, rfl⟩

/-- Listing the symbols is of no account. -/
theorem gives_listSymbols (ht : t.Shows) :
    Gives listSymbols t declared ⟨⟨t.named.map (·.2), t, []⟩, declared⟩ := by
  refine .get_bind fun s hs _ => ?_
  rw [hs]
  refine .say_bind _ (.quiet_bind (gives_forIn fun (name, symbol) hentry => ?_) (gives_pure _))
  obtain ⟨line, hline⟩ := listedLine_ok (ht symbol (Table.mem_of_named hentry)) name symbol.ty.name
  exact .lift_bind hline (.say_bind _ (gives_pure _))

theorem run_get_bind (next : Findings → Analysis β) (s : Findings) :
    (get >>= next).run s = (next s).run s := rfl

theorem run_markName_bind (n : Name) (mark : Mark) (next : Name → Analysis β) (s : Findings) :
    (markName n mark >>= next).run s = (next { n with mark }).run s := rfl

/-- A step that gives something without a fault can be run from any findings with the table and the
names. -/
theorem Gives.exists_run {step : Analysis β} {s : Findings} {b : β} {fs : List Fault}
    (hstep : Gives step s.table s.declared ⟨⟨b, t, []⟩, declared⟩) (hfaults : s.faults = fs) :
    ∃ log, step.run s = (.ok b, ⟨t, fs, declared, log⟩) := by
  obtain ⟨log, hlog⟩ := hstep s rfl rfl
  exact ⟨s.log ++ log, by simpa [hfaults] using hlog⟩

/-- Goes on after a step when what follows looks at the faults. -/
theorem Gives.run_bind {step : Analysis α} {next : α → Analysis β} {w : Enrolled α} {s : Findings}
    {b : β} {fs : List Fault} (hstep : Gives step s.table s.declared w)
    (hnext : ∀ s' : Findings, s'.table = w.table → s'.faults = s.faults ++ w.faults →
      s'.declared = w.declared → ∃ log, (next w.part).run s' = (.ok b, ⟨t, fs, declared, log⟩)) :
    ∃ log, (step >>= next).run s = (.ok b, ⟨t, fs, declared, log⟩) := by
  obtain ⟨log, hlog⟩ := hstep s rfl rfl
  rw [Analysis.run_bind hlog]
  exact hnext _ rfl rfl rfl

/-- The analysis of a program with constants that can be shown gives what the reference walk
gives. -/
theorem program_run {p : Program} (hp : ∀ i ∈ p.items, i.Every Expr.Shows) :
    ∃ log, (program p).run start = (.ok (⟨p.walk.part⟩, p.walk.faults.isEmpty),
      ⟨p.walk.table, p.walk.faults, p.walk.declared, log⟩) := by
  have hempty : (Table.empty : Table String Symbol).Shows :=
    fun _ hs => absurd hs (by simp [Table.empty])
  have hitems : Gives (items 0 p.items) .empty [] p.walk := gives_items hempty 0 hp
  have hshows : p.walk.table.Shows := Item.shows_walkAll hempty hp []
  -- The end of the analysis looks at the faults, which `Gives` leaves open, so the states are
  -- followed by hand.
  refine (gives_say _).run_bind fun s₁ ht₁ hf₁ hd₁ => ?_
  refine (gives_say _).run_bind fun s₂ ht₂ hf₂ hd₂ => ?_
  refine (gives_say _).run_bind fun s₃ ht₃ hf₃ hd₃ => ?_
  have hstart : s₃.table = .empty ∧ s₃.faults = [] ∧ s₃.declared = [] := by
    simp [ht₃, ht₂, ht₁, hf₃, hf₂, hf₁, hd₃, hd₂, hd₁, start]
  rw [← hstart.1, ← hstart.2.2] at hitems
  refine hitems.run_bind fun s ht hf hd => ?_
  have hfaults : s.faults = p.walk.faults := by rw [hf, hstart.2.1, List.nil_append]
  rw [run_get_bind, hfaults]
  refine Gives.exists_run ?_ hfaults
  rw [ht, hd]
  have hlist : Gives listSymbols p.walk.table p.walk.declared _ := gives_listSymbols hshows
  refine .say_bind _ (hlist.quiet_bind (.say_bind _ (hlist.quiet_bind ?_)))
  refine .quiet_bind (gives_forIn fun symbol _ => ?_) (gives_pure _)
  exact .say_bind _ (gives_pure _)

end Analysis

/-- The analysis of a program whose values can be shown ends, and its outcome is that of the walk.
-/
theorem Program.analyse_eq {p : Program} (hp : ∀ i ∈ p.items, i.Every Expr.Shows) :
    ∃ log, p.analyse = (.ok (⟨p.walk.part⟩, p.walk.faults.isEmpty),
      ⟨p.walk.table, p.walk.faults, p.walk.declared, log⟩) :=
  Analysis.program_run hp

end Analizador
