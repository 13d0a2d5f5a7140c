import Analizador.Proofs.Analysis.Verdict

/-! # Analysing a program again

The analysis leaves its marks in the program, and some steps keep a mark that they find. None of
this can be told from a second analysis: from the same state, every step makes of its own outcome
that outcome again, with the same faults, the same table and the same log. -/

namespace Analizador

namespace Analysis

variable {α β : Type} {s s' : Findings}

/-- What a step has made of something it makes of the outcome again, with the same findings. -/
def Settles (step : α → Analysis α) (a : α) : Prop :=
  ∀ ⦃s s' : Findings⦄ ⦃b : α⦄, (step a).run s = (.ok b, s') → (step b).run s = (.ok b, s')

/-! ## Runs taken apart -/

/-- A run of two steps is a run of each. -/
theorem exists_run_of_bind {step : Analysis α} {next : α → Analysis β} {b : β}
    (h : (step >>= next).run s = (.ok b, s')) :
    ∃ a s₁, step.run s = (.ok a, s₁) ∧ (next a).run s₁ = (.ok b, s') := by
  have hbind : (step >>= next).run s =
      (ExceptT.bindCont next (step.run s).1 (step.run s).2).value := rfl
  rw [hbind] at h
  cases hstep : step.run s with
  | mk outcome s₁ =>
    rw [hstep] at h
    cases outcome with
    | ok a => exact ⟨a, s₁, rfl, h⟩
    | error f => cases h

theorem eq_of_run_pure {a b : α} (h : (pure a : Analysis α).run s = (.ok b, s')) :
    a = b ∧ s = s' := by
  cases h
  exact ⟨rfl, rfl⟩

/-! ## Expressions -/

/-- Marking an operation gives the mark that it was given. -/
theorem eq_of_run_markOperation {op : Operator} {mark mark' : Mark}
    (h : (markOperation op mark).run s = (.ok mark', s')) : mark = mark' := by
  cases h
  rfl

/-- A name keeps its text when it is used. -/
theorem text_of_useName {n n' : Name} (h : (useName n).run s = (.ok n', s')) :
    n'.text = n.text := by
  obtain ⟨_, s₁, -, h⟩ := exists_run_of_bind h
  rw [run_get_bind] at h
  split at h
  next =>
    obtain ⟨_, _, -, h⟩ := exists_run_of_bind h
    obtain ⟨rfl, -⟩ := eq_of_run_pure h
    rfl
  next =>
    rw [run_markName_bind, run_markName_bind] at h
    obtain ⟨_, _, -, h⟩ := exists_run_of_bind h
    obtain ⟨rfl, -⟩ := eq_of_run_pure h
    rfl

theorem settles_useName (n : Name) : Settles useName n := by
  intro s s' n' h
  obtain ⟨_, s₁, hsay, hrest⟩ := exists_run_of_bind h
  rw [run_get_bind] at hrest
  cases hlookup : s₁.table.lookup n.text with
  | none =>
    rw [hlookup] at hrest
    obtain ⟨_, _, -, hrest⟩ := exists_run_of_bind hrest
    obtain ⟨rfl, -⟩ := eq_of_run_pure hrest
    exact h
  | some symbol =>
    simp only [hlookup, run_markName_bind] at hrest
    obtain ⟨_, _, hline, hrest⟩ := exists_run_of_bind hrest
    obtain ⟨rfl, rfl⟩ := eq_of_run_pure hrest
    rw [useName, run_bind hsay, run_get_bind]
    simp only [hlookup, run_markName_bind]
    exact run_bind hline

/-- A calculation looks at the mark that it finds only where it gives no value. -/
theorem run_calculate {op : Operator} {whole : Bool} {a b : Constant} {mark mark' : Mark}
    (h : (calculate op whole a b mark).run s = (.ok mark', s')) :
    mark'.value = (Folding.ofOperation op whole a b).value.getD mark.value ∧
      ∀ old : Mark, (calculate op whole a b old).run s =
        (.ok { old with
          value := (Folding.ofOperation op whole a b).value.getD old.value }, s') := by
  obtain ⟨_, _, htrials, h⟩ := exists_run_of_bind h
  obtain ⟨_, _, hlines, h⟩ := exists_run_of_bind h
  cases h
  exact ⟨rfl, fun old => (run_bind htrials).trans (run_bind hlines)⟩

/-- The value that an operation of known operands ends with. -/
theorem value_of_operate {op : Operator} {left right : Expr} {mark mark' : Mark} {a b : Constant}
    (ha : left.value = some a) (hb : right.value = some b)
    (h : (operate op left right mark).run s = (.ok mark', s')) :
    mark'.value =
      (Folding.ofOperation op (left.ty = some .ent && right.ty = some .ent) a b).value.getD
      mark.value := by
  obtain ⟨_, _, -, h⟩ := exists_run_of_bind h
  obtain ⟨_, _, -, h⟩ := exists_run_of_bind h
  obtain ⟨_, _, -, h⟩ := exists_run_of_bind h
  rw [ha, hb] at h
  obtain ⟨_, _, hcalculate, h⟩ := exists_run_of_bind h
  rw [← (run_calculate hcalculate).1]
  split at h
  next =>
    split at h
    next => rw [← eq_of_run_markOperation h]
    next =>
      obtain ⟨_, _, -, h⟩ := exists_run_of_bind h
      rw [← eq_of_run_markOperation h]
  next => rw [← eq_of_run_markOperation h]

theorem getD_again (x : Option α) (a : α) : x.getD (x.getD a) = x.getD a := by
  cases x <;> rfl

theorem settles_operate (op : Operator) (left right : Expr) (mark : Mark) :
    Settles (operate op left right) mark := by
  intro s s' mark' h
  obtain ⟨_, _, hleft, hrest⟩ := exists_run_of_bind h
  obtain ⟨_, _, hright, hrest⟩ := exists_run_of_bind hrest
  obtain ⟨_, _, hsay, hrest⟩ := exists_run_of_bind hrest
  split at hrest
  next a b ha hb =>
    -- The old mark is looked at only for its value, and only where the calculation gives none.
    have hvalue := value_of_operate ha hb h
    obtain ⟨_, _, hcalculate, hrest⟩ := exists_run_of_bind hrest
    obtain ⟨hgiven, hagain⟩ := run_calculate hcalculate
    rw [operate, run_bind hleft, run_bind hright, run_bind hsay]
    simp only [ha, hb]
    rw [run_bind (hagain mark'), hvalue, getD_again, ← hgiven]
    exact hrest
  next =>
    obtain ⟨rfl, -⟩ := eq_of_run_pure hrest
    exact h

/-- The analysis of an expression settles. -/
theorem settles_expr (e : Expr) : Settles expr e := by
  induction e with
  | number n spot =>
    intro s s' e' h
    obtain ⟨_, _, -, hrest⟩ := exists_run_of_bind h
    obtain ⟨rfl, -⟩ := eq_of_run_pure hrest
    exact h
  | text text spot =>
    intro s s' e' h
    obtain ⟨_, _, -, hrest⟩ := exists_run_of_bind h
    obtain ⟨rfl, -⟩ := eq_of_run_pure hrest
    exact h
  | use name =>
    intro s s' e' h
    obtain ⟨name', _, hname, h⟩ := exists_run_of_bind h
    obtain ⟨rfl, rfl⟩ := eq_of_run_pure h
    exact run_bind (settles_useName name hname)
  | binary op left right mark ihleft ihright =>
    intro s s' e' h
    obtain ⟨_, _, hsay, h⟩ := exists_run_of_bind h
    obtain ⟨left', _, hleft, h⟩ := exists_run_of_bind h
    obtain ⟨right', _, hright, h⟩ := exists_run_of_bind h
    obtain ⟨mark', _, hmark, h⟩ := exists_run_of_bind h
    obtain ⟨rfl, rfl⟩ := eq_of_run_pure h
    rw [expr, run_bind hsay, run_bind (ihleft hleft), run_bind (ihright hright)]
    exact run_bind (settles_operate op left' right' mark hmark)

/-- What the log says of a condition before it is walked is the same after it. -/
theorem head_of_expr {e e' : Expr} (h : (expr e).run s = (.ok e', s')) :
    e'.cls = e.cls ∧ warnBareVariable e' = warnBareVariable e := by
  cases e with
  | number n spot =>
    obtain ⟨_, _, -, h⟩ := exists_run_of_bind h
    obtain ⟨rfl, -⟩ := eq_of_run_pure h
    exact ⟨rfl, rfl⟩
  | text text spot =>
    obtain ⟨_, _, -, h⟩ := exists_run_of_bind h
    obtain ⟨rfl, -⟩ := eq_of_run_pure h
    exact ⟨rfl, rfl⟩
  | use name =>
    obtain ⟨name', _, hname, h⟩ := exists_run_of_bind h
    obtain ⟨rfl, -⟩ := eq_of_run_pure h
    exact ⟨rfl, by simp only [warnBareVariable, text_of_useName hname]⟩
  | binary op left right mark =>
    obtain ⟨_, _, -, h⟩ := exists_run_of_bind h
    obtain ⟨_, _, -, h⟩ := exists_run_of_bind h
    obtain ⟨_, _, -, h⟩ := exists_run_of_bind h
    obtain ⟨_, _, -, h⟩ := exists_run_of_bind h
    obtain ⟨rfl, -⟩ := eq_of_run_pure h
    exact ⟨rfl, rfl⟩

/-! ## Statements -/

theorem settles_input (n : Name) : Settles input n := by
  intro s s' n' h
  obtain ⟨_, s₁, hsay, hrest⟩ := exists_run_of_bind h
  rw [run_get_bind] at hrest
  cases hlookup : s₁.table.lookup n.text with
  | none =>
    rw [hlookup] at hrest
    obtain ⟨_, _, -, hrest⟩ := exists_run_of_bind hrest
    obtain ⟨rfl, -⟩ := eq_of_run_pure hrest
    exact h
  | some symbol =>
    rw [hlookup] at hrest
    cases hrest
    rw [input, run_bind hsay, run_get_bind]
    dsimp only
    rw [hlookup]
    rfl

theorem table_of_say {message : String} {u : Unit} (h : (say message).run s = (.ok u, s')) :
    s'.table = s.table := by
  cases h
  rfl

/-- A name that was found has the type of its variable. -/
theorem ty_of_useName {n n' : Name} {symbol : Symbol} (h : (useName n).run s = (.ok n', s'))
    (hlookup : s'.table.lookup n'.text = some symbol) : n'.mark.ty = some symbol.ty := by
  rw [text_of_useName h] at hlookup
  obtain ⟨_, s₁, -, h⟩ := exists_run_of_bind h
  rw [run_get_bind] at h
  split at h
  next hnone =>
    obtain ⟨_, _, hreport, h⟩ := exists_run_of_bind h
    obtain ⟨-, rfl⟩ := eq_of_run_pure h
    cases hreport
    simp [hnone] at hlookup
  next found hfound =>
    rw [run_markName_bind, run_markName_bind] at h
    obtain ⟨_, _, hsay, h⟩ := exists_run_of_bind h
    obtain ⟨rfl, rfl⟩ := eq_of_run_pure h
    rw [table_of_say hsay, hfound] at hlookup
    cases hlookup
    rfl

/-- An assignment keeps the target as the lookup left it, and is settled with it. -/
theorem assign_again {target target' : Name} {value : Expr} {old ty : Option Ty}
    (h : (assign target value old).run s = (.ok (target', ty), s')) :
    (∃ s₁, (useName target).run s = (.ok target', s₁)) ∧
      (assign target' value ty).run s = (.ok (target', ty), s') := by
  obtain ⟨found, s₁, hname, h⟩ := exists_run_of_bind h
  rw [run_get_bind] at h
  have hagain := settles_useName target hname
  cases hlookup : s₁.table.lookup found.text with
  | none =>
    rw [hlookup] at h
    obtain ⟨_, _, hreport, h⟩ := exists_run_of_bind h
    cases h
    refine ⟨⟨s₁, hname⟩, ?_⟩
    rw [assign, run_bind hagain, run_get_bind]
    simp only [hlookup]
    exact run_bind hreport
  | some symbol =>
    -- The target has the type of its variable already.
    have hfound : { found with mark := { found.mark with ty := some symbol.ty } } = found := by
      rw [← ty_of_useName hname hlookup]
    simp only [hlookup, run_markName_bind, hfound] at h
    cases hty : value.ty with
    | none =>
      rw [hty] at h
      cases h
      refine ⟨⟨_, hname⟩, ?_⟩
      rw [assign, run_bind hagain, run_get_bind]
      simp only [hlookup, run_markName_bind, hfound, hty]
      rfl
    | some source =>
      rw [hty] at h
      dsimp only at h
      split at h
      next haccepts =>
        obtain ⟨_, _, htext, h⟩ := exists_run_of_bind h
        obtain ⟨_, _, hsay, h⟩ := exists_run_of_bind h
        obtain ⟨_, _, hlocated, h⟩ := exists_run_of_bind h
        obtain ⟨_, _, hline, h⟩ := exists_run_of_bind h
        obtain ⟨_, _, hupdated, h⟩ := exists_run_of_bind h
        obtain ⟨_, _, hindexed, h⟩ := exists_run_of_bind h
        obtain ⟨_, _, hdone, h⟩ := exists_run_of_bind h
        cases h
        refine ⟨⟨s₁, hname⟩, ?_⟩
        rw [assign, run_bind hagain, run_get_bind]
        simp only [hlookup, run_markName_bind, hfound, hty, if_pos haccepts]
        rw [run_bind htext, run_bind hsay, run_bind hlocated, run_bind hline, run_bind hupdated,
          run_bind hindexed]
        exact run_bind hdone
      next hrefuses =>
        obtain ⟨_, _, hreport, h⟩ := exists_run_of_bind h
        cases h
        refine ⟨⟨s₁, hname⟩, ?_⟩
        rw [assign, run_bind hagain, run_get_bind]
        simp only [hlookup, run_markName_bind, hfound, hty, if_neg hrefuses]
        exact run_bind hreport

/-- A body keeps its length. -/
theorem length_of_stmts {body body' : List Stmt} (h : (stmts body).run s = (.ok body', s')) :
    body'.length = body.length := by
  induction body generalizing s s' body' with
  | nil =>
    obtain ⟨rfl, -⟩ := eq_of_run_pure h
    rfl
  | cons first rest ih =>
    obtain ⟨_, _, -, h⟩ := exists_run_of_bind h
    obtain ⟨_, _, -, h⟩ := exists_run_of_bind h
    obtain ⟨rest', _, hrest, h⟩ := exists_run_of_bind h
    obtain ⟨rfl, -⟩ := eq_of_run_pure h
    rw [List.length_cons, List.length_cons, ih hrest]

/-- The log tells of a block only how many statements it has. -/
theorem visitBlock_of_stmts {body body' : List Stmt} (h : (stmts body).run s = (.ok body', s')) :
    visitBlock body' = visitBlock body := by
  rw [visitBlock, visitBlock, length_of_stmts h]

/-- The visit to a block settles if the analysis of its body does. -/
theorem Settles.visitedBlock {body : List Stmt} (hbody : Settles stmts body) :
    Settles (fun body => do visitBlock body; stmts body) body := by
  intro s s' body' h
  obtain ⟨_, _, hvisit, hstmts⟩ := exists_run_of_bind h
  dsimp only
  rw [visitBlock_of_stmts hstmts, run_bind hvisit]
  exact hbody hstmts

/-- A step in a scope of its own settles if it does so without. -/
theorem Settles.inScope {step : α → Analysis α} {a : α} (hstep : Settles step a) :
    Settles (fun a => Analysis.inScope (step a)) a := by
  intro s s' b h
  obtain ⟨_, _, henter, h⟩ := exists_run_of_bind h
  obtain ⟨_, _, hinner, h⟩ := exists_run_of_bind h
  obtain ⟨_, _, hexit, h⟩ := exists_run_of_bind h
  obtain ⟨rfl, rfl⟩ := eq_of_run_pure h
  dsimp only
  rw [Analysis.inScope, run_bind henter, run_bind (hstep hinner)]
  exact run_bind hexit

theorem Settles.scopedBlock {body : List Stmt} (hbody : Settles stmts body) :
    Settles (fun body => Analysis.inScope do visitBlock body; stmts body) body :=
  hbody.visitedBlock.inScope

mutual

/-- Every statement is settled once it has been walked. -/
theorem settles_stmt : ∀ st : Stmt, Settles stmt st
  | .assign target value ty => by
    intro s s' st' h
    obtain ⟨_, _, hsay, h⟩ := exists_run_of_bind h
    obtain ⟨value', _, hvalue, h⟩ := exists_run_of_bind h
    obtain ⟨⟨target', ty'⟩, _, hassign, h⟩ := exists_run_of_bind h
    obtain ⟨rfl, rfl⟩ := eq_of_run_pure h
    obtain ⟨⟨_, hname⟩, hagain⟩ := assign_again hassign
    rw [stmt, text_of_useName hname, run_bind hsay, run_bind (settles_expr value hvalue)]
    exact run_bind hagain
  | .conditional condition body other => by
    intro s s' st' h
    obtain ⟨_, _, hsay, h⟩ := exists_run_of_bind h
    obtain ⟨_, _, hclass, h⟩ := exists_run_of_bind h
    obtain ⟨_, _, hwarn, h⟩ := exists_run_of_bind h
    obtain ⟨condition', _, hcondition, h⟩ := exists_run_of_bind h
    obtain ⟨passes, _, hguarded, h⟩ := exists_run_of_bind h
    obtain ⟨hcls, hbare⟩ := head_of_expr hcondition
    have hagain := settles_expr condition hcondition
    cases passes with
    | false =>
      obtain ⟨rfl, rfl⟩ := eq_of_run_pure h
      rw [stmt, hcls, hbare, run_bind hsay, run_bind hclass, run_bind hwarn, run_bind hagain,
        run_bind hguarded]
      rfl
    | true =>
      obtain ⟨body', _, hbody, h⟩ := exists_run_of_bind h
      obtain ⟨other', _, hother, h⟩ := exists_run_of_bind h
      obtain ⟨rfl, rfl⟩ := eq_of_run_pure h
      rw [stmt, hcls, hbare, run_bind hsay, run_bind hclass, run_bind hwarn, run_bind hagain,
        run_bind hguarded]
      refine (run_bind ((settles_stmts body).scopedBlock hbody)).trans ?_
      exact run_bind (settles_otherwise other hother)
  | .whileLoop condition body => by
    intro s s' st' h
    obtain ⟨_, _, hsay, h⟩ := exists_run_of_bind h
    obtain ⟨condition', _, hcondition, h⟩ := exists_run_of_bind h
    obtain ⟨passes, _, hguarded, h⟩ := exists_run_of_bind h
    cases passes with
    | false =>
      obtain ⟨rfl, rfl⟩ := eq_of_run_pure h
      rw [stmt, run_bind hsay, run_bind (settles_expr condition hcondition), run_bind hguarded]
      rfl
    | true =>
      obtain ⟨body', _, hbody, h⟩ := exists_run_of_bind h
      obtain ⟨rfl, rfl⟩ := eq_of_run_pure h
      rw [stmt, run_bind hsay, run_bind (settles_expr condition hcondition), run_bind hguarded]
      exact run_bind ((settles_stmts body).scopedBlock hbody)
  | .repeatLoop count spot body => by
    intro s s' st' h
    obtain ⟨_, _, hsay, h⟩ := exists_run_of_bind h
    obtain ⟨_, _, hcount, h⟩ := exists_run_of_bind h
    obtain ⟨body', _, hbody, h⟩ := exists_run_of_bind h
    obtain ⟨rfl, rfl⟩ := eq_of_run_pure h
    rw [stmt, run_bind hsay, run_bind hcount]
    exact run_bind ((settles_stmts body).scopedBlock hbody)
  | .print value => by
    intro s s' st' h
    obtain ⟨_, _, hsay, h⟩ := exists_run_of_bind h
    obtain ⟨value', _, hvalue, h⟩ := exists_run_of_bind h
    obtain ⟨rfl, rfl⟩ := eq_of_run_pure h
    rw [stmt, run_bind hsay]
    exact run_bind (settles_expr value hvalue)
  | .input target => by
    intro s s' st' h
    obtain ⟨target', _, htarget, h⟩ := exists_run_of_bind h
    obtain ⟨rfl, rfl⟩ := eq_of_run_pure h
    exact run_bind (settles_input target htarget)
  | .block body => by
    intro s s' st' h
    obtain ⟨_, _, hvisit, h⟩ := exists_run_of_bind h
    obtain ⟨body', _, hbody, h⟩ := exists_run_of_bind h
    obtain ⟨rfl, rfl⟩ := eq_of_run_pure h
    rw [stmt, visitBlock_of_stmts hbody, run_bind hvisit]
    exact run_bind (settles_stmts body hbody)

theorem settles_otherwise : ∀ other : Option (List Stmt), Settles otherwise other
  | none => by
    intro s s' other' h
    obtain ⟨rfl, rfl⟩ := eq_of_run_pure h
    rfl
  | some body => by
    intro s s' other' h
    obtain ⟨body', _, hbody, h⟩ := exists_run_of_bind h
    obtain ⟨rfl, rfl⟩ := eq_of_run_pure h
    exact run_bind ((settles_stmts body).scopedBlock hbody)

/-- The analysis of a body settles. -/
theorem settles_stmts : ∀ body : List Stmt, Settles stmts body
  | [] => by
    intro s s' body' h
    obtain ⟨rfl, rfl⟩ := eq_of_run_pure h
    rfl
  | first :: rest => by
    intro s s' body' h
    obtain ⟨_, _, hsentence, h⟩ := exists_run_of_bind h
    obtain ⟨first', _, hfirst, h⟩ := exists_run_of_bind h
    obtain ⟨rest', _, hrest, h⟩ := exists_run_of_bind h
    obtain ⟨rfl, rfl⟩ := eq_of_run_pure h
    rw [stmts, run_bind hsentence, run_bind (settles_stmt first hfirst)]
    exact run_bind (settles_stmts rest hrest)

end

/-! ## Items and programs -/

/-- The declaration of a name settles. -/
theorem settles_declare (ty : Ty) (n : Name) : Settles (declare ty) n := by
  intro s s' n' h
  have hrest := h
  rw [declare, run_get_bind] at hrest
  split at hrest
  next =>
    obtain ⟨_, _, -, hrest⟩ := exists_run_of_bind hrest
    obtain ⟨rfl, -⟩ := eq_of_run_pure hrest
    exact h
  next hnew =>
    rw [run_markName_bind, run_get_bind] at hrest
    cases hinsert : s.table.insert? n.text ⟨n.text, ty, none, n.spot⟩ with
    | none =>
      rw [hinsert] at hrest
      obtain ⟨_, _, henroll, hrest⟩ := exists_run_of_bind hrest
      obtain ⟨rfl, rfl⟩ := eq_of_run_pure hrest
      rw [declare, run_get_bind]
      dsimp only
      rw [if_neg hnew, run_markName_bind, run_get_bind]
      simp only [hinsert]
      exact run_bind henroll
    | some table =>
      rw [hinsert] at hrest
      obtain ⟨_, _, hmodify, hrest⟩ := exists_run_of_bind hrest
      obtain ⟨_, _, hline, hrest⟩ := exists_run_of_bind hrest
      obtain ⟨_, _, hsay, hrest⟩ := exists_run_of_bind hrest
      obtain ⟨_, _, henroll, hrest⟩ := exists_run_of_bind hrest
      obtain ⟨rfl, rfl⟩ := eq_of_run_pure hrest
      rw [declare, run_get_bind]
      dsimp only
      rw [if_neg hnew, run_markName_bind, run_get_bind]
      simp only [hinsert]
      rw [run_bind hmodify, run_bind hline, run_bind hsay]
      exact run_bind henroll

theorem settles_declareAll (ty : Ty) (names : List Name) :
    Settles (fun names => names.mapM (declare ty)) names := by
  induction names with
  | nil =>
    intro s s' names' h
    obtain ⟨rfl, rfl⟩ := eq_of_run_pure h
    rfl
  | cons n rest ih =>
    intro s s' names' h
    simp only [List.mapM_cons] at h
    obtain ⟨n', _, hn, h⟩ := exists_run_of_bind h
    obtain ⟨rest', _, hrest, h⟩ := exists_run_of_bind h
    obtain ⟨rfl, rfl⟩ := eq_of_run_pure h
    simp only [List.mapM_cons]
    rw [run_bind (settles_declare ty n hn)]
    exact run_bind (ih hrest)

/-- Walking an item keeps its class, and it is settled. -/
theorem item_again {i i' : Item} (h : (item i).run s = (.ok i', s')) :
    itemClass i' = itemClass i ∧ (item i').run s = (.ok i', s') := by
  cases i with
  | declaration ty listType names =>
    obtain ⟨_, _, hsay, h⟩ := exists_run_of_bind h
    obtain ⟨_, _, hcount, h⟩ := exists_run_of_bind h
    obtain ⟨names', _, hnames, h⟩ := exists_run_of_bind h
    obtain ⟨_, _, hlist, h⟩ := exists_run_of_bind h
    obtain ⟨_, _, htype, h⟩ := exists_run_of_bind h
    obtain ⟨_, _, hline, h⟩ := exists_run_of_bind h
    obtain ⟨rfl, rfl⟩ := eq_of_run_pure h
    refine ⟨rfl, ?_⟩
    rw [item, run_bind hsay, run_bind hcount, run_bind (settles_declareAll ty names hnames),
      run_bind hlist, run_bind htype]
    exact run_bind hline
  | statement st =>
    obtain ⟨_, _, hsentence, h⟩ := exists_run_of_bind h
    obtain ⟨st', _, hst, h⟩ := exists_run_of_bind h
    obtain ⟨rfl, rfl⟩ := eq_of_run_pure h
    refine ⟨rfl, ?_⟩
    rw [item, run_bind hsentence]
    exact run_bind (settles_stmt st hst)

/-- Walking items keeps their number, and they are settled. -/
theorem items_again {start : Nat} {is is' : List Item}
    (h : (items start is).run s = (.ok is', s')) :
    is'.length = is.length ∧ (items start is').run s = (.ok is', s') := by
  induction is generalizing start s s' is' with
  | nil =>
    obtain ⟨rfl, rfl⟩ := eq_of_run_pure h
    exact ⟨rfl, rfl⟩
  | cons i rest ih =>
    obtain ⟨_, _, hsay, h⟩ := exists_run_of_bind h
    obtain ⟨i', _, hi, h⟩ := exists_run_of_bind h
    obtain ⟨rest', _, hrest, h⟩ := exists_run_of_bind h
    obtain ⟨rfl, rfl⟩ := eq_of_run_pure h
    obtain ⟨hclass, hagain⟩ := item_again hi
    obtain ⟨hlength, hrestAgain⟩ := ih hrest
    refine ⟨by rw [List.length_cons, List.length_cons, hlength], ?_⟩
    rw [items, hclass, run_bind hsay, run_bind hagain]
    exact run_bind hrestAgain

/-- What a program has been made into is made into itself, from the same findings. -/
theorem program_again {p p' : Program} {result : Bool}
    (h : (program p).run s = (.ok (p', result), s')) :
    (program p').run s = (.ok (p', result), s') := by
  obtain ⟨_, _, hstart, h⟩ := exists_run_of_bind h
  obtain ⟨_, _, hvisit, h⟩ := exists_run_of_bind h
  obtain ⟨_, _, hcount, h⟩ := exists_run_of_bind h
  obtain ⟨walked, _, hitems, h⟩ := exists_run_of_bind h
  obtain ⟨hlength, hagain⟩ := items_again hitems
  -- What follows the items does not look at them.
  have hp : p' = ⟨walked⟩ := by
    rw [run_get_bind] at h
    obtain ⟨_, _, -, h⟩ := exists_run_of_bind h
    obtain ⟨_, _, -, h⟩ := exists_run_of_bind h
    obtain ⟨_, _, -, h⟩ := exists_run_of_bind h
    obtain ⟨_, _, -, h⟩ := exists_run_of_bind h
    obtain ⟨_, _, -, h⟩ := exists_run_of_bind h
    cases h
    rfl
  subst hp
  rw [program, run_bind hstart, run_bind hvisit, hlength, run_bind hcount, run_bind hagain]
  exact h

end Analysis

/-- What the analysis makes of a program is analysed with the same outcome, down to the log. -/
theorem Program.analyse_again {p p' : Program} {result : Bool} {findings : Findings}
    (h : p.analyse = (.ok (p', result), findings)) : p'.analyse = (.ok (p', result), findings) :=
  Analysis.program_again h

namespace Session

/-- Analysing once more gives the same result and the same log, and leaves the session as it is: its
faults, its table and the program with all its marks. -/
theorem analyse_twice (s : Session) (code : String) (p : Program)
    (hread : (s.parse [] code).2.program = some p) :
    let first := (s.parse [] code).2.analyse
    (∃ result, first.1 = .ok result) ∧ first.2.2.program.isSome ∧ first.2.2.analyse = first := by
  obtain ⟨_, hreading⟩ := reading_of_parse hread
  obtain ⟨log, hanalyse⟩ := Reading.analyse_eq hreading
  have hagain := Program.analyse_again hanalyse
  generalize s.parse [] code = parsed at hread
  simp only [analyse, hread, hanalyse]
  exact ⟨⟨_, rfl⟩, rfl, by simp only [hagain]⟩

/-- A name declared twice, a name that is not declared, a division by zero and a comparison that
loses the type it had leave all kinds of marks behind. -/
theorem analyse_twice_faulty :
    let first :=
  (empty.parse [] "ent x , x ; y = 7 / 0 ; x = 2 ; si ( x < \"b\" ) \x7b x = 3 ; \x7d").2.analyse
    first.2.2.ledger.semantic.length = 4 ∧
      (∃ result, first.1 = .ok result) ∧ first.2.2.program.isSome ∧ first.2.2.analyse = first := by
  let name (text : String) (column : Nat) : Name := ⟨text, ⟨1, column⟩, .blank⟩
  let number (n : Nat) (column : Nat) : Expr := .number (.whole n) ⟨1, column⟩
  let comparison : Expr := .operation .lt (.use (name "x" 38)) (.text "b" ⟨1, 42⟩)
  let p : Program := ⟨[.declaration .ent none [name "x" 5, name "x" 9],
    .statement (.assign (name "y" 13) (.operation .div (number 7 17) (number 0 21)) none),
    .statement (.assign (name "x" 25) (number 2 29) none),
    .statement (.conditional comparison [.assign (name "x" 50) (number 3 54) none] none)]⟩
  have hread : (empty.parse []
    "ent x , x ; y = 7 / 0 ; x = 2 ; si ( x < \"b\" ) \x7b x = 3 ; \x7d").2.program = some p := rfl
  have hfaults : p.walk.faults.length = 4 := by decide +kernel
  refine ⟨?_, analyse_twice empty _ p hread⟩
  rw [(analyse_of_parse hread).2.2, List.length_map, hfaults]

end Session

end Analizador
