import Analizador.Proofs.Analysis.Declared

/-! # Flattened programs

Blocks do not show in the table: a scope that is open stays empty, since only declarations bind
names and these stand at the top, and conditions are only looked at. So a program that is analysed
without fault leaves the table that its assignments, outputs and inputs leave when they stand one
after the other, without the statements around them. -/

namespace Analizador

/-! ## Statements without others in them -/

mutual

/-- The assignments, outputs and inputs in a statement, in the order of the text. -/
def Stmt.simple : Stmt → List Stmt
  | .assign target value ty => [.assign target value ty]
  | .conditional _ body other => simpleAll body ++ simpleOther other
  | .whileLoop _ body => simpleAll body
  | .repeatLoop _ _ body => simpleAll body
  | .print value => [.print value]
  | .input target => [.input target]
  | .block body => simpleAll body
termination_by structural s => s

/-- The assignments, outputs and inputs in the second block of a conditional. -/
def Stmt.simpleOther : Option (List Stmt) → List Stmt
  | none => []
  | some body => simpleAll body
termination_by structural other => other

/-- The assignments, outputs and inputs in some statements. -/
def Stmt.simpleAll : List Stmt → List Stmt
  | [] => []
  | s :: rest => s.simple ++ simpleAll rest
termination_by structural body => body

end

/-- An item with its statement replaced by what is simple in it. -/
def Item.flattened : Item → List Item
  | .declaration ty listType names => [.declaration ty listType names]
  | .statement s => s.simple.map .statement

/-- A program with every statement replaced by what is simple in it. -/
def Program.flattened (p : Program) : Program := ⟨p.items.flatMap Item.flattened⟩

theorem Stmt.everyAll_append {P : Expr → Prop} {body rest : List Stmt} :
    EveryAll P (body ++ rest) ↔ EveryAll P body ∧ EveryAll P rest := by
  simp only [everyAll_iff, List.forall_mem_append]

mutual

/-- What holds of every expression of a statement holds of those of its simple statements. -/
theorem Stmt.Every.simple {P : Expr → Prop} : {s : Stmt} → s.Every P → EveryAll P s.simple
  | .assign _ _ _, h => ⟨h, trivial⟩
  | .conditional _ _ _, h => by
    rw [Stmt.simple, everyAll_append]
    exact ⟨EveryAll.simple h.2.1, EveryOther.simple h.2.2⟩
  | .whileLoop _ _, h => EveryAll.simple h.2
  | .repeatLoop _ _ _, h => EveryAll.simple h.2
  | .print _, h => ⟨h, trivial⟩
  | .input _, _ => ⟨trivial, trivial⟩
  | .block _, h => EveryAll.simple h

theorem Stmt.EveryOther.simple {P : Expr → Prop} :
    {other : Option (List Stmt)} → EveryOther P other → EveryAll P (simpleOther other)
  | none, _ => trivial
  | some _, h => EveryAll.simple h

/-- So with a body. -/
theorem Stmt.EveryAll.simple {P : Expr → Prop} :
    {body : List Stmt} → EveryAll P body → EveryAll P (simpleAll body)
  | [], _ => trivial
  | _ :: _, h => by
    rw [simpleAll, everyAll_append]
    exact ⟨Every.simple h.1, EveryAll.simple h.2⟩

end

/-- What holds of every expression of a program holds of those of the flattened one. -/
theorem Program.every_flattened {P : Expr → Prop} {p : Program} (h : ∀ i ∈ p.items, i.Every P) :
    ∀ i ∈ p.flattened.items, i.Every P := by
  intro i hi
  obtain ⟨j, hj, hmem⟩ := List.mem_flatMap.mp hi
  cases j with
  | declaration ty listType names =>
    obtain rfl := List.mem_singleton.mp hmem
    exact h _ hj
  | statement s =>
    obtain ⟨s', hs', rfl⟩ := List.mem_map.mp hmem
    exact Stmt.everyAll_iff.mp (Stmt.Every.simple (h _ hj)) s' hs'

/-! ## An empty scope does not show -/

namespace Table

variable (t : Table String Symbol) (name : String)

@[simp] theorem lookup_enter : t.enter.lookup name = t.lookup name := rfl

/-- A value is stored in one more scope as without it. -/
theorem assign_enter (value : Option Constant) :
    t.enter.assign name value = (t.assign name value).enter := by
  have hlocate : t.enter.locate? name = t.locate? name := rfl
  have hlocated : t.enter.modifyLocated name ({ · with value }) =
      (t.modifyLocated name ({ · with value })).enter := by
    unfold modifyLocated
    rw [hlocate]
    cases t.locate? name <;> rfl
  rw [assign, assign, hlocated, modifyIndexed, modifyIndexed]
  have hindex : (t.modifyLocated name ({ · with value })).enter.index =
      (t.modifyLocated name ({ · with value })).index := rfl
  rw [hindex]
  split <;> rfl

end Table

/-- Expressions are marked in one more scope as without it. -/
@[simp] theorem Expr.marked_enter (t : Table String Symbol) (e : Expr) :
    e.marked t.enter = e.marked t := by
  induction e with
  | number | text => rfl
  | use name => rfl
  | binary op left right mark ihl ihr => simp only [marked, ihl, ihr]

/-- They have the same faults there. -/
@[simp] theorem Expr.faults_enter (t : Table String Symbol) (e : Expr) :
    e.faults t.enter = e.faults t := by
  induction e with
  | number | text => rfl
  | use name => rfl
  | binary op left right mark ihl ihr => simp only [faults, ihl, ihr, marked_enter]

/-- What a walk gives, with one more scope. -/
def Walked.entered {α : Type} (w : Walked α) : Walked α := { w with table := w.table.enter }

theorem Name.assigned_enter (t : Table String Symbol) (target : Name) (value : Expr)
    (old : Option Ty) :
    target.assigned t.enter value old = (target.assigned t value old).entered := by
  simp only [assigned, Table.lookup_enter]
  cases t.lookup target.text with
  | none => rfl
  | some symbol =>
    cases value.ty with
    | none => rfl
    | some source =>
      simp only
      split
      next => simp only [Walked.entered, Table.assign_enter]
      next => rfl

mutual

/-- A statement is walked in one more scope as without it. -/
theorem Stmt.walk_enter (t : Table String Symbol) : (s : Stmt) → s.walk t.enter = (s.walk t).entered
  | .assign target value ty => by
    simp only [walk, Expr.marked_enter, Expr.faults_enter, Name.assigned_enter, Walked.entered]
  | .conditional condition body other => by
    simp only [walk, Expr.marked_enter, Expr.faults_enter]
    cases (condition.marked t).mistyped? with
    | some found => rfl
    | none =>
      simp only [walkAll_enter t body, walkAll_enter t.enter body, Walked.entered, Table.exit_enter,
        walkOther_enter _ other]
  | .whileLoop condition body => by
    simp only [walk, Expr.marked_enter, Expr.faults_enter]
    cases (condition.marked t).mistyped? with
    | some found => rfl
    | none =>
      simp only [walkAll_enter t body, walkAll_enter t.enter body, Walked.entered, Table.exit_enter]
  | .repeatLoop count spot body => by
    simp only [walk, walkAll_enter t body, walkAll_enter t.enter body, Walked.entered,
      Table.exit_enter]
  | .print value => by simp only [walk, Expr.marked_enter, Expr.faults_enter, Walked.entered]
  | .input target => by
    simp only [walk, Table.lookup_enter]
    cases t.lookup target.text <;> rfl
  | .block body => by simp only [walk, walkAll_enter t body, Walked.entered]
termination_by structural s => s

theorem Stmt.walkOther_enter (t : Table String Symbol) :
    (other : Option (List Stmt)) → walkOther t.enter other = (walkOther t other).entered
  | none => rfl
  | some body => by
    simp only [walkOther, walkAll_enter t body, walkAll_enter t.enter body, Walked.entered,
      Table.exit_enter]
termination_by structural other => other

/-- So is a body. -/
theorem Stmt.walkAll_enter (t : Table String Symbol) :
    (body : List Stmt) → walkAll t.enter body = (walkAll t body).entered
  | [] => rfl
  | s :: rest => by
    simp only [walkAll, walk_enter t s, walkAll_enter (s.walk t).table rest, Walked.entered]
termination_by structural body => body

end

/-- A block in a scope of its own leaves the table that it leaves without. -/
theorem Stmt.exit_walkAll_enter (t : Table String Symbol) (body : List Stmt) :
    (walkAll t.enter body).table.exit = (walkAll t body).table := by
  rw [walkAll_enter]
  rfl

theorem Stmt.faults_walkAll_enter (t : Table String Symbol) (body : List Stmt) :
    (walkAll t.enter body).faults = (walkAll t body).faults := by
  rw [walkAll_enter]
  rfl

/-! ## Flattening -/

/-- Statements are walked without fault from a table and leave another. -/
def Stmt.Reaches (t : Table String Symbol) (body : List Stmt) (t' : Table String Symbol) : Prop :=
  (walkAll t body).faults = [] ∧ (walkAll t body).table = t'

namespace Stmt

variable {t t' t'' : Table String Symbol} {body rest : List Stmt}

/-- Two bodies reach, one after the other, what the second reaches from where the first came to. -/
theorem Reaches.append (h : Reaches t body t') (h' : Reaches t' rest t'') :
    Reaches t (body ++ rest) t'' := by
  induction body generalizing t with
  | nil =>
    obtain ⟨-, rfl⟩ := h
    exact h'
  | cons s body ih =>
    obtain ⟨hfaults, htable⟩ := h
    obtain ⟨hfirst, hothers⟩ := List.append_eq_nil_iff.mp hfaults
    obtain ⟨hjoined, htable'⟩ := ih ⟨hothers, htable⟩
    exact ⟨List.append_eq_nil_iff.mpr ⟨hfirst, hjoined⟩, htable'⟩

/-- A statement without fault reaches the table that it leaves. -/
theorem reaches_singleton {s : Stmt} (h : (s.walk t).faults = []) :
    Reaches t [s] (s.walk t).table :=
  ⟨List.append_eq_nil_iff.mpr ⟨h, rfl⟩, rfl⟩

end Stmt

mutual

/-- On a run without fault no block is skipped, so that a statement does what is simple in it. -/
theorem Stmt.reaches_simple (t : Table String Symbol) :
    (s : Stmt) → (s.walk t).faults = [] → Reaches t s.simple (s.walk t).table
  | .assign _ _ _, h => reaches_singleton h
  | .conditional condition body other, h => by
    simp only [walk] at h ⊢
    cases hmistyped : (condition.marked t).mistyped? with
    | some found => simp [hmistyped] at h
    | none =>
      simp only [hmistyped, List.append_eq_nil_iff, exit_walkAll_enter, faults_walkAll_enter] at h ⊢
      exact (reaches_simpleAll t body h.2.1).append (reaches_simpleOther _ other h.2.2)
  | .whileLoop condition body, h => by
    simp only [walk] at h ⊢
    cases hmistyped : (condition.marked t).mistyped? with
    | some found => simp [hmistyped] at h
    | none =>
      simp only [hmistyped, List.append_eq_nil_iff, exit_walkAll_enter, faults_walkAll_enter] at h ⊢
      exact reaches_simpleAll t body h.2
  | .repeatLoop _ _ body, h => by
    simp only [walk, exit_walkAll_enter, faults_walkAll_enter] at h ⊢
    exact reaches_simpleAll t body h
  | .print _, h => reaches_singleton h
  | .input _, h => reaches_singleton h
  | .block body, h => reaches_simpleAll t body h
termination_by structural s => s

theorem Stmt.reaches_simpleOther (t : Table String Symbol) : (other : Option (List Stmt)) →
    (walkOther t other).faults = [] → Reaches t (simpleOther other) (walkOther t other).table
  | none, _ => ⟨rfl, rfl⟩
  | some body, h => by
    simp only [walkOther, exit_walkAll_enter, faults_walkAll_enter] at h ⊢
    exact reaches_simpleAll t body h
termination_by structural other => other

/-- The simple statements of a body without fault reach the table that the body leaves. -/
theorem Stmt.reaches_simpleAll (t : Table String Symbol) : (body : List Stmt) →
    (walkAll t body).faults = [] → Reaches t (simpleAll body) (walkAll t body).table
  | [], _ => ⟨rfl, rfl⟩
  | s :: rest, h => by
    obtain ⟨hfirst, hothers⟩ := List.append_eq_nil_iff.mp h
    exact (reaches_simple t s hfirst).append (reaches_simpleAll _ rest hothers)
termination_by structural body => body

end

/-- Statements are walked as items as they are as a body. -/
theorem Item.walkAll_statements (t : Table String Symbol) (declared : List String)
    (body : List Stmt) :
    walkAll t declared (body.map .statement) =
      ⟨⟨(Stmt.walkAll t body).part.map .statement, (Stmt.walkAll t body).table,
        (Stmt.walkAll t body).faults⟩,
        declared⟩ := by
  induction body generalizing t with
  | nil => rfl
  | cons s rest ih => simp only [List.map_cons, walkAll, walk, ih, Stmt.walkAll]

/-- Items that are walked without fault leave the same table and names when they are flattened. -/
theorem Item.walkAll_flattened {t : Table String Symbol} {declared : List String} {is : List Item}
    (h : (walkAll t declared is).faults = []) :
    (walkAll t declared (is.flatMap flattened)).faults = [] ∧
      (walkAll t declared (is.flatMap flattened)).table = (walkAll t declared is).table := by
  induction is generalizing t declared with
  | nil => exact ⟨rfl, rfl⟩
  | cons i rest ih =>
    obtain ⟨hfirst, hothers⟩ := List.append_eq_nil_iff.mp h
    obtain ⟨hfaults, htable⟩ := ih hothers
    rw [List.flatMap_cons, walkAll_append]
    cases i with
    | declaration ty listType names =>
      exact ⟨by simpa [flattened, walkAll, walk] using ⟨hfirst, hfaults⟩, htable⟩
    | statement s =>
      obtain ⟨hsimple, hreached⟩ := Stmt.reaches_simple t s hfirst
      simp only [flattened, walkAll_statements, hsimple, hreached, List.nil_append]
      exact ⟨hfaults, htable⟩

/-- A program leaves no scope open. -/
theorem Program.depth_walk (p : Program) : p.walk.table.depth = 0 :=
  congrArg (fun t => t.outer.length) p.lists_walk.table

namespace Session

/-- A session in which the given program was read last. -/
def holding (s : Session) (p : Program) : Session := { s with program := some p }

/-- A program that is analysed without fault is so when it is flattened, and leaves the same table,
which has one scope. -/
theorem analyse_flattened (s s' : Session) (code : String) (p : Program)
    (hread : (s.parse [] code).2.program = some p)
    (hresult : (s.parse [] code).2.analyse.1 = .ok true) :
    let nested := (s.parse [] code).2.analyse
    let flat := (s'.holding p.flattened).analyse
    flat.1 = .ok true ∧ flat.2.2.table = nested.2.2.table ∧
      nested.2.2.table.depth = 0 ∧ nested.2.2.table.scopes.length = 1 := by
  intro nested flat
  obtain ⟨log, hreading⟩ := reading_of_parse hread
  have hfaults : p.walk.faults = [] := by
    rw [(analyse_of_parse hread).1] at hresult
    simpa using hresult
  have hflat : p.flattened.walk.faults = [] := (Item.walkAll_flattened hfaults).1
  have htable : p.flattened.walk.table = p.walk.table := (Item.walkAll_flattened hfaults).2
  have hshows : ∀ i ∈ p.flattened.items, i.Every Expr.Shows :=
    Program.every_flattened fun i hi => (Reading.built_ofText hreading i hi).every.mono fun _ =>
      Expr.Built.shows
  obtain ⟨lines, hanalyse⟩ := Program.analyse_eq hshows
  have hnested : nested.2.2.table = p.walk.table := table_of_parse hread
  have hdepth : nested.2.2.table.depth = 0 := by rw [hnested, p.depth_walk]
  refine ⟨?_, ?_, hdepth, by rw [Table.length_scopes, hdepth]⟩
  · simp [flat, analyse, holding, hanalyse, hflat]
  · rw [hnested]
    simp [flat, analyse, holding, hanalyse, htable]

/-- Statements of every kind stand around the assignments, which use and change the value of a
variable. -/
theorem analyse_flattened_nested :
    let code :=
  "ent x;x=1;si(x>0)\x7bmientras(x<5)\x7b\x7bx=x+1;\x7d\x7d\x7doNo\x7brepetir(3)\x7bx=x*5;\x7d\x7d"
    ∃ p, (empty.parse [] code).2.program = some p ∧ (empty.parse [] code).2.analyse.1 = .ok true ∧
      (empty.holding p.flattened).analyse.1 = .ok true ∧
      (empty.holding p.flattened).analyse.2.2.table =
      (empty.parse [] code).2.analyse.2.2.table := by
  intro code
  let x (column : Nat) : Name := ⟨"x", ⟨1, column⟩, .blank⟩
  let number (n : Nat) (column : Nat) : Expr := .number (.whole n) ⟨1, column⟩
  let first : Stmt := .whileLoop (.operation .lt (.use (x 28)) (number 5 30))
    [.block [.assign (x 34) (.operation .add (.use (x 36)) (number 1 38)) none]]
  let second : Stmt := .repeatLoop 3 ⟨1, 55⟩
    [.assign (x 58) (.operation .mul (.use (x 60)) (number 5 62)) none]
  let p : Program := ⟨[.declaration .ent none [x 5], .statement (.assign (x 7) (number 1 9) none),
    .statement (.conditional (.operation .gt (.use (x 14)) (number 0 16)) [first] (some [second]))]⟩
  have hread : (empty.parse [] code).2.program = some p := by
    simp only [code]
    rfl
  have hfaults : p.walk.faults.isEmpty = true := by decide +kernel
  have hresult := (analyse_of_parse hread).1
  rw [hfaults] at hresult
  obtain ⟨hflat, htable, -⟩ := analyse_flattened empty empty _ p hread hresult
  exact ⟨p, hread, hresult, hflat, htable⟩

end Session

end Analizador
