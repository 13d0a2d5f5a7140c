import Analizador.Attribution
import Analizador.Proofs.Walk
import Analizador.Proofs.Walk.Outcomes

/-! # Two ways to declare

Declarations that are assembled from nodes can be visited by the walk, or handed to the rule for
declarations. The walk keeps a list of all names that it has declared. The rule keeps the names of
one list of identifiers at a time and looks up in the table what it declared before. Both enrol the
same identifiers and report the same ones, since in a table of one scope the three memories hold the
same names. -/

namespace Analizador

/-! ## Tables of one scope -/

namespace Table

variable {κ σ : Type}

/-- A table of one scope, whose names have entries. -/
structure Single (t : Table κ σ) : Prop where
  outer : t.outer = []
  numbered : ∀ e ∈ t.scope, e.2 < t.entries.size

/-- The names of the innermost scope. -/
def names (t : Table κ σ) : List κ := t.scope.map Prod.fst

theorem single_empty : (empty : Table κ σ).Single := ⟨rfl, by simp [empty]⟩

variable [BEq κ] {t t' : Table κ σ} {name : κ} {entry : σ}

/-- A name is found if it is among the bound ones. -/
theorem isSome_find? (b : Bindings κ) (name : κ) :
    (b.find? name).isSome = (b.map Prod.fst).any (name == ·) := by
  induction b with
  | nil => rfl
  | cons e b ih =>
    obtain ⟨key, number⟩ := e
    unfold Bindings.find? at ih ⊢
    rw [List.lookup_cons]
    by_cases hkey : (name == key) = true
    · simp [hkey]
    · simp [hkey, ih]

theorem mem_of_find? {b : Bindings κ} {number : Nat} (h : b.find? name = some number) :
    ∃ e ∈ b, e.2 = number := by
  induction b with
  | nil => cases h
  | cons e b ih =>
    obtain ⟨key, first⟩ := e
    unfold Bindings.find? at h ih
    rw [List.lookup_cons] at h
    by_cases hkey : (name == key) = true
    · rw [hkey] at h
      exact ⟨_, List.mem_cons_self, Option.some.inj h⟩
    · rw [Bool.eq_false_iff.mpr hkey] at h
      obtain ⟨e, he, hnumber⟩ := ih h
      exact ⟨e, List.mem_cons_of_mem _ he, hnumber⟩

/-- A name is found in a table of one scope exactly if the scope has it. -/
theorem Single.isSome_lookup (h : t.Single) (name : κ) :
    (t.lookup name).isSome = t.names.any (name == ·) := by
  have hlocate : t.locate? name = t.scope.find? name := by
    rw [locate?, h.outer]
    cases hfind : t.scope.find? name <;> simp [hfind]
  rw [names, ← isSome_find?, lookup, hlocate]
  cases hfind : t.scope.find? name with
  | none => rfl
  | some number =>
    obtain ⟨e, he, rfl⟩ := mem_of_find? hfind
    simp [h.numbered e he]

/-- An insertion fails for the names that the scope has, and for no other. -/
theorem insert?_eq_none_iff : t.insert? name entry = none ↔ t.names.any (name == ·) = true := by
  rw [names, ← isSome_find?, insert?]
  split
  next h => simp [h]
  next h => simp [h]

/-- A new name is bound behind the others. -/
theorem names_insert? (h : t.insert? name entry = some t') : t'.names = t.names ++ [name] := by
  unfold insert? at h
  split at h
  next => cases h
  next hfree =>
    obtain rfl := Option.some.inj h
    simp [names, Bindings.put_of_find?_eq_none (by simpa using hfree)]

/-- An insertion leaves a table with a single scope. -/
theorem Single.insert? (hsingle : t.Single) (h : t.insert? name entry = some t') : t'.Single := by
  unfold Table.insert? at h
  split at h
  next => cases h
  next hfree =>
    obtain rfl := Option.some.inj h
    refine ⟨hsingle.outer, ?_⟩
    intro e he
    simp only [Bindings.put_of_find?_eq_none (by simpa using hfree), List.mem_append,
      List.mem_singleton] at he
    rw [Array.size_push]
    rcases he with he | rfl
    · have hlt := hsingle.numbered e he
      omega
    · exact Nat.lt_succ_self _

end Table

/-! ## Assembled declarations -/

namespace Assembled

/-- An identifier of a declaration, where its node is in a graph. -/
structure Part where
  id : Nat
  name : String
  line : Datum
  column : Datum

/-- A list of identifiers: the names that it is said to have, and its identifiers. -/
structure Listing where
  id : Nat
  names : List String
  parts : List Part

/-- A declaration of lists of identifiers with a type. -/
structure Declaration where
  id : Nat
  ty : String
  lists : List Listing

/-- The node of an identifier. -/
def Part.node (p : Part) : Datum := .node .identifier p.id

/-- The node of a list. -/
def Listing.node (l : Listing) : Datum := .node .identifierList l.id

/-- The node of a declaration. -/
def Declaration.node (d : Declaration) : Datum := .node .declaration d.id

/-- The graph has the identifier. -/
structure Part.In (p : Part) (g : Graph) : Prop where
  name : g.attr? p.node "name" = some (.ofText p.name)
  line : g.attr? p.node "line" = some p.line
  column : g.attr? p.node "column" = some p.column

/-- The graph has the list; the type that it has got, if any, can be printed. -/
structure Listing.In (l : Listing) (g : Graph) : Prop where
  names : g.attr? l.node "identifiers" = some (.list (l.names.map .ofText))
  children : g.attr? l.node "children" = some (.list (l.parts.map Part.node))
  type : ∃ ty shown, g.attr? l.node "type" = some ty ∧ ty.render = .ok shown
  parts : ∀ p ∈ l.parts, p.In g

/-- The graph has the declaration, which has a type. -/
structure Declaration.In (d : Declaration) (g : Graph) : Prop where
  typed : d.ty ≠ ""
  type : g.attr? d.node "var_type" = some (.ofText d.ty)
  children : g.attr? d.node "children" = some (.list (d.lists.map Listing.node))
  lists : ∀ l ∈ d.lists, l.In g

section

variable {g : Graph} {id : Nat} {ty : String}

/-! Giving a node a type takes nothing away. -/

/-- Giving a type to some node leaves an identifier what it is. -/
theorem Part.In.fill {p : Part} (h : p.In g) : p.In (g.fill id "type" (.ofText ty)) where
  name := (Graph.attr?_fill_of_ne (by decide) p.id).trans h.name
  line := (Graph.attr?_fill_of_ne (by decide) p.id).trans h.line
  column := (Graph.attr?_fill_of_ne (by decide) p.id).trans h.column

/-- So with a list of identifiers. -/
theorem Listing.In.fill {l : Listing} (h : l.In g) : l.In (g.fill id "type" (.ofText ty)) where
  names := (Graph.attr?_fill_of_ne (by decide) l.id).trans h.names
  children := (Graph.attr?_fill_of_ne (by decide) l.id).trans h.children
  type := by
    obtain ⟨old, shown, hold, hshown⟩ := h.type
    by_cases hid : l.id = id
    · subst hid
      exact ⟨_, ty, Graph.attr?_fill_self hold, rfl⟩
    · exact ⟨old, shown, ((Graph.sameAt_fill hid).attr? _ _).trans hold, hshown⟩
  parts p hp := (h.parts p hp).fill

/-- So with a declaration. -/
theorem Declaration.In.fill {d : Declaration} (h : d.In g) :
    d.In (g.fill id "type" (.ofText ty)) where
  typed := h.typed
  type := (Graph.attr?_fill_of_ne (by decide) d.id).trans h.type
  children := (Graph.attr?_fill_of_ne (by decide) d.id).trans h.children
  lists l hl := (h.lists l hl).fill

end

/-- The walk visits declarations in order. -/
def visitAll (ds : List Declaration) : Work Unit :=
  (ds.map Declaration.node).forM fun d => do let _ ← Walk.visit .checking d

/-- Declarations are handed to their rule in order. -/
def handleAll (ds : List Declaration) : Work Unit :=
  (ds.map Declaration.node).forM fun d => do let _ ← Attribution.declaration d

/-! ## Enrolling identifiers -/

/-- What declarations work on. -/
structure Stock where
  graph : Graph
  table : Table Datum Record
  ledger : Ledger

/-- The record of an identifier that is declared with a type. -/
def Part.record (p : Part) (ty : String) : Record :=
  ⟨.ofText p.name, .ofText ty, .none, p.line, p.column⟩

/-- The report of an identifier whose name is taken. -/
def Part.repeated (p : Part) : Diagnostic :=
  ⟨.redeclared, .ofText (Diagnostic.redeclaredMessage p.name), p.line, p.column⟩

namespace Stock

/-- An identifier gets its type and a place in the table; if its name is taken, it is reported
instead. -/
def enrol (ty : String) (s : Stock) (p : Part) : Stock :=
  match s.table.insert? (.ofText p.name) (p.record ty) with
  | some table => { s with table, graph := s.graph.fill p.id "type" (.ofText ty) }
  | none => { s with ledger := s.ledger.add p.repeated }

/-- A list gets its type, and then its identifiers are enrolled; a list without names is passed
over. -/
def enrolList (ty : String) (s : Stock) (l : Listing) : Stock :=
  if l.names = [] then s
  else l.parts.foldl (enrol ty) { s with graph := s.graph.fill l.id "type" (.ofText ty) }

/-- The lists of a declaration are enrolled in order. -/
def enrolDeclaration (s : Stock) (d : Declaration) : Stock := d.lists.foldl (enrolList d.ty) s

/-- The table has one scope, and the declarations to be made are there. -/
structure Ready (ds : List Declaration) (s : Stock) : Prop where
  single : s.table.Single
  held : ∀ d ∈ ds, d.In s.graph

variable {ds : List Declaration} {s : Stock}

/-- A stock stays ready when a node gets its type. -/
theorem Ready.fill (h : s.Ready ds) (id : Nat) (ty : String) :
    Ready ds { s with graph := s.graph.fill id "type" (.ofText ty) } where
  single := h.single
  held d hd := (h.held d hd).fill

/-- A stock stays ready when an identifier is put into it. -/
theorem Ready.enrol (h : s.Ready ds) (ty : String) (p : Part) : (s.enrol ty p).Ready ds := by
  unfold Stock.enrol
  split
  next table hinsert => exact ⟨h.single.insert? hinsert, (h.fill p.id ty).held⟩
  next => exact ⟨h.single, h.held⟩

/-- A workshop has the stock at hand. -/
structure At (s : Stock) (w : Workshop) : Prop where
  graph : w.graph = s.graph
  table : w.table = s.table
  ledger : w.ledger = some s.ledger

end Stock

/-! ## Steps of both -/

section

variable {p : Part} {w : Workshop} {E : Failure → Prop}

/-- An identifier whose name is taken is reported. -/
theorem leads_reportRedeclared {l : Ledger} {Q : Unit → Workshop → Prop} (hp : p.In w.graph)
    (hledger : w.ledger = some l) (h : Q () { w with ledger := some (l.add p.repeated) }) :
    Work.Leads (Work.reportRedeclared (.ofText p.name) p.node) w Q E := by
  unfold Work.reportRedeclared
  refine Work.leads_attr_bind hp.line ?_
  refine Work.leads_attr_bind hp.column ?_
  rw [Work.leads_bind]
  exact Work.leads_report hledger h

/-- An identifier whose name is new gets its type and its place. -/
theorem leads_enter {α : Type} {ty : String} {table : Table Datum Record} {next : Work α}
    {Q : α → Workshop → Prop} (hp : p.In w.graph)
    (hinsert : w.table.insert? (.ofText p.name) (p.record ty) = some table)
    (hnext : ∀ log, Work.Leads next
      { w with table, log, graph := w.graph.fill p.id "type" (.ofText ty) } Q E) :
    Work.Leads (do
      Work.setAttr p.node "type" (.ofText ty)
      let line ← Work.attr p.node "line"
      let column ← Work.attr p.node "column"
      let _ ← Work.insert ⟨.ofText p.name, .ofText ty, .none, line, column⟩
      next) w Q E := by
  have hfilled : p.In (w.graph.fill p.id "type" (.ofText ty)) := hp.fill
  rw [Work.leads_bind, Part.node, Work.leads_setAttr]
  refine Work.leads_attr_bind hfilled.line ?_
  refine Work.leads_attr_bind hfilled.column ?_
  rw [Work.leads_bind]
  unfold Part.record at hinsert
  unfold Work.Leads at hnext ⊢
  rw [Work.perform_insert]
  simp only [hinsert]
  exact hnext _

end

namespace Stock

variable {ds : List Declaration} {s : Stock} {w : Workshop} {p : Part}

/-- A name that the table has. -/
abbrev Taken (s : Stock) (name : String) : Prop := s.table.names.any (Datum.ofText name).same = true

/-- A name that is taken is reported and changes nothing else. -/
theorem enrol_of_taken (h : s.Taken p.name) (ty : String) :
    s.enrol ty p = { s with ledger := s.ledger.add p.repeated } := by
  have hnone : s.table.insert? (.ofText p.name) (p.record ty) = none :=
    Table.insert?_eq_none_iff.mpr h
  rw [enrol, hnone]

/-- A name that is free gets an entry, and its identifier a type. -/
theorem enrol_of_not_taken (h : ¬ s.Taken p.name) (ty : String) :
    ∃ table, s.table.insert? (.ofText p.name) (p.record ty) = some table ∧
      s.enrol ty p = { s with table, graph := s.graph.fill p.id "type" (.ofText ty) } := by
  cases hinsert : s.table.insert? (.ofText p.name) (p.record ty) with
  | none => exact absurd (Table.insert?_eq_none_iff.mp hinsert) h
  | some table => exact ⟨table, rfl, by rw [enrol, hinsert]⟩

/-! ## The walk -/

/-- The walk remembers the names that the table has. -/
structure Walked (ds : List Declaration) (s : Stock) (w : Workshop) :
    Prop extends s.Ready ds, s.At w where
  declared : w.declared = s.table.names

theorem Walked.relog (h : s.Walked ds w) (log : List String) : s.Walked ds { w with log } :=
  ⟨h.toReady, ⟨h.graph, h.table, h.ledger⟩, h.declared⟩

/-- The walk declares an identifier as the stock does. -/
theorem Walked.leads_declare (h : s.Walked ds w) (hp : p.In s.graph) (ty : String) :
    Work.Leads (Walk.declare (.ofText ty) p.node) w (fun _ w' => (s.enrol ty p).Walked ds w')
      (fun _ => False) := by
  have hready := h.toReady.enrol ty p
  rw [← h.graph] at hp
  unfold Walk.declare
  rw [Work.leads_bind, Work.leads_attr?, hp.name]
  simp only [Work.leads_bind, Work.leads_get, h.declared]
  by_cases htaken : s.Taken p.name
  · rw [enrol_of_taken htaken] at hready ⊢
    rw [if_pos htaken]
    exact leads_reportRedeclared hp h.ledger ⟨hready, ⟨h.graph, h.table, rfl⟩, h.declared⟩
  · obtain ⟨table, hinsert, henrol⟩ := enrol_of_not_taken htaken ty
    rw [henrol] at hready ⊢
    rw [if_neg htaken]
    apply leads_enter hp (h.table ▸ hinsert)
    intro log
    refine ⟨hready, ⟨congrArg (Graph.fill · _ _ _) h.graph, rfl, h.ledger⟩, ?_⟩
    rw [Table.names_insert? hinsert, ← h.declared]

/-- A workshop with the stock at hand, after a node of it has got a type. -/
theorem At.fill (h : s.At w) (id : Nat) (ty : String) :
    At { s with graph := s.graph.fill id "type" (.ofText ty) }
      { w with graph := w.graph.fill id "type" (.ofText ty) } where
  graph := congrArg (Graph.fill · _ _ _) h.graph
  table := h.table
  ledger := h.ledger

theorem isTrue_names (l : Listing) :
    (Datum.list (l.names.map .ofText)).isTrue = true ↔ l.names ≠ [] := by
  simp [Datum.isTrue]

/-- The walk declares a list of identifiers as the stock does. -/
theorem Walked.leads_declareList (h : s.Walked ds w) {d : Declaration} (hd : d ∈ ds) {l : Listing}
    (hl : l ∈ d.lists) :
    Work.Leads (Walk.declareList (.ofText d.ty) l.node) w
      (fun _ w' => (s.enrolList d.ty l).Walked ds w') (fun _ => False) := by
  have hin : l.In w.graph := h.graph ▸ (h.held d hd).lists l hl
  unfold Walk.declareList enrolList
  rw [Work.leads_bind, Work.leads_attr?, hin.names, Option.getD_some]
  by_cases hnames : l.names = []
  · rw [if_pos hnames, if_neg (by simpa [isTrue_names] using hnames)]
    exact h
  · rw [if_neg hnames, if_pos ((isTrue_names l).mpr hnames), Work.leads_bind, Listing.node,
      Work.leads_setAttr]
    refine Work.leads_attr_bind hin.fill.children ?_
    rw [Work.leads_bind]
    refine Work.leads_forM ?_ ⟨h.toReady.fill l.id d.ty, h.toAt.fill l.id d.ty, h.declared⟩
    intro p hp s w h
    exact h.leads_declare (((h.held d hd).lists l hl).parts p hp) d.ty

theorem render_names (names : List String) :
    ∃ shown, (Datum.list (names.map .ofText)).render = .ok shown := by
  have hquoted : Datum.quotedAll (names.map .ofText) = .ok (names.map Text.quoted) := by
    induction names with
    | nil => rfl
    | cons name names ih =>
      rw [List.map_cons, Datum.quotedAll, ih]
      rfl
  refine ⟨"[" ++ ", ".intercalate (names.map Text.quoted) ++ "]", ?_⟩
  simp only [Datum.render, Datum.quoted, hquoted]
  rfl

/-- To visit a list of identifiers is to log it. -/
theorem Walked.leads_identifierList (h : s.Walked ds w) {d : Declaration} (hd : d ∈ ds)
    {l : Listing} (hl : l ∈ d.lists) :
    Work.Leads (Walk.identifierList l.node) w (fun _ w' => s.Walked ds w') (fun _ => False) := by
  have hin : l.In w.graph := h.graph ▸ (h.held d hd).lists l hl
  obtain ⟨ty, shown, hty, hshown⟩ := hin.type
  obtain ⟨names, hnames⟩ := render_names l.names
  unfold Walk.identifierList
  rw [Work.leads_bind, Work.leads_say]
  refine Work.leads_attr_bind hty ?_
  rw [hshown, Work.leads_bind]
  refine Work.leads_sayText ?_ (fun _ h => by cases h)
  intro _ _
  rw [Work.leads_bind, Work.leads_attr?]
  simp only [hin.names, hnames]
  exact h.relog _

theorem isTrue_lists (d : Declaration) :
    (Datum.list (d.lists.map Listing.node)).isTrue = true ↔ d.lists ≠ [] := by
  simp [Datum.isTrue]

/-- The walk enrols the lists of a declaration. -/
theorem Walked.leads_visit (h : s.Walked ds w) {d : Declaration} (hd : d ∈ ds) :
    Work.Leads (Walk.visit .checking d.node) w (fun _ w' => (s.enrolDeclaration d).Walked ds w')
      (fun _ => False) := by
  have hin : d.In w.graph := h.graph ▸ h.held d hd
  rw [Walk.leads_visit]
  change Work.Leads (Walk.declaration (Walk.visitWithin .checking _) d.node) w _ _
  unfold Walk.declaration
  refine Work.leads_attr_bind hin.type ?_
  rw [Work.leads_bind]
  refine Work.leads_sayText ?_ (fun _ h => by cases h)
  intro _ _
  refine Work.leads_attr_bind hin.children ?_
  simp only [Datum.length, Datum.items, Work.leads_bind, Work.leads_ok, Work.leads_say]
  unfold enrolDeclaration
  by_cases hlists : d.lists = []
  · rw [hlists]
    exact h.relog _
  · simp only [(isTrue_lists d).mpr hlists, Bool.not_true, Bool.false_eq_true, if_false,
      Work.leads_bind, Work.leads_ok]
    refine Work.Leads.mono (Work.leads_forM (I := Walked ds) (g := enrolList d.ty) ?_
      (h.relog _)) ?_
    · intro l hl s w h
      exact h.leads_declareList hd hl
    intro _ w' hdeclared
    -- the lists are visited once more, which changes nothing
    refine Work.leads_forM (I := fun (_ : Unit) w'' =>
      (d.lists.foldl (enrolList d.ty) s).Walked ds w'') (s := ()) (g := fun _ _ => ()) ?_ hdeclared
    intro l hl _ w'' hw''
    rw [Work.leads_bind]
    exact hw''.leads_identifierList hd hl

/-! ## The rule for declarations -/

/-- The names that the rule has met in a list are in the table. -/
structure Handled (ds : List Declaration) (done : List Datum) (s : Stock) (w : Workshop) : Prop
    extends s.Ready ds, s.At w where
  met : ∀ d ∈ done, ∃ name, d = .ofText name ∧ s.Taken name

theorem Handled.relog {done : List Datum} (h : s.Handled ds done w) (log : List String) :
    s.Handled ds done { w with log } :=
  ⟨h.toReady, ⟨h.graph, h.table, h.ledger⟩, h.met⟩

/-- An identifier that is put into the stock takes its name. -/
theorem taken_enrol (s : Stock) (p : Part) (ty : String) {name : String}
    (h : s.Taken name ∨ name = p.name) :
    (s.enrol ty p).Taken name := by
  by_cases htaken : s.Taken p.name
  · rw [enrol_of_taken htaken]
    rcases h with h | rfl
    · exact h
    · exact htaken
  · obtain ⟨table, hinsert, henrol⟩ := enrol_of_not_taken htaken ty
    rw [henrol, Taken, Table.names_insert? hinsert, List.any_append, Bool.or_eq_true]
    rcases h with h | rfl
    · exact .inl h
    · exact .inr (List.any_eq_true.mpr ⟨_, List.mem_singleton_self _, Datum.same_ofText.mpr rfl⟩)

/-- The rule declares an identifier as the stock does. -/
theorem Handled.leads_declarePart {done : List Datum} (h : s.Handled ds done w) (hp : p.In s.graph)
    (ty : String) :
    Work.Leads (Attribution.declarePart (.ofText ty) done p.node) w
      (fun done' w' => (s.enrol ty p).Handled ds done' w') (fun _ => False) := by
  have hready := h.toReady.enrol ty p
  have hmet (d) (hd : d ∈ done) : ∃ name, d = .ofText name ∧ (s.enrol ty p).Taken name := by
    obtain ⟨name, hname, htaken⟩ := h.met d hd
    exact ⟨name, hname, taken_enrol s p ty (.inl htaken)⟩
  have hmet' (d) (hd : d ∈ done ++ [Datum.ofText p.name]) : ∃ name, d = .ofText name ∧
      (s.enrol ty p).Taken name := by
    rcases List.mem_append.mp hd with hd | hd
    · exact hmet d hd
    · exact ⟨p.name, List.mem_singleton.mp hd, taken_enrol s p ty (.inr rfl)⟩
  rw [← h.graph] at hp
  unfold Attribution.declarePart
  rw [Work.leads_bind, Work.leads_attr?, hp.name]
  by_cases hdone : done.any (Datum.ofText p.name).same = true
  · obtain ⟨d, hd, hsame⟩ := List.any_eq_true.mp hdone
    obtain ⟨name, rfl, htaken⟩ := h.met d hd
    obtain rfl := Datum.same_ofText.mp hsame
    rw [enrol_of_taken htaken] at hready hmet ⊢
    simp only [if_pos hdone, Work.leads_bind]
    exact leads_reportRedeclared hp h.ledger ⟨hready, ⟨h.graph, h.table, rfl⟩, hmet⟩
  · simp only [if_neg hdone, Work.leads_bind, Work.leads_lookup, h.table]
    by_cases htaken : s.Taken p.name
    · have hsome : (s.table.lookup (.ofText p.name)).isSome = true :=
        (h.single.isSome_lookup _).trans htaken
      obtain ⟨r, hr⟩ := Option.isSome_iff_exists.mp hsome
      rw [enrol_of_taken htaken] at hready hmet' ⊢
      rw [hr]
      simp only [Work.leads_bind]
      exact leads_reportRedeclared hp h.ledger ⟨hready, ⟨h.graph, h.table, rfl⟩, hmet'⟩
    · have hnone : s.table.lookup (.ofText p.name) = none := by
        rw [← Option.not_isSome_iff_eq_none, h.single.isSome_lookup]
        exact htaken
      obtain ⟨table, hinsert, henrol⟩ := enrol_of_not_taken htaken ty
      rw [henrol] at hready hmet' ⊢
      rw [hnone]
      apply leads_enter hp (h.table ▸ hinsert)
      intro log
      exact ⟨hready, ⟨congrArg (Graph.fill · _ _ _) h.graph, rfl, h.ledger⟩, hmet'⟩

/-- The rule declares a list of identifiers as the stock does. -/
theorem Handled.leads_identifierList (h : s.Handled ds [] w) {d : Declaration} (hd : d ∈ ds)
    {l : Listing} (hl : l ∈ d.lists) (htype : w.graph.attr? l.node "type" = some (.ofText d.ty)) :
    Work.Leads (Attribution.identifierList l.node) w
      (fun _ w' => (l.parts.foldl (enrol d.ty) s).Handled ds [] w') (fun _ => False) := by
  have hin : l.In w.graph := h.graph ▸ (h.held d hd).lists l hl
  have htyped : (Datum.ofText d.ty).isTrue = true := by
    simpa [Datum.isTrue, Constant.isTrue] using (h.held d hd).typed
  unfold Attribution.identifierList
  rw [Work.leads_bind, Work.leads_attr?, htype]
  simp only [Option.getD_some, htyped, Bool.not_true, Bool.false_eq_true, if_false]
  refine Work.leads_attr_bind hin.children ?_
  simp only [Datum.items, Work.leads_bind, Work.leads_ok]
  refine Work.Leads.mono (Work.leads_foldlM (I := Handled ds) (g := enrol d.ty) ?_ h) ?_
  · intro p hp done s w h
    exact h.leads_declarePart (((h.held d hd).lists l hl).parts p hp) d.ty
  · intro done w' h'
    exact ⟨h'.toReady, h'.toAt, by simp⟩

/-- The rule declares all lists of a declaration. -/
theorem Handled.leads_declaration (h : s.Handled ds [] w) {d : Declaration} (hd : d ∈ ds) :
    Work.Leads (Attribution.declaration d.node) w
      (fun _ w' => (s.enrolDeclaration d).Handled ds [] w') (fun _ => False) := by
  have hin : d.In w.graph := h.graph ▸ h.held d hd
  unfold Attribution.declaration enrolDeclaration
  refine Work.leads_attr_bind hin.type ?_
  refine Work.leads_attr_bind hin.children ?_
  by_cases hlists : d.lists = []
  · rw [hlists]
    exact h
  · simp only [(isTrue_lists d).mpr hlists, Bool.not_true, Bool.false_eq_true, if_false,
      Datum.items, Work.leads_bind, Work.leads_ok, Work.leads_pure]
    apply Work.leads_forM (I := Handled ds []) (g := enrolList d.ty) _ h
    intro l hl s w h
    have hlist : l.In w.graph := h.graph ▸ (h.held d hd).lists l hl
    unfold enrolList
    rw [Work.leads_bind, Work.leads_attr?, hlist.names, Option.getD_some]
    by_cases hnames : l.names = []
    · rw [if_pos hnames, if_neg (by simpa [isTrue_names] using hnames)]
      exact h
    · rw [if_neg hnames, if_pos ((isTrue_names l).mpr hnames), Work.leads_bind, Listing.node,
        Work.leads_setAttr, Work.leads_bind]
      apply Handled.leads_identifierList ⟨h.toReady.fill l.id d.ty, h.toAt.fill l.id d.ty,
        h.met⟩ hd hl
      exact Graph.attr?_fill_self hlist.names

/-! ## Any declarations -/

/-- The walk over all declarations comes to the stock with all of them. -/
theorem Walked.leads_visitAll (h : s.Walked ds w) :
    Work.Leads (visitAll ds) w (fun _ w' => (ds.foldl enrolDeclaration s).Walked ds w')
      (fun _ => False) := by
  apply Work.leads_forM (I := Walked ds) _ h
  intro d hd s w h
  rw [Work.leads_bind]
  exact h.leads_visit hd

/-- The rules for all declarations come to the same stock. -/
theorem Handled.leads_handleAll (h : s.Handled ds [] w) :
    Work.Leads (handleAll ds) w (fun _ w' => (ds.foldl enrolDeclaration s).Handled ds [] w')
      (fun _ => False) := by
  apply Work.leads_forM (I := Handled ds []) _ h
  intro d hd s w h
  rw [Work.leads_bind]
  exact h.leads_declaration hd

end Stock

/-- From an empty table, the walk and the rule for declarations both come to an end on any
declarations, and leave the same types on the nodes, the same table and the same reports: those of
enrolling the identifiers one by one. -/
theorem visitAll_eq_handleAll {ds : List Declaration} {w : Workshop} {l : Ledger}
    (hds : ∀ d ∈ ds, d.In w.graph) (htable : w.table = .empty) (hdeclared : w.declared = [])
    (hledger : w.ledger = some l) :
    ∃ v r, (visitAll ds).perform w = (.ok (), v) ∧ (handleAll ds).perform w = (.ok (), r) ∧
      v.graph = r.graph ∧ v.table = r.table ∧ v.ledger = r.ledger ∧
      (ds.foldl Stock.enrolDeclaration ⟨w.graph, .empty, l⟩).At v := by
  have hready : Stock.Ready ds ⟨w.graph, .empty, l⟩ := ⟨Table.single_empty, hds⟩
  have hat : Stock.At ⟨w.graph, .empty, l⟩ w := ⟨rfl, htable, hledger⟩
  have hwalk := Stock.Walked.leads_visitAll ⟨hready, hat, hdeclared⟩
  have hrule := Stock.Handled.leads_handleAll ⟨hready, hat, by simp⟩
  obtain ⟨_, v, hv, hvisited⟩ := hwalk.exists_perform
  obtain ⟨_, r, hr, hhandled⟩ := hrule.exists_perform
  exact ⟨v, r, hv, hr, hvisited.graph.trans hhandled.graph.symm,
    hvisited.table.trans hhandled.table.symm, hvisited.ledger.trans hhandled.ledger.symm,
    hvisited.toAt⟩

/-- An identifier is repeated in its list, in the next list and in the next declaration. -/
theorem visitAll_eq_handleAll_repeated :
    let x (id : Nat) (column : Int) : Part := ⟨id, "x", .ofInt 1, .ofInt column⟩
    let y : Part := ⟨9, "y", .ofInt 2, .ofInt 5⟩
    let ds : List Declaration :=
      [⟨0, "ent", [⟨1, ["x", "x"], [x 2 1, x 3 2]⟩, ⟨4, ["x"], [x 5 3]⟩]⟩,
        ⟨6, "dec", [⟨7, ["x", "y"], [x 8 4, y]⟩]⟩]
    let part (p : Part) : Node :=
      ⟨.identifier, [("name", .ofText p.name), ("line", p.line), ("column", p.column),
        ("type", .none)]⟩
    let listing (l : Listing) : Node :=
      ⟨.identifierList, [("children", .list (l.parts.map Part.node)),
        ("identifiers", .list (l.names.map .ofText)), ("type", .none)]⟩
    let declaration (d : Declaration) : Node :=
      ⟨.declaration, [("children", .list (d.lists.map Listing.node)), ("var_type", .ofText d.ty)]⟩
    let nodes := ds.flatMap fun d => declaration d :: d.lists.flatMap fun l =>
      listing l :: l.parts.map part
    let w : Workshop := { Workshop.empty with graph := ⟨nodes.toArray, 0⟩ }
    (∀ d ∈ ds, d.In w.graph) ∧ ∃ v r, (visitAll ds).perform w = (.ok (), v) ∧
      (handleAll ds).perform w = (.ok (), r) ∧ v.graph = r.graph ∧ v.table = r.table ∧
      v.ledger = r.ledger ∧ v.table.entries = #[(x 2 1).record "ent", y.record "dec"] ∧
      v.ledger = some { semantic := [(x 3 2).repeated, (x 5 3).repeated, (x 8 4).repeated] } := by
  intro x y ds part listing declaration nodes w
  have hparts (l : Listing) (hl : l ∈ ds.flatMap Declaration.lists) :
      ∀ p ∈ l.parts, p.In w.graph := by
    simp only [ds, List.flatMap_cons, List.flatMap_nil, List.append_nil, List.cons_append,
      List.nil_append, List.mem_cons, List.not_mem_nil, or_false] at hl
    rcases hl with rfl | rfl | rfl <;> simp only [List.forall_mem_cons, List.not_mem_nil]
    · exact ⟨⟨rfl, rfl, rfl⟩, ⟨rfl, rfl, rfl⟩, by simp⟩
    · exact ⟨⟨rfl, rfl, rfl⟩, by simp⟩
    · exact ⟨⟨rfl, rfl, rfl⟩, ⟨rfl, rfl, rfl⟩, by simp⟩
  have hlists (d : Declaration) (hd : d ∈ ds) : ∀ l ∈ d.lists, l.In w.graph := by
    intro l hl
    have hmem : l ∈ ds.flatMap Declaration.lists := List.mem_flatMap.mpr ⟨d, hd, hl⟩
    refine ⟨?_, ?_, ⟨.none, "None", ?_, rfl⟩, hparts l hmem⟩ <;>
    · simp only [ds, List.flatMap_cons, List.flatMap_nil, List.append_nil, List.cons_append,
        List.nil_append, List.mem_cons, List.not_mem_nil, or_false] at hmem
      rcases hmem with rfl | rfl | rfl <;> rfl
  have hds : ∀ d ∈ ds, d.In w.graph := by
    intro d hd
    have hmem := hd
    simp only [ds, List.mem_cons, List.not_mem_nil, or_false] at hmem
    rcases hmem with rfl | rfl
    · exact ⟨by decide, rfl, rfl, hlists _ hd⟩
    · exact ⟨by decide, rfl, rfl, hlists _ hd⟩
  obtain ⟨v, r, hv, hr, hgraph, htable, hledger, hat⟩ := visitAll_eq_handleAll hds rfl rfl rfl
  exact ⟨hds, v, r, hv, hr, hgraph, htable,
    hledger, by rw [hat.table]; rfl, by rw [hat.ledger]; rfl⟩

end Assembled

end Analizador
