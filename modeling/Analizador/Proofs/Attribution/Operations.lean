import Analizador.Proofs.Attribution.Printable
import Analizador.Proofs.Attribution.Terms

/-! # Two ways to type operations

The walk visits an expression of nodes and judges an operation only where the values of both
operands are known. The rule for operations looks at types alone. Where all values are known, both
give every node the same type and make the same reports, also where operands do not fit, where an
operation has a value but no type, and where an operator is none of the language. -/

namespace Analizador

/-- The leaf is in the graph: a literal with its type and a value, or the use of a variable that the
table has with the type. -/
def Assembled.Leaf.In (id : Nat) (ty : Option String) (table : Table Datum Record) (g : Graph) :
    Leaf → Prop
  | .number => g.attr? (.node .number id) "type" = some (.ofText? ty) ∧
      ∃ value, g.attr? (.node .number id) "value" = some value
  | .text => g.attr? (.node .text id) "type" = some (.ofText? ty) ∧
      ∃ value, g.attr? (.node .text id) "value" = some value
  | .use name => g.attr? (.node .variableUse id) "name" = some (.ofText name) ∧
      ∃ r, table.lookup (.ofText name) = some r ∧ r.ty = .ofText? ty

namespace Assembled.Term

variable {g g' : Graph} {t : Term} {id : Nat} {op : String} {ty lty rty : Option String}
  {line column : Datum}
  {left right : Term} {w w' : Workshop} {l : Ledger} {E : Failure → Prop} {P : Prop}

/-! ## Values -/

/-- The value that a node has, if any. -/
def value (t : Term) (g : Graph) : Datum := (g.attr? t.node "value").getD .none

theorem value_eq {value : Option Datum} (h : g.attr? t.node "value" = value) :
    t.value g = value.getD .none := by
  rw [Term.value, h]

/-- The value of the node can be printed. -/
def Printed (t : Term) (g : Graph) : Prop := (t.value g).Prints

/-- The values that nodes of the expression have, and the values of variables, can be printed. -/
structure Legible (t : Term) (table : Table Datum Record) (g : Graph) : Prop where
  nodes : ∀ p ∈ t.parts, p.Printed g
  table : ∀ name r, table.lookup name = some r → r.value.Prints

/-- The failure to print an integer that is too long, which there is only if `P` does not hold. -/
def Overlong (P : Prop) (f : Failure) : Prop := f = .longInteger ∧ ¬ P

/-- What cannot be rendered is too long, if all else can be printed. -/
theorem overlong_of_render {d : Datum} {f : Failure} (h : d.render = .error f) (hP : P → d.Prints) :
    Overlong P f := by
  refine ⟨Datum.render_error h, ?_⟩
  intro hholds
  obtain ⟨shown, hshown⟩ := hP hholds
  rw [h] at hshown
  cases hshown

/-- Every operand of an operation in the expression has a value. -/
def Known (t : Term) (g : Graph) : Prop := ∀ p ∈ t.operands, (p.value g).isNone = false

/-- The value that an operation gets, unless it keeps the one it has. -/
def outcome (op : String) (whole : Bool) (a b : Datum) : Option Datum :=
  match Operator.ofSign? op with
  | none => none
  | some sign =>
    match sign.calculate whole a b with
    | .ok (value, _) => value
    | .error _ => some .none

/-- The outcome of data that can be printed can be printed. -/
theorem prints_of_outcome {whole : Bool} {a b result : Datum} (ha : a.Prints) (hb : b.Prints)
    (h : outcome op whole a b = some result) : result.Prints := by
  unfold outcome at h
  split at h
  next => cases h
  next sign _ =>
    split at h
    next value lines hcalculate =>
      subst h
      exact Operator.prints_of_calculate ha hb hcalculate
    next =>
      obtain rfl := Option.some.inj h
      exact ⟨_, rfl⟩

/-- The graph after an operation has got a value. -/
def revalue (g : Graph) (id : Nat) : Option Datum → Graph
  | some value => g.fill id "value" value
  | none => g

/-- A new value leaves the other attributes alone. -/
theorem attr?_revalue_of_ne {name : String} (h : name ≠ "value") (value : Option Datum)
    (cls : NodeClass) (i : Nat) :
    (revalue g id value).attr? (.node cls i) name = g.attr? (.node cls i) name := by
  cases value with
  | none => rfl
  | some value => exact Graph.attr?_fill_of_ne h i

/-- A new value leaves the other nodes alone. -/
theorem sameAt_revalue {i : Nat} (h : i ≠ id) (value : Option Datum) :
    g.SameAt (revalue g id value) i := by
  cases value with
  | none => rfl
  | some value => exact Graph.sameAt_fill h

theorem attr?_revalue {cls : NodeClass} {name : String} {d : Datum}
    (h : g.attr? (.node cls id) name = some d) (value : Option Datum) :
    (revalue g id value).attr? (.node cls id) "value" =
      value.or (g.attr? (.node cls id) "value") := by
  cases value with
  | none => rfl
  | some value => exact Graph.attr?_fill_self h

/-- A new value leaves an operation what it is. -/
theorem IsOperation.revalue (h : IsOperation g id op ty line column left right)
    (value : Option Datum) :
    IsOperation (revalue g id value) id op ty line column left right where
  operator := (attr?_revalue_of_ne (by decide) value _ _).trans h.operator
  left := (attr?_revalue_of_ne (by decide) value _ _).trans h.left
  right := (attr?_revalue_of_ne (by decide) value _ _).trans h.right
  type := (attr?_revalue_of_ne (by decide) value _ _).trans h.type
  line := (attr?_revalue_of_ne (by decide) value _ _).trans h.line
  column := (attr?_revalue_of_ne (by decide) value _ _).trans h.column

/-- Logged lines are of no account. -/
theorem leads_lines {lines : List String} {Q : Unit → Workshop → Prop}
    (h : ∀ log, Q () { w with log }) :
    Work.Leads (lines.forM Work.say) w Q E := by
  induction lines generalizing w with
  | nil => exact h w.log
  | cons first lines ih => exact ih h

/-- Calculating never fails, since a failure leaves no value. -/
theorem leads_evaluate {whole : Bool} {a b : Datum} {Q : Unit → Workshop → Prop}
    (h : ∀ log, Q () { w with graph := revalue w.graph id (outcome op whole a b), log }) :
    Work.Leads (Walk.evaluate (.node .binary id) (.ofText op) whole a b) w Q E := by
  unfold Walk.evaluate
  unfold outcome at h
  change Work.Leads (match Operator.ofSign? op with | none => _ | some sign => _) w Q E
  cases hop : Operator.ofSign? op with
  | none =>
    rw [hop] at h
    exact h _
  | some sign =>
    simp only [hop] at h
    cases hcalculate : sign.calculate whole a b with
    | error f =>
      simp only [hcalculate] at h
      simp only [hcalculate, Work.leads_bind, Work.leads_say, Work.leads_setAttr]
      exact h _
    | ok result =>
      obtain ⟨value, lines⟩ := result
      simp only [hcalculate] at h ⊢
      cases value with
      | none => exact leads_lines h
      | some value =>
        rw [Work.leads_bind, Work.leads_setAttr]
        exact leads_lines h

/-! ## Operations -/

/-- From one workshop to the other an operation was visited, once its operands were: it has a type,
and where both values are known, it has the type and the value that they give, and its reports were
made. -/
structure Operated (id : Nat) (op : String) (ty : Option String) (line column : Datum)
    (left right : Term) (lty rty : Option String) (w : Workshop) (l : Ledger) (w' : Workshop) :
    Prop where
  table : w'.table = w.table
  frame : ∀ i ≠ id, w.graph.SameAt w'.graph i
  typed : ∃ found, w'.graph.attr? (.node .binary id) "type" = some (.ofText? found)
  ledger : ∃ l', w'.ledger = some l'
  shown : left.Printed w.graph ∧ right.Printed w.graph
  printed : (operation id op ty line column left right).Printed w.graph →
    (operation id op ty line column left right).Printed w'.graph
  known : (left.value w.graph).isNone = false → (right.value w.graph).isNone = false →
    w'.graph.attr? (.node .binary id) "type" = some (.ofText? (settle op ty lty rty)) ∧
    w'.graph.attr? (.node .binary id) "value" =
      (outcome op ((Datum.ofText? lty).isText Ty.ent.name && (Datum.ofText? rty).isText Ty.ent.name)
        (left.value w.graph) (right.value w.graph)).or (w.graph.attr? (.node .binary id) "value") ∧
    w'.ledger = some ((complaints op line column lty rty).foldl Ledger.add l)

/-- An operation whose operands are shown gets its value and its type. -/
theorem leads_conclude (hnode : IsOperation w.graph id op ty line column left right)
    (hledger : w.ledger = some l) (hshown : left.Printed w.graph ∧ right.Printed w.graph) :
    Work.Leads (Walk.conclude (.node .binary id) (.ofText op) (.ofText? lty) (.ofText? rty)
      (left.value w.graph) (right.value w.graph)) w
      (fun _ w' => Operated id op ty line column left right lty rty w l w') E := by
  unfold Walk.conclude
  by_cases hunknown : (left.value w.graph).isNone = true ∨ (right.value w.graph).isNone = true
  · rw [if_pos (by simpa using hunknown)]
    refine ⟨rfl, fun _ _ => rfl, ⟨_, hnode.type⟩, ⟨_, hledger⟩, hshown, fun h => h, ?_⟩
    intro hleft hright
    rw [hleft, hright] at hunknown
    simp at hunknown
  · rw [if_neg (by simpa using hunknown), Work.leads_bind]
    refine leads_evaluate ?_
    intro log
    rw [Work.leads_bind]
    refine leads_typeOperation (hnode.revalue _) hledger ?_
    intro _ g' hretypes
    have hvalue := hretypes.value.trans (attr?_revalue hnode.operator _)
    refine ⟨rfl, ?_, ⟨_, hretypes.type⟩, ⟨_, rfl⟩, hshown, ?_,
      fun _ _ => ⟨hretypes.type, hvalue, rfl⟩⟩
    · intro i hi
      exact (sameAt_revalue hi _).trans (hretypes.frame i hi)
    · intro hprinted
      rw [Printed, value_eq hvalue]
      cases houtcome : outcome op _ (left.value w.graph) (right.value w.graph) with
      | none => exact hprinted
      | some result => exact prints_of_outcome hshown.1 hshown.2 houtcome

/-- An operation is carried out once its operands have their types. -/
theorem leads_operate (hnode : IsOperation w.graph id op ty line column left right)
    (hledger : w.ledger = some l) (hleft : w.graph.attr? left.node "type" = some (.ofText? lty))
    (hright : w.graph.attr? right.node "type" = some (.ofText? rty))
    (hP : P → left.Printed w.graph ∧ right.Printed w.graph) :
    Work.Leads (Walk.operate (.node .binary id)) w
      (fun _ w' => Operated id op ty line column left right lty rty w l w') (Overlong P) := by
  unfold Walk.operate
  refine Work.leads_attr_bind hnode.left ?_
  refine Work.leads_attr_bind hnode.right ?_
  refine Work.leads_attr_bind hleft ?_
  refine Work.leads_attr_bind hright ?_
  rw [Work.leads_bind, Work.leads_attr?, Work.leads_bind, Work.leads_attr?]
  refine Work.leads_attr_bind hnode.operator ?_
  rw [Work.leads_bind]
  refine Work.leads_sayText ?_ ?_
  · intro log hlog
    obtain ⟨leftText, hleftText, hlog⟩ := exists_ok_of_bind hlog
    obtain ⟨_, _, hlog⟩ := exists_ok_of_bind hlog
    obtain ⟨rightText, hrightText, -⟩ := exists_ok_of_bind hlog
    have hnode' :
        IsOperation { w with log := w.log ++ [log] }.graph id op ty line column left right := hnode
    apply (leads_conclude hnode' hledger ⟨⟨leftText, hleftText⟩, rightText, hrightText⟩).mono
    intro _ w' h
    exact ⟨h.table, h.frame, h.typed, h.ledger, h.shown, h.printed, h.known⟩
  · intro f hf
    rcases eq_error_of_bind hf with h | ⟨_, _, hf⟩
    · exact overlong_of_render h fun hholds => (hP hholds).1
    · rcases eq_error_of_bind hf with h | ⟨_, _, hf⟩
      · exact overlong_of_render h fun _ => ⟨_, rfl⟩
      · rcases eq_error_of_bind hf with h | ⟨_, _, hf⟩
        · exact overlong_of_render h fun hholds => (hP hholds).2
        · cases hf

/-! ## Visits -/

/-- The expression is in the graph, each node a node of its own, and the table has its variables. -/
inductive In (table : Table Datum Record) (g : Graph) : Term → Prop where
  | leaf {kind : Leaf} {id : Nat} {ty : Option String} (hleaf : kind.In id ty table g) :
      In table g (leaf kind id ty)
  | operation {id : Nat} {op : String} {ty : Option String} {line column : Datum}
      {left right : Term}
      (hnode : IsOperation g id op ty line column left right)
      (hleft : In table g left) (hright : In table g right)
      (hapart : (id :: (left.ids ++ right.ids)).Nodup) :
      In table g (operation id op ty line column left right)

/-- Whether the node has the type of integers. -/
def isWhole (t : Term) (g : Graph) : Bool := ((g.attr? t.node "type").getD .none).isText Ty.ent.name

/-- The values of the operands can be printed, and an operation on known values has the value that
they give, if they give one. -/
def Valued (g : Graph) : Term → Prop
  | leaf .. => True
  | operation id op _ _ _ left right => (left.Printed g ∧ right.Printed g) ∧
    ((left.value g).isNone = false → (right.value g).isNone = false → ∀ result,
      outcome op (left.isWhole g && right.isWhole g) (left.value g) (right.value g) = some result →
        g.attr? (.node .binary id) "value" = some result)

/-- From one workshop to the other an expression was visited. It is judged if the values in it are
known. -/
structure Visited (t : Term) (w : Workshop) (l : Ledger) (w' : Workshop) : Prop where
  table : w'.table = w.table
  frame : ∀ i ∉ t.ids, w.graph.SameAt w'.graph i
  typed : ∃ found, w'.graph.attr? t.node "type" = some (.ofText? found)
  ledger : ∃ l', w'.ledger = some l'
  printed : t.Legible w.table w.graph → t.Printed w'.graph
  valued : t.Valued w'.graph
  judged : t.Known w'.graph → t.Judged w l w'

/-- A leaf that keeps its type and its place is visited. -/
theorem visited_leaf {kind : Leaf} (htable : w'.table = w.table)
    (hframe : ∀ i ≠ id, w.graph.SameAt w'.graph i)
    (htype : w'.graph.attr? (.node kind.cls id) "type" = some (.ofText? ty))
    (hledger : w'.ledger = some l)
    (hprinted : (leaf kind id ty).Legible w.table w.graph → (leaf kind id ty).Printed w'.graph) :
    (leaf kind id ty).Visited w l w' := by
  have hframe' (i) (hi : i ∉ (leaf kind id ty).ids) : w.graph.SameAt w'.graph i :=
    hframe i fun heq => hi (heq ▸ List.mem_cons_self)
  refine ⟨htable, hframe', ⟨ty, htype⟩, ⟨l, hledger⟩, hprinted, trivial,
    fun _ => ⟨hframe', ?_, hledger⟩⟩
  intro p hp
  obtain rfl := List.mem_singleton.mp hp
  exact htype

theorem render_ofText? (ty : Option String) : ∃ shown, (Datum.ofText? ty).render = .ok shown := by
  cases ty with
  | none => exact ⟨_, rfl⟩
  | some s => exact ⟨s, rfl⟩

/-- A literal is logged, unless its value is too long. -/
theorem leads_literal {d value : Datum} {title : String} {Q : Datum → Workshop → Prop}
    (htype : w.graph.attr? d "type" = some (.ofText? ty))
    (hvalue : w.graph.attr? d "value" = some value) (hP : P → value.Prints)
    (h : ∀ log, Q (Walk.truth true) { w with log }) :
    Work.Leads (Walk.literal title d) w Q (Overlong P) := by
  obtain ⟨shown, hshown⟩ := render_ofText? ty
  unfold Walk.literal
  refine Work.leads_attr_bind hvalue ?_
  rw [Work.leads_bind]
  refine Work.leads_liftM ?_ (fun f hf => overlong_of_render hf hP)
  intro text _
  refine Work.leads_attr_bind htype ?_
  rw [Work.leads_bind, hshown]
  exact h _

/-- A used variable gets the type and the value of its record. -/
theorem leads_variableUse {name : String} {r : Record} {Q : Datum → Workshop → Prop}
    (hname : w.graph.attr? (.node .variableUse id) "name" = some (.ofText name))
    (hlookup : w.table.lookup (.ofText name) = some r) (htype : r.ty = .ofText? ty)
    (h : ∀ log, Q (Walk.truth true)
      { w with log, graph := (w.graph.fill id "type" (.ofText? ty)).fill id "value" r.value }) :
    Work.Leads (Walk.variableUse (.node .variableUse id)) w Q E := by
  obtain ⟨shown, hshown⟩ := render_ofText? ty
  unfold Walk.variableUse
  refine Work.leads_attr_bind hname ?_
  simp only [Work.leads_bind]
  refine Work.leads_sayText ?_ (fun _ h => by cases h)
  intro _ _
  simp only [Work.leads_lookup, hlookup, Work.leads_bind, Work.leads_setAttr, htype, hshown]
  exact h _

/-- The visit of a leaf. -/
theorem leads_visit_leaf {kind : Leaf} (h : kind.In id ty w.table w.graph)
    (hledger : w.ledger = some l) (hP : P → (leaf kind id ty).Legible w.table w.graph)
    (depth : Nat) :
    Work.Leads (Walk.visitWithin .checking (depth + 1) (leaf kind id ty).node) w
      (fun _ w' => (leaf kind id ty).Visited w l w') (Overlong P) := by
  cases kind with
  | number | text =>
    obtain ⟨htype, value, hvalue⟩ := h
    refine leads_literal htype hvalue ?_ ?_
    · intro hholds
      have hprinted := (hP hholds).nodes _ List.mem_cons_self
      rwa [Printed, value_eq hvalue] at hprinted
    · intro log
      exact visited_leaf rfl (fun _ _ => rfl) htype hledger fun hlegible =>
        hlegible.nodes _ List.mem_cons_self
  | use name =>
    obtain ⟨hname, r, hlookup, htype⟩ := h
    refine leads_variableUse hname hlookup htype ?_
    intro log
    have htyped : (w.graph.fill id "type" (.ofText? ty)).attr? (.node .variableUse id) "type" = _ :=
      Graph.attr?_fill_self hname
    refine visited_leaf rfl ?_ ?_ hledger ?_
    · intro i hi
      exact (Graph.sameAt_fill hi).trans (Graph.sameAt_fill hi)
    · exact (Graph.attr?_fill_of_ne (by decide) id).trans htyped
    · intro hlegible
      rw [Printed, value_eq (Graph.attr?_fill_self htyped)]
      exact hlegible.table _ r hlookup

/-! ## Visits of operations -/

theorem mem_parts_self (t : Term) : t ∈ t.parts := by
  cases t <;> exact List.mem_cons_self

theorem parts_of_operands {p : Term} (h : p ∈ t.operands) : p ∈ t.parts := by
  induction t with
  | leaf => cases h
  | operation id op ty line column left right ihleft ihright =>
    simp only [operands, List.mem_cons, List.mem_append] at h
    refine List.mem_cons_of_mem _ (List.mem_append.mpr ?_)
    rcases h with rfl | rfl | h | h
    · exact .inl (mem_parts_self _)
    · exact .inr (mem_parts_self _)
    · exact .inl (ihleft h)
    · exact .inr (ihright h)

/-- The value of a term is that of its node. -/
theorem value_congr (h : g.SameAt g' t.id) : t.value g' = t.value g := by
  rw [value, node, h.attr?]
  rfl

/-- Whether a term is known depends on its own nodes. -/
theorem Known.congr (h : t.Known g) (hsame : ∀ i ∈ t.ids, g'.SameAt g i) : t.Known g' := by
  intro p hp
  rw [← value_congr (hsame p.id (List.mem_map_of_mem (parts_of_operands hp)))]
  exact h p hp

/-- So does whether it is legible. -/
theorem Legible.congr {table : Table Datum Record} (h : t.Legible table g)
    (hsame : ∀ i ∈ t.ids, g.SameAt g' i) :
    t.Legible table g' := by
  refine ⟨?_, h.table⟩
  intro p hp
  rw [Printed, value_congr (hsame p.id (List.mem_map_of_mem hp))]
  exact h.nodes p hp

/-- The operands of an operation are legible if it is. -/
theorem Legible.operands {table : Table Datum Record}
    (h : (operation id op ty line column left right).Legible table g) :
    left.Legible table g ∧ right.Legible table g := by
  refine ⟨⟨?_, h.table⟩, ?_, h.table⟩
  · intro p hp
    exact h.nodes p (List.mem_cons_of_mem _ (List.mem_append_left _ hp))
  · intro p hp
    exact h.nodes p (List.mem_cons_of_mem _ (List.mem_append_right _ hp))

theorem ofText?_injective {ty ty' : Option String} (h : Datum.ofText? ty = Datum.ofText? ty') :
    ty = ty' := by
  cases ty <;> cases ty' <;> simp_all [Datum.ofText?]

/-- An operation is visited once its operands are, one after the other, and it is dealt with itself.
-/
theorem visited_operation {w₁ w₂ : Workshop} {l₁ l₂ : Ledger}
    (hapart : (id :: (left.ids ++ right.ids)).Nodup) (h₁ : left.Visited w l w₁)
    (hl₁ : w₁.ledger = some l₁) (h₂ : right.Visited w₁ l₁ w₂) (hl₂ : w₂.ledger = some l₂)
    (hleft : w₂.graph.attr? left.node "type" = some (.ofText? lty))
    (hright : w₂.graph.attr? right.node "type" = some (.ofText? rty))
    (h₃ : Operated id op ty line column left right lty rty w₂ l₂ w') :
    (operation id op ty line column left right).Visited w l w' := by
  obtain ⟨hidleft, hidright, hdisjoint⟩ := not_mem_of_apart hapart
  have hframe (i) (hi : i ∉ (operation id op ty line column left right).ids) :
      w.graph.SameAt w'.graph i := by
    simp only [ids_operation, List.mem_cons, List.mem_append, not_or] at hi
    exact ((h₁.frame i hi.2.1).trans (h₂.frame i hi.2.2)).trans (h₃.frame i hi.1)
  have hleftframe (i) (hi : i ∈ left.ids) : w₂.graph.SameAt w'.graph i :=
    h₃.frame i fun heq => hidleft (heq ▸ hi)
  have hrightframe (i) (hi : i ∈ right.ids) : w₂.graph.SameAt w'.graph i :=
    h₃.frame i fun heq => hidright (heq ▸ hi)
  have hleftroot : left.id ∈ left.ids := List.mem_map_of_mem (mem_parts_self left)
  have hrightroot : right.id ∈ right.ids := List.mem_map_of_mem (mem_parts_self right)
  have hleftvalue := value_congr (hleftframe left.id hleftroot)
  have hrightvalue := value_congr (hrightframe right.id hrightroot)
  refine ⟨h₃.table.trans (h₂.table.trans h₁.table), hframe, h₃.typed, h₃.ledger, ?_, ?_, ?_⟩
  · intro hlegible
    apply h₃.printed
    rw [Printed, value_congr ((h₁.frame id hidleft).trans (h₂.frame id hidright))]
    exact hlegible.nodes _ List.mem_cons_self
  · refine ⟨by rw [Printed, Printed, hleftvalue, hrightvalue]; exact h₃.shown, ?_⟩
    intro hleftknown hrightknown result hresult
    rw [hleftvalue] at hleftknown
    rw [hrightvalue] at hrightknown
    have hlefttype : w'.graph.attr? left.node "type" = _ :=
      ((hleftframe left.id hleftroot).attr? _ _).trans hleft
    have hrighttype : w'.graph.attr? right.node "type" = _ :=
      ((hrightframe right.id hrightroot).attr? _ _).trans hright
    simp only [isWhole, hlefttype, hrighttype, Option.getD_some, hleftvalue, hrightvalue] at hresult
    rw [(h₃.known hleftknown hrightknown).2.1, hresult]
    rfl
  · intro hknown
    -- what is known after all of it was known after the visit of each operand
    have hknownleft : left.Known w₁.graph := by
      refine Known.congr (g := w'.graph) ?_ fun i hi =>
        (h₂.frame i (hdisjoint i hi)).trans (hleftframe i hi)
      exact fun p hp => hknown p (by simp [operands, hp])
    have hknownright : right.Known w₂.graph := by
      refine Known.congr (g := w'.graph) ?_ hrightframe
      exact fun p hp => hknown p (by simp [operands, hp])
    have hj₁ := h₁.judged hknownleft
    have hj₂ := h₂.judged hknownright
    have hlefttyped : left.Typed w₂.graph := hj₁.typed.congr fun i hi => h₂.frame i (hdisjoint i hi)
    obtain rfl : lty = left.type :=
      ofText?_injective (Option.some.inj (hleft.symm.trans hlefttyped.root))
    obtain rfl : rty = right.type :=
      ofText?_injective (Option.some.inj (hright.symm.trans hj₂.typed.root))
    obtain rfl : l₁ = left.reports.foldl Ledger.add l := Option.some.inj (hl₁.symm.trans hj₁.ledger)
    obtain rfl : l₂ = _ := Option.some.inj (hl₂.symm.trans hj₂.ledger)
    obtain ⟨htype, -, hledger⟩ := h₃.known (hleftvalue ▸ hknown left (by simp [operands]))
      (hrightvalue ▸ hknown right (by simp [operands]))
    refine ⟨hframe, typed_operation htype (hlefttyped.congr hleftframe)
      (hj₂.typed.congr hrightframe), ?_⟩
    rw [hledger, reports, List.foldl_append, List.foldl_append]

theorem leads_settleOperator {d : Datum} {Q : Unit → Workshop → Prop}
    (hop : w.graph.attr? d "operator" = some (.ofText op)) (h : ∀ log, Q () { w with log }) :
    Work.Leads (Walk.settleOperator d) w Q E := by
  unfold Walk.settleOperator
  refine Work.leads_attr_bind hop ?_
  exact h _

/-- So does whether it stands in the graph. -/
theorem In.congr {table : Table Datum Record} (h : In table g t)
    (hsame : ∀ i ∈ t.ids, g.SameAt g' i) :
    In table g' t := by
  induction h with
  | @leaf kind id ty hleaf =>
    have hnode := hsame id List.mem_cons_self
    refine .leaf ?_
    cases kind with
    | number | text => exact ⟨(hnode.attr? _ _).trans hleaf.1, hleaf.2.imp fun _ h =>
        (hnode.attr? _ _).trans h⟩
    | use name => exact ⟨(hnode.attr? _ _).trans hleaf.1, hleaf.2⟩
  | operation hnode _ _ hapart ihleft ihright =>
    simp only [ids_operation, List.mem_cons, List.mem_append] at hsame
    refine .operation (hnode.congr (hsame _ (.inl rfl))) (ihleft ?_) (ihright ?_) hapart
    · intro i hi
      exact hsame i (.inr (.inl hi))
    · intro i hi
      exact hsame i (.inr (.inr hi))

/-- Every visit of an expression, down to a depth that its nodes do not exceed, comes to an end,
unless an integer is too long to be printed. -/
theorem leads_visitWithin (h : In w.table w.graph t) (hledger : w.ledger = some l)
    (hP : P → t.Legible w.table w.graph) {depth : Nat} (hdepth : t.ids.length ≤ depth) :
    Work.Leads (Walk.visitWithin .checking depth t.node) w (fun _ w' => t.Visited w l w')
      (Overlong P) := by
  induction t generalizing w l depth with
  | leaf kind id ty =>
    obtain ⟨depth, rfl⟩ := Nat.exists_eq_add_of_le' hdepth
    cases h with
    | leaf hleaf => exact leads_visit_leaf hleaf hledger hP depth
  | operation id op ty line column left right ihleft ihright =>
    cases h with
    | operation hnode hleft hright hapart =>
      obtain ⟨hidleft, hidright, hdisjoint⟩ := not_mem_of_apart hapart
      simp only [ids_operation, List.length_cons, List.length_append] at hdepth
      obtain ⟨depth, rfl⟩ := Nat.exists_eq_add_of_le'
        (Nat.one_le_iff_ne_zero.mpr (by omega : depth ≠ 0))
      change Work.Leads (Walk.binary (Walk.visitWithin .checking depth) (.node .binary id)) w _ _
      rw [Walk.binary_eq, Work.leads_bind]
      refine leads_settleOperator hnode.operator ?_
      intro log
      refine Work.leads_attr_bind hnode.left ?_
      rw [Work.leads_bind]
      refine (ihleft (w := { w with log }) hleft hledger (fun hholds => (hP hholds).operands.1)
        (by omega)).mono ?_
      intro _ w₁ h₁
      obtain ⟨l₁, hl₁⟩ := h₁.ledger
      have hnode₁ := hnode.congr (h₁.frame id hidleft)
      have hrightframe (i) (hi : i ∈ right.ids) : w.graph.SameAt w₁.graph i :=
        h₁.frame i fun hmem => hdisjoint i hmem hi
      have hright₁ : In w₁.table w₁.graph right := by
        rw [h₁.table]
        exact hright.congr hrightframe
      have hP₁ (hholds : P) : right.Legible w₁.table w₁.graph := by
        rw [h₁.table]
        exact (hP hholds).operands.2.congr hrightframe
      refine Work.leads_attr_bind hnode₁.right ?_
      rw [Work.leads_bind]
      refine (ihright hright₁ hl₁ hP₁ (by omega)).mono ?_
      intro _ w₂ h₂
      obtain ⟨l₂, hl₂⟩ := h₂.ledger
      obtain ⟨lty, hlty⟩ := h₁.typed
      obtain ⟨rty, hrty⟩ := h₂.typed
      have hroot : left.id ∈ left.ids := List.mem_map_of_mem (mem_parts_self left)
      have hlty₂ := ((h₂.frame left.id (hdisjoint _ hroot)).attr? left.cls "type").trans hlty
      have hP₂ (hholds : P) : left.Printed w₂.graph ∧ right.Printed w₂.graph := by
        refine ⟨?_, h₂.printed (hP₁ hholds)⟩
        rw [Printed, value_congr (h₂.frame left.id (hdisjoint _ hroot))]
        exact h₁.printed (hP hholds).operands.1
      refine (leads_operate (hnode₁.congr (h₂.frame id hidright)) hl₂ hlty₂ hrty hP₂).mono ?_
      intro _ w₃ h₃
      have h₁' : left.Visited w l w₁ :=
        ⟨h₁.table, h₁.frame, h₁.typed, h₁.ledger, h₁.printed, h₁.valued, fun hknown =>
        ⟨h₁.frame, (h₁.judged hknown).typed, (h₁.judged hknown).ledger⟩⟩
      exact visited_operation hapart h₁' hl₁ h₂ hl₂ hlty₂ hrty h₃

/-- No node of a term is met twice. -/
theorem In.nodup {table : Table Datum Record} (h : In table g t) : t.ids.Nodup := by
  cases h with
  | leaf => exact List.nodup_singleton _
  | operation _ _ _ hapart =>
    rw [ids_operation]
    exact hapart

theorem In.lt_size {table : Table Datum Record} (h : In table g t) :
    ∀ i ∈ t.ids, i < g.nodes.size := by
  induction h with
  | @leaf kind id ty hleaf =>
    intro i hi
    obtain rfl := List.mem_singleton.mp hi
    cases kind <;> exact Graph.lt_size_of_attr? hleaf.1
  | operation hnode _ _ _ ihleft ihright =>
    intro i hi
    rw [ids_operation, List.mem_cons, List.mem_append] at hi
    rcases hi with rfl | hi | hi
    · exact Graph.lt_size_of_attr? hnode.operator
    · exact ihleft i hi
    · exact ihright i hi

/-- An expression has at most as many nodes as the graph. -/
theorem In.length_le {table : Table Datum Record} (h : In table g t) :
    t.ids.length ≤ g.nodes.size := by
  have hsubset : t.ids ⊆ List.range g.nodes.size := fun i hi => List.mem_range.mpr (h.lt_size i hi)
  simpa using (h.nodup.subperm hsubset).length_le

/-- The checking walk visits a term, unless a value in it is too long. -/
theorem leads_visit (h : In w.table w.graph t) (hledger : w.ledger = some l) :
    Work.Leads (Walk.visit .checking t.node) w (fun _ w' => t.Visited w l w')
      (Overlong (t.Legible w.table w.graph)) := by
  rw [Walk.leads_visit]
  have hdepth : t.ids.length ≤ w.graph.depthBound t.node :=
    h.length_le.trans (w.graph.nodes_size_le_depthBound t.node)
  exact leads_visitWithin h hledger (fun hlegible => hlegible) hdepth

/-! ## Both ways -/

/-- The graph with the types of the leaves filled in. -/
def dress : Term → Graph → Graph
  | leaf _ id ty, g => g.fill id "type" (.ofText? ty)
  | operation _ _ _ _ _ left right, g => right.dress (left.dress g)

/-- Dressing a term leaves the other nodes alone. -/
theorem sameAt_dress (t : Term) {i : Nat} (h : i ∉ t.ids) (g : Graph) : g.SameAt (t.dress g) i := by
  induction t generalizing g with
  | leaf kind id ty => exact Graph.sameAt_fill fun heq => h (heq ▸ List.mem_cons_self)
  | operation id op ty line column left right ihleft ihright =>
    rw [ids_operation, List.mem_cons, List.mem_append, not_or, not_or] at h
    exact (ihleft h.2.1 g).trans (ihright h.2.2 _)

/-- A dressed term has a type at every node. -/
theorem In.dressed {table : Table Datum Record} (h : In table g t) : Dressed (t.dress g) t := by
  induction t generalizing g with
  | leaf kind id ty =>
    cases h with
    | leaf hleaf => cases kind <;> exact .leaf (Graph.attr?_fill_self hleaf.1)
  | operation id op ty line column left right ihleft ihright =>
    cases h with
    | operation hnode hleft hright hapart =>
      obtain ⟨hidleft, hidright, hdisjoint⟩ := not_mem_of_apart hapart
      refine .operation ?_ ?_ ?_ hapart
      · exact (hnode.congr (sameAt_dress left hidleft g)).congr (sameAt_dress right hidright _)
      · exact (ihleft hleft).congr fun i hi => sameAt_dress right (hdisjoint i hi) _
      · exact ihright (hright.congr fun i hi =>
          sameAt_dress left (fun hmem => hdisjoint i hmem hi) g)

/-- The visit of an expression fails only if it comes to an integer that is too long to be printed.
If it ends and the values of all operands are known then, the types on the nodes and the reports are
those that the rule for operations gives, operands first, to the expression whose leaves have these
types. -/
theorem visit_types_eq_applyRule (h : In w.table w.graph t) (hledger : w.ledger = some l) :
    (∀ f v, (Walk.visit .checking t.node).perform w = (.error f, v) →
      f = .longInteger ∧ ¬ t.Legible w.table w.graph) ∧
    ∀ a v, (Walk.visit .checking t.node).perform w = (.ok a, v) → t.Known v.graph →
      ∃ r, t.applyRule.perform { w with graph := t.dress w.graph } = (.ok (), r) ∧
        (∀ p ∈ t.parts, r.graph.attr? p.node "type" = v.graph.attr? p.node "type") ∧
        r.ledger = v.ledger ∧
        t.Typed v.graph ∧ v.ledger = some (t.reports.foldl Ledger.add l) := by
  have hvisit := leads_visit h hledger
  refine ⟨fun f v hperform => hvisit.of_failure hperform, ?_⟩
  intro a v hperform hknown
  have hvisited := (hvisit.of_perform hperform).judged hknown
  have hrule := leads_applyRule (w := { w with graph := t.dress w.graph }) h.dressed hledger
  obtain ⟨_, r, hr, hjudged⟩ := hrule.exists_perform
  refine ⟨r, hr, ?_, hjudged.ledger.trans hvisited.ledger.symm, hvisited.typed, hvisited.ledger⟩
  intro p hp
  exact (hjudged.typed p hp).trans (hvisited.typed p hp).symm

/-! In `(2 % 2 == "ab" * 2) && (b + 2)`, where `b` is a truth value and `%` is no operator, all
values are known. Two operations do not fit their operands. -/

/-- The sample expression; the operation that is none of the language has a type. -/
def sample : Term :=
  .operation 0 "&&" none (.ofInt 1) (.ofInt 18)
    (.operation 1 "==" none (.ofInt 1) (.ofInt 8)
      (.operation 2 "%" (some "dec") (.ofInt 1) (.ofInt 4) (.leaf .number 3 (some "ent"))
        (.leaf .number 4 (some "ent")))
      (.operation 5 "*" none (.ofInt 1) (.ofInt 16) (.leaf .text 6 (some "cadena"))
        (.leaf .number 7 (some "ent"))))
    (.operation 8 "+" none (.ofInt 1) (.ofInt 25) (.leaf (.use "b") 9 (some "bool"))
      (.leaf .number 10 (some "ent")))

/-- Nodes for an expression whose numbers count them. -/
def sampleNodes : Term → List Node
  | .leaf .number _ ty => [⟨.number, [("value", .ofInt 2), ("type", .ofText? ty)]⟩]
  | .leaf .text _ ty => [⟨.text, [("value", .ofText "ab"), ("type", .ofText? ty)]⟩]
  | .leaf (.use name) .. => [⟨.variableUse, [("name", .ofText name), ("type", .none)]⟩]
  | .operation _ op ty line column left right =>
    ⟨.binary, [("line", line), ("column", column), ("operator", .ofText op), ("left", left.node),
      ("right", right.node), ("type", .ofText? ty), ("value", .ofInt 0)]⟩ ::
      (sampleNodes left ++ sampleNodes right)

/-- A workshop with the sample expression and its variable. -/
def sampleWorkshop : Workshop where
  graph := ⟨(sampleNodes sample).toArray, 0⟩
  table := ⟨#[⟨.ofText "b", .ofText "bool", .constant (.truth true), .ofInt 1, .ofInt 1⟩],
    [(.ofText "b", 0)], [], [(.ofText "b", 0)]⟩
  ledger := some .empty
  declared := []
  log := []

theorem in_sampleWorkshop : In sampleWorkshop.table sampleWorkshop.graph sample := by
  have hnumber (id : Nat) (hnode : sampleWorkshop.graph.nodes[id]? =
      some ⟨.number, [("value", .ofInt 2),
      ("type", .ofText "ent")]⟩) :
      In sampleWorkshop.table sampleWorkshop.graph (.leaf .number id (some "ent")) := by
    refine .leaf ⟨?_, .ofInt 2, ?_⟩ <;> simp only [Graph.attr?, hnode] <;> rfl
  refine .operation ⟨rfl, rfl, rfl, rfl, rfl, rfl⟩ (.operation ⟨rfl, rfl, rfl, rfl, rfl, rfl⟩ ?_ ?_
    (by decide)) (.operation ⟨rfl, rfl, rfl, rfl, rfl, rfl⟩ ?_ (hnumber 10 rfl) (by decide))
    (by decide)
  · exact .operation ⟨rfl, rfl, rfl, rfl, rfl, rfl⟩ (hnumber 3 rfl) (hnumber 4 rfl) (by decide)
  · exact .operation ⟨rfl, rfl, rfl, rfl, rfl, rfl⟩ (.leaf ⟨rfl, .ofText "ab", rfl⟩) (hnumber 7 rfl)
      (by decide)
  · exact .leaf ⟨rfl, _, rfl, rfl⟩

theorem visit_types_eq_applyRule_sample :
    In sampleWorkshop.table sampleWorkshop.graph sample ∧
      ∃ a v r, (Walk.visit .checking sample.node).perform sampleWorkshop = (.ok a, v) ∧
      sample.Known v.graph ∧
        sample.applyRule.perform
          { sampleWorkshop with graph := sample.dress sampleWorkshop.graph } = (.ok (), r) ∧
        (∀ p ∈ sample.parts, r.graph.attr? p.node "type" = v.graph.attr? p.node "type") ∧
        r.ledger = v.ledger ∧
        sample.parts.map type = [none, none, some "dec", some "ent", some "ent", none,
          some "cadena", some "ent", none,
          some "bool", some "ent"] ∧ sample.reports.length = 2 := by
  have hok : ((Walk.visit .checking sample.node).perform sampleWorkshop).1.isOk = true := by
    decide +kernel
  have hknown :
      sample.Known ((Walk.visit .checking sample.node).perform sampleWorkshop).2.graph := by
    simp only [Known, sample, operands]
    decide +kernel
  generalize hperform : (Walk.visit .checking sample.node).perform sampleWorkshop =
    run at hok hknown
  obtain ⟨result, v⟩ := run
  cases result with
  | error f => cases hok
  | ok a =>
    have hboth := visit_types_eq_applyRule (w := sampleWorkshop) (l := .empty) in_sampleWorkshop rfl
    obtain ⟨r, hr, htypes, hledger, -⟩ := hboth.2 a v hperform hknown
    exact ⟨in_sampleWorkshop, a, v, r, rfl, hknown, hr, htypes, hledger, by decide, by decide⟩

end Assembled.Term

end Analizador
