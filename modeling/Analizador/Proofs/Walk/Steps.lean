import Analizador.Walk
import Analizador.Proofs.Workshop

/-! # Steps on a graph

Most steps of a walk read attributes of nodes, fill some and log what they do. What such a step
gives, and the graph that it leaves, depend on the graph and the table before it alone. Filling an
attribute of a node changes nothing else in the graph. -/

namespace Analizador

/-! ## Filling slots -/

namespace Node

variable (n : Node) (name : String) (d : Datum)

theorem slot?_set_self : (n.set name d).slot? name = some d := by
  obtain ⟨cls, slots⟩ := n
  simp only [set, slot?]
  induction slots with
  | nil => simp [setSlots]
  | cons slot slots ih =>
    obtain ⟨key, old⟩ := slot
    unfold setSlots
    split
    next hkey => simp [hkey]
    next hkey =>
      rw [List.lookup_cons, beq_false_of_ne (Ne.symm hkey)]
      exact ih

theorem slot?_set_of_ne {other : String} (h : other ≠ name) :
    (n.set name d).slot? other = n.slot? other := by
  obtain ⟨cls, slots⟩ := n
  simp only [set, slot?]
  induction slots with
  | nil => simp [setSlots, h]
  | cons slot slots ih =>
    obtain ⟨key, old⟩ := slot
    unfold setSlots
    split
    next hkey => rw [List.lookup_cons, List.lookup_cons, hkey, beq_false_of_ne h]
    next hkey => simp [List.lookup_cons, ih]

end Node

namespace Graph

variable {g g' : Graph} {id : Nat} {cls : NodeClass} {name : String} {d : Datum}

/-- The graph with a slot of a node filled. -/
def fill (g : Graph) (id : Nat) (name : String) (d : Datum) : Graph :=
  { g with nodes := g.nodes.modify id (·.set name d) }

/-- Two graphs have the same node of a number. -/
def SameAt (g g' : Graph) (id : Nat) : Prop := g'.nodes[id]? = g.nodes[id]?

/-- Nodes that are the same in two steps are the same. -/
theorem SameAt.trans {g'' : Graph} (h : g.SameAt g' id) (h' : g'.SameAt g'' id) : g.SameAt g'' id :=
  Eq.trans h' h

/-- Nodes that are the same have the same attributes. -/
theorem SameAt.attr? (h : g.SameAt g' id) (cls : NodeClass) (name : String) :
    g'.attr? (.node cls id) name = g.attr? (.node cls id) name := by
  simp only [Graph.attr?, show g'.nodes[id]? = g.nodes[id]? from h]

/-- Filling a slot of a node leaves the others alone. -/
theorem sameAt_fill {other : Nat} (h : other ≠ id) : g.SameAt (g.fill id name d) other := by
  simp [SameAt, fill, Array.getElem?_modify, Ne.symm h]

/-- Filling a slot leaves the other attributes alone. -/
theorem attr?_fill_of_ne {other : String} (h : other ≠ name) (i : Nat) :
    (g.fill id name d).attr? (.node cls i) other = g.attr? (.node cls i) other := by
  simp only [attr?, fill, Array.getElem?_modify]
  split
  next hid =>
    subst hid
    cases hnode : g.nodes[id]? with
    | none => rfl
    | some n => exact n.slot?_set_of_ne name d h
  next => rfl

/-- A node that has an attribute gets any other. -/
theorem attr?_fill_self {other : String} {value : Datum}
    (h : g.attr? (.node cls id) other = some value) :
    (g.fill id name d).attr? (.node cls id) name = some d := by
  obtain ⟨n, hnode, -⟩ := Option.bind_eq_some_iff.mp h
  simp only [attr?, fill, Array.getElem?_modify, if_true, hnode]
  exact n.slot?_set_self name d

/-- What has an attribute is a node of the graph. -/
theorem lt_size_of_attr? {value : Datum} (h : g.attr? (.node cls id) name = some value) :
    id < g.nodes.size := by
  obtain ⟨n, hnode, -⟩ := Option.bind_eq_some_iff.mp h
  exact (Array.getElem?_eq_some_iff.mp hnode).1

/-! ## Adding nodes -/

/-- A new node leaves the old ones alone. -/
theorem sameAt_push {n : Node} (h : id < g.nodes.size) : g.SameAt (g.push n).2 id := by
  simp [SameAt, push, Array.getElem?_push, Nat.ne_of_lt h]

theorem size_push (g : Graph) (n : Node) : (g.push n).2.nodes.size = g.nodes.size + 1 := by
  simp [push]

/-- A new node has the slots it is made with. -/
theorem attr?_push (g : Graph) (n : Node) (cls : NodeClass) (name : String) :
    (g.push n).2.attr? (.node cls g.nodes.size) name = n.slot? name := by
  simp [attr?, push]

/-- Filling a slot of a new node is the same as adding the node with the slot filled. -/
theorem fill_push (g : Graph) (n : Node) (name : String) (d : Datum) :
    (g.push n).2.fill g.nodes.size name d = (g.push (n.set name d)).2 := by
  simp only [fill, push, Graph.mk.injEq, and_true]
  apply Array.ext_getElem?
  intro i
  rw [Array.getElem?_modify, Array.getElem?_push, Array.getElem?_push]
  by_cases hi : i = g.nodes.size
  · simp [hi]
  · simp [hi, Ne.symm hi]

theorem nodes_size_le_size (g : Graph) : g.nodes.size ≤ g.size := by
  have hfold (nodes : List Node) (total : Nat) : total + nodes.length ≤
      nodes.foldl (fun total n => total + 1 + Datum.sizeAll (n.slots.map (·.2))) total := by
    induction nodes generalizing total with
    | nil => exact Nat.le_refl _
    | cons n nodes ih =>
      have hrest := ih (total + 1 + Datum.sizeAll (n.slots.map (·.2)))
      simp only [List.length_cons, List.foldl_cons]
      omega
  simpa [size, ← Array.foldl_toList] using hfold g.nodes.toList 0

/-- A walk may go down as far as there are nodes, also if there is a raw tree around each of them.
-/
theorem two_mul_nodes_size_le_depthBound (g : Graph) (d : Datum) :
    2 * g.nodes.size ≤ g.depthBound d := by
  have hsize := g.nodes_size_le_size
  unfold depthBound
  omega

theorem nodes_size_le_depthBound (g : Graph) (d : Datum) : g.nodes.size ≤ g.depthBound d := by
  have hbound := g.two_mul_nodes_size_le_depthBound d
  omega

end Graph

/-! ## What a step gives -/

namespace Work

variable {α β : Type} {t : Table Datum Record} {g g' g'' : Graph} {a : α} {b : β}

/-- An attribute that is there is read. -/
theorem perform_attr {w : Workshop} {d value : Datum} {name : String}
    (h : w.graph.attr? d name = some value) : (attr d name).perform w = (.ok value, w) := by
  simp [attr, Graph.attr, h]

/-- Giving an attribute to a node fills its slot. -/
@[simp] theorem perform_setAttr (w : Workshop) (cls : NodeClass) (id : Nat) (name : String)
    (d : Datum) : (setAttr (.node cls id) name d).perform w =
      (.ok (), { w with graph := w.graph.fill id name d }) :=
  rfl

/-- From every workshop with the given table and graph, a step gives `a` and leaves the graph `g'`;
besides, it only logs. -/
def Turns (step : Work α) (t : Table Datum Record) (g : Graph) (a : α) (g' : Graph) : Prop :=
  ∀ w : Workshop, w.table = t → w.graph = g →
    ∃ log, step.perform w = (.ok a, { w with graph := g', log := w.log ++ log })

theorem turns_pure (a : α) : Turns (pure a) t g a g := by
  rintro w rfl rfl
  exact ⟨[], by simp; rfl⟩

/-- Two steps that each give an answer and a graph. -/
theorem Turns.bind {step : Work α} {next : α → Work β} (hstep : Turns step t g a g')
    (hnext : Turns (next a) t g' b g'') : Turns (step >>= next) t g b g'' := by
  intro w ht hg
  obtain ⟨log, hlog⟩ := hstep w ht hg
  obtain ⟨log', hlog'⟩ := hnext { w with graph := g', log := w.log ++ log } ht rfl
  refine ⟨log ++ log', ?_⟩
  rw [perform_bind, hlog]
  simp [hlog']

/-- A step may look at the table and at the graph. -/
theorem Turns.get_bind {next : Workshop → Work β}
    (hnext : ∀ w : Workshop, w.table = t → w.graph = g → Turns (next w) t g b g') :
    Turns (get >>= next) t g b g' :=
  fun w ht hg => hnext w ht hg w ht hg

theorem turns_lift {x : Except Failure α} (h : x = .ok a) : Turns (liftM x) t g a g := by
  subst h
  exact turns_pure a

theorem turns_say (message : String) : Turns (say message) t g () g := by
  rintro w rfl rfl
  exact ⟨[message], rfl⟩

/-- A text that can be shown is logged. -/
theorem turns_sayText {message : Except Failure String} (h : ∃ line, message = .ok line) :
    Turns (sayText message) t g () g := by
  obtain ⟨line, hline⟩ := h
  exact (turns_lift hline).bind (turns_say line)

/-- Logged lines are of no account. -/
theorem turns_lines (lines : List String) : Turns (lines.forM say) t g () g := by
  induction lines with
  | nil => exact turns_pure ()
  | cons line lines ih => exact (turns_say line).bind ih

theorem turns_attr? {d : Datum} {name : String} {value : Option Datum}
    (h : g.attr? d name = value) :
    Turns (attr? d name) t g value g := by
  subst h
  exact .get_bind fun _ _ hg => hg ▸ turns_pure _

theorem turns_attr {d value : Datum} {name : String} (h : g.attr? d name = some value) :
    Turns (attr d name) t g value g :=
  .get_bind fun w _ hg => turns_lift (by rw [hg, Graph.attr, h])

/-- A slot is filled. -/
theorem turns_setAttr (cls : NodeClass) (id : Nat) (name : String) (d : Datum) :
    Turns (setAttr (.node cls id) name d) t g () (g.fill id name d) := by
  rintro w rfl rfl
  exact ⟨[], by simp [setAttr, Graph.setAttr, Graph.fill]⟩

/-- A node is added at the end. -/
theorem turns_push (n : Node) : Turns (push n) t g (.node n.cls g.nodes.size) (g.push n).2 := by
  rintro w rfl rfl
  exact ⟨[], by simp [push, Graph.push]; rfl⟩

/-- A node is made and added at the end. -/
theorem turns_make {cls : NodeClass} {args : List (String × Datum)} {n : Node}
    (h : cls.make (fun name => (args.lookup name).getD .none) .none .none = .ok n) :
    Turns (make cls args) t g (.node n.cls g.nodes.size) (g.push n).2 :=
  (turns_lift h).bind (turns_push n)

/-- A name is looked up in the table. -/
theorem turns_lookup (name : String) :
    Turns (lookup (.ofText name)) t g (t.lookup (.ofText name)) g :=
  (turns_lift rfl).bind (.get_bind fun _ ht _ => ht ▸ turns_pure _)

end Work

/-- A visit goes down as far as the graph allows before it. -/
theorem Walk.turns_visit {walk : Walk} {d a : Datum} {t : Table Datum Record} {g g' : Graph}
    (h : (visitWithin walk (g.depthBound d) d).Turns t g a g') : (visit walk d).Turns t g a g' := by
  refine .get_bind fun w _ hgraph => ?_
  rw [hgraph]
  exact h

end Analizador
