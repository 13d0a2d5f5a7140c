import Analizador.Program.Nodes
import Analizador.Proofs.Walk.Trees

/-! # Trees of nodes in a graph

A datum stands for a tree of nodes when the graph has a node for each node of the tree, of the same
class and with the same attributes in the same order. Which nodes these are is told by their
numbers, so that it can be said that a tree has its nodes to itself. Whether a datum stands for a
tree depends on these nodes alone. -/

namespace Analizador

/-- A type that may be unknown, as a datum. -/
def Datum.ofType? : Option Ty → Datum
  | some ty => .ofText ty.name
  | Option.none => .none

/-- A node with the slots that every node has, and its own. -/
def Node.ofParts (cls : NodeClass) (spot : Option Spot) (children : List Datum) (ty : Option Ty)
    (value : Option Constant) (own : List (String × Datum)) : Node :=
  ⟨cls, [("line", .ofNat? (spot.map (·.line))), ("column", .ofNat? (spot.map (·.column))),
    ("children", .list children), ("type", .ofType? ty), ("value", .ofConstant? value)] ++ own⟩

namespace Node

variable {cls : NodeClass} {spot : Option Spot} {children : List Datum} {ty : Option Ty}
  {value : Option Constant} {own : List (String × Datum)}

theorem ofParts_set_children (cs : List Datum) :
    (ofParts cls spot children ty value own).set "children" (.list cs) =
      ofParts cls spot cs ty value own :=
  rfl

end Node

namespace Graph

mutual

/-- The datum stands for the tree in a graph, by the nodes of the given numbers. -/
def Stands (g : Graph) : NodeTree → Datum → List Nat → Prop
  | .none, d, ids => d = .none ∧ ids = []
  | .count n, d, ids => d = .ofInt n ∧ ids = []
  | .constant c, d, ids => d = .constant c ∧ ids = []
  | .list items, d, ids => ∃ ds, d = .list ds ∧ StandsAll g items ds ids
  | .tree label children, d, ids => ∃ ds, d = .tree label ds ∧ StandsAll g children ds ids
  | .node cls attrs, d, ids => ∃ id slots rest, d = .node cls id ∧ ids = id :: rest ∧
      g.nodes[id]? = some ⟨cls, slots⟩ ∧ StandsIn g attrs slots rest
termination_by structural t => t

/-- The data stand for the trees, one for each. -/
def StandsAll (g : Graph) : List NodeTree → List Datum → List Nat → Prop
  | [], ds, ids => ds = [] ∧ ids = []
  | t :: ts, ds, ids => ∃ d rest is js, ds = d :: rest ∧ ids = is ++ js ∧ Stands g t d is ∧
      StandsAll g ts rest js
termination_by structural ts => ts

/-- The data in the slots stand for the attributes, under the same names. -/
def StandsIn (g : Graph) : List (String × NodeTree) → List (String × Datum) → List Nat → Prop
  | [], slots, ids => slots = [] ∧ ids = []
  | (name, t) :: attrs, slots, ids => ∃ d rest is js, slots = (name, d) :: rest ∧ ids = is ++ js ∧
      Stands g t d is ∧ StandsIn g attrs rest js
termination_by structural attrs => attrs

end

variable {g g' : Graph} {t : NodeTree} {ts : List NodeTree} {d : Datum} {ds : List Datum}
  {ids : List Nat}

/-! ## Graphs with the same nodes -/

mutual

/-- A datum stands for a tree in every graph that has the nodes of the tree. -/
theorem Stands.congr : ∀ (t : NodeTree) {d : Datum} {ids : List Nat}, g.Stands t d ids →
    (∀ id ∈ ids, g.SameAt g' id) → g'.Stands t d ids
  | .none, _, _, h, _ | .count _, _, _, h, _ | .constant _, _, _, h, _ => h
  | .list items, _, _, ⟨ds, hd, hall⟩, hsame => ⟨ds, hd, StandsAll.congr items hall hsame⟩
  | .tree _ children, _, _, ⟨ds, hd, hall⟩, hsame => ⟨ds, hd, StandsAll.congr children hall hsame⟩
  | .node _ attrs, _, _, ⟨id, slots, rest, hd, hids, hnode, hslots⟩, hsame => by
    subst hids
    refine ⟨id, slots, rest, hd, rfl, Eq.trans (hsame id List.mem_cons_self) hnode, ?_⟩
    exact StandsIn.congr attrs hslots fun i hi => hsame i (List.mem_cons_of_mem id hi)
termination_by structural t => t

/-- The same of data that stand for some trees. -/
theorem StandsAll.congr :
    ∀ (ts : List NodeTree) {ds : List Datum} {ids : List Nat}, g.StandsAll ts ds ids →
    (∀ id ∈ ids, g.SameAt g' id) → g'.StandsAll ts ds ids
  | [], _, _, h, _ => h
  | t :: ts, _, _, ⟨d, rest, is, js, hds, hids, hfirst, hrest⟩, hsame => by
    subst hids
    refine ⟨d, rest, is, js, hds, rfl, ?_, ?_⟩
    · exact Stands.congr t hfirst fun i hi => hsame i (List.mem_append_left js hi)
    · exact StandsAll.congr ts hrest fun i hi => hsame i (List.mem_append_right is hi)
termination_by structural ts => ts

/-- The same of slots. -/
theorem StandsIn.congr :
    ∀ (attrs : List (String × NodeTree)) {slots : List (String × Datum)} {ids : List Nat},
    g.StandsIn attrs slots ids → (∀ id ∈ ids, g.SameAt g' id) → g'.StandsIn attrs slots ids
  | [], _, _, h, _ => h
  | (_, t) :: attrs, _, _, ⟨d, rest, is, js, hslots, hids, hfirst, hrest⟩, hsame => by
    subst hids
    refine ⟨d, rest, is, js, hslots, rfl, ?_, ?_⟩
    · exact Stands.congr t hfirst fun i hi => hsame i (List.mem_append_left js hi)
    · exact StandsIn.congr attrs hrest fun i hi => hsame i (List.mem_append_right is hi)
termination_by structural attrs => attrs

end

/-! ## Numbers of nodes -/

mutual

/-- The nodes that a tree stands by are nodes of the graph. -/
theorem Stands.lt_size : ∀ (t : NodeTree) {d : Datum} {ids : List Nat}, g.Stands t d ids →
    ∀ id ∈ ids, id < g.nodes.size
  | .none, _, _, ⟨_, hids⟩ | .count _, _, _, ⟨_, hids⟩ | .constant _, _, _, ⟨_, hids⟩ => by
      simp [hids]
  | .list items, _, _, ⟨_, _, hall⟩ => StandsAll.lt_size items hall
  | .tree _ children, _, _, ⟨_, _, hall⟩ => StandsAll.lt_size children hall
  | .node _ attrs, _, _, ⟨id, slots, rest, _, hids, hnode, hslots⟩ => by
    subst hids
    intro i hi
    rcases List.mem_cons.mp hi with rfl | hi
    · exact (Array.getElem?_eq_some_iff.mp hnode).1
    · exact StandsIn.lt_size attrs hslots i hi
termination_by structural t => t

theorem StandsAll.lt_size :
    ∀ (ts : List NodeTree) {ds : List Datum} {ids : List Nat}, g.StandsAll ts ds ids →
    ∀ id ∈ ids, id < g.nodes.size
  | [], _, _, ⟨_, hids⟩ => by simp [hids]
  | t :: ts, _, _, ⟨_, _, is, js, _, hids, hfirst, hrest⟩ => by
    subst hids
    intro i hi
    exact (List.mem_append.mp hi).elim (Stands.lt_size t hfirst i) (StandsAll.lt_size ts hrest i)
termination_by structural ts => ts

theorem StandsIn.lt_size : ∀ (attrs : List (String × NodeTree)) {slots : List (String × Datum)}
    {ids : List Nat}, g.StandsIn attrs slots ids → ∀ id ∈ ids, id < g.nodes.size
  | [], _, _, ⟨_, hids⟩ => by simp [hids]
  | (_, t) :: attrs, _, _, ⟨_, _, is, js, _, hids, hfirst, hrest⟩ => by
    subst hids
    intro i hi
    exact (List.mem_append.mp hi).elim (Stands.lt_size t hfirst i) (StandsIn.lt_size attrs hrest i)
termination_by structural attrs => attrs

end

/-- A tree that has its nodes to itself has at most as many as the graph. -/
theorem Stands.length_le (h : g.Stands t d ids) (hids : ids.Nodup) : ids.length ≤ g.nodes.size := by
  have hsubset : ids ⊆ List.range g.nodes.size :=
    fun id hid => List.mem_range.mpr (Stands.lt_size t h id hid)
  simpa using (hids.subperm hsubset).length_le

/-- There is a datum for each tree. -/
theorem StandsAll.length_eq (h : g.StandsAll ts ds ids) : ds.length = ts.length := by
  induction ts generalizing ds ids with
  | nil => rw [h.1, List.length_nil, List.length_nil]
  | cons t ts ih =>
    obtain ⟨_, _, _, _, rfl, -, -, hrest⟩ := h
    rw [List.length_cons, List.length_cons, ih hrest]

/-! ## Nodes with the slots that every node has -/

/-- A line or a column takes up its slot only. -/
theorem stands_place {spot : Option Spot} {f : Spot → Nat} :
    g.Stands (.ofOption (.count <| f ·) spot) d ids ↔ d = .ofNat? (spot.map f) ∧ ids = [] := by
  cases spot <;> rfl

/-- So does a type. -/
theorem stands_type {ty : Option Ty} :
    g.Stands (.ofOption (.text ·.name) ty) d ids ↔ d = .ofType? ty ∧ ids = [] := by
  cases ty <;> rfl

/-- So does a value. -/
theorem stands_value {value : Option Constant} :
    g.Stands (.ofOption .constant value) d ids ↔ d = .ofConstant? value ∧ ids = [] := by
  cases value <;> rfl

/-- So do texts. -/
theorem standsAll_texts {texts : List String} :
    g.StandsAll (texts.map .text) ds ids ↔ ds = texts.map .ofText ∧ ids = [] := by
  induction texts generalizing ds ids with
  | nil => exact Iff.rfl
  | cons s texts ih =>
    constructor
    · rintro ⟨_, _, _, _, rfl, rfl, ⟨rfl, rfl⟩, hrest⟩
      obtain ⟨rfl, rfl⟩ := ih.mp hrest
      exact ⟨rfl, rfl⟩
    · rintro ⟨rfl, rfl⟩
      exact ⟨_, _, [], [], rfl, rfl, ⟨rfl, rfl⟩, ih.mpr ⟨rfl, rfl⟩⟩

/-- An attribute that is no node takes up its slot only. -/
theorem standsIn_cons_plain {name : String} {e : Datum} {attrs : List (String × NodeTree)}
    {slots : List (String × Datum)} (h : ∀ {d is}, g.Stands t d is ↔ d = e ∧ is = []) :
    g.StandsIn ((name, t) :: attrs) slots ids ↔
      ∃ rest, slots = (name, e) :: rest ∧ g.StandsIn attrs rest ids := by
  simp only [StandsIn, h]
  constructor
  · rintro ⟨_, rest, _, js, rfl, rfl, ⟨rfl, rfl⟩, hrest⟩
    exact ⟨rest, rfl, hrest⟩
  · rintro ⟨rest, rfl, hrest⟩
    exact ⟨e, rest, [], ids, rfl, rfl, ⟨rfl, rfl⟩, hrest⟩

/-- What stands for a node is a node of the graph with the same slots. -/
theorem stands_ofNode {cls : NodeClass} {spot : Option Spot} {children : List NodeTree}
    {ty : Option Ty} {value : Option Constant} {own : List (String × NodeTree)} :
    g.Stands (.ofNode cls spot children ty value own) d ids ↔
      ∃ id cs is slots js, d = .node cls id ∧ ids = id :: (is ++ js) ∧
        g.nodes[id]? = some (.ofParts cls spot cs ty value slots) ∧ g.StandsAll children cs is ∧
          g.StandsIn own slots js := by
  simp only [NodeTree.ofNode, List.cons_append, List.nil_append, Stands]
  constructor
  · rintro ⟨id, _, _, rfl, rfl, hnode, hline⟩
    obtain ⟨_, rfl, hcolumn⟩ := (standsIn_cons_plain stands_place).mp hline
    obtain ⟨_, rfl, hchildren⟩ := (standsIn_cons_plain stands_place).mp hcolumn
    obtain ⟨_, _, is, js, rfl, rfl, ⟨cs, rfl, hall⟩, htype⟩ := hchildren
    obtain ⟨_, rfl, hvalue⟩ := (standsIn_cons_plain stands_type).mp htype
    obtain ⟨slots, rfl, hown⟩ := (standsIn_cons_plain stands_value).mp hvalue
    exact ⟨id, cs, is, slots, js, rfl, rfl, hnode, hall, hown⟩
  · rintro ⟨id, cs, is, slots, js, rfl, rfl, hnode, hall, hown⟩
    refine ⟨id, _, is ++ js, rfl, rfl, hnode, ?_⟩
    refine (standsIn_cons_plain stands_place).mpr
      ⟨_, rfl, (standsIn_cons_plain stands_place).mpr ⟨_, rfl, ?_⟩⟩
    refine ⟨_, _, is, js, rfl, rfl, ⟨cs, rfl, hall⟩, ?_⟩
    exact (standsIn_cons_plain stands_type).mpr
      ⟨_, rfl, (standsIn_cons_plain stands_value).mpr ⟨slots, rfl, hown⟩⟩

/-! ## Parts of a tree -/

/-- The datum stands for the tree in another graph, by the same nodes, and all other nodes are as
they were. -/
structure Becomes (g : Graph) (d : Datum) (ids : List Nat) (t : NodeTree) (g' : Graph) : Prop where
  stands : g'.Stands t d ids
  same : ∀ id, id ∉ ids → g.SameAt g' id

theorem Stands.becomes (h : g.Stands t d ids) : g.Becomes d ids t g := ⟨h, fun _ _ => rfl⟩

/-- A tree that becomes another and then a third becomes the third. -/
theorem Becomes.trans {g'' : Graph} {t' : NodeTree} (h : g.Becomes d ids t g')
    (h' : g'.Becomes d ids t' g'') : g.Becomes d ids t' g'' :=
  ⟨h'.stands, fun id hid => (h.same id hid).trans (h'.same id hid)⟩

/-- What stands by other nodes still does. -/
theorem Becomes.stands_other {is : List Nat} {e : Datum} {u : NodeTree} (h : g.Becomes d ids t g')
    (hother : g.Stands u e is) (hdisjoint : is.Disjoint ids) : g'.Stands u e is :=
  Stands.congr u hother fun id hid => h.same id fun hmem => hdisjoint hid hmem

/-- After the first of some data has become another tree, the others stand for what they did. -/
theorem Becomes.standsAll_rest {is js : List Nat} (h : g.Becomes d is t g')
    (hrest : g.StandsAll ts ds js) (hids : (is ++ js).Nodup) : g'.StandsAll ts ds js :=
  StandsAll.congr ts hrest fun id hid =>
    h.same id fun hmem => (List.nodup_append.mp hids).2.2 id hmem id hid rfl

/-- What stands for a sentence is a raw tree around what stands for its statement. -/
theorem stands_sentence :
    g.Stands (.sentence t) d ids ↔ ∃ part, d = .tree "sentencia" [part] ∧ g.Stands t part ids := by
  constructor
  · rintro ⟨_, rfl, part, _, is, _, rfl, rfl, hpart, rfl, rfl⟩
    exact ⟨part, rfl, by rwa [List.append_nil]⟩
  · rintro ⟨part, rfl, hpart⟩
    exact ⟨[part], rfl, part, [], ids, [], rfl, (List.append_nil ids).symm, hpart, rfl, rfl⟩

theorem Becomes.sentence (h : g.Becomes d ids t g') :
    g.Becomes (.tree "sentencia" [d]) ids (.sentence t) g' :=
  ⟨stands_sentence.mpr ⟨d, rfl, h.stands⟩, h.same⟩

/-- The first of some data becomes another tree, and then the others do. -/
theorem Becomes.cons {g'' : Graph} {is js : List Nat} (h : g.Becomes d is t g')
    (h' : g'.Becomes (.list ds) js (.list ts) g'') (hids : (is ++ js).Nodup) :
    g.Becomes (.list (d :: ds)) (is ++ js) (.list (t :: ts)) g'' := by
  obtain ⟨-, -, hdisjoint⟩ := List.nodup_append.mp hids
  obtain ⟨_, hds, hrest⟩ := h'.stands
  obtain rfl := Datum.list.inj hds
  refine ⟨⟨d :: ds, rfl, d, ds, is, js, rfl, rfl, ?_, hrest⟩, fun id hid => ?_⟩
  · exact h'.stands_other h.stands fun id hid hmem => hdisjoint id hid id hmem rfl
  · rw [List.mem_append, not_or] at hid
    exact (h.same id hid.1).trans (h'.same id hid.2)

/-- A part of what stands for a tree: it stands by some of the nodes, and when it becomes another
tree, so does the whole. -/
structure Focus (g : Graph) (d : Datum) (ids : List Nat) (whole : NodeTree → NodeTree)
    (t : NodeTree) (part : Datum) (is : List Nat) : Prop where
  stands : g.Stands t part is
  nodup : is.Nodup
  fewer : is.length < ids.length
  becomes : ∀ {t' g'}, g.Becomes part is t' g' → g.Becomes d ids (whole t') g'

/-- Gives an attribute another value. -/
def putAttr (attrs : List (String × NodeTree)) (name : String) (t : NodeTree) :
    List (String × NodeTree) :=
  match attrs with
  | [] => []
  | (key, old) :: rest => if key = name then (key, t) :: rest else (key, old) :: putAttr rest name t

/-- An attribute is a part of the slots, which stand for the rest with another one in its place. -/
theorem StandsIn.focus {attrs : List (String × NodeTree)} {slots : List (String × Datum)}
    {name : String} (h : g.StandsIn attrs slots ids) (hids : ids.Nodup)
    (ht : attrs.lookup name = some t) :
    ∃ d is, slots.lookup name = some d ∧ g.Stands t d is ∧ is.Sublist ids ∧
      ∀ {t' g'}, g.Becomes d is t' g' → g'.StandsIn (putAttr attrs name t') slots ids := by
  induction attrs generalizing slots ids with
  | nil => cases ht
  | cons attr attrs ih =>
    obtain ⟨key, u⟩ := attr
    obtain ⟨d, rest, is, js, rfl, rfl, hfirst, hrest⟩ := h
    obtain ⟨hnodup, hnodup', hdisjoint⟩ := List.nodup_append.mp hids
    rw [List.lookup_cons] at ht
    by_cases hkey : name = key
    · subst hkey
      obtain rfl : u = t := by simpa using ht
      refine ⟨d, is, by simp, hfirst, List.sublist_append_left is js, fun {t' g'} hbecomes => ?_⟩
      have hothers : g'.StandsIn attrs rest js := StandsIn.congr attrs hrest fun id hid =>
        hbecomes.same id fun hmem => hdisjoint id hmem id hid rfl
      rw [putAttr, if_pos rfl]
      exact ⟨d, rest, is, js, rfl, rfl, hbecomes.stands, hothers⟩
    · rw [beq_false_of_ne hkey] at ht
      obtain ⟨part, ks, hpart, hstands, hsub, hbecomes⟩ := ih hrest hnodup' ht
      refine ⟨part, ks, ?_, hstands, hsub.trans (List.sublist_append_right is js),
        fun {t' g'} hg' => ?_⟩
      · rwa [List.lookup_cons, beq_false_of_ne hkey]
      · have hothers : g'.Stands u d is := Stands.congr u hfirst fun id hid =>
          hg'.same id fun hmem => hdisjoint id hid id (hsub.subset hmem) rfl
        rw [putAttr, if_neg (Ne.symm hkey)]
        exact ⟨d, rest, is, js, rfl, rfl, hothers, hbecomes hg'⟩

variable {cls : NodeClass} {attrs : List (String × NodeTree)} {name : String}

/-- What stands for a node is a node of its class. -/
theorem Stands.exists_node (h : g.Stands (.node cls attrs) d ids) : ∃ id, d = .node cls id :=
  h.imp fun _ ⟨_, _, hd, _⟩ => hd

theorem Stands.length_pos (h : g.Stands (.node cls attrs) d ids) : 0 < ids.length := by
  obtain ⟨_, _, _, -, rfl, -⟩ := h
  exact Nat.succ_pos _

/-- An attribute of a node is a part of it. -/
theorem Stands.focus (h : g.Stands (.node cls attrs) d ids) (hids : ids.Nodup) (name : String)
    (ht : attrs.lookup name = some t) : ∃ part is, g.attr? d name = some part ∧
      g.Focus d ids (fun t' => .node cls (putAttr attrs name t')) t part is := by
  obtain ⟨id, slots, rest, rfl, rfl, hnode, hslots⟩ := h
  obtain ⟨hid, hrest⟩ := List.nodup_cons.mp hids
  obtain ⟨part, is, hpart, hstands, hsub, hbecomes⟩ := hslots.focus hrest ht
  have hattr : g.attr? (.node cls id) name = some part := by
    simpa [attr?, hnode, Node.slot?] using hpart
  refine ⟨part, is, hattr, hstands, hsub.nodup hrest, Nat.lt_succ_of_le hsub.length_le,
    fun {t' g'} hg' => ⟨?_, fun i hi => ?_⟩⟩
  · refine ⟨id, slots, rest, rfl, rfl, ?_, hbecomes hg'⟩
    rw [show g'.nodes[id]? = g.nodes[id]? from hg'.same id fun hmem =>
      hid (hsub.subset hmem), hnode]
  · exact hg'.same i fun hmem => hi (List.mem_cons_of_mem id (hsub.subset hmem))

/-- The slot of an attribute that is no node. -/
theorem StandsIn.lookup_plain {slots : List (String × Datum)} {e : Datum}
    (h : g.StandsIn attrs slots ids) (ht : attrs.lookup name = some t)
    (hplain : ∀ {d is}, g.Stands t d is ↔ d = e ∧ is = []) : slots.lookup name = some e := by
  induction attrs generalizing slots ids with
  | nil => cases ht
  | cons attr attrs ih =>
    obtain ⟨key, u⟩ := attr
    obtain ⟨d, rest, is, js, rfl, -, hfirst, hrest⟩ := h
    rw [List.lookup_cons] at ht ⊢
    split at ht
    next =>
      obtain rfl := Option.some.inj ht
      exact congrArg some (hplain.mp hfirst).1
    next => exact ih hrest ht

/-- An attribute that is no node. -/
theorem Stands.attr?_plain {e : Datum} (h : g.Stands (.node cls attrs) d ids) (name : String)
    (ht : attrs.lookup name = some t) (hplain : ∀ {d is}, g.Stands t d is ↔ d = e ∧ is = []) :
    g.attr? d name = some e := by
  obtain ⟨id, slots, rest, rfl, rfl, hnode, hslots⟩ := h
  simpa [attr?, hnode, Node.slot?] using hslots.lookup_plain ht hplain

/-- The place of a node is in its slots. -/
theorem Stands.attr?_place {spot : Option Spot} {children : List NodeTree} {ty : Option Ty}
    {value : Option Constant} {own : List (String × NodeTree)}
    (h : g.Stands (.ofNode cls spot children ty value own) d ids) :
    g.attr? d "line" = some (.ofNat? (spot.map (·.line))) ∧
      g.attr? d "column" = some (.ofNat? (spot.map (·.column))) :=
  ⟨h.attr?_plain "line" rfl stands_place, h.attr?_plain "column" rfl stands_place⟩

/-- Filling the slot of an attribute that is no node. -/
theorem StandsIn.setSlots {slots : List (String × Datum)} {t' : NodeTree} {e : Datum}
    (h : g.StandsIn attrs slots ids) (ht : attrs.lookup name = some t)
    (hold : ∀ {d is}, g.Stands t d is → is = []) (hnew : g.Stands t' e []) :
    g.StandsIn (putAttr attrs name t') (Node.setSlots slots name e) ids := by
  induction attrs generalizing slots ids with
  | nil => cases ht
  | cons attr attrs ih =>
    obtain ⟨key, u⟩ := attr
    obtain ⟨d, rest, is, js, rfl, rfl, hfirst, hrest⟩ := h
    rw [List.lookup_cons] at ht
    by_cases hkey : key = name
    · subst hkey
      obtain rfl : u = t := by simpa using ht
      obtain rfl := hold hfirst
      rw [putAttr, Node.setSlots, if_pos rfl, if_pos rfl]
      exact ⟨e, rest, [], js, rfl, rfl, hnew, hrest⟩
    · rw [beq_false_of_ne (Ne.symm hkey)] at ht
      rw [putAttr, Node.setSlots, if_neg hkey, if_neg hkey]
      exact ⟨d, _, is, js, rfl, rfl, hfirst, ih hrest ht⟩

/-- A node gets another attribute in place of one that is no node. -/
theorem Stands.fill {t' : NodeTree} {e : Datum} {id : Nat}
    (h : g.Stands (.node cls attrs) (.node cls id) ids) (hids : ids.Nodup) (name : String)
    (ht : attrs.lookup name = some t) (hold : ∀ {g d is}, Stands g t d is → is = [])
    (hnew : ∀ g, Stands g t' e []) :
    g.Becomes (.node cls id) ids (.node cls (putAttr attrs name t')) (g.fill id name e) := by
  obtain ⟨_, slots, rest, hd, rfl, hnode, hslots⟩ := h
  obtain ⟨-, rfl⟩ := Datum.node.inj hd
  obtain ⟨hid, -⟩ := List.nodup_cons.mp hids
  refine ⟨⟨id, Node.setSlots slots name e, rest, rfl, rfl, ?_, ?_⟩, fun i hi => ?_⟩
  · simp [Graph.fill, Array.getElem?_modify, hnode, Node.set]
  · have hsame : (g.fill id name e).StandsIn attrs slots rest :=
      StandsIn.congr attrs hslots fun i hi =>
      sameAt_fill fun heq => hid (heq ▸ hi)
    exact hsame.setSlots ht hold (hnew _)
  · exact sameAt_fill fun heq => hi (heq ▸ List.mem_cons_self)

/-- A node gets another type. -/
theorem Stands.fill_type {spot : Option Spot} {children : List NodeTree} {ty : Option Ty}
    {value : Option Constant} {own : List (String × NodeTree)} {id : Nat}
    (h : g.Stands (.ofNode cls spot children ty value own) (.node cls id) ids) (hids : ids.Nodup)
    (ty' : Option Ty) : g.Becomes (.node cls id) ids (.ofNode cls spot children ty' value own)
      (g.fill id "type" (.ofType? ty')) :=
  Stands.fill h hids "type" rfl (fun h => (stands_type.mp h).2) fun _ => stands_type.mpr ⟨rfl, rfl⟩

/-- A node gets another value. -/
theorem Stands.fill_value {spot : Option Spot} {children : List NodeTree} {ty : Option Ty}
    {value : Option Constant} {own : List (String × NodeTree)} {id : Nat}
    (h : g.Stands (.ofNode cls spot children ty value own) (.node cls id) ids) (hids : ids.Nodup)
    (value' : Option Constant) :
    g.Becomes (.node cls id) ids (.ofNode cls spot children ty value' own)
      (g.fill id "value" (.ofConstant? value')) :=
  Stands.fill h hids "value" rfl (fun h => (stands_value.mp h).2) fun _ =>
    stands_value.mpr ⟨rfl, rfl⟩

/-! ## Attributes of expressions -/

section Expressions

variable {e : Expr}

/-- What stands for an expression is a node of its class. -/
theorem Stands.expr_node (h : g.Stands e.node d ids) : ∃ id, d = .node e.cls id := by
  cases e <;> exact h.exists_node

/-- The type of an expression is the type of its node. -/
theorem Stands.expr_type (h : g.Stands e.node d ids) :
    g.attr? d "type" = some (.ofType? e.ty) := by
  cases e <;> exact h.attr?_plain "type" rfl stands_type

/-- So is the value. -/
theorem Stands.expr_value (h : g.Stands e.node d ids) :
    g.attr? d "value" = some (.ofConstant? e.value) := by
  cases e <;> exact h.attr?_plain "value" rfl stands_value

/-- So is the place. -/
theorem Stands.expr_place (h : g.Stands e.node d ids) :
    g.attr? d "line" = some (.ofNat? (e.spot?.map (·.line))) ∧
      g.attr? d "column" = some (.ofNat? (e.spot?.map (·.column))) := by
  cases e <;> exact h.attr?_place

end Expressions

end Graph

end Analizador
