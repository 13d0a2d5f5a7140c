import Mathlib.Data.List.Perm.Subperm
import Analizador.Proofs.Folding
import Analizador.Proofs.Walk.Steps

/-! # Expressions in a graph

A graph holds an expression when its parts are nodes of the graph, each a node of its own. Whether
it does depends on these nodes alone. Building the nodes of an expression one by one, operands
first, gives a graph that holds it. -/

namespace Analizador

/-- The value of an expression before it is walked: only literals have one. -/
def Expr.literalValue : Expr → Option Constant
  | .number n _ => some n.toConstant
  | .text s _ => some (.text s)
  | .use _ | .binary .. => none

namespace Graph

/-- A node is an operation on two data; it may have any type, but the given value. -/
structure IsOperation (g : Graph) (id : Nat) (op : Operator) (l r : Datum)
    (value : Option Constant) : Prop where
  operator : g.attr? (.node .binary id) "operator" = some (.ofText op.sign)
  left : g.attr? (.node .binary id) "left" = some l
  right : g.attr? (.node .binary id) "right" = some r
  typed : ∃ ty, g.attr? (.node .binary id) "type" = some ty
  value : g.attr? (.node .binary id) "value" = some (.ofConstant? value)

/-- The datum stands for the expression in a graph, by the nodes of the given numbers, and the value
of every node is the given one of its part. -/
inductive Holds (g : Graph) (value : Expr → Option Constant) : Expr → Datum → List Nat → Prop where
  | number {n spot id}
      (htype : g.attr? (.node .number id) "type" = some (.ofText n.literalType.name))
      (hvalue : g.attr? (.node .number id) "value" = some (.ofConstant? (value (.number n spot)))) :
      Holds g value (.number n spot) (.node .number id) [id]
  | text {s spot id}
      (htype : g.attr? (.node .text id) "type" = some (.ofText Ty.cadena.name))
      (hvalue : g.attr? (.node .text id) "value" = some (.ofConstant? (value (.text s spot)))) :
      Holds g value (.text s spot) (.node .text id) [id]
  | use {name id}
      (hname : g.attr? (.node .variableUse id) "name" = some (.ofText name.text))
      (hvalue : g.attr? (.node .variableUse id) "value" = some (.ofConstant? (value (.use name)))) :
      Holds g value (.use name) (.node .variableUse id) [id]
  | binary {op left right mark id l r ls rs}
      (hnode : g.IsOperation id op l r (value (.binary op left right mark)))
      (hleft : Holds g value left l ls) (hright : Holds g value right r rs)
      (hapart : (id :: (ls ++ rs)).Nodup) :
      Holds g value (.binary op left right mark) (.node .binary id) (id :: (ls ++ rs))

variable {g g' : Graph} {value : Expr → Option Constant} {e : Expr} {d : Datum} {ids : List Nat}

theorem Holds.value_eq (h : g.Holds value e d ids) :
    g.attr? d "value" = some (.ofConstant? (value e)) := by
  cases h with
  | number _ hvalue | text _ hvalue | use _ hvalue => exact hvalue
  | binary hnode => exact hnode.value

theorem Holds.nodup (h : g.Holds value e d ids) : ids.Nodup := by
  cases h with
  | number | text | use => exact List.nodup_singleton _
  | binary _ _ _ hapart => exact hapart

theorem Holds.length_pos (h : g.Holds value e d ids) : 0 < ids.length := by
  cases h <;> exact Nat.succ_pos _

theorem Holds.lt_size (h : g.Holds value e d ids) : ∀ id ∈ ids, id < g.nodes.size := by
  induction h with
  | number hattr | text hattr | use hattr =>
    intro id hid
    obtain rfl := List.mem_singleton.mp hid
    exact lt_size_of_attr? hattr
  | binary hnode _ _ _ ihleft ihright =>
    intro id hid
    rcases List.mem_cons.mp hid with rfl | hid
    · exact lt_size_of_attr? hnode.operator
    · exact (List.mem_append.mp hid).elim (ihleft id) (ihright id)

/-- An expression has at most as many nodes as the graph. -/
theorem Holds.length_le (h : g.Holds value e d ids) : ids.length ≤ g.nodes.size := by
  have hsubset : ids ⊆ List.range g.nodes.size :=
    fun id hid => List.mem_range.mpr (h.lt_size id hid)
  simpa using (h.nodup.subperm hsubset).length_le

/-! ## Graphs with the same nodes -/

theorem IsOperation.congr {id : Nat} {op : Operator} {l r : Datum} {value : Option Constant}
    (h : g.IsOperation id op l r value) (hsame : g.SameAt g' id) :
    g'.IsOperation id op l r value where
  operator := (hsame.attr? _ _).trans h.operator
  left := (hsame.attr? _ _).trans h.left
  right := (hsame.attr? _ _).trans h.right
  typed := h.typed.imp fun _ htype => (hsame.attr? _ _).trans htype
  value := (hsame.attr? _ _).trans h.value

/-- An expression is held by every graph that has its nodes. -/
theorem Holds.congr (h : g.Holds value e d ids) (hsame : ∀ id ∈ ids, g.SameAt g' id) :
    g'.Holds value e d ids := by
  induction h with
  | number htype hvalue =>
    have hnode := hsame _ (List.mem_singleton_self _)
    exact .number ((hnode.attr? _ _).trans htype) ((hnode.attr? _ _).trans hvalue)
  | text htype hvalue =>
    have hnode := hsame _ (List.mem_singleton_self _)
    exact .text ((hnode.attr? _ _).trans htype) ((hnode.attr? _ _).trans hvalue)
  | use hname hvalue =>
    have hnode := hsame _ (List.mem_singleton_self _)
    exact .use ((hnode.attr? _ _).trans hname) ((hnode.attr? _ _).trans hvalue)
  | binary hnode _ _ hapart ihleft ihright =>
    refine .binary (hnode.congr (hsame _ List.mem_cons_self)) (ihleft fun i hi => ?_)
      (ihright fun i hi => ?_) hapart
    · exact hsame i (List.mem_cons_of_mem _ (List.mem_append_left _ hi))
    · exact hsame i (List.mem_cons_of_mem _ (List.mem_append_right _ hi))

/-- The root of an expression has its attributes in every graph that has its nodes. -/
theorem Holds.attr?_congr (h : g.Holds value e d ids) (hsame : ∀ id ∈ ids, g.SameAt g' id)
    (name : String) :
    g'.attr? d name = g.attr? d name := by
  cases h with
  | number | text | use | binary => exact (hsame _ List.mem_cons_self).attr? _ _

end Graph

/-! ## Building -/

/-- Makes the nodes of an expression, operands first. -/
def Expr.build : Expr → Work Datum
  | .number n _ => Work.make .number [("value", .constant n.toConstant)]
  | .text s _ => Work.make .text [("value", .ofText s)]
  | .use name => Work.make .variableUse [("name", .ofText name.text)]
  | .binary op left right _ => do
    let l ← left.build
    let r ← right.build
    Work.makeBinary (.ofText op.sign) l r

theorem Constant.point_not_mem_toString (n : Int) : '.' ∉ (toString n).toList := by
  have hdigits (k : Nat) : '.' ∉ (Nat.repr k).toList := by
    intro hmem
    rw [Nat.toList_repr] at hmem
    exact absurd (Nat.isDigit_of_mem_toDigits (by decide) (by decide) hmem) (by decide)
  cases n with
  | ofNat k => exact hdigits k
  | negSucc k =>
    have htext : toString (Int.negSucc k) = "-" ++ Nat.repr (k + 1) := rfl
    simpa [htext] using hdigits (k + 1)

theorem Datum.numberType_integer {n : Int} (h : (Constant.integer n).Shows) :
    (Datum.ofInt n).numberType = .ok (.ofText Ty.ent.name) := by
  obtain ⟨text, htext⟩ := h
  have htoString : toString n = text := by
    simp only [Constant.render, Constant.integerText] at htext
    split at htext
    next => cases htext
    next => exact Except.ok.inj htext
  have hpoint : '.' ∉ text.toList := htoString ▸ Constant.point_not_mem_toString n
  simp [numberType, render, htext, hpoint, bind, Except.bind, pure, Except.pure]

/-- A graph grows: it keeps its nodes. -/
structure Graph.Extends (g g' : Graph) : Prop where
  size_le : g.nodes.size ≤ g'.nodes.size
  same : ∀ id < g.nodes.size, g.SameAt g' id

theorem Graph.Extends.trans {g g' g'' : Graph} (h : g.Extends g') (h' : g'.Extends g'') :
    g.Extends g'' where
  size_le := h.size_le.trans h'.size_le
  same id hid := (h.same id hid).trans (h'.same id (hid.trans_le h.size_le))

theorem Graph.extends_push (g : Graph) (n : Node) : g.Extends (g.push n).2 where
  size_le := by rw [size_push]; exact Nat.le_succ _
  same _ hid := sameAt_push hid

/-- Making a node adds it at the end, with its slots. -/
theorem Work.exists_turns_make (t : Table Datum Record) (g : Graph) (cls : NodeClass)
    (args : List (String × Datum)) {n : Node}
    (h : cls.make (fun name => (args.lookup name).getD .none) .none .none = .ok n) :
    ∃ g', Turns (make cls args) t g (.node n.cls g.nodes.size) g' ∧ g.Extends g' ∧
      ∀ name, g'.attr? (.node n.cls g.nodes.size) name = n.slot? name :=
  ⟨_, turns_make h, g.extends_push n, g.attr?_push n n.cls⟩

theorem NodeClass.make_number {n : Int} (h : (Constant.integer n).Shows) :
    number.make (fun name => (List.lookup name [("value", Datum.ofInt n)]).getD .none) .none .none =
      .ok ⟨.number, [("line", .none), ("column", .none), ("children", .list []),
        ("type", .ofText Ty.ent.name), ("value", .ofInt n)]⟩ := by
  change (do return Node.set _ "type" (← (Datum.ofInt n).numberType)) = _
  rw [Datum.numberType_integer h]
  rfl

/-- The nodes of two operands and of their operation are apart if each was made after those before
it. -/
theorem Graph.Holds.nodup_cons_append {g g' : Graph} {value : Expr → Option Constant}
    {left right : Expr} {l r : Datum} {ls rs : List Nat} (hl : g.Holds value left l ls)
    (hr : g'.Holds value right r rs) (h : g.Extends g') (hafter : ∀ id ∈ rs, g.nodes.size ≤ id) :
    (g'.nodes.size :: (ls ++ rs)).Nodup := by
  have hle := h.size_le
  refine List.nodup_cons.mpr ⟨fun hid => ?_,
    List.nodup_append.mpr ⟨hl.nodup, hr.nodup, fun i hi j hj heq => ?_⟩⟩
  · rcases List.mem_append.mp hid with hid | hid
    · have hlt := hl.lt_size _ hid
      omega
    · exact Nat.lt_irrefl _ (hr.lt_size _ hid)
  · have hlt := hl.lt_size i hi
    have hge := hafter j hj
    omega

/-- Building an expression adds nodes that hold it. -/
theorem Expr.turns_build {t : Table Datum Record} {g : Graph} {e : Expr} (he : e.Foldable) :
    ∃ d ids g', Work.Turns e.build t g d g' ∧ g'.Holds literalValue e d ids ∧ g.Extends g' ∧
      ∀ id ∈ ids, g.nodes.size ≤ id := by
  induction e generalizing g with
  | number n spot =>
    cases n with
    | real d => cases he
    | whole n =>
      obtain ⟨g', hturns, hextends, hslots⟩ := Work.exists_turns_make t g .number
        [("value", .ofInt n)] (NodeClass.make_number he.shows_number.2.2)
      exact ⟨_, [g.nodes.size], g', hturns, .number (hslots _) (hslots _), hextends, by simp⟩
  | text s spot =>
    obtain ⟨g', hturns, hextends, hslots⟩ :=
      Work.exists_turns_make t g .text [("value", .ofText s)] rfl
    exact ⟨_, [g.nodes.size], g', hturns, .text (hslots _) (hslots _), hextends, by simp⟩
  | use name =>
    obtain ⟨g', hturns, hextends, hslots⟩ :=
      Work.exists_turns_make t g .variableUse [("name", .ofText name.text)] rfl
    exact ⟨_, [g.nodes.size], g', hturns, .use (hslots _) (hslots _), hextends, by simp⟩
  | binary op left right mark ihleft ihright =>
    obtain ⟨l, ls, g₁, hlturns, hlholds, hlextends, hls⟩ := ihleft (g := g) he.2.1
    obtain ⟨r, rs, g₂, hrturns, hrholds, hrextends, hrs⟩ := ihright (g := g₁) he.2.2
    obtain ⟨g₃, hturns, hextends, hslots⟩ := Work.exists_turns_make t g₂ .binary
      [("operator", .ofText op.sign), ("left", l), ("right", r)] rfl
    have hnode : g₃.IsOperation g₂.nodes.size op l r none :=
      ⟨hslots _, hslots _, hslots _, ⟨_, hslots _⟩, hslots _⟩
    have hle := hlextends.size_le
    refine ⟨_, g₂.nodes.size :: (ls ++ rs), g₃, hlturns.bind (hrturns.bind hturns),
      .binary hnode ?_ ?_ (hlholds.nodup_cons_append hrholds hrextends hrs),
      (hlextends.trans hrextends).trans hextends, fun id hid => ?_⟩
    · exact hlholds.congr fun id hid => (hrextends.trans hextends).same id (hlholds.lt_size id hid)
    · exact hrholds.congr fun id hid => hextends.same id (hrholds.lt_size id hid)
    · rcases List.mem_cons.mp hid with rfl | hid
      · exact hle.trans hrextends.size_le
      · exact (List.mem_append.mp hid).elim (hls id) fun hid => hle.trans (hrs id hid)

end Analizador
