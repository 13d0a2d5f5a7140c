import Mathlib.Data.List.Forall2
import Analizador.Program.Outline
import Analizador.Proofs.Analysis.Moments
import Analizador.Proofs.Outline
import Analizador.Proofs.Program.Relocation

/-! # Outlines of programs

Graph descriptions and listings go their own ways down from the nodes of a program, and still they
meet the same nodes in the same order: their ways differ in the titles alone. What holds of the
nodes that are met follows from the parts of the program. -/

namespace Analizador

/-! ## Outlines without titles -/

mutual

/-- An outline without the titles of its branches. -/
def Outline.untitled : Outline → Outline
  | .node facts branches => .node facts branches.untitled

/-- Branches without titles. -/
def Branches.untitled : Branches → Branches
  | .done => .done
  | .broken f => .broken f
  | .more _ part rest => .more none part.untitled rest.untitled

end

mutual

/-- An outline has the same classes without its titles. -/
theorem Outline.classes_untitled : ∀ o : Outline, o.untitled.classes = o.classes
  | .node facts branches => congrArg (facts.cls :: ·) branches.classes_untitled

theorem Branches.classes_untitled : ∀ bs : Branches, bs.untitled.classes = bs.classes
  | .done => rfl
  | .broken _ => rfl
  | .more _ part rest => congrArg₂ (· ++ ·) part.classes_untitled rest.classes_untitled

end

namespace Branches

theorem untitled_append : ∀ bs rest : Branches,
    (bs.append rest).untitled = bs.untitled.append rest.untitled
  | .done, _ => rfl
  | .broken _, _ => rfl
  | .more _ part others, rest => congrArg (more none part.untitled) (untitled_append others rest)

theorem untitled_numbered (title : Nat → Option String) (start : Nat) (parts : List Outline) :
    (numbered title start parts).untitled =
      numbered (fun _ => none) start (parts.map Outline.untitled) := by
  induction parts generalizing start with
  | nil => rfl
  | cons part parts ih => exact congrArg (more none part.untitled) (ih (start + 1))

end Branches

/-- What is found in a slot, without titles. -/
def Sprout.untitled (s : Sprout) : Sprout :=
  ⟨s.counts, s.part.untitled, s.items.map (·.map Outline.untitled)⟩

namespace Descent

/-- Two ways go down alike by the same slot. -/
inductive Along : Descent → Descent → Prop where
  | part {slot title title' : String} : Along (.part slot title) (.part slot title')
  | items {slot : String} {title title' : Nat → Option String} :
      Along (.items slot title) (.items slot title')

/-- The ways of graph descriptions and those of listings, one by one. -/
theorem drawn_along_listed : List.Forall₂ Along drawn listed :=
  .cons .items <| .cons .part <| .cons .part <| .cons .part <| .cons .part <| .cons .part <|
    .cons .part <| .cons .part <| .cons .items .nil

variable {find find' : String → Option Sprout}

/-- Ways that go alike lead to the same branches, up to titles. -/
theorem Along.untitled_branches {way way' : Descent} (h : Along way way')
    (hfind : ∀ slot, (find slot).map Sprout.untitled = (find' slot).map Sprout.untitled) :
    (way.branches find).untitled = (way'.branches find').untitled := by
  have hfound (slot : String) : ((find slot).filter (·.counts)).map Sprout.untitled =
      ((find' slot).filter (·.counts)).map Sprout.untitled := by
    have hcounts : (Sprout.counts ∘ Sprout.untitled) = Sprout.counts := rfl
    rw [← hcounts, ← Option.filter_map, ← Option.filter_map, hfind]
  cases h with
  | @part slot =>
    have hslot := hfound slot
    simp only [branches]
    generalize (find slot).filter _ = found, (find' slot).filter _ = found' at hslot ⊢
    match found, found', hslot with
    | none, none, _ => rfl
    | some a, some b, hslot =>
      have hpart : a.part.untitled = b.part.untitled := congrArg Sprout.part (Option.some.inj hslot)
      exact congrArg (Branches.more none · .done) hpart
  | @items slot title title' =>
    have hslot := hfound slot
    simp only [branches]
    generalize (find slot).filter _ = found, (find' slot).filter _ = found' at hslot ⊢
    match found, found', hslot with
    | none, none, _ => rfl
    | some a, some b, hslot =>
      have hitems : a.items.map (·.map Outline.untitled) = b.items.map (·.map Outline.untitled) :=
        congrArg Sprout.items (Option.some.inj hslot)
      dsimp only
      match a.items, b.items, hitems with
      | .error f, .error g, hitems => exact congrArg Branches.broken (Except.error.inj hitems)
      | .ok parts, .ok parts', hitems =>
        simp only [Branches.untitled_numbered]
        exact congrArg (Branches.numbered _ 1) (Except.ok.inj hitems)

/-- Along ways that go down alike, the branches are the same, titles aside. -/
theorem untitled_branchesAll {ways ways' : List Descent} (h : List.Forall₂ Along ways ways')
    (hfind : ∀ slot, (find slot).map Sprout.untitled = (find' slot).map Sprout.untitled) :
    (branchesAll find ways).untitled = (branchesAll find' ways').untitled := by
  induction h with
  | nil => rfl
  | @cons way way' ways ways' hway _ ih =>
    change ((way.branches find).append (branchesAll find ways)).untitled =
      ((way'.branches find').append (branchesAll find' ways')).untitled
    rw [Branches.untitled_append, Branches.untitled_append, hway.untitled_branches hfind, ih]

end Descent

namespace NodeTree

section Along

variable {ways ways' : List Descent}

mutual

/-- What views find differs in titles alone if their ways do. -/
theorem untitled_sprout (hways : List.Forall₂ Descent.Along ways ways') :
    ∀ t : NodeTree, (t.sprout ways).untitled = (t.sprout ways').untitled
  | .none => rfl
  | .count _ => rfl
  | .constant _ => rfl
  | .list items => congrArg (Sprout.mk _ _ <| .ok ·) (untitled_outlines hways items)
  | .tree label children => by
    have hlist : (sproutList children (outlines ways children)).untitled =
        (sproutList children (outlines ways' children)).untitled :=
      congrArg (Sprout.mk _ _ <| .ok ·) (untitled_outlines hways children)
    refine congrArg (fun bs => Sprout.mk true (.node _ bs) (.error _))
      (Descent.untitled_branchesAll hways fun slot => ?_)
    simp only [List.lookup_cons, List.lookup_nil]
    split
    · rfl
    · split
      · exact congrArg some hlist
      · rfl
  | .node cls attrs =>
    congrArg (fun bs => Sprout.mk true (.node _ bs) (.error _))
      (Descent.untitled_branchesAll hways fun slot => untitled_sprouts hways slot attrs)

/-- So are the outlines of some trees. -/
theorem untitled_outlines (hways : List.Forall₂ Descent.Along ways ways') : ∀ items : List NodeTree,
    (outlines ways items).map Outline.untitled = (outlines ways' items).map Outline.untitled
  | [] => rfl
  | t :: rest =>
    congrArg₂ List.cons (congrArg Sprout.part (untitled_sprout hways t))
      (untitled_outlines hways rest)

theorem untitled_sprouts (hways : List.Forall₂ Descent.Along ways ways') (slot : String) :
    ∀ attrs : List (String × NodeTree),
    ((sprouts ways attrs).lookup slot).map Sprout.untitled =
      ((sprouts ways' attrs).lookup slot).map Sprout.untitled
  | [] => rfl
  | (name, t) :: rest => by
    rw [sprouts, sprouts, List.lookup_cons, List.lookup_cons]
    split
    · exact congrArg some (untitled_sprout hways t)
    · exact untitled_sprouts hways slot rest

end

end Along

/-- Graph descriptions and listings meet the same nodes, in the same order. -/
theorem classes_listed (t : NodeTree) :
    (t.outline Descent.listed).classes = (t.outline Descent.drawn).classes := by
  have huntitled := congrArg Sprout.part (untitled_sprout Descent.drawn_along_listed t)
  rw [← Outline.classes_untitled, ← Outline.classes_untitled (t.outline Descent.drawn)]
  exact congrArg Outline.classes huntitled.symm

/-! ## Nodes that are met -/

/-- The slots by which views go down to one part. -/
def partSlots : List String :=
  ["left", "right", "condition", "if_body", "else_body", "body", "expression"]

/-- The slots by which views go down to items. -/
def itemSlots : List String := ["children", "statements"]

/-- What views show of a node. -/
def nodeFacts (cls : NodeClass) (attrs : List (String × NodeTree)) : Facts :=
  .ofDatum (.node cls 0) fun name => (attrs.lookup name).map datum

/-- What views show of a raw tree. -/
def treeFacts (label : String) (children : List NodeTree) : Facts :=
  .ofDatum (datum (tree label children)) fun name =>
    [("data", .ofText label), ("children", .list (datumAll children))].lookup name

/-- A property holds of every node that views meet. -/
inductive Met (P : Facts → Prop) : NodeTree → Prop where
  | tree {label : String} {children : List NodeTree} (hfacts : P (treeFacts label children))
      (hchildren : ∀ t ∈ children, Met P t) : Met P (.tree label children)
  | node {cls : NodeClass} {attrs : List (String × NodeTree)} (hfacts : P (nodeFacts cls attrs))
      (hparts : ∀ slot ∈ partSlots, ∀ t, attrs.lookup slot = some t → t ≠ .none → Met P t)
      (hlists : ∀ slot ∈ itemSlots, ∀ t, attrs.lookup slot = some t → ∃ items, t = .list items)
      (hitems : ∀ slot ∈ itemSlots, ∀ items, attrs.lookup slot = some (.list items) →
        ∀ t ∈ items, Met P t) : Met P (.node cls attrs)

end NodeTree

/-- A way down that views may go, with titles on one line. -/
def Descent.Regular : Descent → Prop
  | part slot title => slot ∈ NodeTree.partSlots ∧ Text.OneLine title
  | items slot title => slot ∈ NodeTree.itemSlots ∧ ∀ n, ∀ text ∈ title n, Text.OneLine text

namespace Descent

theorem oneLine_numbered (title : String) (htitle : Text.OneLine title) (n : Nat) :
    ∀ text ∈ some (title ++ toString n), Text.OneLine text := by
  simpa using ⟨htitle, Text.oneLine_toString_nat n⟩

theorem regular_drawn : ∀ way ∈ drawn, way.Regular := by
  simp only [drawn, List.forall_mem_cons, List.not_mem_nil, false_implies, implies_true, and_true,
    Regular]
  exact ⟨⟨by decide, oneLine_numbered "child " (by decide)⟩, by decide, by decide, by decide,
    by decide, by decide, by decide, by decide, by decide, oneLine_numbered "stmt " (by decide)⟩

theorem regular_listed : ∀ way ∈ listed, way.Regular := by
  simp only [listed, List.forall_mem_cons, List.not_mem_nil, false_implies, implies_true, and_true,
    Regular]
  exact ⟨⟨by decide, by simp⟩, by decide, by decide, by decide, by decide, by decide, by decide,
    by decide, by decide, oneLine_numbered "Statement " (by decide)⟩

end Descent

section Every

variable {P : Facts → Prop}

/-- What holds of every part of two groups of branches holds of every part of both together. -/
theorem Branches.every_append : ∀ {bs rest : Branches}, bs.Every P → rest.Every P →
    (bs.append rest).Every P
  | .done, _, _, h => h
  | .more _ _ _, _, ⟨htitle, hpart, hothers⟩, h => ⟨htitle, hpart, every_append hothers h⟩

/-- What holds of every part of some outlines holds when they are numbered with titles of one
line. -/
theorem Branches.every_numbered {title : Nat → Option String} {parts : List Outline}
    (htitle : ∀ n, ∀ text ∈ title n, Text.OneLine text) (h : ∀ o ∈ parts, o.Every P) (start : Nat) :
    (numbered title start parts).Every P := by
  induction parts generalizing start with
  | nil => trivial
  | cons o parts ih =>
    obtain ⟨ho, hparts⟩ := List.forall_mem_cons.mp h
    exact ⟨htitle start, ho, ih hparts (start + 1)⟩

/-- Ways down lead to nodes with a property if what is found in the slots has it. -/
theorem Descent.every_branchesAll {find : String → Option Sprout} {ways : List Descent}
    (hways : ∀ way ∈ ways, way.Regular)
    (hparts : ∀ slot ∈ NodeTree.partSlots, ∀ found ∈ find slot, found.counts = true →
      found.part.Every P)
    (hitems : ∀ slot ∈ NodeTree.itemSlots, ∀ found ∈ find slot, ∃ parts,
      found.items = .ok parts ∧ ∀ o ∈ parts, o.Every P) :
    (branchesAll find ways).Every P := by
  induction ways with
  | nil => trivial
  | cons way ways ih =>
    obtain ⟨hway, hways⟩ := List.forall_mem_cons.mp hways
    refine Branches.every_append ?_ (ih hways)
    cases way with
    | part slot title =>
      simp only [branches]
      split
      next found hfound =>
        obtain ⟨hfound, hcounts⟩ := Option.filter_eq_some_iff.mp hfound
        exact ⟨by simpa using hway.2, hparts slot hway.1 found hfound hcounts, trivial⟩
      next => trivial
    | items slot title =>
      simp only [branches]
      split
      next found hfound =>
        obtain ⟨parts, hok, hevery⟩ :=
          hitems slot hway.1 found (Option.filter_eq_some_iff.mp hfound).1
        rw [hok]
        exact Branches.every_numbered hway.2 hevery 1
      next => trivial

namespace NodeTree

/-- The sprout of a slot is that of its attribute. -/
theorem lookup_sprouts (ways : List Descent) (attrs : List (String × NodeTree)) (slot : String) :
    (sprouts ways attrs).lookup slot = (attrs.lookup slot).map (sprout ways) := by
  induction attrs with
  | nil => rfl
  | cons attr attrs ih =>
    rw [sprouts, List.lookup_cons, List.lookup_cons, ih]
    split <;> rfl

/-- Trees are outlined one by one. -/
theorem outlines_eq (ways : List Descent) (items : List NodeTree) :
    outlines ways items = items.map (outline ways) := by
  induction items with
  | nil => rfl
  | cons t items ih => rw [outlines, ih, List.map_cons, outline]

/-- What holds of every node that is met holds of the nodes of outlines. -/
theorem Met.every {ways : List Descent} (hways : ∀ way ∈ ways, way.Regular) {t : NodeTree}
    (h : Met P t) : (t.outline ways).Every P := by
  have hlist {items : List NodeTree} (hitems : ∀ t ∈ items, (t.outline ways).Every P) :
      ∃ parts, (sproutList items (outlines ways items)).items = .ok parts ∧
      ∀ o ∈ parts, o.Every P := by
    refine ⟨_, rfl, ?_⟩
    rw [outlines_eq]
    exact List.forall_mem_map.mpr hitems
  induction h with
  | tree hfacts _ ih =>
    refine ⟨hfacts, Descent.every_branchesAll hways ?_ ?_⟩
    · simp [partSlots, List.lookup_cons]
    · simpa [itemSlots, List.lookup_cons] using hlist ih
  | @node cls attrs hfacts _ hlists _ ihparts ihitems =>
    refine ⟨hfacts, Descent.every_branchesAll hways ?_ ?_⟩
    · intro slot hslot found hfound hcounts
      obtain ⟨t, ht, rfl⟩ := Option.map_eq_some_iff.mp
        ((lookup_sprouts ways attrs slot).symm.trans hfound)
      refine ihparts slot hslot t ht ?_
      rintro rfl
      cases hcounts
    · intro slot hslot found hfound
      obtain ⟨t, ht, rfl⟩ := Option.map_eq_some_iff.mp
        ((lookup_sprouts ways attrs slot).symm.trans hfound)
      obtain ⟨items, rfl⟩ := hlists slot hslot t ht
      exact hlist (ihitems slot hslot items ht)

/-- A property of the nodes that are met, for a node with the attributes that every node has. -/
theorem met_ofNode {cls : NodeClass} {spot : Option Spot} {children : List NodeTree}
    {ty : Option Ty} {value : Option Constant} {own : List (String × NodeTree)}
    (hfacts : ∀ attrs, ofNode cls spot children ty value own = .node cls attrs →
      P (nodeFacts cls attrs))
    (hchildren : ∀ t ∈ children, Met P t)
    (hparts : ∀ attr ∈ own, attr.1 ∈ partSlots → attr.2 ≠ .none → Met P attr.2)
    (hitems : ∀ attr ∈ own, attr.1 ∈ itemSlots →
      ∃ items, attr.2 = .list items ∧ ∀ t ∈ items, Met P t) :
    Met P (ofNode cls spot children ty value own) := by
  have hmem {slot : String} {t : NodeTree} (h : own.lookup slot = some t) : (slot, t) ∈ own := by
    obtain ⟨before, after, rfl, -⟩ := List.lookup_eq_some_iff.mp h
    simp
  refine .node (hfacts _ rfl) ?_ ?_ ?_
  · have hown : ∀ slot ∈ partSlots, ∀ t, own.lookup slot = some t → t ≠ .none → Met P t :=
      fun slot hslot t ht => hparts _ (hmem ht) hslot
    simpa [partSlots, List.lookup_cons] using hown
  · have hown : ∀ slot ∈ itemSlots, ∀ t, own.lookup slot = some t → ∃ items, t = .list items := by
      intro slot hslot t ht
      obtain ⟨items, rfl, -⟩ := hitems _ (hmem ht) hslot
      exact ⟨items, rfl⟩
    simp only [itemSlots, List.forall_mem_cons] at hown
    simpa [itemSlots, List.lookup_cons] using hown.2.1
  · have hown : ∀ slot ∈ itemSlots, ∀ items, own.lookup slot = some (.list items) →
        ∀ t ∈ items, Met P t := by
      intro slot hslot items ht
      obtain ⟨items', heq, hitems'⟩ := hitems _ (hmem ht) hslot
      cases heq
      exact hitems'
    simp only [itemSlots, List.forall_mem_cons] at hown
    simpa [itemSlots, List.lookup_cons] using And.intro hchildren hown.2.1

/-- What a node shows is what it has: a value, a type, a place and some texts. -/
theorem forall_nodeFacts {R : Datum → Prop} {cls : NodeClass} {spot : Option Spot}
    {children : List NodeTree} {ty : Option Ty} {value : Option Constant}
    {own attrs : List (String × NodeTree)}
    (hattrs : ofNode cls spot children ty value own = .node cls attrs)
    (hvalue : R (ofOption .constant value).datum) (htype : R (ofOption (.text ·.name) ty).datum)
    (hown : ∀ attr ∈ own, attr.1 ∈ ["name", "operator", "var_type"] → R attr.2.datum) :
    let f := nodeFacts cls attrs
    (∀ slot ∈ [f.name, f.value, f.operator, f.varType, f.type], ∀ d ∈ slot, R d) ∧
      (R (ofOption (.count ·.line) spot).datum → R (ofOption (.count ·.column) spot).datum →
        ∀ slot ∈ [f.line, f.column], ∀ d ∈ slot, R d) := by
  obtain ⟨-, rfl⟩ := NodeTree.node.inj hattrs
  have hlookup (name : String) (hname : name ∈ ["name", "operator", "var_type"]) :
      ∀ d ∈ (own.lookup name).map datum, R d := by
    intro d hd
    obtain ⟨t, ht, rfl⟩ := Option.map_eq_some_iff.mp hd
    obtain ⟨before, after, rfl, -⟩ := List.lookup_eq_some_iff.mp ht
    exact hown (name, t) (by simp) hname
  refine ⟨?_, fun hline hcolumn => ?_⟩
  · have hname := hlookup "name" (by simp)
    have hoperator := hlookup "operator" (by simp)
    have hvarType := hlookup "var_type" (by simp)
    simp only [List.forall_mem_cons, List.not_mem_nil, false_implies, implies_true, and_true]
    refine ⟨hname, ?_, hoperator, hvarType, ?_⟩
    · rintro _ ⟨⟩
      exact hvalue
    · rintro _ ⟨⟩
      exact htype
  · simp only [List.forall_mem_cons, List.not_mem_nil, false_implies, implies_true, and_true]
    refine ⟨?_, ?_⟩
    · rintro _ ⟨⟩
      exact hline
    · rintro _ ⟨⟩
      exact hcolumn

theorem treeFacts_sentence (cls : NodeClass) (attrs : List (String × NodeTree)) :
    treeFacts "sentencia" [.node cls attrs] = { cls := "Tree" } := rfl

end NodeTree

end Every

/-! ## Nodes of programs -/

open NodeTree (ofNode nodeFacts treeFacts Met met_ofNode partSlots itemSlots)

/-- What a property of the nodes that are met asks of the parts of a program: of places, of values
and of texts. -/
structure Facts.Asks (P : Facts → Prop) (place : Spot → Prop) (value : Option Constant → Prop)
    (text : String → Prop) : Prop where
  node : ∀ {cls : NodeClass} {spot : Option Spot} {children : List NodeTree} {ty : Option Ty}
    {v : Option Constant} {own attrs : List (String × NodeTree)},
    ofNode cls spot children ty v own = .node cls attrs → (∀ s ∈ spot, place s) → value v →
      (∀ attr ∈ own, attr.1 ∈ ["name", "operator", "var_type"] →
        ∃ s, attr.2 = NodeTree.text s ∧ text s) → P (nodeFacts cls attrs)
  sentence : ∀ cls attrs, P (treeFacts "sentencia" [.node cls attrs])
  unvalued : value none
  sign : ∀ op : Operator, text op.sign
  type : ∀ ty : Ty, text ty.name

/-- A site with a value and a name that are as asked. -/
structure Site.Suits (value : Option Constant → Prop) (text : String → Prop) (site : Site) :
    Prop where
  value : value site.mark.value
  name : ∀ name, site.form = .name name → text name

section Asks

variable {P : Facts → Prop} {f : Spot → Spot} {value : Option Constant → Prop}
  {text : String → Prop}
  (hP : Facts.Asks P (fun s => f s = s) value text)

include hP

/-- A name whose site suits has a node that meets what is asked. -/
theorem Name.met {n : Name} (hplace : n.relocate f = n) (hsite : n.site.Suits value text)
    (cls : NodeClass) : Met P (n.node cls) := by
  have hspot : f n.spot = n.spot := congrArg Name.spot hplace
  have hname : text n.text := hsite.name n.text rfl
  refine met_ofNode (fun attrs hattrs => hP.node hattrs (by simpa using hspot) hsite.value ?_)
    (List.forall_mem_nil _) ?_ ?_
  · simpa using ⟨n.text, rfl, hname⟩
  · simp [partSlots]
  · simp [itemSlots]

/-- So has an expression all of whose sites suit. -/
theorem Expr.met {e : Expr} (hplace : e.relocate f = e)
    (hsites : ∀ site ∈ e.sites, site.Suits value text) : Met P e.node := by
  induction e with
  | number n spot =>
    have hspot : f spot = spot := (number.inj hplace).2
    have hsite := hsites _ List.mem_cons_self
    exact met_ofNode
      (fun attrs hattrs => hP.node hattrs (by simpa using hspot) hsite.value (by simp))
      (by simp) (by simp) (by simp)
  | text s spot =>
    have hspot : f spot = spot := (Expr.text.inj hplace).2
    have hsite := hsites _ List.mem_cons_self
    exact met_ofNode
      (fun attrs hattrs => hP.node hattrs (by simpa using hspot) hsite.value (by simp))
      (by simp) (by simp) (by simp)
  | use name => exact Name.met hP (use.inj hplace) (hsites _ List.mem_cons_self) .variableUse
  | binary op left right mark ihleft ihright =>
    obtain ⟨-, hleft, hright, -⟩ := binary.inj hplace
    obtain ⟨hmark, hoperands⟩ := List.forall_mem_cons.mp hsites
    obtain ⟨hlsites, hrsites⟩ := List.forall_mem_append.mp hoperands
    refine met_ofNode (fun attrs hattrs => hP.node hattrs (by simp) hmark.value ?_) (by simp) ?_ ?_
    · simpa using ⟨op.sign, rfl, hP.sign op⟩
    · simpa [partSlots] using ⟨fun _ => ihleft hleft hlsites, fun _ => ihright hright hrsites⟩
    · simp [itemSlots]

/-- A node of a class without place, type and value. -/
theorem Facts.Asks.met_ofClass {cls : NodeClass} {own : List (String × NodeTree)}
    (hown : ∀ attr ∈ own, attr.1 ∉ ["name", "operator", "var_type"])
    (hparts : ∀ attr ∈ own, attr.1 ∈ partSlots → attr.2 ≠ .none → Met P attr.2)
    (hitems : ∀ attr ∈ own, attr.1 ∈ itemSlots →
      ∃ items, attr.2 = .list items ∧ ∀ t ∈ items, Met P t) :
    Met P (.ofClass cls own) :=
  met_ofNode (fun _ hattrs => hP.node hattrs (by simp) hP.unvalued fun attr hattr hmem =>
    absurd hmem (hown attr hattr)) (by simp) hparts hitems

/-- A block of trees that meet it meets it. -/
theorem Facts.Asks.met_block {statements : List NodeTree} (h : ∀ t ∈ statements, Met P t) :
    Met P (.block statements) :=
  hP.met_ofClass (by simp) (by simp [partSlots]) (by simpa [itemSlots] using h)

theorem Facts.Asks.met_sentence {s : Stmt} (h : Met P s.node) : Met P (.sentence s.node) := by
  obtain ⟨cls, attrs, hnode⟩ : ∃ cls attrs, s.node = .node cls attrs := by
    cases s <;> exact ⟨_, _, rfl⟩
  refine .tree ?_ (List.forall_mem_singleton.mpr h)
  rw [hnode]
  exact hP.sentence cls attrs

mutual

/-- A statement all of whose sites suit has a node that meets what is asked. -/
theorem Stmt.met : ∀ s : Stmt, s.relocate f = s → (∀ site ∈ s.sites, site.Suits value text) →
    Met P s.node
  | .assign target value ty, hplace, hsites => by
    obtain ⟨-, hvalue, -⟩ := assign.inj hplace
    have hmet := Expr.met hP hvalue (List.forall_mem_cons.mp hsites).2
    exact met_ofNode (fun attrs hattrs => hP.node hattrs (by simp) hP.unvalued (by simp)) (by simp)
      (by simpa [partSlots] using fun _ => hmet) (by simp [itemSlots])
  | .conditional condition body other, hplace, hsites => by
    obtain ⟨hcondition, hbody, hother⟩ := conditional.inj hplace
    obtain ⟨hcsites, hblocks⟩ := List.forall_mem_append.mp hsites
    obtain ⟨hbsites, hosites⟩ := List.forall_mem_append.mp hblocks
    have hif := hP.met_block (Stmt.met_all body hbody hbsites)
    have helse := Stmt.met_other other hother hosites
    have hmet := Expr.met hP hcondition hcsites
    exact hP.met_ofClass (by simp)
      (by simpa [partSlots] using ⟨fun _ => hmet, fun _ => hif, helse⟩) (by simp [itemSlots])
  | .whileLoop condition body, hplace, hsites => by
    obtain ⟨hcondition, hbody⟩ := whileLoop.inj hplace
    obtain ⟨hcsites, hbsites⟩ := List.forall_mem_append.mp hsites
    have hblock := hP.met_block (Stmt.met_all body hbody hbsites)
    have hmet := Expr.met hP hcondition hcsites
    exact hP.met_ofClass (by simp)
      (by simpa [partSlots] using ⟨fun _ => hmet, fun _ => hblock⟩) (by simp [itemSlots])
  | .repeatLoop count spot body, hplace, hsites => by
    obtain ⟨-, -, hbody⟩ := repeatLoop.inj hplace
    have hblock := hP.met_block (Stmt.met_all body hbody (List.forall_mem_append.mp hsites).2)
    exact hP.met_ofClass (by simp) (by simpa [partSlots] using fun _ => hblock)
      (by simp [itemSlots])
  | .print value, hplace, hsites => by
    have hmet := Expr.met hP (print.inj hplace) hsites
    exact hP.met_ofClass (by simp) (by simpa [partSlots] using fun _ => hmet) (by simp [itemSlots])
  | .input _, _, _ => hP.met_ofClass (by simp) (by simp [partSlots]) (by simp [itemSlots])
  | .block body, hplace, hsites => hP.met_block (Stmt.met_all body (block.inj hplace) hsites)
termination_by structural s => s

theorem Stmt.met_other : ∀ other : Option (List Stmt), relocateOther f other = other →
    (∀ site ∈ sitesOther other, site.Suits value text) → nodeOther other ≠ .none →
    Met P (nodeOther other)
  | none, _, _, hnone => absurd rfl hnone
  | some body, hplace, hsites, _ =>
    hP.met_block (Stmt.met_all body (Option.some.inj hplace) hsites)
termination_by structural other => other

/-- So have the statements of a body. -/
theorem Stmt.met_all : ∀ body : List Stmt, relocateAll f body = body →
    (∀ site ∈ sitesAll body, site.Suits value text) → ∀ t ∈ nodeAll body, Met P t
  | [], _, _ => List.forall_mem_nil _
  | s :: rest, hplace, hsites => by
    obtain ⟨hs, hrest⟩ := List.cons.inj hplace
    obtain ⟨hssites, hrsites⟩ := List.forall_mem_append.mp hsites
    exact List.forall_mem_cons.mpr
      ⟨hP.met_sentence (Stmt.met s hs hssites), Stmt.met_all rest hrest hrsites⟩
termination_by structural body => body

end

/-- So has an item. -/
theorem Item.met {i : Item} (hplace : i.relocate f = i)
    (hsites : ∀ site ∈ i.sites, site.Suits value text) : Met P i.node := by
  cases i with
  | declaration ty listType names =>
    have hnames : ∀ n ∈ names, n.relocate f = n :=
      List.map_inj_left.mp ((declaration.inj hplace).2.2.trans (List.map_id _).symm)
    have hlist : ∀ t ∈ names.map (Name.node .identifier), Met P t :=
      List.forall_mem_map.mpr fun n hn =>
        Name.met hP (hnames n hn) (hsites _ (List.mem_map_of_mem hn)) .identifier
    have hidentifiers : Met P (.ofNode .identifierList none (names.map (Name.node .identifier))
        listType none [("identifiers", .list (names.map (.text ·.text)))]) :=
      met_ofNode (fun attrs hattrs => hP.node hattrs (by simp) hP.unvalued (by simp)) hlist
        (by simp [partSlots]) (by simp [itemSlots])
    refine met_ofNode (fun attrs hattrs => hP.node hattrs (by simp) hP.unvalued ?_)
      (List.forall_mem_singleton.mpr hidentifiers) (by simp [partSlots]) (by simp [itemSlots])
    simpa using ⟨ty.name, rfl, hP.type ty⟩
  | statement s => exact hP.met_sentence (Stmt.met hP s (statement.inj hplace) hsites)

/-- The nodes of a program that are met have a property if its places, its values and its names are
as the property asks. -/
theorem Program.met {p : Program} (hplace : p.relocate f = p)
    (hsites : ∀ site ∈ p.sites, site.Suits value text) : Met P p.node := by
  have hitems : ∀ i ∈ p.items, i.relocate f = i :=
    List.map_inj_left.mp ((congrArg Program.items hplace).trans (List.map_id _).symm)
  refine met_ofNode (fun attrs hattrs => hP.node hattrs (by simp) hP.unvalued (by simp)) ?_
    (by simp) (by simp)
  refine List.forall_mem_map.mpr fun i hi => Item.met hP (hitems i hi) fun site hsite => ?_
  exact hsites site (List.mem_flatMap.mpr ⟨i, hi, hsite⟩)

end Asks

end Analizador
