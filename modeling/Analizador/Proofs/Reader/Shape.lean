import Mathlib.Data.List.Forall2
import Analizador.Program.Nodes
import Analizador.Proofs.Reader.Acceptance
import Analizador.Proofs.Reader.Atoms

/-! # The shape of the nodes of a program

The tree of nodes that is handed out for a text has one shape: declarations and wrapped statements
at the top, wrapped statements only in blocks, and expressions over the ten operators that programs
can hold. The names and literals in it are those of the text, one node for each token, in the order
of the text. -/

namespace Analizador

namespace NodeTree

/-! ## Looking into a node -/

/-- The class of a node. -/
def cls? : NodeTree → Option NodeClass
  | node cls _ => some cls
  | _ => .none

/-- An attribute of a node. -/
def attr? (t : NodeTree) (key : String) : Option NodeTree :=
  match t with
  | node _ attrs => attrs.lookup key
  | _ => .none

mutual

/-- The nodes of some classes in a tree, in the order of the attributes. -/
def gather (p : NodeClass → Bool) : NodeTree → List NodeTree
  | .none | .count _ | .constant _ => []
  | .list items => gatherAll p items
  | .tree _ children => gatherAll p children
  | .node cls attrs => (if p cls then [.node cls attrs] else []) ++ gatherAttrs p attrs
termination_by structural t => t

/-- The nodes of some classes in some trees. -/
def gatherAll (p : NodeClass → Bool) : List NodeTree → List NodeTree
  | [] => []
  | t :: rest => t.gather p ++ gatherAll p rest
termination_by structural ts => ts

/-- The nodes of some classes in some attributes. -/
def gatherAttrs (p : NodeClass → Bool) : List (String × NodeTree) → List NodeTree
  | [] => []
  | (_, t) :: rest => t.gather p ++ gatherAttrs p rest
termination_by structural attrs => attrs

end

/-! ## The shape -/

/-- The signs of arithmetic operations. -/
def arithmeticSigns : List String := ["+", "-", "*", "/"]

/-- The signs of comparisons. -/
def relationalSigns : List String := ["==", "!=", ">", "<", ">=", "<="]

/-- An expression: a number, a text, a variable, or an operation. Only comparisons have a type. -/
inductive IsExpression : NodeTree → Prop where
  | leaf {t} (hcls : t.cls? ∈ [some .number, some .text, some .variableUse]) : IsExpression t
  | arithmetic {t sign left right} (hcls : t.cls? = some .binary) (hsign : sign ∈ arithmeticSigns)
      (hoperator : t.attr? "operator" = some (.text sign)) (htype : t.attr? "type" = some .none)
      (hleft : t.attr? "left" = some left) (hright : t.attr? "right" = some right)
      (left_ok : IsExpression left) (right_ok : IsExpression right) : IsExpression t
  | relational {t sign left right} (hcls : t.cls? = some .binary) (hsign : sign ∈ relationalSigns)
      (hoperator : t.attr? "operator" = some (.text sign))
      (htype : t.attr? "type" = some (.text "bool"))
      (hleft : t.attr? "left" = some left) (hright : t.attr? "right" = some right)
      (left_ok : IsExpression left) (right_ok : IsExpression right) : IsExpression t

/-- A count of repetitions: a number that is a whole one and not negative. -/
structure IsCount (t : NodeTree) : Prop where
  cls : t.cls? = some .number
  value : ∃ n : Nat, t.attr? "value" = some (.constant (.integer n))

mutual

/-- A statement in its wrapping. -/
inductive IsSentence : NodeTree → Prop where
  | intro {s} (hs : IsStatement s) : IsSentence (.tree "sentencia" [s])

/-- A block of wrapped statements. -/
inductive IsBlock : NodeTree → Prop where
  | intro {t statements} (hcls : t.cls? = some .block)
      (hstatements : t.attr? "statements" = some (.list statements))
      (hall : ∀ s ∈ statements, IsSentence s) : IsBlock t

/-- A statement. -/
inductive IsStatement : NodeTree → Prop where
  | assign {t target value} (hcls : t.cls? = some .assignment)
      (htarget : t.attr? "identifier" = some target) (hvariable : target.cls? = some .variableUse)
      (hvalue : t.attr? "expression" = some value) (value_ok : value.IsExpression) : IsStatement t
  | conditional {t condition body} (hcls : t.cls? = some .conditional)
      (hcondition : t.attr? "condition" = some condition) (condition_ok : condition.IsExpression)
      (hbody : t.attr? "if_body" = some body) (body_ok : IsBlock body)
      (hother : t.attr? "else_body" = some .none) : IsStatement t
  | alternative {t condition body other} (hcls : t.cls? = some .conditional)
      (hcondition : t.attr? "condition" = some condition) (condition_ok : condition.IsExpression)
      (hbody : t.attr? "if_body" = some body) (body_ok : IsBlock body)
      (hother : t.attr? "else_body" = some other) (other_ok : IsBlock other) : IsStatement t
  | whileLoop {t condition body} (hcls : t.cls? = some .whileLoop)
      (hcondition : t.attr? "condition" = some condition) (condition_ok : condition.IsExpression)
      (hbody : t.attr? "body" = some body) (body_ok : IsBlock body) : IsStatement t
  | repeatLoop {t count body} (hcls : t.cls? = some .repeatLoop)
      (hcount : t.attr? "count" = some count)
      (count_ok : count.IsCount) (hbody : t.attr? "body" = some body) (body_ok : IsBlock body) :
      IsStatement t
  | print {t value} (hcls : t.cls? = some .print) (hvalue : t.attr? "expression" = some value)
      (value_ok : value.IsExpression) : IsStatement t
  | input {t target} (hcls : t.cls? = some .input) (htarget : t.attr? "variable" = some target)
      (hvariable : target.cls? = some .variableUse) : IsStatement t
  | block {t} (block_ok : IsBlock t) : IsStatement t

end

/-- A declaration: a type, and one list of names that has the nodes of these names as children. -/
inductive IsDeclaration : NodeTree → Prop where
  | intro {t names ids nodes ty} (hcls : t.cls? = some .declaration)
      (hty : ty ∈ ["ent", "dec", "cadena"]) (htype : t.attr? "type" = some (.text ty))
      (hchildren : t.attr? "children" = some (.list [names]))
      (hnames : names.cls? = some .identifierList)
      (hids : names.attr? "identifiers" = some (.list ids)) (hne : ids ≠ [])
      (hnodes : names.attr? "children" = some (.list nodes))
      (hall : ∀ n ∈ nodes, n.cls? = some .identifier)
      (hsame : nodes.map (attr? · "name") = ids.map some) :
      IsDeclaration t

/-- A program of declarations and wrapped statements, with no declaration further down. -/
inductive IsProgram : NodeTree → Prop where
  | intro {t items} (hcls : t.cls? = some .program)
      (hchildren : t.attr? "children" = some (.list items))
      (hall : ∀ i ∈ items, i.IsDeclaration ∨ i.IsSentence)
      (htop : t.gather (· == .declaration) = items.filter (·.cls? == some .declaration)) :
      IsProgram t

/-- A node is that of a name or literal token: it has its place and its name or value. -/
structure Shows (n : NodeTree) (t : Token) : Prop where
  line : n.attr? "line" = some (.count t.spot.line)
  column : n.attr? "column" = some (.count t.spot.column)
  content :
    match t.kind with
    | .integer => n.cls? = some .number ∧
        ∃ k, Numeral.readInteger t.text = .ok k ∧ n.attr? "value" = some (.constant (.integer k))
    | .decimal => n.cls? = some .number ∧
        ∃ d, Numeral.readDecimal t.text = .ok d ∧ n.attr? "value" = some (.constant (.decimal d))
    | .text => n.cls? = some .text ∧
        n.attr? "value" = some (.text (String.ofList (t.text.toList.drop 1).dropLast))
    | _ => n.cls? ∈ [some .variableUse, some .identifier] ∧ n.attr? "name" = some (.text t.text)

end NodeTree

/-- The classes of the nodes of names and literals. -/
def NodeClass.isLeaf : NodeClass → Bool
  | .number | .text | .variableUse | .identifier => true
  | _ => false

namespace NodeTree

variable {cls : NodeClass} {spot : Option Spot} {children : List NodeTree} {ty : Option Ty}
  {value : Option Constant} {own : List (String × NodeTree)}

@[simp] theorem cls?_ofNode : (ofNode cls spot children ty value own).cls? = some cls := rfl

@[simp] theorem attr?_line :
    (ofNode cls spot children ty value own).attr? "line" =
      some (ofOption (.count ·.line) spot) := by
  simp [ofNode, attr?]

@[simp] theorem attr?_column :
    (ofNode cls spot children ty value own).attr? "column" =
      some (ofOption (.count ·.column) spot) := by
  simp [ofNode, attr?, List.lookup_cons]

@[simp] theorem attr?_children :
    (ofNode cls spot children ty value own).attr? "children" = some (.list children) := by
  simp [ofNode, attr?, List.lookup_cons]

@[simp] theorem attr?_type :
    (ofNode cls spot children ty value own).attr? "type" = some (ofOption (.text ·.name) ty) := by
  simp [ofNode, attr?, List.lookup_cons]

@[simp] theorem attr?_value :
    (ofNode cls spot children ty value own).attr? "value" = some (ofOption .constant value) := by
  simp [ofNode, attr?, List.lookup_cons]

/-- The attributes that every node has. -/
def commonKeys : List String := ["line", "column", "children", "type", "value"]

/-- A slot of its own is not one that every node has. -/
theorem attr?_own {key : String} (h : key ∉ commonKeys) :
    (ofNode cls spot children ty value own).attr? key = own.lookup key := by
  simp only [commonKeys, List.mem_cons, List.not_mem_nil, or_false, not_or] at h
  obtain ⟨hline, hcolumn, hchildren, htype, hvalue⟩ := h
  simp [ofNode, attr?, List.lookup_cons, beq_eq_false_iff_ne.mpr hline,
    beq_eq_false_iff_ne.mpr hcolumn, beq_eq_false_iff_ne.mpr hchildren,
    beq_eq_false_iff_ne.mpr htype, beq_eq_false_iff_ne.mpr hvalue]

/-! ## What a node holds further down -/

variable {p : NodeClass → Bool}

/-- A part that may be missing gathers nothing, if it never does. -/
theorem gather_ofOption {α : Type} {f : α → NodeTree} (hf : ∀ a, (f a).gather p = [])
    (x : Option α) :
    (ofOption f x).gather p = [] := by
  cases x with
  | none => rfl
  | some a => exact hf a

/-- A node is gathered before what is below it. -/
theorem gather_ofNode : (ofNode cls spot children ty value own).gather p =
    (if p cls then [ofNode cls spot children ty value own] else []) ++
      (gatherAll p children ++ gatherAttrs p own) := by
  simp only [ofNode, gather, List.cons_append, List.nil_append, gatherAttrs]
  rw [gather_ofOption fun _ => rfl, gather_ofOption fun _ => rfl, gather_ofOption fun _ => rfl,
    gather_ofOption fun _ => rfl]
  rfl

@[simp] theorem gather_text (s : String) : (text s).gather p = [] := rfl

@[simp] theorem gather_sentence (t : NodeTree) : (sentence t).gather p = t.gather p := by
  simp [sentence, gather, gatherAll]

/-- A block gathers what its statements gather. -/
theorem gather_block (hp : p .block = false) (statements : List NodeTree) :
    (block statements).gather p = gatherAll p statements := by
  simp [block, ofClass, gather_ofNode, hp, gatherAll, gatherAttrs, gather]

end NodeTree

open NodeTree (gather_ofNode gather_block gatherAll gatherAttrs)

/-- The classes of nodes inside statements that are no atoms. -/
def NodeClass.inner : List NodeClass :=
  [.binary, .assignment, .conditional, .whileLoop, .repeatLoop, .print, .input, .block]

section Gather

variable {p : NodeClass → Bool}

/-- A name is a leaf. -/
theorem Name.gather_node (cls : NodeClass) (n : Name) :
    (n.node cls).gather p = if p cls then [n.node cls] else [] := by
  simp [Name.node, gather_ofNode, gatherAll, gatherAttrs]

/-- Among the nodes of an expression, those below the inner ones are its atoms. -/
theorem Expr.gather_node (hp : ∀ cls ∈ NodeClass.inner, p cls = false) (e : Expr) :
    e.node.gather p = (e.atoms.filter (p ·.cls)).map Expr.node := by
  induction e with
  | number n spot | text s spot =>
    simp only [node, gather_ofNode, gatherAll, gatherAttrs, atoms, List.append_nil,
      List.filter_cons, cls, List.filter_nil]
    split <;> rfl
  | use name =>
    simp only [node, Name.gather_node, atoms, List.filter_cons, cls, List.filter_nil]
    split <;> rfl
  | binary op left right mark ihleft ihright =>
    simp [node, gather_ofNode, gatherAll, gatherAttrs, atoms, ihleft, ihright,
      hp .binary (by decide)]

mutual

/-- So are those of a statement. -/
theorem Stmt.gather_node (hp : ∀ cls ∈ NodeClass.inner, p cls = false) :
    ∀ s : Stmt, s.node.gather p = (s.atoms.filter (p ·.cls)).map Expr.node
  | .assign target value ty => by
    rw [Stmt.node, gather_ofNode, hp .assignment (by decide)]
    by_cases hleaf : p .variableUse = true <;>
      simp [gatherAll, gatherAttrs, Name.gather_node, Expr.gather_node hp, atoms, Expr.cls,
        Expr.node, hleaf]
  | .conditional condition body other => by
    rw [Stmt.node, NodeTree.ofClass, gather_ofNode, hp .conditional (by decide)]
    simp [gatherAll, gatherAttrs, Expr.gather_node hp, gather_block (hp .block (by decide)),
      gather_nodeAll hp body, gather_nodeOther hp other, atoms]
  | .whileLoop condition body => by
    rw [Stmt.node, NodeTree.ofClass, gather_ofNode, hp .whileLoop (by decide)]
    simp [gatherAll, gatherAttrs, Expr.gather_node hp, gather_block (hp .block (by decide)),
      gather_nodeAll hp body, atoms]
  | .repeatLoop count spot body => by
    rw [Stmt.node, NodeTree.ofClass, gather_ofNode, hp .repeatLoop (by decide)]
    by_cases hleaf : p .number = true <;>
      simp [gatherAll, gatherAttrs, Expr.gather_node hp, gather_block (hp .block (by decide)),
        gather_nodeAll hp body, atoms, Expr.atoms, Expr.cls, hleaf]
  | .print value => by
    rw [Stmt.node, NodeTree.ofClass, gather_ofNode, hp .print (by decide)]
    simp [gatherAll, gatherAttrs, Expr.gather_node hp, atoms]
  | .input target => by
    rw [Stmt.node, NodeTree.ofClass, gather_ofNode, hp .input (by decide)]
    by_cases hleaf : p .variableUse = true <;>
      simp [gatherAll, gatherAttrs, Name.gather_node, atoms, Expr.cls, Expr.node, hleaf]
  | .block body => by
    rw [Stmt.node, gather_block (hp .block (by decide)), gather_nodeAll hp body, atoms]

theorem Stmt.gather_nodeOther (hp : ∀ cls ∈ NodeClass.inner, p cls = false) :
    ∀ other : Option (List Stmt),
      (nodeOther other).gather p = ((atomsOther other).filter (p ·.cls)).map Expr.node
  | none => rfl
  | some body => by
    rw [nodeOther, gather_block (hp .block (by decide)), gather_nodeAll hp body, atomsOther]

/-- So are those of a body. -/
theorem Stmt.gather_nodeAll (hp : ∀ cls ∈ NodeClass.inner, p cls = false) :
    ∀ body : List Stmt, gatherAll p (nodeAll body) =
      ((atomsAll body).filter (p ·.cls)).map Expr.node
  | [] => rfl
  | s :: rest => by
    simp [nodeAll, gatherAll, gather_node hp s, gather_nodeAll hp rest, atomsAll]

end

/-- A declaration gathers its names. -/
theorem Item.gather_declaration (ty : Ty) (listType : Option Ty) (names : List Name)
    (hlist : p .identifierList = false) : (declaration ty listType names).node.gather p =
      (if p .declaration then [(declaration ty listType names).node] else []) ++
        if p .identifier then names.map (Name.node .identifier) else [] := by
  have hnames : gatherAll p (names.map (Name.node .identifier)) =
      if p .identifier then names.map (Name.node .identifier) else [] := by
    induction names with
    | nil => simp [gatherAll]
    | cons n names ih =>
      rw [List.map_cons, gatherAll, Name.gather_node, ih]
      split <;> simp
  have hids (ids : List Name) : gatherAll p (ids.map fun n => .text n.text) = [] := by
    induction ids with
    | nil => rfl
    | cons n ids ih => simp [gatherAll, ih]
  rw [node, gather_ofNode]
  simp [gatherAll, gatherAttrs, gather_ofNode, hlist, hnames, hids, NodeTree.gather]

end Gather

/-! ## The nodes of atoms -/

/-- A node is that of an atom: of the name of a declaration, or of an expression. -/
def NodeTree.IsLeaf (n : NodeTree) (e : Expr) : Prop :=
  n = e.node ∨ ∃ name, e = .use name ∧ n = name.node .identifier

/-- The leaves of an item are its atoms, in order. -/
theorem Item.forall₂_atoms {i : Item} (h : ∀ e ∈ i.atoms, e.cls.isLeaf = true) :
    List.Forall₂ NodeTree.IsLeaf (i.node.gather NodeClass.isLeaf) i.atoms := by
  cases i with
  | declaration ty listType names =>
    rw [gather_declaration ty listType names rfl]
    refine List.forall₂_map_left_iff.mpr (List.forall₂_map_right_iff.mpr ?_)
    exact List.forall₂_same.mpr fun n _ => .inr ⟨n, rfl, rfl⟩
  | statement s =>
    have hall : s.atoms.filter (·.cls.isLeaf) = s.atoms := List.filter_eq_self.mpr h
    rw [node, NodeTree.gather_sentence, Stmt.gather_node (by decide), hall]
    exact List.forall₂_map_left_iff.mpr (List.forall₂_same.mpr fun e _ => .inl rfl)

/-- The leaves of some items are their atoms, in order. -/
theorem Item.forall₂_atomsAll {items : List Item}
    (h : ∀ e ∈ items.flatMap atoms, e.cls.isLeaf = true) :
    List.Forall₂ NodeTree.IsLeaf (gatherAll NodeClass.isLeaf (items.map node))
      (items.flatMap atoms) := by
  induction items with
  | nil => exact .nil
  | cons i items ih =>
    rw [List.flatMap_cons, List.forall_mem_append] at h
    exact List.rel_append (forall₂_atoms h.1) (ih h.2)

/-- The leaves of a program are its atoms, in order. -/
theorem Program.forall₂_atoms {p : Program} (h : ∀ e ∈ p.atoms, e.cls.isLeaf = true) :
    List.Forall₂ NodeTree.IsLeaf (p.node.gather NodeClass.isLeaf) p.atoms := by
  rw [node, gather_ofNode, gatherAttrs, List.append_nil]
  exact Item.forall₂_atomsAll h

/-- Only the items of a program are declarations. -/
theorem Program.gather_declarations (p : Program) :
    p.node.gather (· == .declaration) =
      (p.items.map Item.node).filter (·.cls? == some .declaration) := by
  have hnone (e : Expr) : ¬ (e.cls == .declaration) = true := by
    cases e <;> exact Bool.false_ne_true
  rw [node, gather_ofNode, gatherAttrs, List.append_nil]
  show gatherAll _ (p.items.map Item.node) = _
  induction p.items with
  | nil => rfl
  | cons i items ih =>
    rw [List.map_cons, gatherAll, ih]
    cases i with
    | declaration ty listType names => rw [Item.gather_declaration ty listType names rfl]; rfl
    | statement s =>
      rw [Item.node, NodeTree.gather_sentence, Stmt.gather_node (by decide),
        List.filter_eq_nil_iff.mpr fun e _ => hnone e]
      rfl

/-- A name shows the token it was read from. -/
theorem Name.shows_node {t : Token} {cls : NodeClass} (hkind : t.kind = .identifier)
    (hcls : some cls ∈ [some NodeClass.variableUse, some .identifier]) :
    (t.toName.node cls).Shows t where
  line := NodeTree.attr?_line
  column := NodeTree.attr?_column
  content := by
    rw [hkind]
    exact ⟨hcls, NodeTree.attr?_own (by decide)⟩

/-- So does every leaf of an expression. -/
theorem Expr.shows_node {t : Token} {e : Expr} (hkind : t.kind ∈ Grammar.leaves)
    (hexpr : t.toExpr = .ok e) : e.node.Shows t := by
  obtain ⟨kind, text, spot⟩ := t
  cases kind with
  | integer =>
    cases hread : Numeral.readInteger text with
    | error f => simp [Token.toExpr, hread, bind, Except.bind] at hexpr
    | ok n =>
      obtain rfl : .number (.whole n) spot = e := by
        simpa [Token.toExpr, hread, bind, Except.bind, pure, Except.pure] using hexpr
      exact ⟨NodeTree.attr?_line, NodeTree.attr?_column, rfl, n, hread, NodeTree.attr?_value⟩
  | decimal =>
    cases hread : Numeral.readDecimal text with
    | error f => simp [Token.toExpr, hread, bind, Except.bind] at hexpr
    | ok d =>
      obtain rfl : .number (.real d) spot = e := by
        simpa [Token.toExpr, hread, bind, Except.bind, pure, Except.pure] using hexpr
      exact ⟨NodeTree.attr?_line, NodeTree.attr?_column, rfl, d, hread, NodeTree.attr?_value⟩
  | text =>
    obtain rfl := Except.ok.inj hexpr
    exact ⟨NodeTree.attr?_line, NodeTree.attr?_column, rfl, NodeTree.attr?_value⟩
  | identifier =>
    obtain rfl := Except.ok.inj hexpr
    exact Name.shows_node rfl (by decide)
  | _ => simp [Grammar.leaves] at hkind

/-- The node of an atom shows the token that the atom is made from. -/
theorem NodeTree.IsLeaf.shows {n : NodeTree} {e : Expr} {t : Token} (h : n.IsLeaf e)
    (hkind : t.kind ∈ Grammar.leaves) (hexpr : t.toExpr = .ok e) : n.Shows t := by
  rcases h with rfl | ⟨name, rfl, rfl⟩
  · exact Expr.shows_node hkind hexpr
  · -- Only an identifier makes the use of a name.
    obtain ⟨hline, hcolumn, hcontent⟩ := Expr.shows_node hkind hexpr
    obtain ⟨kind, text, spot⟩ := t
    cases kind with
    | integer | decimal | text => cases hcontent.1
    | identifier =>
      obtain rfl : Token.toName ⟨.identifier, text, spot⟩ = name := by
        simpa [Token.toExpr] using hexpr
      exact Name.shows_node rfl (by decide)
    | _ => simp [Grammar.leaves] at hkind

/-! ## Programs have the shape -/

section Shape

/-- An operation that is not logical is an expression if its operands are. -/
theorem Expr.isExpression_operation {op : Operator} {left right : Expr} (hop : op.family ≠ .logical)
    (hleft : left.node.IsExpression) (hright : right.node.IsExpression) :
    (operation op left right).node.IsExpression := by
  have hown {key : String} (h : key ∉ NodeTree.commonKeys) : (operation op left right).node.attr?
      key = [("operator", .text op.sign), ("left", left.node), ("right", right.node)].lookup key :=
        NodeTree.attr?_own h
  have htype : (operation op left right).node.attr? "type" =
      some (.ofOption (fun ty : Ty => .text ty.name)
        (if op.family = .relational then some .bool else none)) :=
    NodeTree.attr?_type
  by_cases hrel : op.family = .relational
  · rw [if_pos hrel] at htype
    have hsign : op.sign ∈ NodeTree.relationalSigns := by
      cases op <;> first | decide | cases hrel
    exact .relational rfl hsign (hown (by decide)) htype (hown (by decide))
      (hown (by decide)) hleft hright
  · rw [if_neg hrel] at htype
    have hsign : op.sign ∈ NodeTree.arithmeticSigns := by
      cases op <;> first | decide | exact absurd rfl hrel | exact absurd rfl hop
    exact .arithmetic rfl hsign (hown (by decide)) htype (hown (by decide))
      (hown (by decide)) hleft hright

variable {T : Token → Prop}

/-- The nodes of an expression that was built have the form of one. -/
theorem Expr.Built.isExpression {e : Expr} (h : e.Built T) : e.node.IsExpression := by
  induction h with
  | leaf _ _ hexpr =>
    refine .leaf ?_
    obtain ⟨n, -, rfl⟩ | ⟨d, rfl⟩ | ⟨s, rfl⟩ | rfl := Token.toExpr_cases hexpr <;>
      simp [Expr.node, Name.node]
  | operation hop _ _ ihleft ihright => exact isExpression_operation hop ihleft ihright

/-- Counts of texts are not negative. -/
theorem Counted.isCount (hT : ∀ t, T t → t.kind.Reads t.text.toList) {count : Int} {spot : Spot}
    (h : Counted T count spot) : (Expr.number (.whole count) spot).node.IsCount := by
  obtain ⟨t, ht, hkind, hread, -⟩ := h
  have hreads := hT t ht
  rw [hkind] at hreads
  have hvalue := Numeral.readInteger_ofList hreads.1 hreads.2
  rw [String.ofList_toList, hread] at hvalue
  split at hvalue
  next => cases hvalue
  next =>
    obtain rfl := Except.ok.inj hvalue
    exact ⟨rfl, _, NodeTree.attr?_value⟩

/-- The nodes of a body are the sentences of its statements. -/
theorem Stmt.nodeAll_eq_map (body : List Stmt) :
    nodeAll body = body.map fun s => .sentence s.node := by
  induction body with
  | nil => rfl
  | cons s rest ih => rw [nodeAll, ih, List.map_cons]

theorem Stmt.isBlock {body : List Stmt} (h : ∀ s ∈ body, s.node.IsStatement) :
    (NodeTree.block (nodeAll body)).IsBlock := by
  refine .intro rfl (NodeTree.attr?_own (by decide)) ?_
  rw [nodeAll_eq_map]
  simp only [List.forall_mem_map]
  exact fun s hs => .intro (h s hs)

/-- The nodes of a statement that was built have the form of one. -/
theorem Stmt.Built.isStatement (hT : ∀ t, T t → t.kind.Reads t.text.toList) {s : Stmt}
    (h : s.Built T) :
    s.node.IsStatement := by
  have hown {cls : NodeClass} {own : List (String × NodeTree)} {key : String}
      (h : key ∉ NodeTree.commonKeys) : (NodeTree.ofClass cls own).attr? key = own.lookup key :=
    NodeTree.attr?_own h
  induction h with
  | assign htarget hvalue =>
    exact .assign rfl (NodeTree.attr?_own (by decide)) rfl (NodeTree.attr?_own (by decide))
      hvalue.isExpression
  | conditional hcondition _ ih =>
    exact .conditional rfl (hown (by decide)) hcondition.isExpression (hown (by decide))
      (isBlock ih) (hown (by decide))
  | alternative hcondition _ _ ih ihother =>
    exact .alternative rfl (hown (by decide)) hcondition.isExpression (hown (by decide))
      (isBlock ih) (hown (by decide)) (isBlock ihother)
  | whileLoop hcondition _ ih =>
    exact .whileLoop rfl (hown (by decide)) hcondition.isExpression (hown (by decide)) (isBlock ih)
  | repeatLoop hcount _ ih =>
    exact .repeatLoop rfl (hown (by decide)) (hcount.isCount hT) (hown (by decide)) (isBlock ih)
  | print hvalue => exact .print rfl (hown (by decide)) hvalue.isExpression
  | input htarget => exact .input rfl (hown (by decide)) rfl
  | block _ ih => exact .block (isBlock ih)

/-- The nodes of an item are a declaration or a sentence. -/
theorem Item.Built.isItem (hT : ∀ t, T t → t.kind.Reads t.text.toList) {i : Item} (h : i.Built T) :
    i.node.IsDeclaration ∨ i.node.IsSentence := by
  cases h with
  | statement hs => exact .inr (.intro (hs.isStatement hT))
  | @declaration ty names hty hne _ =>
    refine .inl (.intro rfl ?_ NodeTree.attr?_type NodeTree.attr?_children rfl
      (NodeTree.attr?_own (by decide)) (by simpa using hne) NodeTree.attr?_children ?_ ?_)
    · cases ty <;> first | decide | exact absurd rfl hty
    · simp [Name.node]
    · simp only [List.map_map, Function.comp_def]
      exact List.map_congr_left fun n _ => NodeTree.attr?_own (by decide)

end Shape

/-! ## Programs that are read -/

namespace Reading

variable {code : String} {p : Program} {log : List String}

/-- The tokens of names and literals are those that the atoms are made from. -/
theorem forall₂_atoms (h : ofText code = .program p log) :
    List.Forall₂ (fun e t => t.kind ∈ Grammar.leaves ∧ t.toExpr = .ok e) p.atoms
      ((Scan.ofText code).tokens.filter (·.kind ∈ Grammar.leaves)) := by
  have hbuilt : ∀ t ∈ (Scan.ofText code).tokens, t.breaksOn? = none := by
    have houtcome := ofText_outcome code
    rw [h] at houtcome
    cases houtcome with
    | program hreadable _ => exact hreadable.2.2
  rw [atoms_ofText h]
  generalize (Scan.ofText code).tokens = ts at hbuilt
  induction ts with
  | nil => exact .nil
  | cons t ts ih =>
    obtain ⟨ht, hts⟩ := List.forall_mem_cons.mp hbuilt
    by_cases hkind : t.kind ∈ Grammar.leaves
    · obtain ⟨e, he⟩ := Token.exists_toExpr_of_breaksOn? ht
      rw [List.flatMap_cons, List.filter_cons_of_pos (by simpa using hkind)]
      have hleaf : t.atoms = [e] := by simp [Token.atoms, hkind, he, Except.toOption]
      rw [hleaf]
      exact .cons ⟨hkind, he⟩ (ih hts)
    · rw [List.flatMap_cons, List.filter_cons_of_neg (by simpa using hkind), Token.atoms,
        if_neg hkind]
      exact ih hts

/-- Every atom of a program that was read is a leaf. -/
theorem isLeaf_of_mem_atoms (h : ofText code = .program p log) {e : Expr} (he : e ∈ p.atoms) :
    e.cls.isLeaf = true := by
  rw [atoms_ofText h] at he
  obtain ⟨t, -, ht⟩ := List.mem_flatMap.mp he
  have hexpr : t.toExpr = .ok e := by
    cases hread : t.toExpr <;> simp_all [Token.atoms, Except.toOption]
  obtain ⟨n, -, rfl⟩ | ⟨d, rfl⟩ | ⟨s, rfl⟩ | rfl := Token.toExpr_cases hexpr <;> rfl

/-- The nodes of names and literals are those of the tokens of the text, in order. -/
theorem forall₂_shows (h : ofText code = .program p log) :
    List.Forall₂ NodeTree.Shows (p.node.gather NodeClass.isLeaf)
      ((Scan.ofText code).tokens.filter (·.kind ∈ Grammar.leaves)) := by
  have hnodes := Program.forall₂_atoms fun e => isLeaf_of_mem_atoms h (e := e)
  have htokens := forall₂_atoms h
  generalize p.node.gather NodeClass.isLeaf = nodes at hnodes ⊢
  generalize p.atoms = atoms at hnodes htokens
  generalize (Scan.ofText code).tokens.filter (·.kind ∈ Grammar.leaves) = ts at htokens ⊢
  induction hnodes generalizing ts with
  | nil =>
    obtain rfl := List.forall₂_nil_left_iff.mp htokens
    exact .nil
  | cons hleaf _ ih =>
    cases htokens with
    | cons ht hts => exact .cons (hleaf.shows ht.1 ht.2) (ih _ hts)

/-- The nodes of a program that was read have the form of one. -/
theorem isProgram_node (h : ofText code = .program p log) : p.node.IsProgram := by
  refine .intro rfl NodeTree.attr?_children ?_ p.gather_declarations
  rw [List.forall_mem_map]
  exact fun i hi => (built_ofText h i hi).isItem fun t ht => Scan.ofText_reads ht

end Reading

/-- Every text that is accepted gives a tree of nodes of the one shape, and the nodes of names and
literals in it show the tokens of the text, one by one in the order of the text. -/
theorem Session.parse_nodes (s : Session) {code : String}
    (hparse : (s.parse [] code).1 = .ok true) :
    ∃ p, (s.parse [] code).2.program = some p ∧ p.node.IsProgram ∧
      List.Forall₂ NodeTree.Shows (p.node.gather NodeClass.isLeaf)
        ((Scan.ofText code).tokens.filter (·.kind ∈ Grammar.leaves)) := by
  cases hread : Reading.ofText code with
  | program p log =>
    refine ⟨p, ?_, Reading.isProgram_node hread, Reading.forall₂_shows hread⟩
    simp [parse, Parsing.ofText, hread]
  | fault f => simp [parse, Parsing.ofText, hread] at hparse
  | aborted f => simp [parse, Parsing.ofText, hread] at hparse

theorem Session.parse_nodes_nested :
    let code :=
      "ent a, b; si (a < (b + 1.5)) \x7b repetir (2) \x7b scan(a); \x7d \x7d oNo \x7b sout(\"no\"); \x7d"
    (empty.parse [] code).1 = .ok true ∧
      ∃ p, (empty.parse [] code).2.program = some p ∧ p.node.IsProgram ∧
        List.Forall₂ NodeTree.Shows (p.node.gather NodeClass.isLeaf)
          ((Scan.ofText code).tokens.filter (·.kind ∈ Grammar.leaves)) := by
  intro code
  have hparse : (empty.parse [] code).1 = .ok true := by decide +kernel
  exact ⟨hparse, parse_nodes .empty hparse⟩

end Analizador
