import Analizador.Attribution
import Analizador.Proofs.Walk.Expressions
import Analizador.Proofs.Walk.Outcomes

/-! # Types of assembled operations

Expressions that are assembled from nodes may have operators that are no operators of the language,
and variables of any type. The types of an expression and what is reported of it follow from the
types of its leaves alone. The rule for operations gives every node this type and reports this, if
it is applied to the operands before it is applied to their operation. -/

namespace Analizador

/-- A text that may be missing, as a datum. -/
def Datum.ofText? : Option String → Datum
  | some s => .ofText s
  | Option.none => .none

/-! ## The rules of types -/

theorem Datum.type?_ofText_eq_none {s : String} (h : ∀ ty : Ty, s ≠ ty.name) :
    (Datum.ofText s).type? = Option.none := by
  rw [type?, List.find?_eq_none]
  intro ty _ htext
  exact h ty (same_ofText.mp htext)

namespace Operator

/-- The type of the result for operands whose types have the given names. -/
def ruled (op : Operator) (left right : String) : Option String :=
  let numeric (name : String) : Bool := name = "ent" || name = "dec"
  match op.family with
  | .arithmetic =>
    if left = "ent" ∧ right = "ent" then some "ent"
    else if numeric left ∧ numeric right then some "dec"
    else if op = .add ∧ left = "cadena" ∧ right = "cadena" then some "cadena"
    else none
  | .relational => if (numeric left ∧ numeric right) ∨ left = right then some "bool" else none
  | .logical => if left = "bool" ∧ right = "bool" then some "bool" else none

section

variable {op : Operator} {left right : String}

/-- Names that are no types of the language can only be compared, with themselves. -/
theorem resultOf?_of_unnamed (h : (∀ ty : Ty, left ≠ ty.name) ∨ ∀ ty : Ty, right ≠ ty.name) :
    op.resultOf? (.ofText left) (.ofText right) =
      if op.family = .relational ∧ left = right then some .bool else none := by
  unfold resultOf?
  split
  next l r hl hr =>
    exfalso
    rcases h with h | h
    · rw [Datum.type?_ofText_eq_none h] at hl
      cases hl
    · rw [Datum.type?_ofText_eq_none h] at hr
      cases hr
  next => simp only [Datum.same_ofText]

theorem ruled_of_unnamed (h : (∀ ty : Ty, left ≠ ty.name) ∨ ∀ ty : Ty, right ≠ ty.name) :
    op.ruled left right = if op.family = .relational ∧ left = right then some "bool" else none := by
  have hnames (name : String) (hname : ∀ ty : Ty, name ≠ ty.name) :
      name ≠ "ent" ∧ name ≠ "dec" ∧ name ≠ "cadena" ∧ name ≠ "bool" :=
    ⟨hname .ent, hname .dec, hname .cadena, hname .bool⟩
  unfold ruled
  rcases h with h | h <;> obtain ⟨hent, hdec, hcadena, hbool⟩ := hnames _ h <;>
    cases hfamily : op.family <;> simp [hent, hdec, hcadena, hbool]

end

/-- The rules for types that are data and for names of types are the same. -/
theorem resultOf?_ofText (op : Operator) (left right : String) :
    (op.resultOf? (.ofText left) (.ofText right)).map Ty.name = op.ruled left right := by
  by_cases hnamed : (∃ ty : Ty, left = ty.name) ∧ ∃ ty : Ty, right = ty.name
  · obtain ⟨⟨l, rfl⟩, r, rfl⟩ := hnamed
    rw [resultOf?_names]
    cases op <;> cases l <;> cases r <;> rfl
  · have hunnamed : (∀ ty : Ty, left ≠ ty.name) ∨ ∀ ty : Ty, right ≠ ty.name := by
      simpa only [not_and_or, not_exists] using hnamed
    rw [resultOf?_of_unnamed hunnamed, ruled_of_unnamed hunnamed]
    split <;> rfl

end Operator

/-! ## Expressions of nodes -/

namespace Assembled

/-- A leaf of an expression: a literal, or the use of a variable. -/
inductive Leaf where
  | number
  | text
  | use (name : String)

/-- An expression, where its nodes are in a graph. A leaf has the type of the literal or of the
variable, and an operation the type that it had before it is judged; it may have any text for its
operator. -/
inductive Term where
  | leaf (kind : Leaf) (id : Nat) (ty : Option String)
  | operation (id : Nat) (op : String) (ty : Option String) (line column : Datum)
      (left right : Term)

/-- The class of the node of a leaf. -/
def Leaf.cls : Leaf → NodeClass
  | number => .number
  | text => .text
  | use _ => .variableUse

namespace Term

/-- The number of the node. -/
def id : Term → Nat
  | leaf _ id _ | operation id .. => id

/-- The class of the node. -/
def cls : Term → NodeClass
  | leaf kind .. => kind.cls
  | operation .. => .binary

/-- The node of an expression. -/
def node (t : Term) : Datum := .node t.cls t.id

/-- An expression and everything in it. -/
def parts : Term → List Term
  | t@(leaf ..) => [t]
  | t@(operation _ _ _ _ _ left right) => t :: (left.parts ++ right.parts)

/-- The operands of all operations in an expression. -/
def operands : Term → List Term
  | leaf .. => []
  | operation _ _ _ _ _ left right => left :: right :: (left.operands ++ right.operands)

/-- The numbers of the nodes of an expression. -/
def ids (t : Term) : List Nat := t.parts.map id

theorem ids_operation (id : Nat) (op : String) (ty : Option String) (line column : Datum)
    (left right : Term) :
    (operation id op ty line column left right).ids = id :: (left.ids ++ right.ids) := by
  simp only [ids, parts, List.map_cons, List.map_append, Term.id]

/-! ## Types and reports -/

/-- The type of an operation, for operands that may have none: an operator that is none of the
language leaves the type as it was. -/
def settle (op : String) (ty left right : Option String) : Option String :=
  match left, right, Operator.ofSign? op with
  | some l, some r, some sign => sign.ruled l r
  | some _, some _, none => ty
  | _, _, _ => none

/-- What is reported of an operation. -/
def complaints (op : String) (line column : Datum) (left right : Option String) : List Diagnostic :=
  match left, right, Operator.ofSign? op with
  | some l, some r, some sign =>
    if sign.ruled l r = none then
      [⟨.mismatch (.ofText (Fault.operandExpectation sign)) (.ofText s!"{l} y {r}"),
        .ofText (Fault.operandMessage sign l r), line, column⟩]
    else []
  | _, _, _ => []

/-- The type of an expression. -/
def type : Term → Option String
  | leaf _ _ ty => ty
  | operation _ op ty _ _ left right => settle op ty left.type right.type

/-- What is reported of an expression, operands first. -/
def reports : Term → List Diagnostic
  | leaf .. => []
  | operation _ op _ line column left right =>
    left.reports ++ right.reports ++ complaints op line column left.type right.type

/-- Every node of the expression has its type. -/
def Typed (t : Term) (g : Graph) : Prop :=
  ∀ p ∈ t.parts, g.attr? p.node "type" = some (.ofText? p.type)

section

variable {g g' : Graph} {t : Term}

theorem Typed.root (h : t.Typed g) : g.attr? t.node "type" = some (.ofText? t.type) := by
  apply h t
  cases t <;> exact List.mem_cons_self

theorem Typed.congr (h : t.Typed g) (hsame : ∀ i ∈ t.ids, g.SameAt g' i) : t.Typed g' := by
  intro p hp
  exact ((hsame p.id (List.mem_map_of_mem hp)).attr? p.cls "type").trans (h p hp)

end

/-! ## One operation -/

/-- A node of a graph is an operation. -/
structure IsOperation (g : Graph) (id : Nat) (op : String) (ty : Option String)
    (line column : Datum) (left right : Term) : Prop where
  operator : g.attr? (.node .binary id) "operator" = some (.ofText op)
  left : g.attr? (.node .binary id) "left" = some left.node
  right : g.attr? (.node .binary id) "right" = some right.node
  type : g.attr? (.node .binary id) "type" = some (.ofText? ty)
  line : g.attr? (.node .binary id) "line" = some line
  column : g.attr? (.node .binary id) "column" = some column

/-- A node gets a type, and nothing else changes. -/
structure Retypes (id : Nat) (ty : Datum) (g g' : Graph) : Prop where
  type : g'.attr? (.node .binary id) "type" = some ty
  value : g'.attr? (.node .binary id) "value" = g.attr? (.node .binary id) "value"
  frame : ∀ i ≠ id, g.SameAt g' i

section

variable {g g' : Graph} {id : Nat} {op : String} {ty l r : Option String} {line column : Datum}
  {left right : Term}
  {w : Workshop} {ledger : Ledger} {E : Failure → Prop}

theorem IsOperation.congr (h : IsOperation g id op ty line column left right)
    (hsame : g.SameAt g' id) :
    IsOperation g' id op ty line column left right where
  operator := (hsame.attr? _ _).trans h.operator
  left := (hsame.attr? _ _).trans h.left
  right := (hsame.attr? _ _).trans h.right
  type := (hsame.attr? _ _).trans h.type
  line := (hsame.attr? _ _).trans h.line
  column := (hsame.attr? _ _).trans h.column

theorem retypes_fill {name : String} {d : Datum} (h : g.attr? (.node .binary id) name = some d)
    (ty : Datum) :
    Retypes id ty g (g.fill id "type" ty) where
  type := Graph.attr?_fill_self h
  value := Graph.attr?_fill_of_ne (by decide) id
  frame _ hi := Graph.sameAt_fill hi

/-- Where the types do not fit, the operation is reported and loses its type. -/
theorem leads_reportMismatch {Q : Unit → Workshop → Prop}
    (hnode : IsOperation w.graph id op ty line column left right) (hledger : w.ledger = some ledger)
    {expected found : Datum} {message : String}
    (h : Q () { w with
      ledger := some (ledger.add ⟨.mismatch expected found, .ofText message, line, column⟩) }) :
    Work.Leads (Work.reportMismatch expected found message (.node .binary id)) w Q E := by
  unfold Work.reportMismatch
  refine Work.leads_attr_bind hnode.line ?_
  refine Work.leads_attr_bind hnode.column ?_
  exact Work.leads_report hledger h

/-- An operation gets the type that the types of its operands give, and what does not fit is
reported. -/
theorem leads_typeOperation {Q : Bool → Workshop → Prop}
    (hnode : IsOperation w.graph id op ty line column left right) (hledger : w.ledger = some ledger)
    (h : ∀ answer g', Retypes id (.ofText? (settle op ty l r)) w.graph g' →
      Q answer { w with
        graph := g',
        ledger := some ((complaints op line column l r).foldl Ledger.add ledger) }) :
    Work.Leads (Work.typeOperation (.node .binary id) (.ofText op) (.ofText? l) (.ofText? r))
      w Q E := by
  have hquiet (answer : Bool) (g' : Graph)
      (hretypes : Retypes id (.ofText? (settle op ty l r)) w.graph g')
      (hcomplaints : complaints op line column l r = []) : Q answer { w with graph := g' } := by
    have hQ := h answer g' hretypes
    rw [hcomplaints, List.foldl_nil, ← hledger] at hQ
    exact hQ
  unfold Work.typeOperation
  match l, r, hop : Operator.ofSign? op with
  | none, none, _ | none, some _, _ | some _, none,
      _ => exact hquiet _ _ (retypes_fill hnode.type .none) rfl
  | some l, some r, none =>
    have hsettle : settle op ty (some l) (some r) = ty := by simp only [settle, hop]
    have hcomplaints : complaints op line column (some l) (some r) = [] := by
      simp only [complaints, hop]
    simp only [Datum.ofText?, Datum.isNone, show Operator.ofDatum? (.ofText op) = none from hop]
    exact hquiet true w.graph ⟨by rw [hsettle, hnode.type], rfl, fun _ _ => rfl⟩ hcomplaints
  | some l, some r, some sign =>
    have hruled := sign.resultOf?_ofText l r
    have hsettle : settle op ty (some l) (some r) = sign.ruled l r := by simp only [settle, hop]
    simp only [Datum.ofText?, Datum.isNone,
      show Operator.ofDatum? (.ofText op) = some sign from hop]
    cases hresult : sign.resultOf? (.ofText l) (.ofText r) with
    | some found =>
      rw [hresult] at hruled
      rw [← hruled] at hsettle
      have hcomplaints : complaints op line column (some l) (some r) = [] := by
        simp only [complaints, hop, ← hruled]
        rfl
      exact hquiet true _ (hsettle ▸ retypes_fill hnode.type _) hcomplaints
    | none =>
      rw [hresult] at hruled
      rw [hsettle, ← hruled] at h
      simp only [complaints, hop, ← hruled] at h
      simp only [Bool.or_self, Bool.false_eq_true, if_false, Work.leads_bind, Datum.render,
        Constant.render, Work.leads_ok]
      refine leads_reportMismatch hnode hledger ?_
      exact h false _ (retypes_fill hnode.type .none)

end

/-! ## The rule for operations -/

/-- Applies the rule to the operations of an expression, operands first. -/
def applyRule : Term → Work Unit
  | leaf .. => pure ()
  | operation id _ _ _ _ left right => do
    left.applyRule
    right.applyRule
    let _ ← Attribution.operation (.node .binary id)

/-- The leaves of the expression have their types, its operations are there, and each node is a node
of its own. -/
inductive Dressed (g : Graph) : Term → Prop where
  | leaf {kind id ty} (htype : g.attr? (.node kind.cls id) "type" = some (.ofText? ty)) :
      Dressed g (leaf kind id ty)
  | operation {id op ty line column left right}
      (hnode : IsOperation g id op ty line column left right)
      (hleft : Dressed g left) (hright : Dressed g right)
      (hapart : (id :: (left.ids ++ right.ids)).Nodup) :
      Dressed g (operation id op ty line column left right)

/-- From one workshop to the other the nodes of the expression have got their types, and its reports
were made. -/
structure Judged (t : Term) (w : Workshop) (l : Ledger) (w' : Workshop) : Prop where
  frame : ∀ i ∉ t.ids, w.graph.SameAt w'.graph i
  typed : t.Typed w'.graph
  ledger : w'.ledger = some (t.reports.foldl Ledger.add l)

section

variable {g g' : Graph} {t : Term} {id : Nat} {op : String} {ty : Option String}
  {line column : Datum}
  {left right : Term} {w : Workshop} {l : Ledger}

theorem not_mem_of_apart {ls rs : List Nat} (h : (id :: (ls ++ rs)).Nodup) :
    id ∉ ls ∧ id ∉ rs ∧ ∀ i ∈ ls, i ∉ rs := by
  obtain ⟨hid, happend⟩ := List.nodup_cons.mp h
  rw [List.mem_append, not_or] at hid
  exact ⟨hid.1, hid.2, fun i hl hr => (List.nodup_append.mp happend).2.2 i hl i hr rfl⟩

theorem Dressed.congr (h : Dressed g t) (hsame : ∀ i ∈ t.ids, g.SameAt g' i) : Dressed g' t := by
  induction h with
  | leaf htype => exact .leaf (((hsame _ List.mem_cons_self).attr? _ _).trans htype)
  | operation hnode _ _ hapart ihleft ihright =>
    simp only [ids_operation, List.mem_cons, List.mem_append] at hsame
    refine .operation (hnode.congr (hsame _ (.inl rfl))) (ihleft ?_) (ihright ?_) hapart
    · intro i hi
      exact hsame i (.inr (.inl hi))
    · intro i hi
      exact hsame i (.inr (.inr hi))

theorem typed_operation
    (hroot : g.attr? (.node .binary id) "type" =
      some (.ofText? (settle op ty left.type right.type)))
    (hleft : left.Typed g) (hright : right.Typed g) :
    (operation id op ty line column left right).Typed g := by
  intro p hp
  rcases List.mem_cons.mp hp with rfl | hp
  · exact hroot
  · rcases List.mem_append.mp hp with hp | hp
    · exact hleft p hp
    · exact hright p hp

/-- An operation whose operands have their types gets its own. -/
theorem leads_operation (hnode : IsOperation w.graph id op ty line column left right)
    (hledger : w.ledger = some l) (hleft : left.Typed w.graph) (hright : right.Typed w.graph)
    {Q : Bool → Workshop → Prop} {E : Failure → Prop}
    (h : ∀ answer g', Retypes id (.ofText? (settle op ty left.type right.type)) w.graph g' →
      Q answer { w with
        graph := g',
        ledger := some ((complaints op line column left.type right.type).foldl Ledger.add l) }) :
    Work.Leads (Attribution.operation (.node .binary id)) w Q E := by
  unfold Attribution.operation
  simp only [Work.leads_bind, Work.leads_attr?, hnode.left, hnode.right, hnode.operator, hleft.root,
    hright.root]
  exact leads_typeOperation hnode hledger h

/-- The rule gives every node its type and makes every report. -/
theorem leads_applyRule (ht : Dressed w.graph t) (hledger : w.ledger = some l) :
    Work.Leads t.applyRule w (fun _ w' => t.Judged w l w') (fun _ => False) := by
  induction t generalizing w l with
  | leaf kind id ty =>
    cases ht with
    | leaf htype =>
      refine ⟨fun _ _ => rfl, ?_, hledger⟩
      intro p hp
      obtain rfl := List.mem_singleton.mp hp
      exact htype
  | operation id op ty line column left right ihleft ihright =>
    cases ht with
    | operation hnode hleft hright hapart =>
      obtain ⟨hidleft, hidright, hdisjoint⟩ := not_mem_of_apart hapart
      unfold applyRule
      rw [Work.leads_bind]
      apply (ihleft hleft hledger).mono
      intro _ w₁ h₁
      rw [Work.leads_bind]
      have hright₁ := hright.congr fun i hi => h₁.frame i fun hmem => hdisjoint i hmem hi
      apply (ihright hright₁ h₁.ledger).mono
      intro _ w₂ h₂
      rw [Work.leads_bind]
      have hnode₂ := (hnode.congr (h₁.frame id hidleft)).congr (h₂.frame id hidright)
      have hleft₂ := h₁.typed.congr fun i hi => h₂.frame i (hdisjoint i hi)
      refine leads_operation hnode₂ h₂.ledger hleft₂ h₂.typed ?_
      intro _ g₃ h₃
      refine ⟨?_, ?_, ?_⟩
      · intro i hi
        simp only [ids_operation, List.mem_cons, List.mem_append, not_or] at hi
        exact ((h₁.frame i hi.2.1).trans (h₂.frame i hi.2.2)).trans (h₃.frame i hi.1)
      · apply typed_operation h₃.type
        · exact hleft₂.congr fun i hi => h₃.frame i fun heq => hidleft (heq ▸ hi)
        · exact h₂.typed.congr fun i hi => h₃.frame i fun heq => hidright (heq ▸ hi)
      · simp only [reports, List.foldl_append]

end

end Term

end Assembled

end Analizador
