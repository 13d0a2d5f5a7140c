import Analizador.Graph
import Analizador.Text.Layout

/-! # Outlines

What listings show of a tree of nodes: the attributes of each node and the branches that lead down
from it. A graph description numbers the nodes in the order in which they are met; a listing indents
them. Each goes its own ways down. -/

namespace Analizador

/-- A way down from nodes, by a slot of them: to one part, with its title, or to items, which are
numbered from one and may have titles. -/
inductive Descent where
  | part (slot title : String)
  | items (slot : String) (title : Nat → Option String)

namespace Descent

/-- The ways that graph descriptions go, in their order; the titles label the edges. -/
def drawn : List Descent :=
  [.items "children" fun n => some s!"child {n}",
    .part "left" "left",
    .part "right" "right",
    .part "condition" "condition",
    .part "if_body" "if_body",
    .part "else_body" "else_body",
    .part "body" "body",
    .part "expression" "expression",
    .items "statements" fun n => some s!"stmt {n}"]

/-- The ways that listings go, in their order; the titles have lines of their own. -/
def listed : List Descent :=
  [.items "children" fun _ => none,
    .part "left" "Left",
    .part "right" "Right",
    .part "condition" "Condition",
    .part "if_body" "If Body",
    .part "else_body" "Else Body",
    .part "body" "Body",
    .part "expression" "Expression",
    .items "statements" fun n => some s!"Statement {n}"]

end Descent

/-- What listings show of one node. An attribute that is absent differs from one that holds nothing.
-/
structure Facts where
  /-- The name of the node's class. -/
  cls : String
  /-- Whether the node counts as true. -/
  counts : Bool := true
  /-- Why the node cannot be numbered. -/
  obstacle : Option Failure := none
  name : Option Datum := none
  value : Option Datum := none
  operator : Option Datum := none
  varType : Option Datum := none
  type : Option Datum := none
  line : Option Datum := none
  column : Option Datum := none
  deriving Repr, Inhabited

mutual

/-- A node with the branches below it. -/
inductive Outline where
  | node (facts : Facts) (branches : Branches)
  deriving Repr

/-- The branches below a node, in order; they may break off. -/
inductive Branches where
  | done
  | broken (f : Failure)
  | more (title : Option String) (part : Outline) (rest : Branches)
  deriving Repr

end

namespace Facts

/-- What listings show of a datum with the given attributes. -/
def ofDatum (d : Datum) (attr? : String → Option Datum) : Facts where
  cls := d.kind
  counts := d.isTrue
  obstacle := match d.checkKey with
    | .ok _ => none
    | .error f => some f
  name := attr? "name"
  value := attr? "value"
  operator := attr? "operator"
  varType := attr? "var_type"
  type := attr? "type"
  line := attr? "line"
  column := attr? "column"

/-- An attribute that holds something. -/
def held (d : Option Datum) : Option Datum :=
  match d with
  | some .none | none => none
  | some d => some d

/-- A line of a label, if the attribute holds something. -/
def labelLine (title : String) (d : Option Datum) : Except Failure (List String) :=
  match held d with
  | none => .ok []
  | some d => do return [s!"{title}: {← d.render}"]

/-- The label of a node in graph descriptions. Its lines are divided by a backslash and an `n`. -/
def label (f : Facts) : Except Failure String := do
  let name ← labelLine "name" f.name
  let value ← labelLine "value" f.value
  let operator ← labelLine "op" f.operator
  let varType ← labelLine "type" f.varType
  let type ← labelLine "type" f.type
  return "\\n".intercalate (f.cls :: (name ++ value ++ operator ++ varType ++ type))

/-- The leading attribute of a node in listings. -/
def leading (f : Facts) : Except Failure String :=
  match f.name, held f.value, f.operator, f.varType with
  | some name, _, _, _ => do return s!" (name: {← name.render})"
  | none, some value, _, _ => do return s!" (value: {← value.render})"
  | none, none, some operator, _ => do return s!" (op: {← operator.render})"
  | none, none, none, some varType => do return s!" (type: {← varType.render})"
  | none, none, none, none => .ok ""

/-- The place and the type of a node in detailed listings. -/
def details (f : Facts) : Except Failure String := do
  let place ← match held f.line, held f.column with
    | some line, some column => pure s!" [line: {← line.render}, col: {← column.render}]"
    | some line, none => pure s!" [line: {← line.render}]"
    | none, _ => pure ""
  let type ← match held f.type with
    | some type => pure s!" \x7btype: {← type.render}\x7d"
    | none => pure ""
  return place ++ type

/-- The line of a node in listings. -/
def listed (f : Facts) (detailed : Bool) (level : Nat) : Except Failure String := do
  let leading ← f.leading
  let details ← if detailed then f.details else pure ""
  return s!"{Text.blanks (2 * level)}+ {f.cls}{leading}{details}"

end Facts

/-! ## Ways down -/

namespace Branches

/-- Branches followed by others, unless they break off. -/
def append : Branches → Branches → Branches
  | .done, rest => rest
  | .broken f, _ => .broken f
  | .more title part others, rest => .more title part (others.append rest)

/-- The branches to items, numbered from `start` on. -/
def numbered (title : Nat → Option String) (start : Nat) : List Outline → Branches
  | [] => .done
  | part :: rest => .more (title start) part (numbered title (start + 1) rest)

end Branches

/-- What is found in a slot: whether it counts as true, and the outlines of it as one part and of
its items, if it can be walked item by item. -/
structure Sprout where
  counts : Bool
  part : Outline
  items : Except Failure (List Outline)

namespace Descent

/-- The branches of one way down, given what is found in the slots. What counts as false is no
branch. -/
def branches (find : String → Option Sprout) : Descent → Branches
  | .part slot title =>
    match (find slot).filter (·.counts) with
    | some found => .more (some title) found.part .done
    | none => .done
  | .items slot title =>
    match (find slot).filter (·.counts) with
    | some found =>
      match found.items with
      | .ok parts => .numbered title 1 parts
      | .error f => .broken f
    | none => .done

/-- The branches of some ways down, in their order. -/
def branchesAll (find : String → Option Sprout) (ways : List Descent) : Branches :=
  ways.foldr (fun way rest => (way.branches find).append rest) .done

end Descent

/-- A datum without attributes in a slot. -/
def Sprout.bare (d : Datum) : Sprout :=
  let outline (d : Datum) : Outline := .node (.ofDatum d fun _ => none) .done
  ⟨d.isTrue, outline d, d.items.map (·.map outline)⟩

/-! ## Views -/

/-- The statement of a node in a graph description. -/
def nodeStatement (number : Nat) (label : String) : String :=
  s!"  node{number} [label=\"{label}\"];"

/-- The statement of an edge in a graph description. -/
def edgeStatement (source target : Nat) : Option String → String
  | some label => s!"  node{source} -> node{target} [label=\"{label}\"];"
  | none => s!"  node{source} -> node{target};"

/-- Lines written until something failed, if something did. -/
abbrev Listing := List String × Option Failure

/-- A listing continued by another, unless it failed. -/
def Listing.andThen (l : Listing) (rest : Unit → Listing) : Listing :=
  match l with
  | (lines, some f) => (lines, some f)
  | (lines, none) =>
    let (more, failure) := rest ()
    (lines ++ more, failure)

/-- A listing of one line. -/
def Listing.ofLine : Except Failure String → Listing
  | .ok line => ([line], none)
  | .error f => ([], some f)

mutual

/-- The statements of a node, of the edge by which it is reached and of what is below it, and the
next free number. Nodes that count as false are left out. -/
def Outline.statements (arrival : Option (Nat × Option String)) (next : Nat) :
    Outline → Except Failure (List String × Nat)
  | .node facts branches =>
    if !facts.counts then .ok ([], next)
    else do
      let label ← facts.label
      match facts.obstacle with
      | some f => throw f
      | none => pure ()
      let edge := match arrival with
        | some (source, title) => [edgeStatement source next title]
        | none => []
      let (below, next') ← branches.statements next (next + 1)
      return (nodeStatement next label :: edge ++ below, next')

/-- The statements of what is below node number `source`, and the next free number. -/
def Branches.statements (source next : Nat) : Branches → Except Failure (List String × Nat)
  | .done => .ok ([], next)
  | .broken f => .error f
  | .more title part rest => do
    let (lines, next) ← part.statements (some (source, title)) next
    let (others, next) ← rest.statements source next
    return (lines ++ others, next)

end

mutual

/-- The lines of a node and of what is below it. -/
def Outline.lines (detailed : Bool) (level : Nat) : Outline → Listing
  | .node facts branches =>
    (Listing.ofLine (facts.listed detailed level)).andThen fun _ => branches.lines detailed level

/-- The lines of what is below a node. -/
def Branches.lines (detailed : Bool) (level : Nat) : Branches → Listing
  | .done => ([], none)
  | .broken f => ([], some f)
  | .more title part rest =>
    let here : Listing := match title with
      | none => part.lines detailed (level + 1)
      | some title =>
        Listing.andThen ([s!"{Text.blanks (2 * level)}  └─ {title}:"], none) fun _ =>
          part.lines detailed (level + 2)
    here.andThen fun _ => rest.lines detailed level

end

/-- The description of the graph without nodes. -/
def emptyGraphDescription : String :=
  "digraph AST \x7b node [shape=box]; label=\"Empty AST\"; \x7d"

/-- The graph description of an outline, if there is one. -/
def Outline.describe : Option Outline → Except Failure String
  | none => .ok emptyGraphDescription
  | some o => do
    let (lines, _) ← o.statements none 0
    return "\n".intercalate (["digraph AST \x7b", "  node [shape=box];"] ++ lines ++ ["\x7d"])

end Analizador
