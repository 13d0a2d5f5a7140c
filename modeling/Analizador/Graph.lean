import Analizador.Datum

/-! # Node graphs

Nodes assembled by hand. A node has a class and named slots that hold data; several slots may hold
the same node, so nodes live in a graph and data refer to them by number. -/

namespace Analizador

/-- A node: its class and its slots. -/
structure Node where
  cls : NodeClass
  slots : List (String × Datum)
  deriving Repr, Inhabited

namespace Node

/-- The datum in a slot. -/
def slot? (n : Node) (name : String) : Option Datum := n.slots.lookup name

/-- Fills a slot, new or old. -/
def setSlots (slots : List (String × Datum)) (name : String) (d : Datum) : List (String × Datum) :=
  match slots with
  | [] => [(name, d)]
  | (key, old) :: rest => if key =
      name then (key, d) :: rest else (key, old) :: setSlots rest name d

/-- Fills a slot. -/
def set (n : Node) (name : String) (d : Datum) : Node := { n with slots := setSlots n.slots name d }

/-- Removes a slot. -/
def erase (n : Node) (name : String) : Node := { n with slots := n.slots.filter (·.1 != name) }

end Node

/-- The nodes made so far, by number, and the count of bare objects. -/
structure Graph where
  nodes : Array Node
  objects : Nat
  deriving Repr, Inhabited

namespace Datum

mutual

/-- The number of parts of a datum. -/
def size : Datum → Nat
  | list items => 1 + sizeAll items
  | tree _ children => 1 + sizeAll children
  | _ => 1

/-- The number of parts of some data. -/
def sizeAll : List Datum → Nat
  | [] => 0
  | d :: ds => size d + sizeAll ds

end

/-- The items of a datum that can be walked: those of a list, or the characters of a text. -/
def items : Datum → Except Failure (List Datum)
  | list items => .ok items
  | constant (.text s) | token _ s _ _ => .ok (s.toList.map fun c => ofText (String.ofList [c]))
  | d => .error (.notIterable d.kind)

/-- The length of a datum that has one. -/
def length : Datum → Except Failure Nat
  | list items => .ok items.length
  | constant (.text s) | token _ s _ _ => .ok s.toList.length
  | d => .error (.noLength d.kind)

end Datum

namespace Graph

/-- The graph without nodes. -/
def empty : Graph := ⟨#[], 0⟩

/-- The number of parts of all nodes. -/
def size (g : Graph) : Nat :=
  g.nodes.foldl (fun total n => total + 1 + Datum.sizeAll (n.slots.map (·.2))) 0

/-- More steps down than any walk from a datum takes, unless the graph has a cycle. -/
def depthBound (g : Graph) (d : Datum) : Nat := 2 * (g.size + d.size) + 2

/-- The attribute of a datum: a slot of a node, or what a token or a tree is made of. -/
def attr? (g : Graph) (d : Datum) (name : String) : Option Datum :=
  match d with
  | .node _ id => do (← g.nodes[id]?).slot? name
  | .token kind text line column =>
    if name = "type" then some (.ofText kind)
    else if name = "value" then some (.ofText text)
    else if name = "line" then some line
    else if name = "column" then some column
    else none
  | .tree label children =>
    if name = "data" then some (.ofText label)
    else if name = "children" then some (.list children)
    else none
  | _ => none

/-- Whether a datum has an attribute. -/
def hasAttr (g : Graph) (d : Datum) (name : String) : Bool := (g.attr? d name).isSome

/-- The attribute of a datum that has to be there. -/
def attr (g : Graph) (d : Datum) (name : String) : Except Failure Datum :=
  match g.attr? d name with
  | some value => .ok value
  | none => .error (.noAttribute d.kind name)

/-- Gives an attribute of a node a new datum. -/
def setAttr (g : Graph) (d : Datum) (name : String) (value : Datum) : Except Failure Graph :=
  match d with
  | .node _ id => .ok { g with nodes := g.nodes.modify id (·.set name value) }
  | d => .error (.noAttribute d.kind name)

/-- Removes an attribute of a node. -/
def eraseAttr (g : Graph) (d : Datum) (name : String) : Except Failure Graph :=
  match d with
  | .node _ id =>
    if g.hasAttr d name then .ok { g with nodes := g.nodes.modify id (·.erase name) }
    else .error (.noAttribute d.kind name)
  | d => .error (.noAttribute d.kind name)

/-- Adds a node. -/
def push (g : Graph) (n : Node) : Datum × Graph :=
  (.node n.cls g.nodes.size, { g with nodes := g.nodes.push n })

/-- Adds a bare object. -/
def pushObject (g : Graph) : Datum × Graph :=
  (.object g.objects, { g with objects := g.objects + 1 })

end Graph

/-- The type of a number node: `dec` when the text of its value has a point, else `ent`. -/
def Datum.numberType (value : Datum) : Except Failure Datum := do
  return .ofText (if (← value.render).toList.contains '.' then Ty.dec.name else Ty.ent.name)

namespace NodeClass

/-- The slots that the arguments of a class go into, besides its place. -/
def arguments : NodeClass → List String
  | plain | program | identifierList => []
  | declaration => ["var_type"]
  | identifier | variableUse => ["name"]
  | assignment => ["identifier", "expression"]
  | binary => ["operator", "left", "right"]
  | unary => ["operator", "expression"]
  | number | text => ["value"]
  | conditional => ["condition", "if_body", "else_body"]
  | whileLoop => ["condition", "body"]
  | repeatLoop => ["count", "body"]
  | print => ["expression"]
  | input => ["variable"]
  | block => ["statements"]

/-- A new node of a class. Slots that the arguments do not fill hold nothing; a declaration, a
number and a text know their type. -/
def make (cls : NodeClass) (args : String → Datum) (line column : Datum) : Except Failure Node := do
  let base : Node :=
    ⟨cls, [("line", line), ("column", column), ("children", .list []), ("type", .none),
      ("value", .none)]⟩
  let filled := cls.arguments.foldl (fun n name => n.set name (args name)) base
  match cls with
  | declaration => return filled.set "type" (args "var_type")
  | identifierList => return filled.set "identifiers" (.list [])
  | number => return filled.set "type" (← (args "value").numberType)
  | text => return filled.set "type" (.ofText Ty.cadena.name)
  | block =>
    let statements := args "statements"
    return filled.set "statements" (if statements.isTrue then statements else .list [])
  | _ => return filled

end NodeClass

end Analizador
