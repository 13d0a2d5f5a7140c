import Analizador.Program

/-! # Nodes of programs

A program as the tree of nodes that is handed out for it. A node has a class and its attributes by
name; every statement hangs in a raw tree of its own, as the only child. -/

namespace Analizador

/-- A value of an attribute: nothing, a count, a constant, a list, a raw tree, or a node with its
attributes. -/
inductive NodeTree where
  | none
  | count (n : Nat)
  | constant (c : Constant)
  | list (items : List NodeTree)
  | tree (label : String) (children : List NodeTree)
  | node (cls : NodeClass) (attrs : List (String × NodeTree))
  deriving Repr, Inhabited

namespace NodeTree

/-- A text as a value of an attribute. -/
def text (s : String) : NodeTree := .constant (.text s)

/-- A value that may be missing. -/
def ofOption {α : Type} (f : α → NodeTree) : Option α → NodeTree
  | some a => f a
  | .none => .none

/-- A node with the attributes that every node has, and its own. -/
def ofNode (cls : NodeClass) (spot : Option Spot) (children : List NodeTree) (ty : Option Ty)
    (value : Option Constant) (own : List (String × NodeTree)) : NodeTree :=
  .node cls ([("line", ofOption (.count ·.line) spot), ("column", ofOption (.count ·.column) spot),
    ("children", .list children), ("type", ofOption (.text ·.name) ty),
    ("value", ofOption .constant value)] ++ own)

/-- A node without place, children, type and value. -/
def ofClass (cls : NodeClass) (own : List (String × NodeTree)) : NodeTree :=
  ofNode cls .none [] .none .none own

/-- A statement in its wrapping. -/
def sentence (statement : NodeTree) : NodeTree := .tree "sentencia" [statement]

/-- The node of a block. -/
def block (statements : List NodeTree) : NodeTree :=
  ofClass .block [("statements", .list statements)]

end NodeTree

/-- The node of a name, as a variable or as the name of a declaration. -/
def Name.node (cls : NodeClass) (n : Name) : NodeTree :=
  .ofNode cls n.spot [] n.mark.ty n.mark.value [("name", .text n.text)]

/-- The node of an expression. -/
def Expr.node : Expr → NodeTree
  | .number n spot => .ofNode .number spot [] n.literalType n.toConstant []
  | .text s spot => .ofNode .text spot [] (some .cadena) (some (.text s)) []
  | .use name => name.node .variableUse
  | .binary op left right mark => .ofNode .binary none [] mark.ty mark.value
      [("operator", .text op.sign), ("left", left.node), ("right", right.node)]

mutual

/-- The node of a statement. -/
def Stmt.node : Stmt → NodeTree
  | .assign target value ty => .ofNode .assignment none [] ty none
      [("identifier", target.node .variableUse), ("expression", value.node)]
  | .conditional condition body other => .ofClass .conditional
      [("condition", condition.node), ("if_body", .block (nodeAll body)),
        ("else_body", nodeOther other)]
  | .whileLoop condition body => .ofClass .whileLoop
      [("condition", condition.node), ("body", .block (nodeAll body))]
  | .repeatLoop count spot body => .ofClass .repeatLoop
      [("count", Expr.node (.number (.whole count) spot)), ("body", .block (nodeAll body))]
  | .print value => .ofClass .print [("expression", value.node)]
  | .input target => .ofClass .input [("variable", target.node .variableUse)]
  | .block body => .block (nodeAll body)
termination_by structural s => s

/-- The node of the second block of a conditional. -/
def Stmt.nodeOther : Option (List Stmt) → NodeTree
  | none => .none
  | some body => .block (nodeAll body)
termination_by structural other => other

/-- The nodes of some statements, in their wrappings. -/
def Stmt.nodeAll : List Stmt → List NodeTree
  | [] => []
  | s :: rest => .sentence s.node :: nodeAll rest
termination_by structural body => body

end

/-- The node of an item. -/
def Item.node : Item → NodeTree
  | .declaration ty listType names =>
    .ofNode .declaration none
      [.ofNode .identifierList none (names.map (Name.node .identifier)) listType none
        [("identifiers", .list (names.map (.text ·.text)))]]
      (some ty) none [("var_type", .text ty.name)]
  | .statement s => .sentence s.node

/-- The node of a program. -/
def Program.node (p : Program) : NodeTree :=
  .ofNode .program none (p.items.map Item.node) none none []

end Analizador
