import Analizador.Constant
import Analizador.Token

/-! # Data

The values that attributes of hand-assembled nodes may hold: nothing, constants, lists, loose tokens
and raw trees, and references to nodes. Nodes and bare objects are told apart by a number. -/

namespace Analizador

/-- The class of a node. -/
inductive NodeClass where
  | plain
  | program
  | declaration
  | identifierList
  | identifier
  | assignment
  | binary
  | unary
  | number
  | text
  | variableUse
  | conditional
  | whileLoop
  | repeatLoop
  | print
  | input
  | block
  deriving DecidableEq, Repr, Inhabited

namespace NodeClass

/-- Every class. -/
def all : List NodeClass :=
  [plain, program, declaration, identifierList, identifier, assignment, binary, unary, number, text,
    variableUse, conditional, whileLoop, repeatLoop, print, input, block]

/-- The name of a class in listings. -/
def name : NodeClass → String
  | plain => "ASTNode"
  | program => "ProgramNode"
  | declaration => "DeclarationNode"
  | identifierList => "IdentifierListNode"
  | identifier => "IdentifierNode"
  | assignment => "AssignmentNode"
  | binary => "BinaryOpNode"
  | unary => "UnaryOpNode"
  | number => "NumberNode"
  | text => "StringNode"
  | variableUse => "VariableNode"
  | conditional => "IfNode"
  | whileLoop => "WhileNode"
  | repeatLoop => "RepeatNode"
  | print => "PrintNode"
  | input => "InputNode"
  | block => "BlockNode"

/-- The class of a name. -/
def ofName? (s : String) : Option NodeClass := all.find? (·.name == s)

/-- How a node of this class is shown where only its identity matters. -/
def shown (c : NodeClass) : String := s!"<models.ast_nodes.{c.name} object>"

end NodeClass

/-- A value an attribute may hold. -/
inductive Datum where
  | none
  | constant (c : Constant)
  | list (items : List Datum)
  | token (kind text : String) (line column : Datum)
  | tree (label : String) (children : List Datum)
  | node (cls : NodeClass) (id : Nat)
  | object (id : Nat)
  deriving Repr, Inhabited

namespace Datum

/-- A text as a datum. -/
abbrev ofText (s : String) : Datum := .constant (.text s)

/-- An integer as a datum. -/
abbrev ofInt (n : Int) : Datum := .constant (.integer n)

/-- An optional number as a datum. -/
def ofNat? : Option Nat → Datum
  | some n => ofInt n
  | Option.none => .none

/-- The printed name of the kind of a datum. -/
def kind : Datum → String
  | none => "NoneType"
  | constant c => c.kind
  | list _ => "list"
  | token .. => "Token"
  | tree .. => "Tree"
  | node cls _ => cls.name
  | object _ => "object"

/-- The full printed name of the kind of a datum. -/
def kindShown : Datum → String
  | token .. => "<class 'lark.lexer.Token'>"
  | tree .. => "<class 'lark.tree.Tree'>"
  | node cls _ => s!"<class 'models.ast_nodes.{cls.name}'>"
  | d => s!"<class '{d.kind}'>"

/-- Whether a datum counts as true: nothing, zeros, empty texts and empty lists do not. -/
def isTrue : Datum → Bool
  | none => false
  | constant c => c.isTrue
  | list items => !items.isEmpty
  | token _ text _ _ => text != ""
  | tree .. | node .. | object _ => true

/-- Whether a datum is nothing at all. -/
def isNone : Datum → Bool
  | none => true
  | _ => false

/-- The characters of a text or a token. -/
def text? : Datum → Option String
  | constant (.text s) => some s
  | token _ text _ _ => some text
  | _ => Option.none

mutual

/-- A datum as it is shown inside lists, trees and argument rows. -/
def quoted : Datum → Except Failure String
  | none => .ok "None"
  | constant (.text s) => .ok (Text.quoted s)
  | constant c => c.render
  | list items => do return "[" ++ ", ".intercalate (← quotedAll items) ++ "]"
  | token kind text _ _ => .ok (quotedToken kind text)
  | tree label children => do
    return s!"Tree({Text.quoted label}, [" ++ ", ".intercalate (← quotedAll children) ++ "])"
  | node cls _ => .ok cls.shown
  | object _ => .ok "<object object>"

/-- Data as they are shown inside lists. -/
def quotedAll : List Datum → Except Failure (List String)
  | [] => .ok []
  | d :: ds => do return (← quoted d) :: (← quotedAll ds)

end

/-- A datum as it is printed. -/
def render : Datum → Except Failure String
  | constant c => c.render
  | token _ text _ _ => .ok text
  | d => d.quoted

/-- A row of arguments as it is printed. -/
def argumentRow (args : List Datum) : Except Failure String := do
  match ← quotedAll args with
  | [a] => return s!"({a},)"
  | shown => return "(" ++ ", ".intercalate shown ++ ")"

/-- The text of a found token, whatever its parts are. -/
def describeToken (kind text line column : Datum) : Except Failure String := do
  return s!"Token({← kind.render}, '{← text.render}', line={← line.render}, col={← column.render})"

mutual

/-- Whether two data are equal. Tokens are equal to texts of the same characters, trees are compared
by label and children, nodes and objects by identity. -/
def same : Datum → Datum → Bool
  | none, none => true
  | constant a, constant b => a.equal b
  | constant (.text s), token _ t _ _ => s == t
  | token _ s _ _, constant (.text t) => s == t
  | token k s _ _, token l t _ _ => k == l && s == t
  | list xs, list ys => sameAll xs ys
  | tree a xs, tree b ys => a == b && sameAll xs ys
  | node _ i, node _ j => i == j
  | object i, object j => i == j
  | _, _ => false

/-- Whether two lists of data are equal item by item. -/
def sameAll : List Datum → List Datum → Bool
  | [], [] => true
  | x :: xs, y :: ys => same x y && sameAll xs ys
  | _, _ => false

end

/-- Whether a datum is the given text. -/
def isText (d : Datum) (s : String) : Bool := d.same (ofText s)

mutual

/-- Refuses data that cannot be keys: lists, and trees that hold one. -/
def checkKey : Datum → Except Failure Unit
  | list _ => .error (.unhashable "list")
  | tree _ children => checkKeys children
  | _ => .ok ()

/-- Refuses a list of data one of which cannot be a key. -/
def checkKeys : List Datum → Except Failure Unit
  | [] => .ok ()
  | d :: ds => do
    checkKey d
    checkKeys ds

end

end Datum

end Analizador
