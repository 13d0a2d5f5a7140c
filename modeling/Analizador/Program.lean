import Analizador.Datum

/-! # Programs

The tree of a program: declarations and statements over expressions. Names and operations carry a
mark for the type and the value that the analysis finds. -/

namespace Analizador

/-- What is known about a name or an operation: its type and its value. -/
structure Mark where
  ty : Option Ty
  value : Option Constant
  deriving DecidableEq, Repr, Inhabited

/-- Nothing is known. -/
def Mark.blank : Mark := ⟨none, none⟩

/-- An identifier at a place of the program. -/
structure Name where
  text : String
  spot : Spot
  mark : Mark
  deriving DecidableEq, Repr, Inhabited

/-- The identifier of a token. -/
def Token.toName (t : Token) : Name := ⟨t.text, t.spot, .blank⟩

/-- The type of a number literal: `dec` when its text has a point, else `ent`. -/
def Constant.Number.literalType : Constant.Number → Ty
  | .whole _ => .ent
  | .real d => if d.toText.toList.contains '.' then .dec else .ent

/-- An expression. -/
inductive Expr where
  | number (value : Constant.Number) (spot : Spot)
  | text (value : String) (spot : Spot)
  | use (name : Name)
  | binary (op : Operator) (left right : Expr) (mark : Mark)
  deriving DecidableEq, Repr, Inhabited

namespace Expr

/-- The class of the node of an expression. -/
def cls : Expr → NodeClass
  | number .. => .number
  | text .. => .text
  | use _ => .variableUse
  | binary .. => .binary

/-- The type of an expression as far as it is known. -/
def ty : Expr → Option Ty
  | number n _ => some n.literalType
  | text .. => some .cadena
  | use name => name.mark.ty
  | binary _ _ _ mark => mark.ty

/-- The value of an expression as far as it is known. -/
def value : Expr → Option Constant
  | number n _ => some n.toConstant
  | text s _ => some (.text s)
  | use name => name.mark.value
  | binary _ _ _ mark => mark.value

/-- The place of an expression; an operation has none. -/
def spot? : Expr → Option Spot
  | number _ spot | text _ spot => some spot
  | use name => some name.spot
  | binary .. => none

/-- A fresh operation; only comparisons have a type from the start. -/
def operation (op : Operator) (left right : Expr) : Expr :=
  .binary op left right ⟨if op.family = .relational then some .bool else none, none⟩

end Expr

/-- A statement. The type of an assignment is known once the analysis has accepted it. -/
inductive Stmt where
  | assign (target : Name) (value : Expr) (ty : Option Ty)
  | conditional (condition : Expr) (body : List Stmt) (other : Option (List Stmt))
  | whileLoop (condition : Expr) (body : List Stmt)
  | repeatLoop (count : Int) (spot : Spot) (body : List Stmt)
  | print (value : Expr)
  | input (target : Name)
  | block (body : List Stmt)
  deriving Repr, Inhabited

/-- A declaration or a statement of a program. The list of a declaration gets its type from the
analysis. -/
inductive Item where
  | declaration (ty : Ty) (listType : Option Ty) (names : List Name)
  | statement (s : Stmt)
  deriving Repr, Inhabited

/-- A program. -/
structure Program where
  items : List Item
  deriving Repr, Inhabited

end Analizador
