/-! # Types and operators of the language

The three declarable types, the type of conditions, and the binary operators with the rule that
gives the type of their result. -/

namespace Analizador

/-- A type of the language. -/
inductive Ty where
  | ent
  | dec
  | cadena
  | bool
  deriving DecidableEq, Repr, Inhabited

namespace Ty

/-- The name of a type in programs and reports. -/
def name : Ty → String
  | ent => "ent"
  | dec => "dec"
  | cadena => "cadena"
  | bool => "bool"

/-- The numeric types. -/
def isNumeric : Ty → Bool
  | ent | dec => true
  | cadena | bool => false

/-- Whether a value of type `source` may be assigned to a variable of type `target`. -/
def accepts (target source : Ty) : Bool :=
  target == source || (target == dec && source == ent)

end Ty

/-- A binary operator. -/
inductive Operator where
  | add
  | sub
  | mul
  | div
  | eq
  | ne
  | gt
  | lt
  | ge
  | le
  | both
  | either
  deriving DecidableEq, Repr, Inhabited

namespace Operator

/-- Every operator. -/
def all : List Operator := [add, sub, mul, div, eq, ne, gt, lt, ge, le, both, either]

/-- The sign of an operator in programs. -/
def sign : Operator → String
  | add => "+"
  | sub => "-"
  | mul => "*"
  | div => "/"
  | eq => "=="
  | ne => "!="
  | gt => ">"
  | lt => "<"
  | ge => ">="
  | le => "<="
  | both => "&&"
  | either => "||"

/-- The operator of a sign. -/
def ofSign? (s : String) : Option Operator := all.find? (·.sign == s)

/-- The three families of operators. -/
inductive Family where
  | arithmetic
  | relational
  | logical
  deriving DecidableEq, Repr

/-- The family of an operator. -/
def family : Operator → Family
  | add | sub | mul | div => .arithmetic
  | eq | ne | gt | lt | ge | le => .relational
  | both | either => .logical

/-- The type of the result for operands of the given types, if the operator is defined on them. -/
def resultType? (op : Operator) (left right : Ty) : Option Ty :=
  match op.family with
  | .arithmetic =>
    if left = .ent ∧ right = .ent then some .ent
    else if left.isNumeric ∧ right.isNumeric then some .dec
    else if op = .add ∧ left = .cadena ∧ right = .cadena then some .cadena
    else none
  | .relational =>
    if (left.isNumeric ∧ right.isNumeric) ∨ left = right then some .bool else none
  | .logical => if left = .bool ∧ right = .bool then some .bool else none

end Operator

end Analizador
