import Analizador.Datum

/-! # Identifiers

Which texts may be given to variables as names. -/

namespace Analizador.Identifier

/-- The characters that may start an identifier. -/
def starts (c : Char) : Bool := c.isAlpha || c == '_'

/-- The characters that may follow in an identifier. -/
def follows (c : Char) : Bool := c.isAlphanum || c == '_'

/-- Whether characters have the form of an identifier. -/
def wellFormed : List Char → Bool
  | [] => false
  | c :: rest => starts c && rest.all follows

/-- The characters without one line end at their end. -/
def withoutLineEnd (cs : List Char) : List Char :=
  if cs.getLast? = some '\n' then cs.dropLast else cs

/-- The words that are no names. -/
def reserved : List String :=
  ["ent", "dec", "cadena", "si", "oNo", "mientras", "repetir", "sout", "scan"]

/-- Whether a text is a valid identifier. One line end after the name is passed over, but the whole
text is compared with the reserved words. -/
def isValid (s : String) : Bool := wellFormed (withoutLineEnd s.toList) && !reserved.contains s

/-- Whether a datum is a valid identifier; only texts can be judged. -/
def judge (d : Datum) : Except Failure Bool :=
  match d.text? with
  | some s => .ok (isValid s)
  | none => .error (.notText d.kind)

end Analizador.Identifier
