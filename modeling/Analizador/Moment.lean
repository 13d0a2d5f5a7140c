import Analizador.Symbol

/-! # Moments

What an analysis puts down as it goes. The sites of a program are its literals, names and
operations. Each has a type and a value as far as they are known, and the variables of the table
have theirs. -/

namespace Analizador

/-- What a site of a program is. -/
inductive Site.Form where
  | literal
  | name (text : String)
  | operation (op : Operator)
  deriving DecidableEq, Repr, Inhabited

/-- A site of a program, with its type and its value as far as they are known. -/
structure Site where
  form : Site.Form
  mark : Mark
  deriving DecidableEq, Repr, Inhabited

/-- The site of a name. -/
def Name.site (n : Name) : Site := ⟨.name n.text, n.mark⟩

/-- What is put down at one moment. -/
inductive Moment where
  /-- A site gets a mark. -/
  | mark (site : Site)
  /-- An operation holds a value while it is being calculated. -/
  | trial (op : Operator) (value : Constant)
  /-- The table has changed. -/
  | table (t : Table String Symbol)
  deriving Repr, Inhabited

end Analizador
