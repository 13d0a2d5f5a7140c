import Analizador.Outline
import Analizador.Program.Nodes

/-! # Outlines of programs

The views of a program go through its nodes. No view goes down to the targets of assignments, to
input variables or to loop counts. -/

namespace Analizador

namespace NodeTree

mutual

/-- A value of an attribute as it is printed: of a node, only the class is shown. -/
def datum : NodeTree → Datum
  | none => .none
  | count n => .ofInt n
  | constant c => .constant c
  | list items => .list (datumAll items)
  | tree label children => .tree label (datumAll children)
  | node cls _ => .node cls 0

/-- Values as they are printed. -/
def datumAll : List NodeTree → List Datum
  | [] => []
  | t :: rest => datum t :: datumAll rest

end

/-- What is found in a slot that holds a list with the given outlines. -/
def sproutList (items : List NodeTree) (parts : List Outline) : Sprout :=
  { Sprout.bare (.list (datumAll items)) with items := .ok parts }

mutual

/-- What views find in a slot that holds the given value. -/
def sprout (ways : List Descent) : NodeTree → Sprout
  | none => .bare .none
  | count n => .bare (.ofInt n)
  | constant c => .bare (.constant c)
  | list items => sproutList items (outlines ways items)
  | tree label children =>
    let found :=
      [("data", .bare (.ofText label)), ("children", sproutList children (outlines ways children))]
    let facts := Facts.ofDatum (datum (tree label children)) fun name =>
      [("data", .ofText label), ("children", .list (datumAll children))].lookup name
    ⟨true, .node facts (Descent.branchesAll (found.lookup ·) ways), .error (.notIterable "Tree")⟩
  | node cls attrs =>
    let found := sprouts ways attrs
    let facts := Facts.ofDatum (.node cls 0) fun name => (attrs.lookup name).map datum
    ⟨true, .node facts (Descent.branchesAll (found.lookup ·) ways), .error (.notIterable cls.name)⟩

/-- The outlines of some values. -/
def outlines (ways : List Descent) : List NodeTree → List Outline
  | [] => []
  | t :: rest => (sprout ways t).part :: outlines ways rest

/-- What views find in the ways of a node. -/
def sprouts (ways : List Descent) : List (String × NodeTree) → List (String × Sprout)
  | [] => []
  | (name, t) :: rest => (name, sprout ways t) :: sprouts ways rest

end

/-- The outline of a value along some ways down. -/
def outline (ways : List Descent) (t : NodeTree) : Outline := (t.sprout ways).part

end NodeTree

end Analizador
