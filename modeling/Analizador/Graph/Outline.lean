import Analizador.Outline

/-! # Outlines of assembled nodes

Any datum has an outline. The nodes of a graph may lead back to themselves, so the depth is bounded.
-/

namespace Analizador

namespace Graph

/-- The outline of a datum along some ways down. The first number bounds its depth. -/
def outlineWithin (g : Graph) (ways : List Descent) : Nat → Datum → Outline
  | 0, d => .node (.ofDatum d (g.attr? d)) (.broken .tooDeep)
  | depth + 1, d =>
    let outline := g.outlineWithin ways depth
    let find (name : String) : Option Sprout :=
      (g.attr? d name).map fun found =>
        ⟨found.isTrue, outline found, found.items.map (·.map outline)⟩
    .node (.ofDatum d (g.attr? d)) (Descent.branchesAll find ways)

/-- The outline of a datum that counts as true. -/
def outline? (g : Graph) (d : Datum) (ways : List Descent) : Option Outline :=
  if d.isTrue then some (g.outlineWithin ways (g.depthBound d) d) else none

end Graph

end Analizador
