import Analizador.Judgement
import Analizador.Text.Layout

/-! # Highlighting

Marks one line of a text with a background colour. -/

namespace Analizador

namespace Highlight

/-- The colour of marked lines if none is chosen. -/
def defaultColor : Datum := .ofText "#ffff00"

/-- A marked line. -/
def marked (color line : String) : String :=
  s!"<span style=\"background-color: {color};\">{line}</span>"

/-- Marks the line of the given number among lines numbered from `start` on. -/
def markLine (number : Datum) (color : String) (start : Nat) : List String → List String
  | [] => []
  | line :: rest =>
    (if number.same (.ofInt start) then marked color line else line) ::
      markLine number color (start + 1) rest

/-- Whether an order between two data holds. -/
def holds (op : Operator) (a b : Datum) : Except Failure Bool := do
  return (← op.combine a b).isTrue

/-- Marks one line of a text; a number outside the text marks none. -/
def line (text number color : Datum) : Except Failure Datum :=
  match text.text? with
  | none => .error (.noAttribute text.kind "split")
  | some s => do
    let lines := Text.lines s
    if ← holds .le number (.ofInt 0) then return text
    if ← holds .gt number (.ofInt lines.length) then return text
    return .ofText ("\n".intercalate (markLine number (← color.render) 1 lines))

end Highlight

end Analizador
