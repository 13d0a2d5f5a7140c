import Analizador.Grid
import Analizador.Number.Double

/-! # The line-number gutter

The strip beside the editor that shows the numbers of the lines in view. -/

namespace Analizador

/-- A rectangle. -/
structure Rect where
  x : Int
  y : Int
  width : Int
  height : Int
  deriving DecidableEq, Repr, Inhabited

/-- The last row of pixels of a rectangle. -/
def Rect.bottom (r : Rect) : Int := r.y + r.height - 1

/-- A block of text: its height on the screen and whether it is visible. -/
structure TextBlock where
  height : Double
  visible : Bool
  deriving DecidableEq, Repr, Inhabited

/-- The editor as far as its gutter depends on it. -/
structure Editor where
  blocks : List TextBlock
  charWidth : Int
  lineHeight : Int
  /-- The width of the gutter on the screen. -/
  gutterWidth : Int
  /-- The part of the editor that shows text. -/
  viewport : Rect
  /-- The inside of the editor's frame. -/
  frame : Rect
  /-- The number of the first block in view, from zero. -/
  first : Nat
  /-- How far the content is moved down. -/
  offset : Double
  readOnly : Bool
  /-- Whether the current line is marked. -/
  marking : Bool
  /-- How many listeners follow the cursor. -/
  listeners : Nat
  deriving Repr, Inhabited

/-- What is drawn, moved or resized. -/
inductive Gesture where
  | scroll (dx dy : Int)
  | update (r : Rect)
  | margins (left top right bottom : Int)
  | geometry (r : Rect)
  | resize
  | fill (color : String)
  | draw (r : Rect) (alignment : Alignment) (text : String)
  | selections (count : Nat)
  deriving DecidableEq, Repr, Inhabited

namespace Gutter

/-- The colour behind the numbers. -/
def background : String := "#313335"

/-- How many digits the number of a line may need. -/
def digits (n : Nat) : Nat := if n < 10 then 1 else digits (n / 10) + 1

/-- A numbered line: the number and the top of its row. -/
structure Mark where
  number : Nat
  top : Int
  deriving DecidableEq, Repr, Inhabited

/-- The numbers to draw for blocks of the given heights, the first of which has the given number and
top. Blocks are passed over until one starts below the repainted rows. -/
def marks (area : Rect) (number : Nat) (top : Int) : List (Int × Bool) → List Mark
  | [] => []
  | (height, visible) :: rest =>
    let bottom := top + height
    if top ≤ area.bottom then
      let others := marks area (number + 1) bottom rest
      if visible && area.y ≤ bottom then ⟨number, top⟩ :: others else others
    else []

end Gutter

namespace Editor

open Gutter

/-- The width that the line numbers need. -/
def numberWidth (e : Editor) : Int := 3 + e.charWidth * Gutter.digits (max 1 e.blocks.length)

/-- Leaves room for the gutter. -/
def makeRoom (e : Editor) : List Gesture := [.margins e.numberWidth 0 0 0]

/-- Follows a change of the view: a scroll or a repaint of some rows. `contains` is the screen's own
test whether one rectangle contains another. -/
def follow (e : Editor) (contains : Rect → Rect → Bool) (r : Rect) (dy : Int) : List Gesture :=
  (if dy ≠ 0 then [.scroll 0 dy] else [.update ⟨0, r.y, e.gutterWidth, r.height⟩]) ++
    if contains r e.viewport then e.makeRoom else []

/-- Follows a change of the editor's size. -/
def resized (e : Editor) : List Gesture :=
  [.resize, .geometry ⟨e.frame.x, e.frame.y, e.numberWidth, e.frame.height⟩]

/-- The top of the first block in view, to the nearest pixel. -/
def firstTop (e : Editor) : Int :=
  let above := ((e.blocks.take e.first).map (·.height)).foldl Double.add (Double.zero false)
  (above.add e.offset).nearest

/-- The blocks from the first in view on, with heights to the nearest pixel. -/
def inView (e : Editor) : List (Int × Bool) :=
  (e.blocks.drop e.first).map fun b => (b.height.nearest, b.visible)

/-- Repaints the gutter where it lies in `area`. -/
def paint (e : Editor) (area : Rect) : List Gesture :=
  .fill background :: (marks area (e.first + 1) e.firstTop e.inView).map fun m =>
    .draw ⟨0, m.top, e.gutterWidth, e.lineHeight⟩ .right (toString m.number)

/-- Marks the current line, unless the text cannot be changed. -/
def markLine (e : Editor) : List Gesture := [.selections (if e.readOnly then 0 else 1)]

/-- Switches the marking of the current line on or off. -/
def setMarking (e : Editor) (on : Bool) : Editor :=
  { e with marking := on, listeners := if on then e.listeners + 1 else e.listeners - 1 }

end Editor

/-- The program that a new editor holds. -/
def sampleText : String :=
  "// Ejemplo de programa\nent x, y;\ndec z;\ncadena mensaje;\n\nx = 10;\ny = 5;\nz = 3.14;\n" ++
  "mensaje = \"Hola, mundo!\";\n\nsi (x > y) \x7b\n    sout(\"x es mayor que y\");\n\x7d " ++
  "oNo \x7b\n    sout(\"x no es mayor que y\");\n\x7d\n\nmientras (x > 0) \x7b\n    x = x - 1;\n" ++
  "    sout(x);\n\x7d\n\nrepetir(3) \x7b\n    sout(\"Iteración\");\n\x7d\n"

end Analizador
