import Analizador.Window

/-! # Command line

Reads a program from the standard input, analyses it in a window with all tools and prints what the
window shows. -/

namespace Analizador

/-- What a window shows after an action: its output, then the boxes that the action opened. -/
def Window.shown (w : Window) : String :=
  String.join (w.output.chunks.map (·.text)) ++
    String.join (w.boxes.map fun b => s!"{b.title}: {b.text}\n")

/-- The full analysis of a text, as shown. -/
def analysisShown (code : String) : String :=
  let (_, edited) := (Window.start ⟨true, true, true⟩ false ⟨[], []⟩).act (.edit code)
  (edited.act .full).2.shown

/-- The rest of a stream. -/
partial def readRest (stream : IO.FS.Stream) (before : String) : IO String := do
  let line ← stream.getLine
  if line.isEmpty then return before else readRest stream (before ++ line)

end Analizador

/-- Analyses the program on the standard input. -/
def main : IO Unit := do
  IO.print (Analizador.analysisShown (← Analizador.readRest (← IO.getStdin) ""))
