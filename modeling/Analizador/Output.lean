import Analizador.Diagnostic
import Analizador.Judgement
import Analizador.Outline
import Analizador.Token

/-! # The output pane

A pane of coloured chunks of text in which the analyses show what they found. -/

namespace Analizador

/-- A chunk of text with its colour; the welcome text has none. -/
structure Chunk where
  color : Option String
  text : String
  deriving DecidableEq, Repr, Inhabited

/-- The chunks of the pane. -/
structure Output where
  chunks : List Chunk
  deriving DecidableEq, Repr, Inhabited

/-- A step on the pane. A step that fails keeps what it had written. -/
abbrev Display := ExceptT Failure (StateM Output)

namespace Output

/-- The colour of plain messages. -/
def plainColor : String := "#a9b7c6"

/-- The colour of errors. -/
def errorColor : String := "#ff6b68"

/-- The colour of titles. -/
def titleColor : String := "#ffc66d"

/-- The pane at the start. -/
def welcome : Output :=
  ⟨[⟨none, "Bienvenido al Analizador Léxico, Sintáctico y Semántico.\n\n" ++
    "Utilice los botones o el menú Análisis para comenzar."⟩]⟩

/-- Adds a line in a colour. -/
def addLine (o : Output) (color text : String) : Output :=
  ⟨o.chunks ++ [⟨some color, text ++ "\n"⟩]⟩

/-- A found token as a row of texts: kind, characters, line and column. -/
structure TokenRow where
  kind : Datum
  text : Datum
  line : Datum
  column : Datum

/-- The row of a token. -/
def TokenRow.ofToken (t : Token) : TokenRow :=
  ⟨.ofText t.kind.name, .ofText t.text, .ofInt t.spot.line, .ofInt t.spot.column⟩

/-- The line of a token row; long kinds and texts are cut. -/
def TokenRow.render (t : TokenRow) : Except Failure String := do
  let kind := Text.padRight 19 (Text.cut 19 (← t.kind.render))
  let text := Text.padRight 19 (Text.cut 19 (← t.text.render))
  let line := Text.padRight 7 (← t.line.render)
  let column := Text.padRight 4 (← t.column.render)
  return s!"| {kind} | {text} | {line} | {column} |"

end Output

namespace Display

open Output

/-- Runs a step on a pane. -/
def perform (step : Display α) (o : Output) : Except Failure α × Output := StateT.run step.run o

/-- Empties the pane. -/
def clear : Display Unit := set (⟨[]⟩ : Output)

/-- Adds a line in a colour. -/
def sayIn (color text : String) : Display Unit := modify (·.addLine color text)

/-- Adds a plain line. -/
def say (text : String) : Display Unit := sayIn plainColor text

/-- Adds a line that may be any datum; only texts can be shown. -/
def sayDatum (message : Datum) (color : Option String) : Display Unit := do
  let text ← Operator.combine .add message (.ofText "\n")
  modify fun o =>
    ⟨o.chunks ++ [⟨some (color.getD plainColor), (text.text?).getD ""⟩]⟩

/-- Adds an error, indented by twice the given number of blanks. -/
def error (d : Diagnostic) (indent : Nat) : Display Unit := do
  sayIn errorColor (Text.blanks (2 * indent) ++ (← d.render))

/-- Shows a titled list of errors. -/
def errors (title : String) (ds : List Diagnostic) : Display Unit := do
  clear
  sayIn titleColor s!"=== {title} ===\n"
  if ds.isEmpty then say "No se encontraron errores."
  else
    ds.forM (error · 0)
    say s!"\nSe encontraron {ds.length} errores."

/-- Shows tokens as a table. -/
def tokens (rows : List TokenRow) : Display Unit := do
  clear
  sayIn titleColor "=== Tokens Encontrados ===\n"
  if rows.isEmpty then say "No se encontraron tokens."
  else
    say "| Tipo                | Valor              | Línea | Columna |"
    say "|---------------------|--------------------|---------|----|"
    rows.forM fun row => do say (← row.render)
    say s!"\nTotal: {rows.length} tokens"

/-- Shows the outline of a tree, as a listing. -/
def outline (tree : Option Outline) (detailed : Bool) : Display Unit := do
  clear
  sayIn titleColor "=== Árbol de Sintaxis Abstracta (AST) ===\n"
  match tree with
  | none => say "No se generó el AST."
  | some tree =>
    let (lines, failure) := tree.lines detailed 0
    lines.forM say
    match failure with
    | some f => throw f
    | none => say "\nEl AST se generó correctamente."

end Display

end Analizador
