import Analizador.Folder
import Analizador.Gutter
import Analizador.Output
import Analizador.Session
import Analizador.Text.Blank

/-! # The window

An editor, an output pane and a symbol grid with the actions on them: the analyses of the edited
text, and opening and saving files. -/

namespace Analizador

/-- The edited text and whether it was changed since it was opened or saved. -/
structure Document where
  text : String
  modified : Bool
  deriving DecidableEq, Repr, Inhabited

/-- Which analyses a window offers. -/
structure Toolset where
  lexical : Bool
  syntactic : Bool
  semantic : Bool
  deriving DecidableEq, Repr, Inhabited

/-- Whether all analyses are offered. -/
def Toolset.complete (t : Toolset) : Bool := t.lexical && t.syntactic && t.semantic

/-- The kinds of boxes. -/
inductive BoxKind where
  | information
  | warning
  | critical
  | question
  | about
  deriving DecidableEq, Repr, Inhabited

/-- The name of a kind of box. -/
def BoxKind.name : BoxKind → String
  | information => "information"
  | warning => "warning"
  | critical => "critical"
  | question => "question"
  | about => "about"

/-- A box that was shown. -/
structure Box where
  kind : BoxKind
  title : String
  text : String
  deriving DecidableEq, Repr, Inhabited

/-- The panes that can be brought to the front. -/
inductive Pane where
  | symbols
  deriving DecidableEq, Repr, Inhabited

/-- The state of a window. -/
structure Window where
  tools : Toolset
  /-- Whether the inspection can colour its title. -/
  colors : Bool
  session : Session
  document : Document
  output : Output
  grid : Grid
  title : String
  front : Option Pane
  /-- The file that saving writes to. -/
  file : Option String
  folder : Folder
  boxes : List Box
  deriving Repr, Inhabited

/-- The answers to the question whether changes are to be saved. -/
inductive Reply where
  | save
  | discard
  | cancel
  deriving DecidableEq, Repr, Inhabited

/-- What can be done with a window, with the answers given to its dialogs. An empty path is a dialog
that was closed. The text about the program is that of whoever publishes it. -/
inductive Action where
  | edit (text : String)
  | newFile (reply : Reply) (savePath : String)
  | openFile (reply : Reply) (savePath openPath : String)
  | save (savePath : String)
  | saveAs (savePath : String)
  | lexical
  | syntactic
  | semantic
  | full
  | about (text : String)
  | inspect
  deriving DecidableEq, Repr, Inhabited

/-- A step on a window. A step that fails keeps what it had done. -/
abbrev WindowStep := ExceptT Failure (StateM Window)

namespace Window

/-- The title of a window without a file. -/
def plainTitle : String := "Analizador Léxico, Sintáctico y Semántico"

/-- The title of a window with a file. -/
def fileTitle (path : String) : String := s!"Analizador - {Folder.baseName path}"

/-- A new window. -/
def start (tools : Toolset) (colors : Bool) (folder : Folder) : Window where
  tools
  colors
  session := .empty
  document := ⟨sampleText, false⟩
  output := .welcome
  grid := .start
  title := plainTitle
  front := none
  file := none
  folder
  boxes := []

end Window

namespace WindowStep

/-- Runs a step. -/
def perform (step : WindowStep α) (w : Window) : Except Failure α × Window := StateT.run step.run w

/-- Shows a box. -/
def box (kind : BoxKind) (title text : String) : WindowStep Unit :=
  modify fun w => { w with boxes := w.boxes ++ [⟨kind, title, text⟩] }

/-- Runs a step on the output pane. -/
def display (step : Display Unit) : WindowStep Unit := do
  let (result, output) := step.perform (← get).output
  modify fun w => { w with output }
  result

/-- Adds a plain line to the output pane. -/
def say (text : String) : WindowStep Unit := display (Display.say text)

/-- The edited text, if it holds more than blanks; otherwise a box says that it does not. -/
def code? : WindowStep (Option String) := do
  let text := (← get).document.text
  if Text.allBlank text then
    box .information "Información" "El editor está vacío"
    return none
  else return some text

/-- Warns that an analysis is not offered. -/
def warn (text : String) : WindowStep Unit := box .warning "Advertencia" text

/-! ## Analyses -/

/-- Finds the tokens of the edited text. -/
def tokenize (code : String) : WindowStep (List Token) := do
  modify fun w => { w with session := w.session.tokenize code }
  return (← get).session.tokens

/-- Reads the edited text; the result says whether a program was read. -/
def parse (code : String) : WindowStep Bool := do
  let (result, session) := (← get).session.parse [] code
  modify fun w => { w with session }
  result

/-- Analyses the program read; the result says whether it has no fault. -/
def analyse : WindowStep Bool := do
  let (result, _, session) := (← get).session.analyse
  modify fun w => { w with session }
  result

/-- The ledger of the session. -/
def ledger : WindowStep Ledger := do return (← get).session.ledger

/-- Shows the symbols of the last analysis in the grid. -/
def showSymbols : WindowStep Unit := do
  let (result, grid) := (← get).grid.fill ((← get).session.table.all.map Symbol.toRecord)
  modify fun w => { w with grid }
  result

/-- Forgets all findings and empties both panes. -/
def reset : WindowStep Unit := do
  display Display.clear
  modify fun w => { w with
    grid := w.grid.wipe
    session := { w.session with ledger := .empty } }

/-- The lexical analysis. -/
def lexical : WindowStep Unit := do
  if !(← get).tools.lexical then
    warn "Controlador de análisis léxico no disponible"
  else match ← code? with
    | none => return
    | some code =>
      let tokens ← tokenize code
      let found := (← ledger).lexical
      if found.isEmpty then
        display (Display.tokens (tokens.map Output.TokenRow.ofToken))
        say "\nAnálisis léxico completado con éxito."
      else display (Display.errors "Análisis Léxico" found)

/-- The warning that not every analysis needed is offered. -/
def toolsMissing : String := "Controladores de análisis no disponibles"

/-- The syntactic analysis. -/
def syntactic : WindowStep Unit := do
  let tools := (← get).tools
  if !(tools.lexical && tools.syntactic) then warn toolsMissing
  else match ← code? with
    | none => return
    | some code =>
      let _ ← tokenize code
      let found := (← ledger).lexical
      if !found.isEmpty then display (Display.errors "Análisis Léxico" found)
      else
        let _ ← parse code
        let found := (← ledger).syntactic
        if !found.isEmpty then display (Display.errors "Análisis Sintáctico" found)
        else
          display (Display.outline ((← get).session.outline? Descent.listed) false)
          say "\nAnálisis sintáctico completado con éxito."

/-- The semantic analysis. -/
def semantic : WindowStep Unit := do
  if !(← get).tools.complete then warn toolsMissing
  else match ← code? with
    | none => return
    | some code =>
      reset
      say "Iniciando análisis semántico...\n"
      say "1. Ejecutando análisis léxico..."
      let _ ← tokenize code
      let found := (← ledger).lexical
      if !found.isEmpty then display (Display.errors "Análisis Léxico" found)
      else
        say "2. Ejecutando análisis sintáctico..."
        let read ← parse code
        let found := (← ledger).syntactic
        if !found.isEmpty || !read then display (Display.errors "Análisis Sintáctico" found)
        else
          say "3. Ejecutando análisis semántico..."
          let success ← analyse
          let found := (← ledger).semantic
          if !success || !found.isEmpty then display (Display.errors "Análisis Semántico" found)
          else
            showSymbols
            modify fun w => { w with front := some .symbols }
            say "\nAnálisis semántico completado con éxito."

/-- All analyses, one after the other. -/
def full : WindowStep Unit := do
  if !(← get).tools.complete then warn toolsMissing
  else match ← code? with
    | none => return
    | some code =>
      reset
      say "Iniciando análisis completo...\n"
      say "=== Análisis Léxico ==="
      let tokens ← tokenize code
      let found := (← ledger).lexical
      if !found.isEmpty then display (Display.errors "Errores Léxicos" found)
      else
        say s!"Se encontraron {tokens.length} tokens."
        say "Análisis léxico completado con éxito.\n"
        say "=== Análisis Sintáctico ==="
        let read ← parse code
        let found := (← ledger).syntactic
        if !found.isEmpty || !read then display (Display.errors "Errores Sintácticos" found)
        else
          say "Análisis sintáctico completado con éxito.\n"
          say "=== Análisis Semántico ==="
          let success ← analyse
          let found := (← ledger).semantic
          if !success || !found.isEmpty then display (Display.errors "Errores Semánticos" found)
          else
            showSymbols
            say "Análisis semántico completado con éxito.\n"
            say "=== Análisis Completo Exitoso ==="
            box .information "Éxito" "El análisis completo se ha realizado con éxito!"

/-! ## Inspection -/

/-- How an analysis that may be absent is shown. -/
def toolShown (present : Bool) (name : String) : String := if present then name else "None"

/-- The lines that list symbols. -/
def symbolLines (table : Table String Symbol) : Except Failure (List String) :=
  table.all.mapM fun s => do
    return s!"  - '{s.name}' (tipo: {s.ty.name}, valor: {← Analysis.shown s.value})"

/-- Shows what the analyses offered hold. -/
def inspectState : WindowStep Unit := do
  let w ← get
  say "Controladores:"
  let lexer := toolShown w.tools.lexical "<controllers.lexer_controller.LexerController object>"
  let reader :=
    toolShown w.tools.syntactic "<controllers.parser_controller.ParserController object>"
  let checker :=
    toolShown w.tools.semantic "<controllers.semantic_controller.SemanticController object>"
  say s!"  - LexerController: {lexer}"
  say s!"  - ParserController: {reader}"
  say s!"  - SemanticController: {checker}"
  let found := w.session.ledger
  if w.tools.lexical then say s!"\nErrores léxicos: {found.lexical.length}"
  if w.tools.syntactic then say s!"Errores sintácticos: {found.syntactic.length}"
  if w.tools.semantic then
    say s!"Errores semánticos: {found.semantic.length}"
    say s!"\nSímbolos en la tabla: {w.session.table.all.length}"
    (← symbolLines w.session.table).forM say

/-- Shows the outcome of a trial analysis, which leaves the ledger and the table of the session
alone. -/
def showTrial (trial : Session) (success : Bool) : WindowStep Unit := do
  let outcome := if success then "Éxito" else "Falló"
  say s!"\nResultado del análisis de prueba: {outcome}"
  say s!"Símbolos en la tabla de prueba: {trial.table.all.length}"
  (← symbolLines trial.table).forM say
  let found := trial.ledger.semantic
  if !found.isEmpty then
    say s!"\nErrores semánticos en la prueba: {found.length}"
    found.forM fun d => do say s!"  - {← d.render}"

/-- Analyses the edited text on trial. -/
def runTrial (code : String) : WindowStep Unit := do
  if !(← get).tools.lexical then throw (.noAttribute "NoneType" "tokenize")
  let _ ← tokenize code
  if !(← get).tools.syntactic then throw (.noAttribute "NoneType" "parse")
  if ← parse code then
    let (result, _, trial) := ({ (← get).session with ledger := .empty } : Session).analyse
    modify fun w => { w with session := { w.session with program := trial.program } }
    showTrial trial (← result)
  else say "No se pudo generar AST para la prueba."

/-- Inspects the window and analyses the edited text on trial. -/
def inspect : WindowStep Unit := do
  display Display.clear
  if !(← get).colors then throw (.unknownName "QColor")
  display (Display.sayIn Output.titleColor "=== ESTADO DE DEPURACIÓN ===\n")
  inspectState
  let code := (← get).document.text
  if Text.allBlank code then say "\nEditor vacío, no se puede analizar."
  else
    say "\n=== ANÁLISIS DE PRUEBA ==="
    runTrial code

/-! ## Files -/

/-- Writes the text to a file; the result says whether that was possible. -/
def writeTo (path : String) : WindowStep Bool := do
  let w ← get
  match w.folder.write path w.document.text with
  | .ok folder =>
    set { w with folder, document := { w.document with modified := false } }
    return true
  | .error f =>
    box .critical "Error" s!"Error al guardar el archivo: {f.message}"
    return false

/-- Saves the text under a new path. -/
def saveAs (path : String) : WindowStep Bool := do
  if path.isEmpty then return false
  modify fun w => { w with file := some path, title := Window.fileTitle path }
  writeTo path

/-- Saves the text to the window's file, or under a new path if it has none. -/
def save (path : String) : WindowStep Bool := do
  match (← get).file with
  | some file => writeTo file
  | none => saveAs path

/-- Asks whether changes are to be saved before they are lost, if there are any; the result says
whether to go on. -/
def confirmLoss (question : String) (reply : Reply) (savePath : String) : WindowStep Bool := do
  if (← get).document.modified then
    box .question "Guardar cambios" question
    match reply with
    | .save =>
      let _ ← save savePath
      return true
    | .discard => return true
    | .cancel => return false
  else return true

/-- Starts a new text. -/
def newFile (reply : Reply) (savePath : String) : WindowStep Unit := do
  if ← confirmLoss "¿Desea guardar los cambios antes de crear un nuevo archivo?" reply savePath then
    modify fun w => { w with document := ⟨"", false⟩, title := Window.plainTitle }

/-- Opens a file. -/
def openFile (reply : Reply) (savePath openPath : String) : WindowStep Unit := do
  if ← confirmLoss "¿Desea guardar los cambios antes de abrir un archivo?" reply savePath then
    if !openPath.isEmpty then
      match (← get).folder.read openPath with
      | .ok text =>
        modify fun w => { w with document := ⟨text, false⟩, title := Window.fileTitle openPath }
      | .error f => box .critical "Error" s!"Error al abrir el archivo: {f.message}"

/-- Performs an action. Saving says whether it was done. -/
def act : Action → WindowStep (Option Bool)
  | .edit text => do
    modify fun w => { w with document := ⟨text, true⟩ }
    return none
  | .newFile reply savePath => do newFile reply savePath; return none
  | .openFile reply savePath openPath => do openFile reply savePath openPath; return none
  | .save savePath => do return some (← save savePath)
  | .saveAs savePath => do return some (← saveAs savePath)
  | .lexical => do lexical; return none
  | .syntactic => do syntactic; return none
  | .semantic => do semantic; return none
  | .full => do full; return none
  | .about text => do box .about "Acerca de" text; return none
  | .inspect => do inspect; return none

end WindowStep

/-- Performs an action on a window; the boxes of the action replace those before. -/
def Window.act (w : Window) (a : Action) : Except Failure (Option Bool) × Window :=
  (WindowStep.act a).perform { w with boxes := [] }

end Analizador
