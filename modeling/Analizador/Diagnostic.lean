import Analizador.Datum

/-! # Diagnostics

What the analyses find wrong with a program, and the ledger that keeps the findings of each stage in
the order in which they were made. -/

namespace Analizador

/-- The kind of a diagnostic. -/
inductive Diagnostic.Kind where
  | general
  | lexical
  | syntactic
  | semantic
  | mismatch (expected found : Datum)
  | undeclared
  | redeclared
  deriving Repr, Inhabited

/-- A finding, with its place if it has one. -/
structure Diagnostic where
  kind : Diagnostic.Kind
  message : Datum
  line : Datum
  column : Datum
  deriving Repr, Inhabited

namespace Diagnostic

/-- The name of a kind in reports. -/
def Kind.name : Kind → String
  | general => "CompilerError"
  | lexical => "LexicalError"
  | syntactic => "SyntaxError"
  | semantic => "SemanticError"
  | mismatch .. => "TypeError"
  | undeclared => "UndeclaredError"
  | redeclared => "RedeclarationError"

/-- A lexical finding, without a place. -/
def ofLexical (message : String) : Diagnostic := ⟨.lexical, .ofText message, .none, .none⟩

/-- A syntactic finding, without a place. -/
def ofSyntactic (message : String) : Diagnostic := ⟨.syntactic, .ofText message, .none, .none⟩

/-- The wording for a variable that is not declared. -/
def undeclaredMessage (name : String) : String := s!"Variable '{name}' no declarada"

/-- The wording for a variable that is declared again. -/
def redeclaredMessage (name : String) : String := s!"Variable '{name}' ya declarada"

/-- The use of a variable that is not declared. -/
def ofUndeclared (name line column : Datum) : Except Failure Diagnostic := do
  return ⟨.undeclared, .ofText (undeclaredMessage (← name.render)), line, column⟩

/-- The second declaration of a variable. -/
def ofRedeclared (name line column : Datum) : Except Failure Diagnostic := do
  return ⟨.redeclared, .ofText (redeclaredMessage (← name.render)), line, column⟩

/-- A type that is not the expected one; without a message of its own it gets a general one. -/
def ofMismatch (expected found message line column : Datum) : Except Failure Diagnostic := do
  let message ← match message with
    | .none =>
      pure (.ofText s!"Se esperaba tipo '{← expected.render}' pero se encontró '{← found.render}'")
    | message => pure message
  return ⟨.mismatch expected found, message, line, column⟩

/-- The text of a diagnostic; the column is shown only together with the line. -/
def render (d : Diagnostic) : Except Failure String := do
  let place ← match d.line, d.column with
    | .none, _ => pure ""
    | line, .none => pure s!" en línea {← line.render}"
    | line, column => pure s!" en línea {← line.render}, columna {← column.render}"
  return s!"{d.kind.name}: {← d.message.render}{place}"

end Diagnostic

/-- The findings of the three stages. -/
structure Ledger where
  lexical : List Diagnostic := []
  syntactic : List Diagnostic := []
  semantic : List Diagnostic := []
  deriving Repr, Inhabited

namespace Ledger

/-- The empty ledger. -/
def empty : Ledger := {}

/-- Enters a finding under its stage; a general one is entered nowhere. -/
def add (l : Ledger) (d : Diagnostic) : Ledger :=
  match d.kind with
  | .general => l
  | .lexical => { l with lexical := l.lexical ++ [d] }
  | .syntactic => { l with syntactic := l.syntactic ++ [d] }
  | .semantic | .mismatch .. | .undeclared | .redeclared => { l with semantic := l.semantic ++ [d] }

/-- All findings, stage by stage. -/
def all (l : Ledger) : List Diagnostic := l.lexical ++ l.syntactic ++ l.semantic

/-- Whether there is any finding. -/
def hasAny (l : Ledger) : Bool := !l.all.isEmpty

/-- One stage of the report, headed by its title. -/
def stage (title : String) (ds : List Diagnostic) : Except Failure (List String) := do
  if ds.isEmpty then return []
  let shown ← ds.mapM Diagnostic.render
  return title :: shown.map ("  " ++ ·)

/-- The report on all findings. -/
def render (l : Ledger) : Except Failure String := do
  let lexical ← stage "Errores léxicos:" l.lexical
  let syntactic ← stage "Errores sintácticos:" l.syntactic
  let semantic ← stage "Errores semánticos:" l.semantic
  let lines := lexical ++ syntactic ++ semantic
  return if lines.isEmpty then "No hay errores" else "\n".intercalate lines

end Ledger

end Analizador
