import Analizador.Analysis
import Analizador.Program.Outline
import Analizador.Program.Reader

/-! # Sessions

The three analyses of source texts with one ledger for their findings. A session remembers the
tokens found last, the program read last and the table of the last analysis. -/

namespace Analizador

/-- What a session remembers. -/
structure Session where
  ledger : Ledger
  tokens : List Token
  program : Option Program
  table : Table String Symbol
  deriving Repr, Inhabited

/-- The prefix of every report on syntax. -/
def syntaxMessage (reason : String) : String := s!"Error de sintaxis: {reason}"

/-- What reading a source text gives: a program with the log of the reading, a report, or a failure
to report. -/
inductive Parsing where
  | program (p : Program) (log : List String)
  | fault (d : Diagnostic)
  | aborted (f : Failure)
  deriving Repr, Inhabited

/-- Reads a source text. A ready list of tokens is refused, unless it is empty. -/
def Parsing.ofText (tokens : List Token) (code : String) : Parsing :=
  if tokens.isEmpty then
    match Reading.ofText code with
    | .program p log => .program p log
    | .fault f => .fault (.ofSyntactic (syntaxMessage f.message))
    | .aborted f => .aborted f
  else .fault (.ofSyntactic (syntaxMessage Failure.tokensGiven.message))

/-- The report on the first character that starts no token. -/
def Scan.diagnostics (s : Scan) : List Diagnostic :=
  match s.stray with
  | some stray => [.ofLexical stray.message]
  | none => []

namespace Session

/-- The session before the first analysis. -/
def empty : Session := ⟨.empty, [], none, .empty⟩

/-- Finds the tokens of a source text. -/
def tokenize (s : Session) (code : String) : Session :=
  let scan := Scan.ofText code
  { s with tokens := scan.tokens, ledger := { s.ledger with lexical := scan.diagnostics } }

/-- Reads a source text; says whether a program was read. -/
def parse (s : Session) (tokens : List Token) (code : String) : Except Failure Bool × Session :=
  let cleared := { s with program := none, ledger := { s.ledger with syntactic := [] } }
  match Parsing.ofText tokens code with
  | .program p _ => (.ok true, { cleared with program := some p })
  | .fault d => (.ok false, { cleared with ledger := cleared.ledger.add d })
  | .aborted f => (.error f, cleared)

/-- The line logged when there is no program to analyse. -/
def noProgramLine : String := "Error: AST es None"

/-- Analyses the program read last; says whether it has no fault, and gives the log. An analysis
that stops keeps the faults and the table that it has. -/
def analyse (s : Session) : Except Failure Bool × List String × Session :=
  match s.program with
  | none => (.ok false, [noProgramLine], s)
  | some p =>
    let (outcome, findings) := p.analyse
    let ledger := { s.ledger with semantic := findings.faults.map Fault.diagnostic }
    let found := { s with ledger, table := findings.table }
    match outcome with
    | .ok (program, result) => (.ok result, findings.log, { found with program := some program })
    | .error f => (.error f, findings.log, found)

/-- The outline of the program read last, along some ways down. -/
def outline? (s : Session) (ways : List Descent) : Option Outline :=
  s.program.map (·.node.outline ways)

end Session

end Analizador
