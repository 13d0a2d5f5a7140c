import Analizador.Analysis
import Analizador.Assembly
import Analizador.Attribution
import Analizador.Constant
import Analizador.Datum
import Analizador.Diagnostic
import Analizador.Failure
import Analizador.Fault
import Analizador.Folder
import Analizador.Folding
import Analizador.Grammar
import Analizador.Graph
import Analizador.Graph.Outline
import Analizador.Grid
import Analizador.Gutter
import Analizador.Highlight
import Analizador.Identifier
import Analizador.Judgement
import Analizador.Main
import Analizador.Moment
import Analizador.Number.Double
import Analizador.Number.Numeral
import Analizador.Number.Shortest
import Analizador.Operator
import Analizador.Outline
import Analizador.Output
import Analizador.Program
import Analizador.Program.Nodes
import Analizador.Program.Outline
import Analizador.Program.Reader
import Analizador.Sample
import Analizador.Session
import Analizador.Symbol
import Analizador.Table
import Analizador.Text.Blank
import Analizador.Text.Layout
import Analizador.Text.Printable
import Analizador.Text.Quoted
import Analizador.Text.Utf8
import Analizador.Token
import Analizador.Token.Scan
import Analizador.Traced
import Analizador.Walk
import Analizador.Window
import Analizador.Workshop
import Analizador.Proofs.Grammar
import Analizador.Proofs.Reader.Remainder
import Analizador.Proofs.Numeral
import Analizador.Proofs.Reader.Acceptance
import Analizador.Proofs.Analysis.Simulation
import Analizador.Proofs.Analysis.Typing
import Analizador.Proofs.Analysis.Verdict
import Analizador.Proofs.Printing
import Analizador.Proofs.Reader.Places
import Analizador.Proofs.Reader.RoundTrip
import Analizador.Proofs.Scan.Tiling
import Analizador.Proofs.Reader.Names
import Analizador.Proofs.Analysis.Undeclared
import Analizador.Proofs.Analysis.Moments
import Analizador.Proofs.Analysis.Values
import Analizador.Proofs.Analysis.Kinds
import Analizador.Proofs.Analysis.Lines
import Analizador.Proofs.Scan.Layout
import Analizador.Proofs.Reader.Earliest
import Analizador.Proofs.Analysis.Again
import Analizador.Proofs.Analysis.Entries
import Analizador.Proofs.Analysis.Straight
import Analizador.Proofs.Program.Relocation
import Analizador.Proofs.Reader.Preamble
import Analizador.Proofs.Analysis.Relocation
import Analizador.Proofs.Analysis.Repeated
import Analizador.Proofs.Analysis.Unplaced
import Analizador.Proofs.Scan.Seam
import Analizador.Proofs.Reader.Joining
import Analizador.Proofs.Analysis.Declared
import Analizador.Proofs.Analysis.Joining
import Analizador.Proofs.Analysis.Flattening
import Analizador.Proofs.Table.Flat
import Analizador.Proofs.Table.Scopes
import Analizador.Proofs.Walk
import Analizador.Proofs.Workshop
import Analizador.Proofs.Window
import Analizador.Proofs.Window.Analyses
import Analizador.Proofs.Window.Files
import Analizador.Proofs.Reader.Chains
import Analizador.Proofs.Folding
import Analizador.Proofs.Reader.Shape
import Analizador.Proofs.Walk.Steps
import Analizador.Proofs.Walk.Expressions
import Analizador.Proofs.Analysis.Reported
import Analizador.Proofs.Walk.Outcomes
import Analizador.Proofs.Attribution.Declarations
import Analizador.Proofs.Attribution.Operations
import Analizador.Proofs.Division
import Analizador.Proofs.Number.Reach
import Analizador.Proofs.Number.Shortest
import Analizador.Proofs.Number.Literals
import Analizador.Proofs.Assembly.Literals
import Analizador.Proofs.Identifier
import Analizador.Proofs.Reader.ReadyTokens
import Analizador.Proofs.Outline
import Analizador.Proofs.Program.Outline
import Analizador.Proofs.Program.Views
import Analizador.Proofs.Gutter
import Analizador.Proofs.Workshop.Nesting
import Analizador.Proofs.Assembly.Chains
import Analizador.Proofs.Sample
import Analizador.Proofs.Sample.Analysis
import Analizador.Proofs.Reader.Parses
import Analizador.Proofs.Assembly.Parses
import Analizador.Proofs.Walk.Agreement
