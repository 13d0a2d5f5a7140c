import Analizador.Diagnostic
import Analizador.Graph
import Analizador.Symbol

/-! # The workshop

Where assembled nodes are worked on: the graph, a symbol table of loose records, a ledger, the names
declared so far and the log. A step that fails keeps what it had done until then. -/

namespace Analizador

/-- Names in the tables of the workshop may be any datum; those are the same that are equal. -/
instance : BEq Datum := ⟨Datum.same⟩

/-- The state of a workshop. There may be no ledger to report to. -/
structure Workshop where
  graph : Graph
  table : Table Datum Record
  ledger : Option Ledger
  declared : List Datum
  log : List String
  deriving Repr, Inhabited

/-- A step in the workshop. -/
abbrev Work := ExceptT Failure (StateM Workshop)

namespace Workshop

/-- The workshop before the first step. -/
def empty : Workshop := ⟨.empty, .empty, some .empty, [], []⟩

end Workshop

namespace Work

/-- Runs a step. -/
def perform (step : Work α) (w : Workshop) : Except Failure α × Workshop := StateT.run step.run w

/-- Logs a message. -/
def say (message : String) : Work Unit := modify fun w => { w with log := w.log ++ [message] }

/-- Logs a message that may not be printable. -/
def sayText (message : Except Failure String) : Work Unit := do say (← message)

/-- Enters a diagnostic into the ledger. -/
def report (d : Diagnostic) : Work Unit := do
  match (← get).ledger with
  | some l => modify fun w => { w with ledger := some (l.add d) }
  | none => throw (.noAttribute "NoneType" "add_error")

/-- An attribute of a datum, if it is there. -/
def attr? (d : Datum) (name : String) : Work (Option Datum) := do return (← get).graph.attr? d name

/-- Whether a datum has an attribute. -/
def hasAttr (d : Datum) (name : String) : Work Bool := do return (← get).graph.hasAttr d name

/-- An attribute of a datum that has to be there. -/
def attr (d : Datum) (name : String) : Work Datum := do (← get).graph.attr d name

/-- Gives an attribute a new datum. -/
def setAttr (d : Datum) (name : String) (value : Datum) : Work Unit := do
  let graph ← (← get).graph.setAttr d name value
  modify fun w => { w with graph }

/-- Adds a node to the graph. -/
def push (n : Node) : Work Datum := do
  let (d, graph) := (← get).graph.push n
  modify fun w => { w with graph }
  return d

/-- Makes a node without a place. -/
def make (cls : NodeClass) (args : List (String × Datum)) : Work Datum := do
  push (← cls.make (fun name => (args.lookup name).getD .none) .none .none)

/-- Makes an operation node. -/
def makeBinary (op left right : Datum) : Work Datum :=
  make .binary [("operator", op), ("left", left), ("right", right)]

/-- Adds a child to a node: nothing is dropped, and a list is added item by item. -/
def addChild (d child : Datum) : Work Unit := do
  let added := match child with
    | .none => []
    | .list items => items.filter (!·.isNone)
    | child => [child]
  match ← attr d "children" with
  | .list old => setAttr d "children" (.list (old ++ added))
  | other => if added.isEmpty then pure () else throw (.noAttribute other.kind "append")

/-! ## The table of records -/

/-- Opens a scope. -/
def enter : Work Unit := modify fun w => { w with table := w.table.enter }

/-- Closes the innermost scope. -/
def exit : Work Unit := modify fun w => { w with table := w.table.exit }

/-- Binds a name in the innermost scope, unless it is bound there. -/
def insert (r : Record) : Work Bool := do
  r.name.checkKey
  match (← get).table.insert? r.name r with
  | none => return false
  | some table =>
    modify fun w => { w with table }
    sayText (Record.insertedLine r.name r.ty r.value)
    return true

/-- The record of a name. -/
def lookup (name : Datum) : Work (Option Record) := do
  name.checkKey
  return (← get).table.lookup name

/-- All records, which are logged. -/
def listRecords : Work (List Record) := do
  let records := (← get).table.named
  say (Record.listingLine records.length)
  for (name, r) in records do
    sayText (Record.listedLine name r.ty r.value)
  return records.map (·.2)

/-- Why an attribute of a record cannot be given a datum. Every object has the three that are
refused. -/
def refusal? : String × Datum → Option Failure
  | (key, d) =>
    if key = "__class__" then some (.notClass d.kind)
    else if key = "__dict__" then some (.notAttributes d.kind)
    else if key = "__weakref__" then some (.fixedAttribute "Symbol" key)
    else none

/-- The changes before one that is refused. -/
def accepted (changes : List (String × Datum)) : List (String × Datum) :=
  changes.takeWhile fun c => (refusal? c).isNone

/-- Gives attributes of a record new data. Names that are no attributes are passed over; the other
attributes that every object has are shown nowhere. -/
def assignAttrs (changes : List (String × Datum)) (r : Record) : Record :=
  changes.foldl (fun r (name, d) =>
    if name = "type" then { r with ty := d }
    else if name = "value" then { r with value := d }
    else if name = "line" then { r with line := d }
    else if name = "column" then { r with column := d }
    else r) r

/-- Changes the record of a name; says whether there is one. -/
def update (name : Datum) (changes : List (String × Datum)) : Work Bool := do
  match changes.find? (fun (key, _) => key = "name" || key = "self") with
  | some (key, _) => throw (.repeatedArgument key)
  | none =>
    name.checkKey
    let table := (← get).table
    match table.locate? name, table.lookup name with
    | some number, some old =>
      let change := assignAttrs (accepted changes)
      modify fun w => { w with table := w.table.modify number change }
      match changes.findSome? refusal? with
      | some f => throw f
      | none =>
        sayText (Record.updatedLine name old.value (change old).value)
        modify fun w => { w with table := w.table.modifyIndexed name change }
        return true
    | _, _ => return false

end Work

end Analizador
