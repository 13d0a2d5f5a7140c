import Analizador.Symbol

/-! # The symbol grid

The table in which the symbols of an analysis are shown, one row for each. -/

namespace Analizador

/-- How the text of a cell is aligned. -/
inductive Alignment where
  | center
  | right
  deriving DecidableEq, Repr, Inhabited

/-- The code of an alignment. -/
def Alignment.code : Alignment → Nat
  | center => 132
  | right => 2

/-- A cell of the grid. Cells cannot be edited. -/
structure Cell where
  text : Datum
  color : Option String := none
  alignment : Option Alignment := none
  deriving Repr, Inhabited

/-- The flags of a cell: all but the one for editing. -/
def Cell.flags : Nat := 61

/-- A cell that covers several rows and columns. -/
structure Span where
  row : Nat
  column : Nat
  rows : Nat
  columns : Nat
  deriving DecidableEq, Repr, Inhabited

/-- The grid: the number of rows, the spans in the order in which they were made, and the cells by
row and column. -/
structure Grid where
  rows : Nat
  spans : List Span
  cells : List ((Nat × Nat) × Cell)
  /-- How often all spans were removed. -/
  removals : Nat := 0
  deriving Repr, Inhabited

namespace Grid

/-- The titles of the columns. -/
def headers : List String := ["Nombre", "Tipo", "Valor", "Línea", "Columna"]

/-- Puts a cell in its place among cells in order. -/
def putCell (cells : List ((Nat × Nat) × Cell)) (place : Nat × Nat) (cell : Cell) :
    List ((Nat × Nat) × Cell) :=
  match cells with
  | [] => [(place, cell)]
  | (other, old) :: rest =>
    if place = other then (place, cell) :: rest
    else if place.1 < other.1 ∨ (place.1 = other.1 ∧ place.2 < other.2) then
      (place, cell) :: (other, old) :: rest
    else (other, old) :: putCell rest place cell

/-- Sets a cell. -/
def set (g : Grid) (row column : Nat) (cell : Cell) : Grid :=
  { g with cells := putCell g.cells (row, column) cell }

/-- Sets the number of rows; cells below go. -/
def resize (g : Grid) (rows : Nat) : Grid :=
  { g with rows, cells := g.cells.filter (·.1.1 < rows) }

/-- Removes every cell and every row; spans stay. -/
def wipe (g : Grid) : Grid := { g with rows := 0, cells := [] }

/-- One row with a notice across all columns. -/
def notice (g : Grid) (text : String) : Grid :=
  let g := (g.resize 1).set 0 0 ⟨.ofText text, none, some .center⟩
  { g with spans := g.spans ++ [⟨0, 0, 1, headers.length⟩] }

/-- The grid at the start. -/
def start : Grid := notice ⟨0, [], [], 0⟩ "Sin datos"

/-- The colour of a type. -/
def typeColor (ty : Datum) : Option String :=
  if ty.isText Ty.ent.name then some "#9876aa"
  else if ty.isText Ty.dec.name then some "#6897bb"
  else if ty.isText Ty.cadena.name then some "#6a8759"
  else if ty.isText Ty.bool.name then some "#cc7832"
  else none

/-- The colour of a value of a type. -/
def valueColor (ty value : Datum) : Option String :=
  if ty.isText Ty.cadena.name && value.isTrue then some "#6a8759"
  else if (ty.isText Ty.ent.name || ty.isText Ty.dec.name) && !value.isNone then some "#6897bb"
  else none

/-- The text of a datum; nothing has the empty text. -/
def textOrEmpty (d : Datum) : Except Failure Datum :=
  match d with
  | .none => .ok (.ofText "")
  | d => do return .ofText (← d.render)

/-- The cells of a record; a number may have too many digits to be written. -/
def recordCells (r : Record) : List (Except Failure Cell) :=
  [.ok ⟨r.name, none, none⟩,
    .ok ⟨if r.ty.isTrue then r.ty else .ofText "", typeColor r.ty, none⟩,
    (textOrEmpty r.value).map fun text => ⟨text, valueColor r.ty r.value, none⟩,
    (textOrEmpty r.line).map fun text => ⟨text, none, some .center⟩,
    (textOrEmpty r.column).map fun text => ⟨text, none, some .center⟩]

/-- Sets the cells of a row, from a column on, up to one that cannot be written. -/
def setRow (g : Grid) (row column : Nat) : List (Except Failure Cell) → Except Failure Unit × Grid
  | [] => (.ok (), g)
  | .error f :: _ => (.error f, g)
  | .ok cell :: rest => (g.set row column cell).setRow row (column + 1) rest

/-- Sets rows, from one on, up to a cell that cannot be written. -/
def setRows (g : Grid) (row : Nat) : List (List (Except Failure Cell)) → Except Failure Unit × Grid
  | [] => (.ok (), g)
  | cells :: rest =>
    match g.setRow row 0 cells with
    | (.error f, g) => (.error f, g)
    | (.ok (), g) => g.setRows (row + 1) rest

/-- Shows records, or a notice if there are none. If one cannot be shown, what was set before it
stays. -/
def fill (g : Grid) (records : List Record) : Except Failure Unit × Grid :=
  if records.isEmpty then (.ok (), g.notice "No hay símbolos en la tabla")
  else
    let cleared := { g.resize records.length with spans := [], removals := g.removals + 1 }
    cleared.setRows 0 (records.map recordCells)

/-- The grid with records shown in it, if all of them can be shown. -/
def display (g : Grid) (records : List Record) : Except Failure Grid :=
  match g.fill records with
  | (.ok (), g) => .ok g
  | (.error f, _) => .error f

/-- The lines logged when records are shown. -/
def displayLines (records : List Record) : Except Failure (List String) := do
  let each ← records.mapM fun r => do
    return s!"Symbol - Name: {← r.name.render}, Type: {← r.ty.render}"
  return "Debugging Symbol Table:" :: s!"Total number of symbols: {records.length}" :: each

end Grid

end Analizador
