import Analizador.Program
import Analizador.Table

/-! # Symbols

The entries of the symbol tables: those of analysed programs, and the looser records in which every
attribute may hold any datum. The lines that a table logs are the same for both. -/

namespace Analizador

/-- A variable of a program. -/
structure Symbol where
  name : String
  ty : Ty
  value : Option Constant
  spot : Spot
  deriving DecidableEq, Repr, Inhabited

/-- A record of a symbol table whose attributes may hold any datum. -/
structure Record where
  name : Datum
  ty : Datum
  value : Datum
  line : Datum
  column : Datum
  deriving Repr, Inhabited

/-- An optional constant as a datum. -/
def Datum.ofConstant? : Option Constant → Datum
  | some c => .constant c
  | Option.none => .none

/-- The record of a variable. -/
def Symbol.toRecord (s : Symbol) : Record :=
  ⟨.ofText s.name, .ofText s.ty.name, .ofConstant? s.value, .ofInt s.spot.line,
    .ofInt s.spot.column⟩

namespace Record

/-- The text of a record. -/
def render (r : Record) : Except Failure String := do
  return s!"Symbol(name='{← r.name.render}', type='{← r.ty.render}', value={← r.value.render})"

/-- The line logged when a name is bound. -/
def insertedLine (name ty value : Datum) : Except Failure String := do
  return s!"[SymbolTable] Insertado símbolo: {← name.render}, tipo: {← ty.render}, " ++
    s!"valor: {← value.render}"

/-- The line logged when an entry is changed. -/
def updatedLine (name old new : Datum) : Except Failure String := do
  return s!"[SymbolTable] Actualizado símbolo: {← name.render}, valor anterior: {← old.render}, " ++
    s!"valor nuevo: {← new.render}"

/-- The line logged for an entry when all are asked for. -/
def listedLine (name ty value : Datum) : Except Failure String := do
  return s!"[SymbolTable] - {← name.render}: tipo={← ty.render}, valor={← value.render}"

/-- The line logged before all entries are given. -/
def listingLine (count : Nat) : String := s!"[SymbolTable] Obteniendo todos los símbolos: {count}"

end Record

end Analizador
