/-! # Sample programs

Programs of any size, made of units that use every construct of the language, with or without
faults. -/

namespace Analizador.Sample

/-- The lines of a unit without faults. Its variables carry its number. -/
def plainLines (i : Nat) : List String := [
  s!"ent a{i}, b{i}, c{i};",
  s!"dec d{i};",
  s!"cadena s{i};",
  s!"a{i} = 5;",
  s!"b{i} = 3;",
  s!"d{i} = 2.5;",
  s!"s{i} = \"hola\";",
  s!"c{i} = a{i} + b{i};",
  s!"c{i} = a{i} - b{i};",
  s!"c{i} = a{i} * b{i};",
  s!"c{i} = (a{i}) / b{i};",
  s!"d{i} = d{i} + 1.0;",
  s!"sout(c{i});",
  "sout(\"texto\");",
  s!"scan(a{i});",
  s!"si (a{i} == b{i}) \x7b sout(a{i}); \x7d oNo \x7b sout(b{i}); \x7d",
  s!"si (a{i} != b{i}) \x7b c{i} = 1; \x7d",
  s!"si (a{i} >= b{i}) \x7b c{i} = 2; \x7d",
  s!"si (a{i} <= b{i}) \x7b c{i} = 3; \x7d",
  s!"si (a{i} < b{i}) \x7b c{i} = 4; \x7d",
  s!"mientras (a{i} > b{i}) \x7b a{i} = a{i} - 1; \x7d",
  s!"repetir (3) \x7b sout(s{i}); \x7d"]

/-- The lines of a unit with faults. -/
def faultyLines (j : Nat) : List String := [
  s!"ent e{j};",
  s!"ent e{j};",
  s!"e{j} = \"bad\";",
  s!"nf{j} = 1;",
  s!"si (e{j}) \x7b sout(e{j}); \x7d",
  s!"mientras (e{j}) \x7b sout(e{j}); \x7d",
  s!"scan(zz{j});"]

/-- Lines as a text in which every line is ended. -/
def textOf (lines : List String) : String := String.join (lines.map (· ++ "\n"))

/-- How many faulty units go with a number of plain ones. -/
def faultyUnits (units : Nat) : Nat := max 1 (units / 4)

/-- A program of some plain units. -/
def plain (units : Nat) : String := textOf ((List.range units).flatMap plainLines)

/-- Some faulty units. -/
def faulty (units : Nat) : String := textOf ((List.range units).flatMap faultyLines)

/-- A program of some plain units, followed by faulty ones if asked; there is always one of these.
-/
def program (units : Nat) (faults : Bool) : String :=
  plain units ++ if faults then faulty (faultyUnits units) else ""

end Analizador.Sample
