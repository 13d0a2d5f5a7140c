import Analizador.Diagnostic
import Analizador.Program

/-! # Faults of programs

What the analysis of a program can find wrong, by cause, and the diagnostic that reports it. -/

namespace Analizador

/-- The statements whose condition has to be a truth value. -/
inductive Guard where
  | si
  | mientras
  deriving DecidableEq, Repr, Inhabited

/-- The keyword of a guarded statement. -/
def Guard.word : Guard → String
  | si => "si"
  | mientras => "mientras"

/-- A fault of a program. -/
inductive Fault where
  /-- A variable is used and not declared. -/
  | undeclared (name : String) (spot : Spot)
  /-- A variable is declared again. -/
  | redeclared (name : String) (spot : Spot)
  /-- An operator is not defined on the types of its operands. -/
  | operands (op : Operator) (left right : Ty)
  /-- A value cannot be assigned to a variable of another type. -/
  | assignment (target source : Ty)
  /-- A condition is no truth value. -/
  | condition (guard : Guard) (found : Ty) (spot : Option Spot)
  deriving DecidableEq, Repr, Inhabited

namespace Fault

/-- The wording of an operator that does not fit its operands. -/
def operandMessage (op : Operator) (left right : String) : String :=
  match op.family with
  | .logical => s!"Operador '{op.sign}' requiere operandos booleanos"
  | _ => s!"Operador '{op.sign}' no puede aplicarse a tipos '{left}' y '{right}'"

/-- What an operator expects of its operands. -/
def operandExpectation (op : Operator) : String :=
  match op.family with
  | .arithmetic => "tipos numéricos compatibles"
  | .relational => "tipos compatibles"
  | .logical => "bool"

/-- The wording of an assignment between types that do not fit. -/
def assignmentMessage (target source : String) : String :=
  s!"Tipos incompatibles en asignación: '{target}' y '{source}'"

/-- The wording of a condition that is no truth value. -/
def conditionMessage (guard : Guard) : String :=
  s!"La condición del '{guard.word}' debe ser booleana"

/-- The diagnostic of a fault. -/
def diagnostic : Fault → Diagnostic
  | undeclared name spot =>
    ⟨.undeclared, .ofText (Diagnostic.undeclaredMessage name), .ofInt spot.line, .ofInt spot.column⟩
  | redeclared name spot =>
    ⟨.redeclared, .ofText (Diagnostic.redeclaredMessage name), .ofInt spot.line, .ofInt spot.column⟩
  | operands op left right =>
    ⟨.mismatch (.ofText (operandExpectation op)) (.ofText s!"{left.name} y {right.name}"),
      .ofText (operandMessage op left.name right.name), .none, .none⟩
  | assignment target source =>
    ⟨.mismatch (.ofText target.name) (.ofText source.name),
      .ofText (assignmentMessage target.name source.name), .none, .none⟩
  | condition guard found spot =>
    ⟨.mismatch (.ofText "bool") (.ofText found.name), .ofText (conditionMessage guard),
      .ofNat? (spot.map (·.line)), .ofNat? (spot.map (·.column))⟩

end Fault

end Analizador
