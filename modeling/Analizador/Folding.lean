import Analizador.Constant
import Analizador.Traced

/-! # Folding constants

The value of an operation whose operands are known, together with the lines that the calculation
logs. An operation holds its result before the result is shown. One that cannot be shown is given up
again. -/

namespace Analizador

/-- The outcome of a calculation: the new value of the operation, unless it keeps the one it had,
and the lines logged. A new value of none means that the calculation failed. -/
structure Folding where
  value : Option (Option Constant)
  lines : List String
  deriving DecidableEq, Repr, Inhabited

namespace Folding

/-- The title of an arithmetic result in the log. -/
def title : Operator → String
  | .add => "Suma calculada"
  | .sub => "Resta calculada"
  | .mul => "Multiplicación calculada"
  | _ => "División calculada"

/-- The line that shows an arithmetic result. -/
def resultLine (op : Operator) (a b result : Constant) : Except Failure String := do
  return s!"  {title op}: {← a.render} {op.sign} {← b.render} = {← result.render}"

/-- The line logged when a difference is not equal to itself. -/
def doubtLine (result : Constant) : Except Failure String := do
  let shown ← result.render
  return s!"  ERROR: El valor calculado ({shown}) no coincide con la resta real ({shown})"

/-- A calculation. It may fail, and it tells which values the operation holds on the way. -/
abbrev Calculation := ExceptT Failure (Traced Constant)

/-- Lets the operation hold a value. -/
def hold (c : Constant) : Calculation Unit := liftM (Traced.put c)

/-- Calculates; `whole` says that both operands have the integer type, in which case a quotient
without a fraction becomes an integer. A division by zero is not attempted. -/
def calculation (op : Operator) (whole : Bool) (a b : Constant) : Calculation Folding :=
  match op with
  | .add | .mul => do
    let result ← Constant.apply op a b
    hold result
    return ⟨some (some result), [← resultLine op a b result]⟩
  | .sub => do
    let result ← Constant.apply op a b
    hold result
    let line ← resultLine op a b result
    if result.equal result then return ⟨some (some result), [line]⟩
    else
      let doubt ← doubtLine result
      hold result
      return ⟨some (some result), [line, doubt]⟩
  | .div =>
    if b.isZero then return ⟨none, []⟩
    else do
      let quotient ← Constant.quotient a b
      hold quotient
      let result ← if whole then quotient.settled else pure quotient
      hold result
      return ⟨some (some result), [← resultLine op a b result]⟩
  | op => do
    let result ← Constant.apply op a b
    hold result
    return ⟨some (some result), []⟩

/-- What a calculation comes to. -/
def attempt (op : Operator) (whole : Bool) (a b : Constant) : Except Failure Folding :=
  (calculation op whole a b).run.value

/-- The values that an operation holds while it is calculated, one after the other. -/
def trials (op : Operator) (whole : Bool) (a b : Constant) : List Constant :=
  (calculation op whole a b).run.trace

/-- The line logged when a calculation fails. -/
def failureLine (sign : String) (f : Failure) : String :=
  s!"  Error al calcular valor para operación '{sign}': {f.message}"

/-- Folds an operation; a failure leaves no value. -/
def ofOperation (op : Operator) (whole : Bool) (a b : Constant) : Folding :=
  match attempt op whole a b with
  | .ok f => f
  | .error f => ⟨some none, [failureLine op.sign f]⟩

end Folding

end Analizador
