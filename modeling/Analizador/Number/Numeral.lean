import Analizador.Failure
import Analizador.Number.Double
import Analizador.Text.Blank

/-! # Reading numbers

Integers and decimals as texts: blanks around, a sign, digits of any script with single underscores
between them. An integer of more than `digitLimit` digits is refused. -/

namespace Analizador.Numeral

/-- The greatest number of digits an integer may be read from or written with. -/
def digitLimit : Nat := 4300

/-- A text without the blanks around it. -/
def trimmed (s : String) : List Char :=
  ((s.toList.dropWhile Text.isNumeralBlank).reverse.dropWhile Text.isNumeralBlank).reverse

/-- Splits off a sign. -/
def sign : List Char → Bool × List Char
  | '-' :: rest => (true, rest)
  | '+' :: rest => (false, rest)
  | cs => (false, cs)

/-- Reads digits with single underscores between them, and gives back what follows. An underscore
that is not between two digits stays unread. -/
def digits : List Char → List Nat × List Char
  | [] => ([], [])
  | [c] => match Text.digitValue? c with
    | some d => ([d], [])
    | none => ([], [c])
  | c :: c' :: rest => match Text.digitValue? c with
    | none => ([], c :: c' :: rest)
    | some d =>
      if c' = '_' then
        match rest with
        | e :: _ =>
          if (Text.digitValue? e).isSome then
            let (ds, tail) := digits rest
            (d :: ds, tail)
          else ([d], c' :: rest)
        | [] => ([d], c' :: rest)
      else
        let (ds, tail) := digits (c' :: rest)
        (d :: ds, tail)

/-- The number written by a list of digits. -/
def ofDigits (ds : List Nat) : Nat := ds.foldl (fun n d => 10 * n + d) 0

/-- Reads an integer. -/
def readInteger (s : String) : Except Failure Int :=
  let (negative, cs) := sign (trimmed s)
  match digits cs with
  | ([], _) => .error (.badInteger s)
  | (ds, []) =>
    if digitLimit < ds.length then .error (.longNumeral ds.length)
    else .ok (Double.signed negative (ofDigits ds))
  | (_, _ :: _) => .error (.badInteger s)

/-- The double nearest to `± n * 10 ^ exponent`, for a number `n` of `places` digits, the first of
which is not zero. -/
def decimalValue (negative : Bool) (n places : Nat) (exponent : Int) : Double :=
  if n = 0 then .zero negative
  else if 400 < places + exponent then .infinite negative
  else if places + exponent < -400 then .zero negative
  else match exponent with
    | .ofNat k => .ofRatio negative (n * Nat.pow 10 k) 1
    | .negSucc k => .ofRatio negative n (Nat.pow 10 (k + 1))

/-- Reads the exponent of a decimal; the whole rest has to be read. -/
def exponent? : List Char → Option Int
  | [] => some 0
  | c :: rest =>
    if c = 'e' || c = 'E' then
      let (negative, cs) := sign rest
      match digits cs with
      | (d :: ds, []) => some (Double.signed negative (ofDigits (d :: ds)))
      | _ => none
    else none

/-- Reads the unsigned part of a decimal. -/
def magnitude? (negative : Bool) (cs : List Char) : Option Double :=
  let name := String.ofList (cs.map Char.toLower)
  if name = "inf" || name = "infinity" then some (.infinite negative)
  else if name = "nan" then some .undefined
  else
    let (whole, rest) := digits cs
    let (fraction, rest) := match rest with
      | '.' :: tail => digits tail
      | _ => ([], rest)
    if whole.isEmpty && fraction.isEmpty then none
    else do
      let exponent ← exponent? rest
      let ds := (whole ++ fraction).dropWhile (· == 0)
      return decimalValue negative (ofDigits ds) ds.length (exponent - fraction.length)

/-- Reads a decimal. -/
def readDecimal (s : String) : Except Failure Double :=
  let (negative, cs) := sign (trimmed s)
  match magnitude? negative cs with
  | some d => .ok d
  | none => .error (.badDecimal s)

end Analizador.Numeral
