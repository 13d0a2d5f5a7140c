import Analizador.Number.Double

/-! # The shortest decimal text of a double

Among the decimals that read back as a given double, the one with the fewest digits is written, and
of those the nearest. `Double.Layout` holds the decisions on how such digits are set out. -/

namespace Analizador

/-- A positive decimal: `digits * 10 ^ exponent`. -/
structure Decimal where
  digits : Nat
  exponent : Int
  deriving DecidableEq, Repr

namespace Decimal

/-- Numerator and denominator of `num / den / 10 ^ exponent`. -/
def scale (num den : Nat) (exponent : Int) : Nat × Nat :=
  match exponent with
  | .ofNat k => (num, den * Nat.pow 10 k)
  | .negSucc k => (num * Nat.pow 10 (k + 1), den)

/-- The greatest power of ten not above the positive ratio `num / den`. -/
def magnitude (num den : Nat) : Int :=
  let bits : Int := (num.log2 : Int) - (den.log2 : Int)
  let guess := bits * 1233 / 4096
  let (n, d) := scale num den guess
  if n < d then
    let (n, d) := scale num den (guess - 1)
    if n < d then guess - 2 else guess - 1
  else if 10 * d ≤ n then guess + 1
  else guess

/-- Drops trailing zeros, at most `fuel` of them. -/
def trim (fuel : Nat) (d : Decimal) : Decimal :=
  match fuel with
  | 0 => d
  | fuel + 1 =>
    if d.digits ≠ 0 ∧ d.digits % 10 = 0 then trim fuel ⟨d.digits / 10, d.exponent + 1⟩ else d

end Decimal

namespace Double

/-- The decimals with `places` digits next to `num / den`, whose greatest power of ten is `top`,
that lie between `low / den` and `high / den`; the nearest of them. -/
def nearest? (places : Nat) (top : Int) (num low high den : Nat) (closed : Bool) : Option Decimal :=
  let exponent := top - places + 1
  let (n, d) := Decimal.scale num den exponent
  let (l, _) := Decimal.scale low den exponent
  let (h, _) := Decimal.scale high den exponent
  let below := n / d
  let above := below + 1
  let inside (k : Nat) : Bool :=
    if closed then l ≤ k * d && k * d ≤ h else l < k * d && k * d < h
  let gapBelow := n - below * d
  let gapAbove := above * d - n
  match inside below, inside above with
  | true, true =>
    if gapBelow < gapAbove then some ⟨below, exponent⟩
    else if gapAbove < gapBelow then some ⟨above, exponent⟩
    else some ⟨if below % 2 = 0 then below else above, exponent⟩
  | true, false => some ⟨below, exponent⟩
  | false, true => some ⟨above, exponent⟩
  | false, false => none

/-- The first hit among the grids with `places`, `places + 1`, … digits. -/
def firstHit (fuel places : Nat) (top : Int) (num low high den : Nat) (closed : Bool) : Decimal :=
  match fuel with
  | 0 => ⟨num / den, 0⟩
  | fuel + 1 =>
    match nearest? places top num low high den closed with
    | some d => d
    | none => firstHit fuel (places + 1) top num low high den closed

/-- The shortest decimal that reads back as `mantissa * 2 ^ exponent`, for a positive mantissa. The
reals that round to the double reach half a unit up and half a unit down, a quarter below a power of
two. -/
def shortest (mantissa : Nat) (exponent : Int) : Decimal :=
  let narrow := mantissa = Nat.pow 2 52 ∧ leastExponent < exponent
  let value := 4 * mantissa
  let low := if narrow then value - 1 else value - 2
  let high := value + 2
  let unit := exponent - 2
  let (num, den) := scale value 1 (-unit)
  let (lowNum, _) := scale low 1 (-unit)
  let (highNum, _) := scale high 1 (-unit)
  let found := firstHit 17 1 (Decimal.magnitude num den) num lowNum highNum den (mantissa % 2 = 0)
  found.trim 20

/-- How the digits of a number are set out. -/
structure Layout where
  /-- The least power of ten of a number written without an exponent. -/
  leastPlain : Int
  /-- The first power of ten from which an exponent is written. -/
  firstExponent : Int
  /-- The least count of exponent digits. -/
  exponentDigits : Nat

/-- Numbers from `0.0001` up to `10 ^ 16` are plain and always have a point; an exponent has a sign
and two digits or more. -/
def layout : Layout := ⟨-4, 16, 2⟩

/-- Sets out positive digits by a layout. -/
def Layout.write (l : Layout) (d : Decimal) : String :=
  let text := toString d.digits
  let chars := text.toList
  let top : Int := d.exponent + chars.length - 1
  if l.leastPlain ≤ top ∧ top < l.firstExponent then
    if 0 ≤ d.exponent then text ++ String.ofList (List.replicate d.exponent.toNat '0') ++ ".0"
    else if 0 ≤ top then
      String.ofList (chars.take (top.toNat + 1)) ++ "." ++
        String.ofList (chars.drop (top.toNat + 1))
    else "0." ++ String.ofList (List.replicate (-top - 1).toNat '0') ++ text
  else
    let front := match chars with
      | [c] => String.ofList [c]
      | c :: rest => String.ofList (c :: '.' :: rest)
      | [] => ""
    let size := toString top.natAbs
    let padding := String.ofList (List.replicate (l.exponentDigits - size.length) '0')
    front ++ "e" ++ (if top < 0 then "-" else "+") ++ padding ++ size

/-- The text of a double. -/
def toText : Double → String
  | .undefined => "nan"
  | .infinite s => if s then "-inf" else "inf"
  | .finite s m e =>
    let body := if m = 0 then "0.0" else layout.write (shortest m e)
    if s then "-" ++ body else body

end Double

end Analizador
