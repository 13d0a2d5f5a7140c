/-! # Double-precision numbers

A double is kept as a sign, a mantissa below `2 ^ 53` and a power of two, so that every operation is
exact integer arithmetic followed by one rounding. The rounding goes to the nearest double, and a
tie goes to the even mantissa. -/

namespace Analizador

/-- A double-precision number. The finite ones stand for `± mantissa * 2 ^ exponent`. -/
inductive Double where
  | finite (negative : Bool) (mantissa : Nat) (exponent : Int)
  | infinite (negative : Bool)
  | undefined
  deriving DecidableEq, Repr, Inhabited

namespace Double

/-- The exponent of the smallest positive double. -/
def leastExponent : Int := -1074

/-- The exponent of the largest finite double. -/
def greatestExponent : Int := 971

/-- Zero with a sign. -/
def zero (negative : Bool) : Double := .finite negative 0 leastExponent

/-- The nearest natural number to `num / den`; a tie goes to the even neighbour. -/
def roundHalfEven (num den : Nat) : Nat :=
  let quotient := num / den
  let remainder := num % den
  if 2 * remainder < den then quotient
  else if den < 2 * remainder then quotient + 1
  else if quotient % 2 = 0 then quotient else quotient + 1

/-- Numerator and denominator of `num / den / 2 ^ exponent`. -/
def scale (num den : Nat) (exponent : Int) : Nat × Nat :=
  match exponent with
  | .ofNat k => (num, den * Nat.pow 2 k)
  | .negSucc k => (num * Nat.pow 2 (k + 1), den)

/-- The exponent at which the mantissa of the positive ratio `num / den` has 53 bits. -/
def unitExponent (num den : Nat) : Int :=
  let guess : Int := (num.log2 : Int) - (den.log2 : Int) - 52
  let (n, d) := scale num den guess
  if n < Nat.pow 2 52 * d then guess - 1 else guess

/-- The double nearest to `± num / den`. -/
def ofRatio (negative : Bool) (num den : Nat) : Double :=
  if num = 0 then zero negative
  else
    let exponent := max leastExponent (unitExponent num den)
    let (n, d) := scale num den exponent
    let mantissa := roundHalfEven n d
    let (mantissa, exponent) :=
      if mantissa = Nat.pow 2 53 then (Nat.pow 2 52, exponent + 1) else (mantissa, exponent)
    if greatestExponent < exponent then .infinite negative
    else .finite negative mantissa exponent

/-- The double nearest to `± mantissa * 2 ^ exponent`, for a mantissa of any size. -/
def ofScaled (negative : Bool) (mantissa : Nat) (exponent : Int) : Double :=
  match exponent with
  | .ofNat k => ofRatio negative (mantissa * Nat.pow 2 k) 1
  | .negSucc k => ofRatio negative mantissa (Nat.pow 2 (k + 1))

/-- The double nearest to an integer, infinite when the integer is out of range. -/
def ofInt (n : Int) : Double := ofRatio (n < 0) n.natAbs 1

/-- An integer with a sign given apart. -/
def signed (negative : Bool) (n : Nat) : Int := if negative then -(n : Int) else n

/-- Whether a double is one of the two zeros. -/
def isZero : Double → Bool
  | .finite _ mantissa _ => mantissa == 0
  | _ => false

/-- The sum of two doubles. Opposite infinities have none, and an exact zero is positive unless both
summands are negative. -/
def add : Double → Double → Double
  | .undefined, _ => .undefined
  | _, .undefined => .undefined
  | .infinite s, .infinite t => if s = t then .infinite s else .undefined
  | .infinite s, _ => .infinite s
  | _, .infinite t => .infinite t
  | .finite s m e, .finite t n f =>
    let low := min e f
    let total := signed s (m * Nat.pow 2 (e - low).toNat) + signed t (n * Nat.pow 2 (f - low).toNat)
    if total = 0 then zero (s && t) else ofScaled (total < 0) total.natAbs low

/-- A double with its sign turned. -/
def neg : Double → Double
  | .finite s m e => .finite (!s) m e
  | .infinite s => .infinite (!s)
  | .undefined => .undefined

/-- The difference of two doubles. -/
def sub (x y : Double) : Double := add x (neg y)

/-- The product of two doubles. A zero times an infinity has none. -/
def mul : Double → Double → Double
  | .undefined, _ => .undefined
  | _, .undefined => .undefined
  | .infinite s, .infinite t => .infinite (s != t)
  | .infinite s, .finite t n _ => if n = 0 then .undefined else .infinite (s != t)
  | .finite s m _, .infinite t => if m = 0 then .undefined else .infinite (s != t)
  | .finite s m e, .finite t n f => ofScaled (s != t) (m * n) (e + f)

/-- The quotient of two doubles. -/
def div : Double → Double → Double
  | .undefined, _ => .undefined
  | _, .undefined => .undefined
  | .infinite _, .infinite _ => .undefined
  | .infinite s, .finite t _ _ => .infinite (s != t)
  | .finite s _ _, .infinite t => zero (s != t)
  | .finite s m e, .finite t n f =>
    if n = 0 then (if m = 0 then .undefined else .infinite (s != t))
    else
      let (num, den) := scale m n (f - e)
      ofRatio (s != t) num den

/-- The order of `m * 2 ^ e` and `n * 2 ^ f`. -/
def compareScaled (m : Int) (e : Int) (n : Int) (f : Int) : Ordering :=
  let low := min e f
  compare (m * (Nat.pow 2 (e - low).toNat : Nat)) (n * (Nat.pow 2 (f - low).toNat : Nat))

/-- The order of two doubles, if they have one. -/
def compare? : Double → Double → Option Ordering
  | .undefined, _ => none
  | _, .undefined => none
  | .infinite s, .infinite t => some (compare t s)
  | .infinite s, _ => some (if s then .lt else .gt)
  | _, .infinite t => some (if t then .gt else .lt)
  | .finite s m e, .finite t n f => some (compareScaled (signed s m) e (signed t n) f)

/-- The order of an integer and a double, taken exactly and without rounding the integer. -/
def compareInt? (k : Int) : Double → Option Ordering
  | .undefined => none
  | .infinite t => some (if t then .gt else .lt)
  | .finite t n f => some (compareScaled k 0 (signed t n) f)

/-- The integer part of a finite double, cut toward zero. -/
def truncate? : Double → Option Int
  | .finite s m e => some (signed s (match e with
      | .ofNat k => m * Nat.pow 2 k
      | .negSucc k => m / Nat.pow 2 (k + 1)))
  | _ => none

/-- The integer nearest to a finite double, a tie going to the even neighbour; zero for the others.
-/
def nearest : Double → Int
  | .finite s m e => signed s (match e with
      | .ofNat k => m * Nat.pow 2 k
      | .negSucc k => roundHalfEven m (Nat.pow 2 (k + 1)))
  | _ => 0

end Double

end Analizador
