import Analizador.Number.Numeral
import Analizador.Number.Shortest
import Analizador.Operator

/-! # Constants

The values that the analysis can know: integers of any size, doubles, texts and truth values, with
their arithmetic. A truth value counts as the integer zero or one. -/

namespace Analizador

/-- A known value. -/
inductive Constant where
  | integer (n : Int)
  | decimal (d : Double)
  | text (s : String)
  | truth (b : Bool)
  deriving DecidableEq, Repr, Inhabited

namespace Constant

/-- The printed name of the kind of a constant. -/
def kind : Constant → String
  | integer _ => "int"
  | decimal _ => "float"
  | text _ => "str"
  | truth _ => "bool"

/-- The text of an integer; it has at most `Numeral.digitLimit` digits. -/
def integerText (n : Int) : Except Failure String :=
  if Nat.pow 10 Numeral.digitLimit ≤ n.natAbs then .error .longInteger else .ok (toString n)

/-- The text of a truth value. -/
def truthText (b : Bool) : String := if b then "True" else "False"

/-- The text of a constant. -/
def render : Constant → Except Failure String
  | integer n => integerText n
  | decimal d => .ok d.toText
  | text s => .ok s
  | truth b => .ok (truthText b)

/-- Whether a constant counts as true: zeros, the empty text and the false value do not. -/
def isTrue : Constant → Bool
  | integer n => n != 0
  | decimal d => !d.isZero
  | text s => s != ""
  | truth b => b

/-- A number: a whole one of any size, or a double. -/
inductive Number where
  | whole (n : Int)
  | real (d : Double)
  deriving DecidableEq, Repr, Inhabited

/-- A number as a constant. -/
def Number.toConstant : Number → Constant
  | .whole n => integer n
  | .real d => decimal d

/-- A constant as a number. -/
def number? : Constant → Option Number
  | integer n => some (.whole n)
  | decimal d => some (.real d)
  | truth b => some (.whole (if b then 1 else 0))
  | text _ => none

/-- An integer as a double, refused when it is out of range. -/
def toDouble (n : Int) : Except Failure Double :=
  match Double.ofInt n with
  | .infinite _ => .error .integerTooLarge
  | d => .ok d

/-- A number as a double. -/
def Number.toDouble : Number → Except Failure Double
  | .whole n => Constant.toDouble n
  | .real d => .ok d

/-- Applies an operation to two numbers: exactly to integers, else on doubles. -/
def arithmetic (whole : Int → Int → Int) (real : Double → Double → Double) (a b : Number) :
    Except Failure Constant :=
  match a, b with
  | .whole m, .whole n => .ok (integer (whole m n))
  | a, b => do return decimal (real (← a.toDouble) (← b.toDouble))

/-- The sum of two constants; two texts are joined. -/
def add (a b : Constant) : Except Failure Constant :=
  match a.number?, b.number? with
  | some x, some y => arithmetic (· + ·) Double.add x y
  | _, _ =>
    match a, b with
    | text s, text t => .ok (text (s ++ t))
    | text _, b => .error (.concatenation "str" b.kind)
    | a, b => .error (.unsupported "+" a.kind b.kind)

/-- The difference of two constants. -/
def sub (a b : Constant) : Except Failure Constant :=
  match a.number?, b.number? with
  | some x, some y => arithmetic (· - ·) Double.sub x y
  | _, _ => .error (.unsupported "-" a.kind b.kind)

/-- The most characters a repeated text may have. -/
def memoryLimit : Nat := Nat.pow 2 36

/-- The bound on counts of repetitions, either way, and on the sizes they ask for. -/
def repetitionLimit : Nat := Nat.pow 2 63

/-- A text repeated; a count below one gives the empty text. -/
def repeated (s : String) (count : Int) : Except Failure Constant :=
  if count < -(repetitionLimit : Int) ∨ (repetitionLimit : Int) ≤ count then .error .repetitionCount
  else
    let size := s.toList.length * count.toNat
    if repetitionLimit ≤ size then .error .repetitionLength
    else if memoryLimit < size then .error .outOfMemory
    else .ok (text (String.join (List.replicate count.toNat s)))

/-- The product of two constants; a text times an integer is repeated. -/
def mul (a b : Constant) : Except Failure Constant :=
  match a.number?, b.number? with
  | some x, some y => arithmetic (· * ·) Double.mul x y
  | x, y =>
    match a, b with
    | text s, b => match y with
      | some (.whole n) => repeated s n
      | _ => .error (.repetition b.kind)
    | a, text s => match x with
      | some (.whole n) => repeated s n
      | _ => .error (.repetition a.kind)
    | a, b => .error (.unsupported "*" a.kind b.kind)

/-- The quotient of two constants, the divisor not zero. The quotient of two integers is the double
nearest to the exact one. -/
def quotient (a b : Constant) : Except Failure Constant :=
  match a.number?, b.number? with
  | some (.whole m), some (.whole n) =>
    match Double.ofRatio ((m < 0) != (n < 0)) m.natAbs n.natAbs with
    | .infinite _ => .error .quotientTooLarge
    | d => .ok (decimal d)
  | some x, some y => do return decimal ((← x.toDouble).div (← y.toDouble))
  | _, _ => .error (.unsupported "/" a.kind b.kind)

/-- The order of two numbers, if they have one; integers and doubles are compared exactly. -/
def Number.compare? : Number → Number → Option Ordering
  | .whole m, .whole n => some (compare m n)
  | .whole m, .real d => Double.compareInt? m d
  | .real d, .whole n => (Double.compareInt? n d).map Ordering.swap
  | .real d, .real e => Double.compare? d e

/-- Whether two constants are equal. A text equals no number. -/
def equal (a b : Constant) : Bool :=
  match a.number?, b.number? with
  | some x, some y => x.compare? y == some .eq
  | _, _ => match a, b with
    | text s, text t => s == t
    | _, _ => false

/-- Whether a constant is a zero. -/
def isZero (a : Constant) : Bool := a.equal (integer 0)

/-- The order of two lists of characters by code points. -/
def compareChars : List Char → List Char → Ordering
  | [], [] => .eq
  | [], _ :: _ => .lt
  | _ :: _, [] => .gt
  | c :: cs, d :: ds =>
    if c.toNat < d.toNat then .lt else if d.toNat < c.toNat then .gt else compareChars cs ds

/-- Whether two constants stand in an order that `holds` accepts; the undefined number stands in
none. -/
def ordered (sign : String) (holds : Ordering → Bool) (a b : Constant) : Except Failure Bool :=
  match a.number?, b.number? with
  | some x, some y => .ok ((x.compare? y).any holds)
  | _, _ => match a, b with
    | text s, text t => .ok (holds (compareChars s.toList t.toList))
    | a, b => .error (.unordered sign a.kind b.kind)

/-- Applies an operator other than division. -/
def apply (op : Operator) (a b : Constant) : Except Failure Constant :=
  match op with
  | .add => add a b
  | .sub => sub a b
  | .mul => mul a b
  | .div => quotient a b
  | .eq => .ok (truth (equal a b))
  | .ne => .ok (truth (!equal a b))
  | .gt => do return truth (← ordered op.sign (· == .gt) a b)
  | .lt => do return truth (← ordered op.sign (· == .lt) a b)
  | .ge => do return truth (← ordered op.sign (· != .lt) a b)
  | .le => do return truth (← ordered op.sign (· != .gt) a b)
  | .both => .ok (if a.isTrue then b else a)
  | .either => .ok (if a.isTrue then a else b)

/-- The integer part of a constant number. -/
def truncate : Constant → Except Failure Constant
  | decimal d =>
    match d with
    | .infinite _ => .error .infiniteInteger
    | .undefined => .error .undefinedInteger
    | d => .ok (integer (d.truncate?.getD 0))
  | c => .ok c

/-- A quotient brought back to an integer when it is one. -/
def settled (c : Constant) : Except Failure Constant := do
  let whole ← c.truncate
  return if c.equal whole then whole else c

end Constant

end Analizador
