import Workflow.Decimal.Binary

/-!
# Reading decimals

There are two ways to a float from the digits of a number. `nearestFloat` rounds the decimal once,
correctly. `scaledFloat` starts from a significand of sixty-four bits and rounds after each step on
the way, as a reader that wants to be fast does. Whole numbers are read as they are, if the type
that they are read for has them.
-/

namespace Workflow

/-- The value of a string of decimal digits. -/
def digitsValue (cs : List Char) : Nat := cs.foldl (fun n c => 10 * n + (c.toNat - '0'.toNat)) 0

/-- The float nearest to `digits · 10 ^ exponent`. Far outside the range of floats the answer is
known without the power. -/
def nearestFloat (digits : Nat) (exponent : Int) : Float :=
  let size := ((Nat.toDigits 10 digits).length : Int) + exponent
  if digits = 0 || size < -400 then Float.ofBits 0
  else if 400 < size then Float.ofBits 0x7FF0000000000000
  else Float.ofScientific digits (exponent < 0) exponent.natAbs

/-- `10 ^ k` as a float. -/
private def tenTo (k : Nat) : Float := Float.ofScientific 1 false k

/-- `significand · 10 ^ exponent` by one multiplication or by divisions, each rounded. A power
beyond the range of floats is taken in steps of `10 ^ 308`; `fuel` bounds those steps. An overflow
is refused. -/
def scaledBy (fuel : Nat) (x : Float) (exponent : Int) : Option Float :=
  match fuel with
  | 0 => some x
  | fuel + 1 =>
    if exponent.natAbs ≤ 308 then
      if 0 ≤ exponent then
        let y := x * tenTo exponent.natAbs
        if isFiniteFloat y then some y else none
      else some (x / tenTo exponent.natAbs)
    else if x == 0 then some x
    else if 0 ≤ exponent then none
    else scaledBy fuel (x / tenTo 308) (exponent + 308)

/-- The float of a significand and a power of ten, in the fast way. Four divisions by `10 ^ 308`
bring any significand to zero. -/
def scaledFloat (significand : UInt64) (exponent : Int) : Option Float :=
  scaledBy 5 significand.toFloat exponent

/-! ## Whole numbers in text

How people write whole numbers where nothing else can stand: decimal digits, perhaps behind a sign.
Leading zeros are allowed, blanks and separators are not. A minus needs a type that has negative
numbers, even before a zero. -/

/-- The number that decimal digits stand for. There is at least one digit and nothing else. -/
def digitsNumber? (cs : List Char) : Option Nat :=
  if cs ≠ [] ∧ cs.all Char.isDigit then some (digitsValue cs) else none

/-- The number without a minus that a text stands for. -/
def wholeNumber? (s : String) : Option Nat :=
  match s.toList with
  | '+' :: cs => digitsNumber? cs
  | cs => digitsNumber? cs

/-- The number that a text stands for. -/
def signedNumber? (s : String) : Option Int :=
  match s.toList with
  | '-' :: cs => (digitsNumber? cs).map fun n => -(n : Int)
  | '+' :: cs => (digitsNumber? cs).map fun n => (n : Int)
  | cs => (digitsNumber? cs).map fun n => (n : Int)

/-- A text as an unsigned number of thirty-two bits, if it fits. -/
def uint32Text? (s : String) : Option UInt32 :=
  (wholeNumber? s).bind fun n => if n < UInt32.size then some (UInt32.ofNat n) else none

/-- A text as an unsigned number of sixty-four bits, if it fits. -/
def uint64Text? (s : String) : Option UInt64 :=
  (wholeNumber? s).bind fun n => if n < UInt64.size then some (UInt64.ofNat n) else none

/-- A text as a signed number of sixty-four bits, if it fits. -/
def int64Text? (s : String) : Option Int64 :=
  (signedNumber? s).bind fun i =>
    if -0x8000000000000000 ≤ i ∧ i < 0x8000000000000000 then some (Int64.ofInt i) else none

end Workflow
