import Workflow.Decimal.Reading
import Workflow.Json.Reader

/-!
# What plain scalars mean

A plain scalar is nothing, a truth value, a number, or text. Integers may be written in base
sixteen, eight or two. Digits behind a leading zero are text, and so is a number too great for a
float. An integer of more than sixty-four bits that still fits one hundred and twenty-eight is
recognised as an integer but is no value of a document.
-/

namespace Workflow

/-- The meaning of a plain scalar. -/
inductive PlainMeaning where
  | null
  | bool (b : Bool)
  | number (n : Number)
  /-- An integer beyond sixty-four bits. -/
  | tooWide
  | text
deriving DecidableEq

/-! ## Integers -/

/-- The value of digits in a base of at most sixteen, if there are any and all of them are digits of
that base. -/
def digitsIn? (base : Nat) (cs : List Char) : Option Nat :=
  if cs = [] then none
  else cs.foldlM (fun n c => (Json.hexDigit? c).bind fun d =>
    if d < base then some (base * n + d) else none) 0

/-- Whether a text is a zero with more digits behind it, signs aside. -/
def isPaddedDigits (cs : List Char) : Bool :=
  let unsigned := match cs with
    | '-' :: cs => cs
    | '+' :: cs => cs
    | cs => cs
  match unsigned with
  | '0' :: c :: rest => (c :: rest).all Char.isDigit
  | _ => false

/-- The magnitude of an integer behind its sign. -/
def magnitude? (cs : List Char) : Option Nat :=
  match cs with
  | '0' :: 'x' :: ds => digitsIn? 16 ds
  | '0' :: 'o' :: ds => digitsIn? 8 ds
  | '0' :: 'b' :: ds => digitsIn? 2 ds
  | ds => if isPaddedDigits ds then none else digitsIn? 10 ds

/-- An integer of any size. -/
def integer? (cs : List Char) : Option Int :=
  match cs with
  | '+' :: cs => (magnitude? cs).map Int.ofNat
  | '-' :: cs => (magnitude? cs).map fun n => -(Int.ofNat n)
  | cs => (magnitude? cs).map Int.ofNat

/-! ## Floats -/

/-- The power of ten behind a mantissa. -/
def exponent? (cs : List Char) : Option Int :=
  match cs with
  | [] => some 0
  | e :: cs =>
    if e = 'e' ∨ e = 'E' then
      let signed (negative : Bool) (cs : List Char) : Option Int :=
        (digitsIn? 10 cs).map fun n => if negative then -(Int.ofNat n) else Int.ofNat n
      match cs with
      | '+' :: cs => signed false cs
      | '-' :: cs => signed true cs
      | cs => signed false cs
    else none

/-- A float without sign: digits with or without a point, and an optional power of ten. -/
def unsignedFloat? (cs : List Char) : Option Float :=
  let whole := cs.takeWhile Char.isDigit
  let cs := cs.dropWhile Char.isDigit
  let (part, cs) := match cs with
    | '.' :: cs => (cs.takeWhile Char.isDigit, cs.dropWhile Char.isDigit)
    | cs => ([], cs)
  if whole = [] ∧ part = [] then none
  else (exponent? cs).map fun e => nearestFloat (digitsValue (whole ++ part)) (e - part.length)

/-- A finite decimal. -/
def decimalFloat? (cs : List Char) : Option Float :=
  let x := match cs with
    | '-' :: cs => (unsignedFloat? cs).map fun x => -x
    | '+' :: cs => unsignedFloat? cs
    | cs => unsignedFloat? cs
  x.bind fun x => if isFiniteFloat x then some x else none

def positiveInfinity : Float := Float.ofBits 0x7FF0000000000000

def notANumber : Float := Float.ofBits 0x7FF8000000000000

/-- A float, one that is not finite included. -/
def yamlFloat? (s : String) : Option Float :=
  if s ∈ [".inf", ".Inf", ".INF", "+.inf", "+.Inf", "+.INF"] then some positiveInfinity
  else if s ∈ ["-.inf", "-.Inf", "-.INF"] then some (-positiveInfinity)
  else if s ∈ [".nan", ".NaN", ".NAN"] then some notANumber
  else decimalFloat? s.toList

/-! ## Scalars -/

/-- Whether a plain scalar stands for nothing. -/
def isYamlNull (s : String) : Bool := s ∈ ["", "null", "Null", "NULL", "~"]

/-- Whether an integer fits a hundred and twenty-eight bits, with or without a sign. Such an integer
is no float, even if it does not fit sixty-four bits. -/
def isTooWide (i : Int) : Bool :=
  -0x80000000000000000000000000000000 ≤ i && i < 0x100000000000000000000000000000000

/-- What a plain scalar means. -/
def PlainMeaning.of (s : String) : PlainMeaning :=
  if isYamlNull s then .null
  else if s ∈ ["true", "True", "TRUE"] then .bool true
  else if s ∈ ["false", "False", "FALSE"] then .bool false
  else
    let float := match yamlFloat? s with
      | some x => PlainMeaning.number (.float x)
      | none => .text
    match integer? s.toList with
    | none => if isPaddedDigits s.toList then .text else float
    | some i =>
      match WideInt.ofInt? i with
      | some n => .number (.int n)
      | none => if isTooWide i then .tooWide else float

end Workflow
