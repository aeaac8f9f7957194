import Workflow.Decimal.Shortest

/-!
# Writing numbers

A whole number is written the same way in names, messages and documents. The digits of a float are
the same wherever it is written, too; where the point stands, when an exponent is used and how it
looks differ from format to format. A `FloatLayout` records those decisions, and each format that
writes floats has its own value of it.
-/

namespace Workflow

/-! ## Whole numbers -/

/-- The decimal digits of a number, the leading one first. -/
def wholeDigits (n : Nat) : List Char := Nat.toDigits 10 n

/-- The decimal text of a number. -/
def wholeText (n : Nat) : String := String.ofList (wholeDigits n)

/-- The decimal text of an integer. -/
def integerText (i : Int) : String := (if i < 0 then "-" else "") ++ wholeText i.natAbs

@[simp] theorem toList_wholeText (n : Nat) : (wholeText n).toList = wholeDigits n := by
  simp [wholeText]

/-! ## Floats -/

/-- How one format writes floats. -/
structure FloatLayout where
  /-- The range of point positions written without an exponent, or `none` for all. The point
  position of `0.00123` is `-2` and that of `123.0` is `3`. -/
  positional : Option (Int × Int)
  /-- Whole numbers end in `.0`. -/
  pointZero : Bool
  /-- An exponent that is not negative carries a plus sign. -/
  plusSign : Bool
  nan : String
  infinity : String

namespace FloatLayout

private def zeros (n : Nat) : String := String.ofList (List.replicate n '0')

/-- The digits with the point in its place and no exponent. -/
def placed (l : FloatLayout) (d : ShortDecimal) : String :=
  let cs := wholeDigits d.digits
  let point := (cs.length : Int) + d.place
  if 0 ≤ d.place then
    String.ofList cs ++ zeros d.place.toNat ++ (if l.pointZero then ".0" else "")
  else if 0 < point then
    String.ofList (cs.take point.toNat) ++ "." ++ String.ofList (cs.drop point.toNat)
  else
    "0." ++ zeros (-point).toNat ++ String.ofList cs

/-- One digit before the point, the others behind it, and the exponent that moves it back. -/
def scientific (l : FloatLayout) (d : ShortDecimal) : String :=
  let cs := wholeDigits d.digits
  let exponent := (cs.length : Int) + d.place - 1
  let mantissa := match cs with
    | [] => "0"
    | [c] => String.singleton c
    | c :: rest => String.singleton c ++ "." ++ String.ofList rest
  let sign := if exponent < 0 then "-" else if l.plusSign then "+" else ""
  mantissa ++ "e" ++ sign ++ wholeText exponent.natAbs

/-- The text of a positive decimal. -/
def decimal (l : FloatLayout) (d : ShortDecimal) : String :=
  let point := ((wholeDigits d.digits).length : Int) + d.place
  match l.positional with
  | none => l.placed d
  | some (first, last) =>
    if first ≤ point && point ≤ last then l.placed d else l.scientific d

/-- The text of a float. Zero keeps its sign. -/
def render (l : FloatLayout) (x : Float) : String :=
  match FloatClass.of x with
  | .nan => l.nan
  | .infinite negative => (if negative then "-" else "") ++ l.infinity
  | .finite p =>
    let sign := if p.negative then "-" else ""
    if p.significand = 0 then sign ++ (if l.pointZero then "0.0" else "0")
    else sign ++ l.decimal p.shortest

/-- Floats inside a sentence: no exponent and no `.0`. -/
def plain : FloatLayout where
  positional := none
  pointZero := false
  plusSign := false
  nan := "NaN"
  infinity := "inf"

end FloatLayout

end Workflow
