/-!
# The binary parts of a float

Every finite float is a whole number of units of a power of two. `Float.parts` reads sign,
significand and unit off the bits, so that printing and rounding below work on natural numbers
and never on floats.
-/

namespace Workflow

/-- A finite float as `± significand · 2 ^ exponent`. -/
structure BinaryParts where
  negative : Bool
  significand : Nat
  exponent : Int
  /-- Below a power of two the neighbouring float is only half as far away as above it. -/
  narrowBelow : Bool := false
deriving DecidableEq, Repr

/-- What a float is: not a number, an infinity, or a finite value. -/
inductive FloatClass where
  | nan
  | infinite (negative : Bool)
  | finite (parts : BinaryParts)
deriving DecidableEq, Repr

/-- Reads a float off its bits: one sign bit, eleven for the exponent, fifty-two for the
fraction. -/
def FloatClass.of (x : Float) : FloatClass :=
  let bits : Nat := x.toBits.toNat
  let negative := decide (0x8000000000000000 ≤ bits)
  let field : Nat := bits / 0x10000000000000 % 0x800
  let fraction : Nat := bits % 0x10000000000000
  if field = 0x7FF then
    if fraction = 0 then .infinite negative else .nan
  else if field = 0 then
    .finite ⟨negative, fraction, -1074, false⟩
  else
    .finite ⟨negative, 0x10000000000000 + fraction, (field : Int) - 1075, fraction = 0 && 1 < field⟩

/-- `true` of the floats that stand for a real number. -/
def isFiniteFloat (x : Float) : Bool :=
  match FloatClass.of x with
  | .finite _ => true
  | _ => false

/-! ## Rounding to a whole number -/

/-- The magnitude rounded to the nearest whole number, a half going up. -/
def BinaryParts.roundedMagnitude (p : BinaryParts) : Nat :=
  match p.exponent with
  | .ofNat e => p.significand * Nat.pow 2 e
  | .negSucc e => (p.significand + Nat.pow 2 e) / Nat.pow 2 (e + 1)

/-- The nearest natural number up to `limit`, a half going up. What lies outside the range goes to
its end, and what is not a number to zero. -/
def roundToNat (limit : Nat) (x : Float) : Nat :=
  match FloatClass.of x with
  | .nan => 0
  | .infinite negative => if negative then 0 else limit
  | .finite p => if p.negative then 0 else min limit p.roundedMagnitude

theorem roundToNat_le (limit : Nat) (x : Float) : roundToNat limit x ≤ limit := by
  unfold roundToNat
  split <;> try split
  all_goals omega

end Workflow
