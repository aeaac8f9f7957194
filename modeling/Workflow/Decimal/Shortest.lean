import Workflow.Decimal.Binary

/-!
# The shortest decimal that reads back

A reader takes every real number nearer to a float than to its neighbours for that float, and the
two ends of that interval as well when the significand is even. Among the decimals in the interval
the ones with the fewest digits are wanted, and of those the nearest to the float.

The decimals with a last digit at place `10 ^ p` form a grid. If any point of a grid lies in the
interval, then so does one of the two grid points next to the float, so the search tests two
candidates per grid, from coarse grids to fine ones.
-/

namespace Workflow

/-- A positive decimal, `digits · 10 ^ place`. -/
structure ShortDecimal where
  digits : Nat
  place : Int
deriving DecidableEq, Repr

/-- `10 ^ p` for a power that may be negative, as a fraction. -/
private def powerOf (base : Nat) (p : Int) : Nat × Nat := (base.pow p.toNat, base.pow (-p).toNat)

/-- The grid point at `10 ^ place` that reads back to `p` and is nearest to it, an even one at a
tie.

All numbers are counted in quarters of a unit of `p` over a common denominator: `unit` is the
grid's step and `scale` a quarter. -/
def BinaryParts.onGrid (p : BinaryParts) (place : Int) : Option Nat :=
  let (tenUp, tenDown) := powerOf 10 place
  let (twoUp, twoDown) := powerOf 2 (p.exponent - 2)
  let unit := tenUp * twoDown
  let scale := twoUp * tenDown
  let value := 4 * p.significand * scale
  let low := (4 * p.significand - (if p.narrowBelow then 1 else 2)) * scale
  let high := (4 * p.significand + 2) * scale
  let inside (t : Nat) : Bool :=
    if p.significand % 2 = 0 then low ≤ t * unit && t * unit ≤ high
    else low < t * unit && t * unit < high
  let below := value / unit
  let above := below + 1
  let toBelow := value - below * unit
  let toAbove := above * unit - value
  match inside below, inside above with
  | false, false => none
  | true, false => some below
  | false, true => some above
  | true, true =>
    if toBelow < toAbove then some below
    else if toAbove < toBelow then some above
    else if below % 2 = 0 then some below else some above

/-- A place to the left of the leading digit of `p`, or at it. -/
def BinaryParts.leadingPlace (p : BinaryParts) : Int :=
  let (twoUp, twoDown) := powerOf 2 p.exponent
  let value := p.significand * twoUp
  if twoDown ≤ value then (Nat.toDigits 10 (value / twoDown)).length
  else 2 - ((Nat.toDigits 10 (twoDown / value)).length : Int)

/-- The fewest digits that read back to `p`, for a significand that is not zero. Seventeen digits
always do, and the first grids tried may still lie left of the leading digit. -/
def BinaryParts.shortest (p : BinaryParts) : ShortDecimal :=
  let start := p.leadingPlace
  let hit := (List.range 20).findSome? fun (i : Nat) =>
    let place := start - (i : Int)
    (p.onGrid place).map fun digits => (⟨digits, place⟩ : ShortDecimal)
  hit.getD ⟨0, 0⟩

end Workflow
