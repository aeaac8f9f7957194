import Workflow.Decimal.Binary
import Workflow.Machine.Basic

/-!
# Granting retries

The delay before a retry is the interval of the retrier times a power of its rate, rounded to whole
seconds. The power is taken by repeated squaring, which fixes its last digits.

Every retrier of a state counts the retries it has granted. The first retrier whose names cover an
error decides, even when it has nothing left to grant.
-/

namespace Workflow

/-! ## Delays -/

/-- The greatest number of seconds that a clock can show. -/
def clockLimit : Nat := UInt64.size - 1

/-- `result · base ^ n` for an exponent of at most `bits` bits. -/
def powerBySquaring (bits : Nat) (result base : Float) (n : Nat) : Float :=
  match bits with
  | 0 => result
  | bits + 1 =>
    let result := if n % 2 = 1 then result * base else result
    if n / 2 = 0 then result else powerBySquaring bits result (base * base) (n / 2)

/-- `base ^ n`. A negative power is the reciprocal of a positive one. -/
def integerPower (base : Float) (n : Int32) : Float :=
  let power := powerBySquaring 32 1.0 base n.toInt.natAbs
  if n < 0 then 1.0 / power else power

/-- The delay before retry number `attempt`, the first one being number zero. -/
def Retrier.delay (r : Retrier) (attempt : UInt32) : Nat :=
  let power := integerPower r.backoffRate attempt.toInt32
  roundToNat clockLimit (r.intervalSeconds.toNat.toFloat * power)

theorem Retrier.delay_le (r : Retrier) (attempt : UInt32) : r.delay attempt ≤ clockLimit :=
  roundToNat_le _ _

/-! ## Budgets -/

/-- A retrier and the retries it has granted. -/
structure RetryBudget where
  retrier : Retrier
  granted : UInt32 := 0

/-- The retriers of a state during one visit. -/
abbrev RetryTracker := List RetryBudget

/-- A granted retry. -/
structure Grant where
  delay : Nat
  /-- Which retry of its retrier this is, from one. -/
  attempt : UInt32
deriving DecidableEq

namespace RetryTracker

/-- Nothing has been granted yet. -/
def ofRetriers (rs : List Retrier) : RetryTracker := rs.map fun r => { retrier := r }

/-- The retries granted so far. -/
def total (t : RetryTracker) : Nat := t.foldr (fun b n => b.granted.toNat + n) 0

/-- A retry after an error, and the tracker that has granted it. -/
def grant? (error : String) : RetryTracker → Option (Grant × RetryTracker)
  | [] => none
  | b :: bs =>
    if coversError b.retrier.errorEquals error then
      if b.granted < b.retrier.maxAttempts then
        some (⟨b.retrier.delay b.granted, b.granted + 1⟩,
          { b with granted := b.granted + 1 } :: bs)
      else none
    else (grant? error bs).map fun (g, bs) => (g, b :: bs)

end RetryTracker

/-- All retries that a list of retriers could ever grant. -/
def totalAttempts (rs : List Retrier) : Nat := rs.foldr (fun r n => r.maxAttempts.toNat + n) 0

end Workflow
