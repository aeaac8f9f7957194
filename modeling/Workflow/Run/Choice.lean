import Workflow.Machine.Basic
import Workflow.Machine.Path

/-!
# Evaluating choices

A rule is true or false of a context document. A value that is missing, or not of the type that the
comparator is for, makes a comparison false; only `isPresent` asks about missing values. The parts
of a rule are looked at from left to right, and no further than needed to know the answer. A
variable that is no path is an error, but only if it is looked at.
-/

namespace Workflow

/-- Whether a number is as expected. -/
def numberHolds (test : Float → Bool) (value : Json) : Bool :=
  match value.float? with
  | some x => test x
  | none => false

/-- Whether the value of a variable is as expected. -/
def Comparator.holds (value : Option Json) : Comparator → Bool
  | .isPresent expected => value.isSome = expected
  | .stringEquals expected => value.any fun v => v.string? = some expected
  | .booleanEquals expected => value.any fun v => v.bool? = some expected
  | .numericEquals expected => value.any (numberHolds fun x => x == expected)
  | .numericGreaterThan expected => value.any (numberHolds fun x => expected < x)
  | .numericGreaterThanEquals expected => value.any (numberHolds fun x => expected ≤ x)
  | .numericLessThan expected => value.any (numberHolds fun x => x < expected)
  | .numericLessThanEquals expected => value.any (numberHolds fun x => x ≤ expected)

mutual

/-- Whether a rule is true of a document. -/
def ChoiceRule.holds (doc : Json) : ChoiceRule → Except PathError Bool
  | ⟨condition, _⟩ => conditionHolds doc condition

def conditionHolds (doc : Json) : Condition → Except PathError Bool
  | .all rules => allHold doc rules
  | .any rules => anyHolds doc rules
  | .negate rule => (ChoiceRule.holds doc rule).map not
  | .compare path comparator =>
    (ContextPath.parse path).map fun p => comparator.holds (p.read doc)

def allHold (doc : Json) : List ChoiceRule → Except PathError Bool
  | [] => .ok true
  | rule :: rules =>
    match ChoiceRule.holds doc rule with
    | .ok true => allHold doc rules
    | .ok false => .ok false
    | .error e => .error e

def anyHolds (doc : Json) : List ChoiceRule → Except PathError Bool
  | [] => .ok false
  | rule :: rules =>
    match ChoiceRule.holds doc rule with
    | .ok true => .ok true
    | .ok false => anyHolds doc rules
    | .error e => .error e

end

/-- What the first true rule leads to, or the fallback if there is none. -/
def chooseAmong (doc : Json) (fallback : Option String) :
    List ChoiceRule → Except PathError (Option String)
  | [] => .ok fallback
  | rule :: rules =>
    match rule.holds doc with
    | .ok true => .ok rule.next
    | .ok false => chooseAmong doc fallback rules
    | .error e => .error e

/-- The state that a choice selects. -/
def ChoiceState.choose (c : ChoiceState) (doc : Json) : Except PathError (Option String) :=
  chooseAmong doc c.fallback c.choices

end Workflow
