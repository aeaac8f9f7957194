import Workflow.Decimal.Reading
import Workflow.Json.Value

/-!
# Pointers into a value

A pointer is empty or starts with a slash, and its slashes separate the steps. In a step `~1` stands
for a slash and `~0` for a tilde. A step into an array is a position written without leading zeros.
-/

namespace Workflow

namespace Json

/-- The step without its escapes. What an escape gives is not read again: `~01` is a tilde and a
one. -/
def unescapeStep : List Char → List Char
  | [] => []
  | '~' :: '1' :: cs => '/' :: unescapeStep cs
  | '~' :: '0' :: cs => '~' :: unescapeStep cs
  | c :: cs => c :: unescapeStep cs

/-- The position that a step names in an array. -/
def position? (step : List Char) : Option Nat :=
  match step with
  | [] => none
  | ['0'] => some 0
  | '0' :: _ => none
  | cs => if cs.all Char.isDigit then some (digitsValue cs) else none

/-- One step down. -/
def step? (v : Json) (step : List Char) : Option Json :=
  match v with
  | .object fields => Entries.find? (String.ofList step) fields
  | .array items => (position? step).bind fun i => items[i]?
  | _ => none

/-- Splits a text at every slash. -/
def splitSlashes : List Char → List (List Char)
  | [] => [[]]
  | '/' :: cs => [] :: splitSlashes cs
  | c :: cs =>
    match splitSlashes cs with
    | [] => [[c]]
    | s :: ss => (c :: s) :: ss

/-- The part of a value that a pointer names. -/
def pointer? (v : Json) (pointer : String) : Option Json :=
  match pointer.toList with
  | [] => some v
  | '/' :: cs => (splitSlashes cs).foldlM (fun v step => v.step? (unescapeStep step)) v
  | _ => none

end Json

end Workflow
