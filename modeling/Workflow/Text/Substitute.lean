/-!
# Replacing every occurrence

Occurrences are taken from left to right and do not overlap. An empty pattern occurs before every
character and at the end.
-/

namespace Workflow

/-- The text behind `pattern`, where the text starts with it. -/
def afterPattern? : List Char → List Char → Option (List Char)
  | [], cs => some cs
  | _ :: _, [] => none
  | p :: ps, c :: cs => if p = c then afterPattern? ps cs else none

theorem afterPattern?_eq_some_iff {p cs rest : List Char} :
    afterPattern? p cs = some rest ↔ cs = p ++ rest := by
  induction p generalizing cs with
  | nil => simp [afterPattern?]
  | cons x p ih =>
    cases cs with
    | nil => simp [afterPattern?]
    | cons c cs =>
      by_cases h : x = c
      · simp [afterPattern?, h, ih]
      · simp [afterPattern?, h, Ne.symm h]

/-- Replaces the occurrences of a pattern that is not empty. `skip` counts the characters of an
occurrence that has been replaced and is still being passed over. -/
def substituteFrom (pattern value : List Char) (skip : Nat) : List Char → List Char
  | [] => []
  | c :: cs =>
    match skip with
    | skip + 1 => substituteFrom pattern value skip cs
    | 0 =>
      if (afterPattern? pattern (c :: cs)).isSome then
        value ++ substituteFrom pattern value (pattern.length - 1) cs
      else c :: substituteFrom pattern value 0 cs

/-- Replaces every occurrence of `pattern` by `value`. -/
def substituteAll (pattern value cs : List Char) : List Char :=
  if pattern = [] then value ++ cs.flatMap fun c => c :: value
  else substituteFrom pattern value 0 cs

namespace Text

/-- The text with every occurrence of `pattern` replaced by `value`. -/
def substitute (pattern value s : String) : String :=
  String.ofList (substituteAll pattern.toList value.toList s.toList)

end Text

end Workflow
