import Workflow.Decimal.Layout
import Workflow.Json.Value

/-!
# Writing JSON text

One entry a line, two spaces for each level. Fields come in the order of the value. Floats are
written with the fewest digits that read back, and those that are not finite as `null`.
-/

namespace Workflow

/-- Floats in JSON text: plain digits for point positions from `-4` to `16`. -/
def jsonFloat : FloatLayout where
  positional := some (-4, 16)
  pointZero := true
  plusSign := true
  nan := "null"
  infinity := "null"

namespace Json

/-- The characters that stand for one character inside quotes. -/
def escaped (c : Char) : List Char :=
  match c with
  | '"' => ['\\', '"']
  | '\\' => ['\\', '\\']
  | '\x08' => ['\\', 'b']
  | '\x0c' => ['\\', 'f']
  | '\n' => ['\\', 'n']
  | '\r' => ['\\', 'r']
  | '\t' => ['\\', 't']
  | c =>
    if c.toNat < 0x20 then
      ['\\', 'u', '0', '0', Nat.digitChar (c.toNat / 16), Nat.digitChar (c.toNat % 16)]
    else [c]

/-- A string in quotes. -/
def quoted (s : String) : String := "\"" ++ String.ofList (s.toList.flatMap escaped) ++ "\""

end Json

/-- The text of a number. -/
def Number.render : Number → String
  | .int n => integerText n.val
  | .float x => if isFiniteFloat x then jsonFloat.render x else "null"

namespace Json

/-- The blanks at the head of a line. -/
def margin (level : Nat) : String := String.ofList (List.replicate (2 * level) ' ')

mutual

/-- The text of a value whose first line is already indented. -/
def prettyAt (level : Nat) : Json → String
  | .null => "null"
  | .bool b => if b then "true" else "false"
  | .number n => n.render
  | .string s => quoted s
  | .array [] => "[]"
  | .array (v :: vs) =>
    "[\n" ++ margin (level + 1) ++ prettyAt (level + 1) v ++ prettyItems (level + 1) vs ++ "\n"
      ++ margin level ++ "]"
  | .object [] => "\x7b\x7d"
  | .object ((name, v) :: fs) =>
    "\x7b\n" ++ margin (level + 1) ++ quoted name ++ ": " ++ prettyAt (level + 1) v
      ++ prettyFields (level + 1) fs ++ "\n" ++ margin level ++ "\x7d"

/-- The items behind the first one. -/
def prettyItems (level : Nat) : List Json → String
  | [] => ""
  | v :: vs => ",\n" ++ margin level ++ prettyAt level v ++ prettyItems level vs

/-- The fields behind the first one. -/
def prettyFields (level : Nat) : List (String × Json) → String
  | [] => ""
  | (name, v) :: fs =>
    ",\n" ++ margin level ++ quoted name ++ ": " ++ prettyAt level v ++ prettyFields level fs

end

/-- The text of a value, over several lines. -/
def pretty (v : Json) : String := prettyAt 0 v

end Json

end Workflow
