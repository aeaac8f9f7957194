import Workflow.Json.Value
import Workflow.Yaml.Resolve
import Workflow.Yaml.Node

/-!
# Values in YAML

The value that a node stands for. Plain scalars get their meaning here, and a key is the text of its
scalar whatever it looks like. Inside the states of a machine reading is strict: there a key has to
be a text by its meaning too.
-/

namespace Workflow

/-- The value of a scalar. -/
def scalarJson? (plain : Bool) (text : String) : Option Json :=
  if plain then
    match PlainMeaning.of text with
    | .null => some .null
    | .bool b => some (.bool b)
    | .number n => some (.number n)
    | .tooWide => none
    | .text => some (.string text)
  else some (.string text)

namespace YamlNode

/-- The name that a key stands for. A strict reader takes a plain key for what it means. -/
def keyName? (strict : Bool) : YamlNode → Option String
  | .scalar plain text =>
    if strict then (scalarJson? plain text).bind Json.string? else some text
  | _ => none

mutual

/-- The value of a node, with its fields in the order of the text. -/
def json? (strict : Bool) : YamlNode → Option Json
  | .scalar plain text => scalarJson? plain text
  | .sequence items => (jsonItems? strict items).map .array
  | .mapping entries => (jsonFields? strict entries).map .object

def jsonItems? (strict : Bool) : List YamlNode → Option (List Json)
  | [] => some []
  | n :: ns =>
    match json? strict n with
    | none => none
    | some v => (jsonItems? strict ns).map (v :: ·)

def jsonFields? (strict : Bool) : List (YamlNode × YamlNode) → Option (List (String × Json))
  | [] => some []
  | (k, n) :: es =>
    match keyName? strict k, json? strict n with
    | some name, some v => (jsonFields? strict es).map ((name, v) :: ·)
    | _, _ => none

end

end YamlNode

end Workflow
