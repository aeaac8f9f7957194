import Workflow.Json.Reader
import Workflow.Machine.Check
import Workflow.Machine.Reading
import Workflow.Text.Characters
import Workflow.Yaml.Reader
import Workflow.Yaml.Values

/-!
# Reading texts

A text whose first character, white space aside, is an opening brace is JSON; every other text is
YAML. In YAML the fields of the outermost machine are read by what they are wanted for: its start
and its comment are texts whatever they look like, and an empty value for the states is a machine
without states. The same goes for the types of its states. Everything else in a state has its own
meaning first.
-/

namespace Workflow

/-- Whether a text is taken for JSON. -/
def looksLikeJson (text : String) : Bool := firstInk? text = some '{'

/-- The value that a text stands for, in its canonical form. -/
def Json.ofDocument? (text : String) : Option Json :=
  let v := if looksLikeJson text then Json.ofText? text
    else (YamlNode.ofText? text).bind (YamlNode.json? false)
  v.map Json.canonical

/-! ## Machines in YAML -/

namespace YamlNode

/-- A text, whatever it looks like. -/
def wantedText? : YamlNode → Option Json
  | .scalar _ text => some (.string text)
  | _ => none

/-- A text, or nothing. -/
def wantedComment? : YamlNode → Option Json
  | .scalar plain text => some (if plain && isYamlNull text then .null else .string text)
  | _ => none

/-- A number of seconds, or nothing. -/
def wantedSeconds? : YamlNode → Option Json
  | .scalar plain text => if plain then scalarJson? plain text else none
  | _ => none

/-- The fields of a state. -/
def stateFields? : List (YamlNode × YamlNode) → Option (List (String × Json))
  | [] => some []
  | (k, n) :: es => do
    let name ← keyName? true k
    let v ← if name = "Type" then n.wantedText? else n.json? true
    let rest ← stateFields? es
    return (name, v) :: rest

/-- A state. -/
def wantedState? : YamlNode → Option Json
  | .mapping entries => (stateFields? entries).map .object
  | .sequence (tag :: items) => do
    let tag ← tag.wantedText?
    let items ← jsonItems? true items
    return .array (tag :: items)
  | _ => none

/-- States under their names. -/
def wantedStates? : YamlNode → Option Json
  | .scalar plain text => if plain && text.isEmpty then some (.object []) else none
  | .mapping entries => do
    let fields ← entries.mapM fun (k, n) => do
      let name ← keyName? false k
      let v ← wantedState? n
      return (name, v)
    return .object fields
  | .sequence _ => none

/-- A field of a machine. What is not a field of machines is passed over. -/
def wantedField? (name : String) (n : YamlNode) : Option Json :=
  if name = "StartAt" then n.wantedText?
  else if name = "Comment" then n.wantedComment?
  else if name = "TimeoutSeconds" then n.wantedSeconds?
  else if name = "States" then n.wantedStates?
  else some .null

/-- The value that a node stands for where a machine is wanted. -/
def machineJson? : YamlNode → Option Json
  | .mapping entries => do
    let fields ← entries.mapM fun (k, n) => do
      let name ← keyName? false k
      let v ← wantedField? name n
      return (name, v)
    return .object fields
  | .sequence items =>
    if items.length = Machine.declared.length then do
      let values ← (Machine.declared.zip items).mapM fun (name, n) => wantedField? name n
      return .array values
    else none
  | .scalar _ _ => none

end YamlNode

/-- Reads a machine from a text. -/
def Machine.ofText? (text : String) : Option Machine :=
  if looksLikeJson text then (Json.ofText? text).bind Machine.ofJson?
  else ((YamlNode.ofText? text).bind YamlNode.machineJson?).bind Machine.ofJson?

/-- Why a text gives no machine. -/
inductive MachineTextError where
  /-- The text is not readable as a machine. -/
  | unreadable
  | invalid (fault : Fault)
deriving DecidableEq

/-- Reads a machine from a text and validates it. -/
def Machine.parse (text : String) : Except MachineTextError Machine :=
  match Machine.ofText? text with
  | none => .error .unreadable
  | some m =>
    match m.check with
    | .ok () => .ok m
    | .error fault => .error (.invalid fault)

end Workflow
