import Workflow.Decimal.Reading
import Workflow.Entries
import Workflow.Json.Record
import Workflow.Settings.Basic
import Workflow.Text.Substitute

/-!
# Settings in the environment

A setting may be given in an environment variable whose name begins with `COPYFLOW_`; the rest of
the name is the name of the setting in letters of any size. The beginning has to be in capitals and
may be there several times. Other variables, and those that name no setting, are passed over, but a
setting may be named only once.
-/

namespace Workflow

/-- The variables of an environment and their values. -/
abbrev Environment := List (String × String)

/-- What the names of the variables begin with. -/
def settingStem : String := "COPYFLOW_"

/-- What is left of a text when a pattern that is not empty has been taken off its front as often as
it stands there. `skip` counts the characters of a copy that is still being passed over. -/
def withoutCopies (pattern : List Char) (skip : Nat) : List Char → List Char
  | [] => []
  | c :: cs =>
    match skip with
    | skip + 1 => withoutCopies pattern skip cs
    | 0 =>
      if (afterPattern? pattern (c :: cs)).isSome then withoutCopies pattern (pattern.length - 1) cs
      else c :: cs

/-- The small letter for a character. Among the characters beyond ASCII there is one whose small
letter is in ASCII, the sign for the unit of temperature; no other matters for a name in ASCII. -/
def smallLetter (c : Char) : Char := if c = '\u212A' then 'k' else c.toLower

/-- The setting that a variable of some name is for. -/
def settingName? (name : String) : Option String :=
  if (afterPattern? settingStem.toList name.toList).isSome then
    let rest := withoutCopies settingStem.toList 0 name.toList
    some (String.ofList (rest.map smallLetter))
  else none

/-- Why an environment gives no settings. -/
inductive SettingFault where
  | givenTwice (setting : String)
  | badValue (setting value : String)
deriving DecidableEq

def SettingFault.message : SettingFault → String
  | .givenTwice setting => s!"the setting {setting} is given twice"
  | .badValue setting value => s!"{value} is no value for the setting {setting}"

namespace Settings

/-- The names of the settings. -/
def names : List String :=
  ["pool_size", "replica_token", "timeout_seconds", "max_status_checks", "comment",
    "resource_prefix", "output_format", "max_transitions"]

/-- The settings with one of them read from a text. -/
def set? (s : Settings) (setting value : String) : Option Settings :=
  match setting with
  | "pool_size" => (int64Text? value).map fun n => { s with poolSize := n }
  | "replica_token" => some { s with replicaToken := value }
  | "timeout_seconds" => (uint64Text? value).map fun n => { s with timeoutSeconds := n }
  | "max_status_checks" => (uint32Text? value).map fun n => { s with maxStatusChecks := n }
  | "comment" => some { s with comment := value }
  | "resource_prefix" => some { s with resourcePrefix := value }
  | "output_format" => (OutputFormat.ofName? value).map fun f => { s with outputFormat := f }
  | "max_transitions" => (uint64Text? value).map fun n => { s with maxTransitions := n }
  | _ => some s

/-- The values that an environment has for settings. -/
def given (env : Environment) : Entries String :=
  env.filterMap fun (name, value) => (settingName? name).map fun setting => (setting, value)

/-- The settings, where those not given are the usual ones. -/
def ofEnvironment (env : Environment) : Except SettingFault Settings :=
  match names.find? fun setting => 1 < Entries.occurrences setting (given env) with
  | some setting => .error (.givenTwice setting)
  | none => (given env).foldlM (fun s (setting, value) =>
      match s.set? setting value with
      | some s => .ok s
      | none => .error (.badValue setting value)) {}

end Settings

end Workflow
