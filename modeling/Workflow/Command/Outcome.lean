import Workflow.Command.Arguments
import Workflow.Command.Help
import Workflow.Json.Printer
import Workflow.Machine.Document
import Workflow.Machine.Text
import Workflow.Settings.EnvironmentFile
import Workflow.Template.Reading
import Workflow.Yaml.Writer

/-!
# What comes of a command line

Everything that the program does with its words, its environment and the files it reads. The words
are looked at first, so that a wrong command line is told apart from a command that fails, and then
the settings, which have to be usable whether the command needs them or not.
-/

namespace Workflow

/-- What a run of the program comes to. -/
inductive Outcome where
  | done (output : String)
  | failed (complaint : String)
  | misused (complaint : String)
deriving DecidableEq

namespace Outcome

def exitCode : Outcome → UInt32
  | .done _ => 0
  | .failed _ => 1
  | .misused _ => 2

/-- What is printed. A run that fails prints nothing. -/
def output : Outcome → String
  | .done output => output
  | .failed _ | .misused _ => ""

/-- What is wrong. -/
def complaint? : Outcome → Option String
  | .done _ => none
  | .failed complaint | .misused complaint => some complaint

end Outcome

/-- Why a command fails. -/
inductive CommandFault where
  | settings (fault : SettingFault)
  | noFile (file : String)
  /-- A text that is no document. -/
  | unreadable
  | definition (e : CopyJob.DefinitionError)
  | expansion (e : ExpansionError)
  | document (e : DocumentError)
  | invalid (fault : Fault)
  | policy (fault : PolicyFault)

def CommandFault.message : CommandFault → String
  | .settings fault => s!"invalid settings: {fault.message}"
  | .noFile file => s!"{file} cannot be read"
  | .unreadable => "the text is no document"
  | .definition e => e.message
  | .expansion e => e.message
  | .document e => e.message
  | .invalid fault => fault.message
  | .policy fault => fault.message

/-- A value in a format. -/
def OutputFormat.write (f : OutputFormat) (v : Json) : String :=
  match f with
  | .json => v.pretty
  | .yaml => v.yaml

namespace Request

/-- The machine of the copy job, validated. -/
def renderedMachine (s : Settings) (poolSize : Int64) (token : String) :
    Except CommandFault Machine := do
  let definition ← (s.jobTemplate.fanOut poolSize token).mapError .definition
  let document ← (WorkflowDocument.ofAnnotated definition).mapError .document
  document.machine.check.mapError .invalid
  document.machine.checkPolicies.mapError .policy
  return document.machine

/-- The machine that a text holds, validated. -/
def validatedMachine (text : String) : Except CommandFault Machine := do
  let m ← (Machine.parse text).mapError fun e =>
    match e with
    | .unreadable => .unreadable
    | .invalid fault => .invalid fault
  m.checkPolicies.mapError .policy
  return m

/-- The definition that a text holds, expanded. Every handler is one of elsewhere. -/
def expandedText (text : String) : Except CommandFault Json :=
  match Json.ofDocument? text with
  | none => .error .unreadable
  | some v =>
    match Annotated.read Resolver.remote v with
    | .error e => .error (.expansion e)
    | .ok node => (node.expand.mapError .expansion).map Concrete.toJson

/-- The text of a file. -/
def fileText (files : String → Option String) (file : String) : Except CommandFault String :=
  match files file with
  | some text => .ok text
  | none => .error (.noFile file)

/-- Carries out a command. -/
def perform (s : Settings) (format : OutputFormat) (files : String → Option String) :
    Request → Except CommandFault String
  | .render poolSize token => do
    let m ← renderedMachine s (poolSize.getD s.poolSize) (token.getD s.replicaToken)
    return format.write m.toJson ++ "\n"
  | .validate file => do
    let m ← validatedMachine (← fileText files file)
    return s!"{file}: valid ({wholeText m.states.length} states, start at '{m.startAt}')\n"
  | .expand file => do
    let v ← expandedText (← fileText files file)
    return format.write v ++ "\n"
  | .help topic => .ok topic.text
  | .version => .ok (programName ++ " " ++ programVersion ++ "\n")

/-- Whether a request is about the program and not about documents. -/
def needsNoSettings : Request → Bool
  | .help _ | .version => true
  | _ => false

/-- The file that a request is about. -/
def file? : Request → Option String
  | .validate file | .expand file => some file
  | _ => none

end Request

/-- Carries out a command line in an environment. -/
def CommandLine.perform (line : CommandLine) (env : Environment) (files : String → Option String) :
    Except CommandFault String :=
  if line.request.needsNoSettings then line.request.perform {} .json files
  else do
    let settings ← (Settings.ofEnvironment env).mapError .settings
    line.request.perform settings (line.format.getD settings.outputFormat) files

/-- The name of the environment file. -/
def environmentFileName : String := ".env"

/-- What comes of the words of a command line. `files` gives the texts of the files in reach. -/
def Outcome.ofArguments (words : List String) (env : Environment)
    (files : String → Option String) : Outcome :=
  match CommandLine.ofArguments words with
  | .error e => .misused e.message
  | .ok line =>
    let env := match files environmentFileName with
      | some text => env.addFile text
      | none => env
    match line.perform env files with
    | .ok output => .done output
    | .error e => .failed e.message

end Workflow
