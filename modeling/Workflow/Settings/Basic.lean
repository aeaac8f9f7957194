import Workflow.CopyJob.Definition

/-!
# Settings

What decides how a copy job is laid out where nobody asks for anything else, and in which format
documents are written.
-/

namespace Workflow

/-- The format of a document. -/
inductive OutputFormat where
  | json
  | yaml
deriving DecidableEq

namespace OutputFormat

def all : List OutputFormat := [.json, .yaml]

def name : OutputFormat → String
  | .json => "json"
  | .yaml => "yaml"

/-- The format of a name, which has to be written in small letters. -/
def ofName? (name : String) : Option OutputFormat := all.find? fun f => f.name = name

end OutputFormat

structure Settings where
  /-- The number of workers. -/
  poolSize : Int64 := 1
  /-- What stands for the index of a worker. -/
  replicaToken : String := "\x7bshard\x7d"
  /-- The time limit of a whole run. -/
  timeoutSeconds : UInt64 := 3600
  maxStatusChecks : UInt32 := 10
  comment : String := "Copy job orchestration"
  /-- What the names of the tasks begin with. -/
  resourcePrefix : String := "copyflow"
  outputFormat : OutputFormat := .json
  /-- How many transitions a run may make. -/
  maxTransitions : UInt64 := 10000

namespace Settings

/-- The identifier of a task. -/
def resourceName (s : Settings) (task : String) : String := s.resourcePrefix ++ "-" ++ task

/-- How the job itself is laid out. -/
def jobOptions (s : Settings) : CopyJob.Options where
  comment := s.comment
  maxStatusChecks := s.maxStatusChecks
  timeoutSeconds := some s.timeoutSeconds

/-- The job with tasks that are carried out elsewhere. -/
def jobTemplate (s : Settings) : CopyJob.Template where
  handlers := .remote s.resourceName
  options := s.jobOptions

end Settings

end Workflow
