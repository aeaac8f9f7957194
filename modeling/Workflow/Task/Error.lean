import Workflow.Decimal.Layout

/-!
# Errors of a task

Every failure of a task has an error name, which is what retry and catch policies look at, and a
cause for people to read.
-/

namespace Workflow

/-! ## Error names -/

namespace ErrorName

/-- A failure that may pass. -/
def taskFailed : String := "States.TaskFailed"

/-- A task that took too long. -/
def timeout : String := "States.Timeout"

/-- A caller without the right to do this. -/
def permissions : String := "States.Permissions"

/-- A fault that no policy is meant to recover from. -/
def runtime : String := "States.Runtime"

/-- A result that cannot be stored where it belongs. -/
def resultPath : String := "States.ResultPathMatchFailure"

/-- Stands for every error name but `runtime`. -/
def all : String := "States.ALL"

/-- A choice without a matching rule and without a default. -/
def noChoice : String := "States.NoChoiceMatched"

/-- A fail state that names no error. -/
def fail : String := "States.Fail"

end ErrorName

/-! ## Task errors -/

/-- How a task can fail. -/
inductive TaskError where
  /-- No handler of this name is known. -/
  | notFound (name : String)
  /-- The task is carried out elsewhere and cannot be started from here. -/
  | unavailable (name : String)
  | taskFailed (reason : String)
  | timeout (seconds : Nat)
  | permissionDenied (reason : String)
  /-- A failure with an error name of the task's own. -/
  | failed (error cause : String)
  /-- The task could not read or build a document. -/
  | json (reason : String)
deriving DecidableEq

namespace TaskError

/-- The name that policies look at. -/
def errorName : TaskError → String
  | .notFound _ | .unavailable _ => ErrorName.runtime
  | .taskFailed _ | .json _ => ErrorName.taskFailed
  | .timeout _ => ErrorName.timeout
  | .permissionDenied _ => ErrorName.permissions
  | .failed error _ => error

def message : TaskError → String
  | .notFound name => s!"Handler not found: {name}"
  | .unavailable name => s!"Resource has no local implementation: {name}"
  | .taskFailed reason => s!"Task failed: {reason}"
  | .timeout seconds => s!"Task timed out after {wholeText seconds} seconds"
  | .permissionDenied reason => s!"Permission denied: {reason}"
  | .failed error cause => s!"{error}: {cause}"
  | .json reason => s!"JSON error: {reason}"

/-- The message without the error name. -/
def cause : TaskError → String
  | .failed _ cause => cause
  | e => e.message

end TaskError

end Workflow
