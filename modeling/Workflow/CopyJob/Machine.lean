import Workflow.Machine.Basic
import Workflow.Task.Handler

/-!
# The copy job

A copy job has a long copy carried out by some other system and watches it:

```text
PreExecutionCheck → PreExecutionCheckPassed → ScheduleCopy → Wait → GetJobStatus → JobDone
```

`JobDone` goes back to `Wait` while the copy is in progress, on to `Notify` and `Succeed` when it
has succeeded, and to `NotifyFailure` and `Fail` when it has failed or when it is still in progress
after the last status check allowed. Every task has the same retriers, and an error that is left
over leads to `NotifyFailure`; an error of `NotifyFailure` itself leads to `Fail`, so that the
failure path ends.
-/

namespace Workflow

namespace CopyJob

/-! ## Policies -/

/-- The retriers of every task. The right to do something does not come back by waiting, so an error
of that kind is never retried. -/
def standardRetriers : List Retrier :=
  [{ errorEquals := [ErrorName.permissions], maxAttempts := 0, intervalSeconds := 1,
      backoffRate := 1.0 },
    { errorEquals := [ErrorName.timeout], maxAttempts := 3, intervalSeconds := 30,
      backoffRate := 1.5 },
    { errorEquals := [ErrorName.taskFailed], maxAttempts := 5, intervalSeconds := 5,
      backoffRate := 1.5 },
    { errorEquals := [ErrorName.all], maxAttempts := 5, intervalSeconds := 5,
      backoffRate := 2.0 }]

/-- Sends every error to one state and stores it at `$.error`. -/
def failureCatchers (next : String) : List Catcher :=
  [{ errorEquals := [ErrorName.all], next, resultPath := some "$.error" }]

/-! ## Parts -/

/-- The handlers of the five tasks. -/
structure Handlers where
  preExecutionCheck : Handler
  scheduleCopy : Handler
  getJobStatus : Handler
  notifyFailure : Handler
  notify : Handler

namespace Handlers

/-- Tasks carried out elsewhere, under names made from the names of the tasks. -/
def remote (resource : String → String) : Handlers where
  preExecutionCheck := .elsewhere (resource "pre-execution-check")
  scheduleCopy := .elsewhere (resource "schedule-copy")
  getJobStatus := .elsewhere (resource "get-job-status")
  notifyFailure := .elsewhere (resource "notify-failure")
  notify := .elsewhere (resource "notify")

/-- The task states and their handlers. -/
def byState (h : Handlers) : List (String × Handler) :=
  [("PreExecutionCheck", h.preExecutionCheck), ("ScheduleCopy", h.scheduleCopy),
    ("GetJobStatus", h.getJobStatus), ("NotifyFailure", h.notifyFailure), ("Notify", h.notify)]

end Handlers

structure Options where
  comment : String := "Copy job orchestration"
  /-- How many status checks may find the copy still in progress. -/
  maxStatusChecks : UInt32 := 10
  /-- The time limit of the whole run. -/
  timeoutSeconds : Option UInt64 := some 3600

/-- What copy jobs are built from. -/
structure Template where
  handlers : Handlers
  options : Options := {}

/-! ## The machine -/

/-- A task state of the job. -/
def taskState (h : Handler) (parameters : Option Json) (resultPath next onError : String) : State :=
  .task {
    resource := h.name
    parameters
    resultPath := some resultPath
    transition := { next := some next }
    retry := standardRetriers
    catchers := failureCatchers onError }

/-- Compares the status of the copy. -/
def statusIs (status : String) : Condition :=
  .compare "$.status.checkout_status" (.stringEquals status)

/-- Goes on if the check before the copy has passed. -/
def checkPassed : ChoiceState where
  choices := [{
    condition := .compare "$.validation.checkout_status" (.stringEquals "PASSED")
    next := some "ScheduleCopy" }]
  fallback := some "NotifyFailure"

/-- Looks at the status of the copy. That there were too many checks is asked before going back. -/
def jobDone (maxStatusChecks : UInt32) : ChoiceState where
  choices := [
    { condition := statusIs "FAILURE", next := some "NotifyFailure" },
    { condition := .all [
        { condition := statusIs "IN_PROGRESS" },
        { condition := .compare "$.status.check_count"
            (.numericGreaterThan maxStatusChecks.toNat.toFloat) }]
      next := some "NotifyFailure" },
    { condition := statusIs "IN_PROGRESS", next := some "Wait" },
    { condition := statusIs "SUCCESS", next := some "Notify" }]
  fallback := some "Wait"

/-- Waits as long as the schedule says. -/
def waitForCopy : WaitState where
  secondsPath := some "$.schedule.wait_time_seconds"
  transition := { next := some "GetJobStatus" }

/-- The error that a failed job ends with. -/
def jobFailed : FailState where
  error := some "CopyJobFailed"
  cause := some "Copy job did not complete successfully"

namespace Template

/-- The machine of one job. -/
def build (t : Template) (comment : String) (timeoutSeconds : Option UInt64)
    (parameters : Option Json) : Machine where
  comment := some comment
  startAt := "PreExecutionCheck"
  timeoutSeconds
  states := [
    ("Fail", .fail jobFailed),
    ("GetJobStatus",
      taskState t.handlers.getJobStatus parameters "$.status" "JobDone" "NotifyFailure"),
    ("JobDone", .choice (jobDone t.options.maxStatusChecks)),
    ("Notify", taskState t.handlers.notify parameters "$.notification" "Succeed" "NotifyFailure"),
    ("NotifyFailure",
      taskState t.handlers.notifyFailure parameters "$.notification" "Fail" "Fail"),
    ("PreExecutionCheck",
      taskState t.handlers.preExecutionCheck parameters "$.validation" "PreExecutionCheckPassed"
        "NotifyFailure"),
    ("PreExecutionCheckPassed", .choice checkPassed),
    ("ScheduleCopy",
      taskState t.handlers.scheduleCopy parameters "$.schedule" "Wait" "NotifyFailure"),
    ("Succeed", .succeed none),
    ("Wait", .wait waitForCopy)]

/-- The machine of a single job. -/
def machine (t : Template) : Machine := t.build t.options.comment t.options.timeoutSeconds none

end Template

end CopyJob

end Workflow
