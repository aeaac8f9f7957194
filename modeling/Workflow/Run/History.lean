import Workflow.Machine.Scope
import Workflow.Task.Handler

/-!
# The history of a run

A run is recorded as a tree: the visits of a scope in order, and inside the visit of a parallel
state the runs of its branches, round by round. Clocks count virtual seconds: waiting and the delays
before retries take time, nothing else does.

The trace that people see lists the positions in the order in which they were entered. It is read
off the tree and not kept beside it.
-/

namespace Workflow

/-- An error with its cause. -/
structure Failure where
  error : String
  cause : String
deriving DecidableEq

/-- A fault of the document or of the engine. -/
def Failure.runtime (cause : String) : Failure := ⟨ErrorName.runtime, cause⟩

/-- What a state decides. -/
inductive Step where
  | next (name : String)
  | finish
  | fail (failure : Failure)
  /-- The deadline has passed. -/
  | outOfTime
deriving DecidableEq

/-- How the run of a scope ends. -/
inductive Verdict where
  | succeeded
  | failed (failure : Failure)
  | timedOut
deriving DecidableEq

/-- The context document at some time. -/
structure Moment where
  document : Json
  clock : Nat

/-- One attempt at a state and the delay of the retry that followed it, if one was granted. -/
structure Attempt (ρ : Type) where
  record : ρ
  delay : Option Nat := none

/-- One call of the task of a state. -/
structure Call where
  /-- The handler, unless there is none. -/
  handler : Option Handler
  context : TaskContext
  branch : Option BranchIndex
  result : Except TaskError Json

mutual

/-- What went on while a state was visited. -/
inductive Activity where
  | none
  | waited (seconds : Nat)
  | called (calls : List (Attempt Call))
  /-- The branches that were started, in each round. -/
  | forked (rounds : List (Attempt (List ScopeRun)))

/-- One visit of a state. -/
structure Visit where
  state : String
  entry : Moment
  activity : Activity
  step : Step
  exit : Moment

/-- The run of one scope. -/
structure ScopeRun where
  scope : Scope
  start : Moment
  visits : List Visit
  verdict : Verdict
  /-- The document and the clock at the end. -/
  final : Moment

end

instance : Inhabited Moment := ⟨⟨.null, 0⟩⟩

instance : Inhabited ScopeRun := ⟨⟨Scope.root, default, [], .timedOut, default⟩⟩

/-! ## The trace -/

mutual

/-- The positions entered in the run of a scope. -/
def ScopeRun.trace : ScopeRun → List String
  | ⟨scope, _, visits, _, _⟩ => traceVisits scope visits

def traceVisits (scope : Scope) : List Visit → List String
  | [] => []
  | v :: vs => traceVisit scope v ++ traceVisits scope vs

def traceVisit (scope : Scope) : Visit → List String
  | ⟨state, _, activity, _, _⟩ => scope.position state :: traceActivity activity

def traceActivity : Activity → List String
  | .none => []
  | .waited _ => []
  | .called _ => []
  | .forked rounds => traceRounds rounds

def traceRounds : List (Attempt (List ScopeRun)) → List String
  | [] => []
  | ⟨runs, _⟩ :: rounds => traceRuns runs ++ traceRounds rounds

def traceRuns : List ScopeRun → List String
  | [] => []
  | r :: rs => ScopeRun.trace r ++ traceRuns rs

end

end Workflow
