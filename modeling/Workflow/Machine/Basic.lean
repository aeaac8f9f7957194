import Workflow.Entries
import Workflow.Json.Value
import Workflow.Task.Error

/-!
# State machines

A machine is a directed graph of named states with a state to start at. The branches of a parallel
state are machines of their own.

Only choice, succeed and fail states say by their kind where the run goes on; the other kinds have a
`Transition`, which may be anything a document can say and is only sensible after validation.
-/

namespace Workflow

/-! ## Retry and catch policies

A policy names the errors it is for. The name for all errors leaves out the faults of the engine
itself, which only a policy that names them sees. -/

/-- Grants repetitions of a failed attempt, each after a longer delay than the one before. -/
structure Retrier where
  errorEquals : List String
  intervalSeconds : UInt32 := 1
  /-- Zero means that these errors are never retried. -/
  maxAttempts : UInt32 := 3
  backoffRate : Float := 2.0

/-- Where to go with an error that is not retried, or not any more. -/
structure Catcher where
  errorEquals : List String
  next : String
  /-- Where the error is stored; the whole document if missing. -/
  resultPath : Option String := none
deriving DecidableEq

/-- Whether a list of error names covers an error. -/
def coversError (names : List String) (error : String) : Bool :=
  names.any fun name => name = error || (name = ErrorName.all && error ≠ ErrorName.runtime)

theorem coversError_iff {names : List String} {error : String} :
    coversError names error = true ↔
      error ∈ names ∨ (ErrorName.all ∈ names ∧ error ≠ ErrorName.runtime) := by
  simp only [coversError, List.any_eq_true, Bool.or_eq_true, Bool.and_eq_true, decide_eq_true_eq]
  constructor
  · rintro ⟨name, hmem, rfl | ⟨rfl, hne⟩⟩
    · exact .inl hmem
    · exact .inr ⟨hmem, hne⟩
  · rintro (hmem | ⟨hmem, hne⟩)
    · exact ⟨error, hmem, .inl rfl⟩
    · exact ⟨ErrorName.all, hmem, .inr ⟨rfl, hne⟩⟩

/-- The first catcher for an error. -/
def Catcher.for? (catchers : List Catcher) (error : String) : Option Catcher :=
  catchers.find? fun c => coversError c.errorEquals error

/-! ## Choice rules

A rule is a condition on the context document and, at the top level of a choice state, the state to
go to when the condition holds. Conditions are built from comparisons of one value each. -/

/-- How a value is compared with an expected one. -/
inductive Comparator where
  | stringEquals (expected : String)
  | numericEquals (expected : Float)
  | numericGreaterThan (expected : Float)
  | numericGreaterThanEquals (expected : Float)
  | numericLessThan (expected : Float)
  | numericLessThanEquals (expected : Float)
  | booleanEquals (expected : Bool)
  | isPresent (expected : Bool)
deriving DecidableEq

mutual

/-- A condition with the state it leads to. Rules nested inside a condition lead nowhere. -/
structure ChoiceRule where
  condition : Condition
  next : Option String := none

/-- A condition on the context document. -/
inductive Condition where
  | all (rules : List ChoiceRule)
  | any (rules : List ChoiceRule)
  | negate (rule : ChoiceRule)
  | compare (path : String) (comparator : Comparator)

end

instance : Inhabited Condition := ⟨.all []⟩

instance : Inhabited ChoiceRule := ⟨{ condition := .all [] }⟩

/-! ## States and machines -/

/-- What a document says about what follows a state. -/
structure Transition where
  next : Option String := none
  ending : Option Bool := none
deriving DecidableEq

/-- A state that has a task carried out. -/
structure TaskState where
  /-- The identifier of the task. -/
  resource : String
  parameters : Option Json := none
  /-- Where the result is stored; the whole document if missing. -/
  resultPath : Option String := none
  timeoutSeconds : Option UInt64 := none
  transition : Transition := {}
  retry : List Retrier := []
  catchers : List Catcher := []
  comment : Option String := none

/-- A state that selects the next one by looking at the context document. -/
structure ChoiceState where
  choices : List ChoiceRule
  fallback : Option String := none
  comment : Option String := none

/-- A state that lets time pass. -/
structure WaitState where
  seconds : Option UInt64 := none
  /-- Where the context document holds the number of seconds. -/
  secondsPath : Option String := none
  transition : Transition := {}
  comment : Option String := none

/-- What a parallel state has besides its branches. -/
structure ParallelSettings where
  resultPath : Option String := none
  transition : Transition := {}
  retry : List Retrier := []
  catchers : List Catcher := []
  comment : Option String := none

/-- A state that ends a run without success. -/
structure FailState where
  error : Option String := none
  cause : Option String := none
  comment : Option String := none

mutual

/-- A machine, or a branch of a parallel state. -/
structure Machine where
  comment : Option String := none
  startAt : String
  timeoutSeconds : Option UInt64 := none
  /-- The states in ascending order of their names. -/
  states : List (String × State)

/-- A state of a machine. -/
inductive State where
  | task (task : TaskState)
  | choice (choice : ChoiceState)
  | wait (wait : WaitState)
  /-- Runs every branch on the same document. -/
  | parallel (branches : List Machine) (settings : ParallelSettings)
  | succeed (comment : Option String)
  | fail (fail : FailState)

end

instance : Inhabited State := ⟨.succeed none⟩

instance : Inhabited Machine := ⟨{ startAt := "", states := [] }⟩

/-- The kinds of states. -/
inductive StateKind where
  | task
  | choice
  | wait
  | parallel
  | succeed
  | fail
deriving DecidableEq

namespace StateKind

def all : List StateKind := [.task, .choice, .wait, .parallel, .succeed, .fail]

def name : StateKind → String
  | .task => "Task"
  | .choice => "Choice"
  | .wait => "Wait"
  | .parallel => "Parallel"
  | .succeed => "Succeed"
  | .fail => "Fail"

/-- The kind of a name. -/
def ofName? (name : String) : Option StateKind := all.find? fun k => k.name = name

end StateKind

namespace State

def kind : State → StateKind
  | .task _ => .task
  | .choice _ => .choice
  | .wait _ => .wait
  | .parallel _ _ => .parallel
  | .succeed _ => .succeed
  | .fail _ => .fail

/-- What the document says about what follows. -/
def transition : State → Transition
  | .task t => t.transition
  | .wait w => w.transition
  | .parallel _ p => p.transition
  | .choice _ | .succeed _ | .fail _ => {}

/-- Whether a run is over after this state by its kind alone. -/
def isTerminal : State → Bool
  | .succeed _ | .fail _ => true
  | _ => false

def retriers : State → List Retrier
  | .task t => t.retry
  | .parallel _ p => p.retry
  | _ => []

def catchers : State → List Catcher
  | .task t => t.catchers
  | .parallel _ p => p.catchers
  | _ => []

/-- Every state that a run may go to from here. -/
def targets (s : State) : List String :=
  s.transition.next.toList ++ s.catchers.map Catcher.next ++
    match s with
    | .choice c => c.choices.filterMap ChoiceRule.next ++ c.fallback.toList
    | _ => []

end State

namespace Machine

/-- The state of a name. -/
def state? (m : Machine) (name : String) : Option State := Entries.find? name m.states

def has (m : Machine) (name : String) : Bool := Entries.has name m.states

/-- The names of the states in ascending order. -/
def names (m : Machine) : List String := Entries.names m.states

/-- The names of the task states, those of branches not included. -/
def taskNames (m : Machine) : List String :=
  m.states.filterMap fun (name, s) => if s.kind = .task then some name else none

end Machine

end Workflow
