import Workflow.Decimal.Layout
import Workflow.Machine.Basic
import Workflow.Machine.Path

/-!
# Faults of a machine

What validation finds wrong with a machine, and where. A fault is about a machine as a whole or
about one of its states; a branch is a machine inside a state.
-/

namespace Workflow

/-- The way to a machine from the whole document. -/
inductive Place where
  | root
  | branch (outer : Place) (state : String) (index : Nat)
deriving DecidableEq

/-- The beginning of every sentence about a machine. -/
def Place.lead : Place → String
  | .root => ""
  | .branch outer state index => s!"{outer.lead}State '{state}' branch {wholeText index}: "

/-- What can be wrong with a machine as a whole. -/
inductive MachineFault where
  | noStates
  | unknownStart (name : String)
  | zeroTimeout
  /-- A branch with a time limit of its own. -/
  | branchTimeout
  | blankName
  | unreachable (name start : String)
deriving DecidableEq

def MachineFault.message : MachineFault → String
  | .noStates => "state machine has no states"
  | .unknownStart name => s!"StartAt '{name}' does not name a state"
  | .zeroTimeout => "TimeoutSeconds must be positive"
  | .branchTimeout => "TimeoutSeconds is not allowed on a branch"
  | .blankName => "state names must not be empty"
  | .unreachable name start => s!"State '{name}' is not reachable from '{start}'"

/-- The two kinds of policies. -/
inductive PolicyBlock where
  | retry
  | recovery
deriving DecidableEq

def PolicyBlock.name : PolicyBlock → String
  | .retry => "Retry"
  | .recovery => "Catch"

/-- What can be wrong with a state. -/
inductive StateFault where
  | nextAndEnd
  | neitherNextNorEnd (kind : StateKind)
  | unknownTarget (name : String)
  | badPath (field : String) (error : PathError)
  | zeroTimeout
  | blankResource
  | noBranches
  /-- A wait state with two durations or none. -/
  | duration
  | noRules
  | ruleWithoutNext
  | emptyRules
  | nestedNext
  | noErrorNames (block : PolicyBlock)
  /-- The name for all errors beside others, or before the last entry. -/
  | misplacedAll (block : PolicyBlock)
  | zeroInterval
  | backoffRate (rate : Float)
deriving DecidableEq

def StateFault.message : StateFault → String
  | .nextAndEnd => "Next and End are mutually exclusive"
  | .neitherNextNorEnd kind => s!"{kind.name} state needs Next or End"
  | .unknownTarget name => s!"transition to unknown state '{name}'"
  | .badPath field error => s!"{field}: {error.message}"
  | .zeroTimeout => "TimeoutSeconds must be positive"
  | .blankResource => "Resource is empty"
  | .noBranches => "Parallel state has no branches"
  | .duration => "Wait state needs exactly one of Seconds or SecondsPath"
  | .noRules => "Choice state has no rules"
  | .ruleWithoutNext => "top-level choice rule has no Next"
  | .emptyRules => "And/Or needs at least one rule"
  | .nestedNext => "nested choice rules must not carry Next"
  | .noErrorNames block => s!"{block.name} ErrorEquals is empty"
  | .misplacedAll block =>
    s!"{block.name} '{ErrorName.all}' must appear alone in the last entry"
  | .zeroInterval => "Retry IntervalSeconds must be at least 1"
  | .backoffRate rate =>
    "Retry BackoffRate must be a finite number of at least 1.0, got "
      ++ FloatLayout.plain.render rate

/-- What is wrong with a machine, and where. -/
inductive Fault where
  | machine (place : Place) (fault : MachineFault)
  | state (place : Place) (name : String) (fault : StateFault)
deriving DecidableEq

def Fault.message : Fault → String
  | .machine place fault => s!"{place.lead}{fault.message}"
  | .state place name fault => s!"{place.lead}State '{name}': {fault.message}"

/-- A task state without a policy. -/
inductive PolicyFault where
  | noRetry (state : String)
  | noCatch (state : String)
deriving DecidableEq

def PolicyFault.message : PolicyFault → String
  | .noRetry state => s!"Task '{state}' has no Retry policy"
  | .noCatch state => s!"Task '{state}' has no Catch policy"

end Workflow
