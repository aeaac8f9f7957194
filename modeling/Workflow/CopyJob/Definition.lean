import Workflow.CopyJob.Machine
import Workflow.Machine.Writing
import Workflow.Template.Annotated

/-!
# Definitions of copy jobs

A definition is the tree of a machine with the handlers themselves in the places of the resource
names. The definition of a fan-out has one parallel state with a replication of the single job as
its branches: every copy is a worker that is told its index and the number of workers.
-/

namespace Workflow

namespace CopyJob

/-- Why there is no definition. -/
inductive DefinitionError where
  | noTask (state : String)
  | noFanOut (state : String)
deriving DecidableEq

def DefinitionError.message : DefinitionError → String
  | .noTask state => s!"Task '{state}' missing from job definition"
  | .noFanOut state => s!"fan-out state '{state}' missing from definition"

/-- The parallel state of a fan-out. -/
def fanOutState : String := "CopyWorkers"

/-- Puts a node under a name into a state of a machine. -/
def insertIntoState? (state name : String) (node machine : Annotated) : Option Annotated :=
  machine.changeAt? "States" fun states =>
    states.changeAt? state (Annotated.insert? name node)

/-- Puts handlers in the places of resource names. -/
def annotate : List (String × Handler) → Annotated → Except DefinitionError Annotated
  | [], node => .ok node
  | (state, h) :: handlers, node =>
    match insertIntoState? state "Resource" (.handler h) node with
    | some node => annotate handlers node
    | none => .error (.noTask state)

/-- The tree of a machine, without annotations. -/
def plainTree (m : Machine) : Annotated := Annotated.ofPlain m.toJson.canonical

namespace Template

/-- The definition of a single job. -/
def definition (t : Template) : Except DefinitionError Annotated :=
  annotate t.handlers.byState (plainTree t.machine)

/-- What every task of a worker is told. -/
def workerParameters (pool : Int64) (token : String) : Json :=
  .object [("pool_size", .ofInt64 pool), ("shard", .string token)]

/-- The machine of a worker. It has no time limit of its own. -/
def worker (t : Template) (pool : Int64) (token : String) : Machine :=
  t.build s!"{t.options.comment} (worker {token})" none (some (workerParameters pool token))

/-- The machine around the workers, which has no branches yet. -/
def fanOutFrame (t : Template) (pool : Int64) : Machine where
  comment := some s!"{t.options.comment} ({integerText pool.toInt} workers)"
  startAt := fanOutState
  timeoutSeconds := t.options.timeoutSeconds
  states := [(fanOutState, .parallel [] {
    resultPath := some "$.workers", transition := { ending := some true } })]

/-- The definition of `pool` workers, who are told apart by `token`. -/
def fanOut (t : Template) (pool : Int64) (token : String) : Except DefinitionError Annotated := do
  let branch ← annotate t.handlers.byState (plainTree (t.worker pool token))
  let frame := plainTree (t.fanOutFrame pool)
  match insertIntoState? fanOutState "Branches" (.replicate token pool branch) frame with
  | some node => return node
  | none => .error (.noFanOut fanOutState)

end Template

end CopyJob

end Workflow
