import Workflow.Task.Context
import Workflow.Task.Error
import Workflow.Text.Escape

/-!
# Task handlers

A handler is what a task state refers to: a task carried out in this process, the mere name of a
task that some other engine carries out, or either of them tied to the branch index of a copy.

What the local tasks do is no part of a handler. It is given by a `Performer`, which sees every
invocation and may keep a state of its own from one to the next.
-/

namespace Workflow

/-! ## Branch indices

A copy made inside nested replications, and a branch inside nested parallel states, is known by the
indices on the way to it, the outermost first. -/

/-- The indices of a copy, the outermost first. -/
abbrev BranchIndex := List Nat

namespace BranchIndex

/-- The index given by the outermost replication. -/
def outermost? (b : BranchIndex) : Option Nat := b.head?

/-- The index given by the closest replication. -/
def innermost? (b : BranchIndex) : Option Nat := b.getLast?

/-- The indices as a tuple. -/
def display (b : BranchIndex) : String := "(" ++ String.intercalate ", " (b.map wholeText) ++ ")"

end BranchIndex

/-! ## Handlers -/

/-- A task carried out in this process. -/
structure LocalTask where
  name : String
  /-- Whether the task can be told which copy it works for. -/
  acceptsBranch : Bool := true
  /-- Tells apart tasks that share a name. -/
  serial : Nat := 0
deriving DecidableEq

/-- What a task state refers to. -/
inductive Handler where
  | here (task : LocalTask)
  | elsewhere (name : String)
  | bound (inner : Handler) (branch : BranchIndex)
deriving DecidableEq

namespace Handler

/-- The resource identifier. -/
def name : Handler → String
  | .here task => task.name
  | .elsewhere name => name
  | .bound inner _ => inner.name

/-- Whether the handler takes a branch index. -/
def acceptsBranch : Handler → Bool
  | .here task => task.acceptsBranch
  | .elsewhere _ => true
  | .bound inner _ => inner.acceptsBranch

/-- The handler for people to read. -/
def describe (h : Handler) : String := "TaskHandler \x7b name: " ++ Text.shown h.name ++ " \x7d"

end Handler

/-! ## Invocation -/

/-- One call of a local task. -/
structure Invocation where
  task : LocalTask
  context : TaskContext
  branch : Option BranchIndex

/-- The answer to an invocation and the time it took; `none` is longer than any limit. -/
structure Reply where
  result : Except TaskError Json
  seconds : Option Nat := some 0

/-- The result of a reply under a time limit. Without a limit the reply is waited for. -/
def Reply.within (r : Reply) : Option Nat → Except TaskError Json
  | none => r.result
  | some limit =>
    match r.seconds with
    | none => .error (.timeout limit)
    | some seconds => if limit < seconds then .error (.timeout limit) else r.result

/-- What the local tasks do, with a state kept between invocations. -/
abbrev Performer (σ : Type) := Invocation → σ → Reply × σ

/-- Calls a handler. A bound handler passes on its own branch index, whatever it is called with. -/
def Handler.invoke {σ : Type} (perform : Performer σ) :
    Handler → TaskContext → Option BranchIndex → σ → Reply × σ
  | .here task, ctx, branch, s => perform ⟨task, ctx, branch⟩ s
  | .elsewhere name, _, _, s => ({ result := .error (.unavailable name) }, s)
  | .bound inner b, ctx, _, s => inner.invoke perform ctx (some b) s

end Workflow
