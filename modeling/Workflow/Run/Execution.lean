import Workflow.Json.Record
import Workflow.Run.Engine

/-!
# Executions

What is kept of a run when it is over: its status, the positions it entered, the context document at
the end, the error it ended with, and the virtual seconds it took.
-/

namespace Workflow

/-- How far a run has come. -/
inductive ExecutionStatus where
  | running
  | succeeded
  | failed
  | timedOut
deriving DecidableEq

namespace ExecutionStatus

def all : List ExecutionStatus := [.running, .succeeded, .failed, .timedOut]

def name : ExecutionStatus → String
  | .running => "running"
  | .succeeded => "succeeded"
  | .failed => "failed"
  | .timedOut => "timed_out"

def ofName? (name : String) : Option ExecutionStatus := all.find? fun s => s.name = name

/-- Reads a status: its name, or an object that has the name alone and holds nothing. -/
def ofJson? : Json → Option ExecutionStatus
  | .string s => ofName? s
  | .object [(name, .null)] => ofName? name
  | _ => none

theorem ofName?_name (s : ExecutionStatus) : ofName? s.name = some s := by
  cases s <;> decide

end ExecutionStatus

/-- A run and what came of it. -/
structure Execution where
  status : ExecutionStatus := .running
  /-- The positions entered, in order. -/
  trace : List String := []
  /-- The context document. -/
  output : Json
  error : Option String := none
  cause : Option String := none
  elapsedSeconds : UInt64 := 0

namespace Execution

/-- The outcome of the run of a whole document with some time limit. -/
def ofRun (limit : Option UInt64) (r : ScopeRun) : Execution :=
  let base : Execution := {
    trace := r.trace, output := r.final.document, elapsedSeconds := UInt64.ofNat r.final.clock }
  match r.verdict with
  | .succeeded => { base with status := .succeeded }
  | .failed f => { base with status := .failed, error := some f.error, cause := some f.cause }
  | .timedOut =>
    let seconds := (limit.getD 0).toNat
    { base with
      status := .timedOut
      error := some ErrorName.timeout
      cause := some s!"execution exceeded {wholeText seconds} seconds" }

def isFinished (x : Execution) : Bool := x.status ≠ .running

/-- The transitions taken, which are the states entered after the first. -/
def transitions (x : Execution) : Nat := x.trace.length - 1

/-- The transitions taken after a position was first entered. -/
def transitionsAfter? (x : Execution) (position : String) : Option Nat :=
  (x.trace.findIdx? fun p => p = position).map fun i => x.trace.length - i - 1

/-- How often a position was entered. -/
def visits (x : Execution) (position : String) : Nat := x.trace.count position

/-- The execution with one more position entered. -/
def enter (x : Execution) (position : String) : Execution :=
  { x with trace := x.trace ++ [position] }

end Execution

/-- Runs the document on an input, to the end. -/
def Engine.execute {σ : Type} (e : Engine σ) (input : Json) (world : σ) : Execution × σ :=
  let (r, world) := e.run input world
  (.ofRun e.deadline r, world)

end Workflow
