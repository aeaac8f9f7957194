import Workflow.Json.Pointer
import Workflow.Json.Record

/-!
# What a task is told

A task gets the context document as it is, the parameters of its state, and which attempt this is.
-/

namespace Workflow

/-- The circumstances of one invocation of a task. -/
structure TaskContext where
  /-- Names the run. -/
  executionId : String := ""
  /-- The state that invokes the task. -/
  state : String := ""
  /-- The number of earlier attempts. -/
  attempt : Nat := 0
  /-- The context document. -/
  input : Json := .null
  parameters : Option Json := none
deriving Inhabited

namespace TaskContext

/-- The part of the context document that a pointer names. -/
def inputAt? (ctx : TaskContext) (pointer : String) : Option Json := ctx.input.pointer? pointer

/-- A parameter of the state. -/
def parameter? (ctx : TaskContext) (name : String) : Option Json :=
  ctx.parameters.bind (Json.get? name)

/-- The context as a document. Parameters that are not there are left out. -/
def toJson (ctx : TaskContext) : Json :=
  .object ([("execution_id", .string ctx.executionId), ("state", .string ctx.state),
    ("attempt", .ofNat ctx.attempt), ("input", ctx.input)]
    ++ match ctx.parameters with
      | none => []
      | some p => [("parameters", p)])

/-- Reads a context. Only its run and its state have to be given. -/
def ofJson? (v : Json) : Option TaskContext := do
  let fields ← v.record? ["execution_id", "state", "attempt", "input", "parameters"]
  let field (name : String) := Entries.find? name fields
  return {
    executionId := ← Json.required Json.string? (field "execution_id")
    state := ← Json.required Json.string? (field "state")
    attempt := ← Json.defaulting 0 (fun v => v.uint32?.map UInt32.toNat) (field "attempt")
    input := ← Json.defaulting .null Json.free? (field "input")
    parameters := ← Json.optional Json.free? (field "parameters") }

end TaskContext

end Workflow
