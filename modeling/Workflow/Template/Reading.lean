import Workflow.Task.Registry
import Workflow.Template.Annotated
import Workflow.Template.Error

/-!
# Reading and writing annotations

An object with a single name that starts with a dollar sign is an annotation:

```text
{"$handler": "copy-notify"}
{"$replicate": {"template_string": "{shard}", "pool_size": 4, "node": {}}}
```

Everything else stands for itself. `Annotated.written` is the way back.
-/

namespace Workflow

/-- Whether a name is that of an annotation, if it stands alone. -/
def isAnnotationKey (name : String) : Bool := name.toList.head? = some '$'

/-- Refers to a handler by name. -/
def handlerKey : String := "$handler"

/-- Asks for copies of a node. -/
def replicateKey : String := "$replicate"

namespace Annotated

/-- The handler that the body of a handler annotation names. -/
def handlerOf (resolve : Resolver) (body : Json) : Except ExpansionError Annotated :=
  match body.string? with
  | none => .error (.malformed handlerKey "expected a handler name")
  | some name =>
    match resolve name with
    | none => .error (.unknownHandler name)
    | some h => .ok (.handler h)

/-- Token and pool size of a replication. -/
def replicationHead (fields : List (String × Json)) : Except ExpansionError (String × Int64) :=
  match (Entries.find? "template_string" fields).bind Json.string? with
  | none =>
    .error (.malformed replicateKey "missing string field 'template_string'")
  | some token =>
    match (Entries.find? "pool_size" fields).bind Json.int64? with
    | none => .error (.malformed replicateKey "missing integer field 'pool_size'")
    | some pool => .ok (token, pool)

mutual

/-- Reads a definition. -/
def read (resolve : Resolver) : Json → Except ExpansionError Annotated
  | .array items => (readItems resolve items).map .sequence
  | .object [(name, body)] =>
    if name = handlerKey then handlerOf resolve body
    else if name = replicateKey then
      match body with
      | .object fields =>
        match replicationHead fields with
        | .error e => .error e
        | .ok (token, pool) => (readNode resolve fields).map (.replicate token pool)
      | _ => .error (.malformed replicateKey "expected an object")
    else if isAnnotationKey name then .error (.unhandled name)
    else (read resolve body).map fun node => .mapping [(name, node)]
  | .object fields => (readFields resolve fields).map .mapping
  | .null => .ok (.scalar .null)
  | .bool b => .ok (.scalar (.bool b))
  | .number n => .ok (.scalar (.number n))
  | .string s => .ok (.text s)

def readItems (resolve : Resolver) : List Json → Except ExpansionError (List Annotated)
  | [] => .ok []
  | v :: vs =>
    match read resolve v with
    | .error e => .error e
    | .ok node => (readItems resolve vs).map (node :: ·)

def readFields (resolve : Resolver) :
    List (String × Json) → Except ExpansionError (List (String × Annotated))
  | [] => .ok []
  | (name, v) :: fields =>
    match read resolve v with
    | .error e => .error e
    | .ok node => (readFields resolve fields).map ((name, node) :: ·)

/-- The node of a replication, among its fields. -/
def readNode (resolve : Resolver) : List (String × Json) → Except ExpansionError Annotated
  | [] => .error (.malformed replicateKey "missing field 'node'")
  | (name, v) :: fields => if name = "node" then read resolve v else readNode resolve fields

end

mutual

/-- The value that a definition is written as. -/
def written : Annotated → Json
  | .mapping entries => .object (writtenEntries entries)
  | .sequence items => .array (writtenItems items)
  | .text s => .string s
  | .handler h => .object [(handlerKey, .string h.name)]
  | .replicate token pool node =>
    .object [(replicateKey, .object
      [("node", written node), ("pool_size", .ofInt64 pool), ("template_string", .string token)])]
  | .scalar s => s.toJson

def writtenItems : List Annotated → List Json
  | [] => []
  | node :: nodes => written node :: writtenItems nodes

def writtenEntries : List (String × Annotated) → List (String × Json)
  | [] => []
  | (name, node) :: entries => (name, written node) :: writtenEntries entries

end

end Annotated

end Workflow
