import Workflow.Json.Value
import Workflow.Task.Handler

/-!
# Annotated and concrete documents

A workflow definition is a tree of mappings, sequences, texts and scalars in which two things may
stand for others: a handler, for the resource identifier of a task, and a replication, for a number
of copies of its node. Expanding it gives a concrete tree, which has no replications left.
-/

namespace Workflow

/-- A literal that expansion passes through. -/
inductive Scalar where
  | null
  | bool (b : Bool)
  | number (n : Number)
deriving DecidableEq

def Scalar.toJson : Scalar → Json
  | .null => .null
  | .bool b => .bool b
  | .number n => .number n

/-- A fragment of a definition. -/
inductive Annotated where
  /-- Values under names, in ascending order. -/
  | mapping (entries : List (String × Annotated))
  | sequence (items : List Annotated)
  /-- A text that may hold tokens. -/
  | text (s : String)
  | handler (h : Handler)
  /-- `pool` copies of `node`; in copy `i` the token stands for `i`. -/
  | replicate (token : String) (pool : Int64) (node : Annotated)
  | scalar (s : Scalar)
deriving Inhabited

/-- A fragment without replications. -/
inductive Concrete where
  | mapping (entries : List (String × Concrete))
  | sequence (items : List Concrete)
  | text (s : String)
  /-- A handler as it was written, or bound to the index of a copy. -/
  | handler (h : Handler)
  | scalar (s : Scalar)
deriving Inhabited

/-! ## Plain values -/

namespace Annotated

mutual

/-- A value without annotations, whatever its names look like. -/
def ofPlain : Json → Annotated
  | .null => .scalar .null
  | .bool b => .scalar (.bool b)
  | .number n => .scalar (.number n)
  | .string s => .text s
  | .array items => .sequence (ofPlainItems items)
  | .object fields => .mapping (ofPlainFields fields)

def ofPlainItems : List Json → List Annotated
  | [] => []
  | v :: vs => ofPlain v :: ofPlainItems vs

def ofPlainFields : List (String × Json) → List (String × Annotated)
  | [] => []
  | (name, v) :: fields => (name, ofPlain v) :: ofPlainFields fields

end

/-- The node with its entry at `name` changed by `f`; nothing if there is no such entry. -/
def changeAt? (name : String) (f : Annotated → Option Annotated) : Annotated → Option Annotated
  | .mapping entries => do
    let old ← Entries.find? name entries
    let new ← f old
    return .mapping (Entries.replace name new entries)
  | _ => none

/-- The mapping with one more entry, or another one under that name. -/
def insert? (name : String) (node : Annotated) : Annotated → Option Annotated
  | .mapping entries => some (.mapping (Entries.insert name node entries))
  | _ => none

end Annotated

namespace Concrete

mutual

/-- The document, with the identifiers of the handlers in their places. -/
def toJson : Concrete → Json
  | .mapping entries => .object (toJsonFields entries)
  | .sequence items => .array (toJsonItems items)
  | .text s => .string s
  | .handler h => .string h.name
  | .scalar s => s.toJson

def toJsonItems : List Concrete → List Json
  | [] => []
  | c :: cs => toJson c :: toJsonItems cs

def toJsonFields : List (String × Concrete) → List (String × Json)
  | [] => []
  | (name, c) :: entries => (name, toJson c) :: toJsonFields entries

end

/-- The entry of a mapping. -/
def get? (name : String) : Concrete → Option Concrete
  | .mapping entries => Entries.find? name entries
  | _ => none

def text? : Concrete → Option String
  | .text s => some s
  | _ => none

def items? : Concrete → Option (List Concrete)
  | .sequence items => some items
  | _ => none

def handler? : Concrete → Option Handler
  | .handler h => some h
  | _ => none

mutual

/-- The handlers in the order of the document. -/
def handlers : Concrete → List Handler
  | .mapping entries => handlersOfEntries entries
  | .sequence items => handlersOfItems items
  | .handler h => [h]
  | .text _ => []
  | .scalar _ => []

def handlersOfItems : List Concrete → List Handler
  | [] => []
  | c :: cs => handlers c ++ handlersOfItems cs

def handlersOfEntries : List (String × Concrete) → List Handler
  | [] => []
  | (_, c) :: entries => handlers c ++ handlersOfEntries entries

end

end Concrete

end Workflow
