import Workflow.Machine.Reading
import Workflow.Machine.Scope
import Workflow.Machine.Writing
import Workflow.Template.Expansion

/-!
# Workflow documents

A document is a machine together with the handlers that its task states were built with. A document
that comes out of an expansion has them in its tree; one that was read from text has none, and its
resource names are looked up when it is run.
-/

namespace Workflow

/-- Handlers filed under a scope and the name of a state, each pair once. -/
structure HandlerTable where
  entries : List ((Scope × String) × Handler) := []

namespace HandlerTable

def get? (t : HandlerTable) (scope : Scope) (state : String) : Option Handler :=
  (t.entries.find? fun e => e.1 = (scope, state)).map Prod.snd

/-- Files a handler, in the place of an earlier one if there is one. -/
def insert (t : HandlerTable) (scope : Scope) (state : String) (h : Handler) : HandlerTable :=
  ⟨((scope, state), h) :: t.entries.filter fun e => e.1 ≠ (scope, state)⟩

def size (t : HandlerTable) : Nat := t.entries.length

def isEmpty (t : HandlerTable) : Bool := t.entries.isEmpty

@[simp] theorem get?_insert_self (t : HandlerTable) (scope : Scope) (state : String) (h : Handler) :
    (t.insert scope state h).get? scope state = some h := by
  simp [get?, insert]

theorem get?_insert_of_ne (t : HandlerTable) {scope scope' : Scope} {state state' : String}
    (h : Handler) (hne : (scope', state') ≠ (scope, state)) :
    (t.insert scope state h).get? scope' state' = t.get? scope' state' := by
  have hne' : ¬(scope, state) = (scope', state') := fun e ↦ hne e.symm
  simp only [get?, insert, List.find?_cons, hne', decide_false]
  induction t.entries with
  | nil => rfl
  | cons e es ih =>
    by_cases he : e.1 = (scope, state)
    · have h1 : (scope, state) ≠ (scope', state') := fun e ↦ hne e.symm
      simpa [he, h1] using ih
    · by_cases he' : e.1 = (scope', state')
      · simp [he', hne]
      · simpa [List.find?_cons, he, he'] using ih

end HandlerTable

/-! ## The handlers of a tree -/

mutual

/-- Files the handlers of a machine and its branches. -/
def fileMachine (scope : Scope) : Concrete → HandlerTable → HandlerTable
  | .mapping fields, t => fileMachineFields scope fields t
  | .sequence _, t => t
  | .text _, t => t
  | .handler _, t => t
  | .scalar _, t => t

/-- Looks for the states of a machine. -/
def fileMachineFields (scope : Scope) : List (String × Concrete) → HandlerTable → HandlerTable
  | [], t => t
  | (name, c) :: fields, t =>
    if name = "States" then fileStates scope c t else fileMachineFields scope fields t

def fileStates (scope : Scope) : Concrete → HandlerTable → HandlerTable
  | .mapping states, t => fileStateEntries scope states t
  | .sequence _, t => t
  | .text _, t => t
  | .handler _, t => t
  | .scalar _, t => t

/-- The handler of a state comes before those of its branches. -/
def fileStateEntries (scope : Scope) : List (String × Concrete) → HandlerTable → HandlerTable
  | [], t => t
  | (name, c) :: states, t =>
    let own := match (c.get? "Resource").bind Concrete.handler? with
      | some h => t.insert scope name h
      | none => t
    fileStateEntries scope states (fileState scope name c own)

/-- Files what is inside a state. -/
def fileState (scope : Scope) (name : String) : Concrete → HandlerTable → HandlerTable
  | .mapping fields, t => fileStateFields scope name fields t
  | .sequence _, t => t
  | .text _, t => t
  | .handler _, t => t
  | .scalar _, t => t

/-- Looks for the branches of a state. -/
def fileStateFields (scope : Scope) (name : String) :
    List (String × Concrete) → HandlerTable → HandlerTable
  | [], t => t
  | (field, c) :: fields, t =>
    if field = "Branches" then fileBranches scope name c t else fileStateFields scope name fields t

def fileBranches (scope : Scope) (name : String) : Concrete → HandlerTable → HandlerTable
  | .sequence branches, t => fileBranchItems scope name 0 branches t
  | .mapping _, t => t
  | .text _, t => t
  | .handler _, t => t
  | .scalar _, t => t

def fileBranchItems (scope : Scope) (name : String) (index : Nat) :
    List Concrete → HandlerTable → HandlerTable
  | [], t => t
  | c :: cs, t =>
    fileBranchItems scope name (index + 1) cs (fileMachine (scope.branch name index) c t)

end

/-- Why a definition gives no document. -/
inductive DocumentError where
  | expansion (e : ExpansionError)
  /-- What the definition expands to has not the shape of a machine. -/
  | shape
deriving DecidableEq

def DocumentError.message : DocumentError → String
  | .expansion e => e.message
  | .shape => "the definition does not expand to a machine"

/-- A machine and the handlers of its task states. -/
structure WorkflowDocument where
  machine : Machine
  handlers : HandlerTable := {}

namespace WorkflowDocument

/-- A document without handlers of its own. -/
def ofMachine (m : Machine) : WorkflowDocument := { machine := m }

/-- Reads the result of an expansion. -/
def ofConcrete? (c : Concrete) : Option WorkflowDocument :=
  (Machine.ofJson? c.toJson).map fun machine =>
    { machine, handlers := fileMachine Scope.root c {} }

/-- Expands a definition and reads the result. -/
def ofAnnotated (node : Annotated) : Except DocumentError WorkflowDocument :=
  match node.expand with
  | .error e => .error (.expansion e)
  | .ok c =>
    match ofConcrete? c with
    | some d => .ok d
    | none => .error .shape

/-- The handler that the document has for a state. -/
def handler? (d : WorkflowDocument) (scope : Scope) (state : String) : Option Handler :=
  d.handlers.get? scope state

end WorkflowDocument

end Workflow
