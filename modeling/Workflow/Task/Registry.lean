import Workflow.Entries
import Workflow.Task.Handler
import Workflow.Text.Escape

/-!
# The registry of handlers

A registry holds handlers under their own names; a later one replaces an earlier one of the same
name. A `Resolver` is anything that finds handlers by name: a registry, or the one that knows every
name as a task of some other engine.
-/

namespace Workflow

/-- Finds handlers by name. -/
abbrev Resolver := String → Option Handler

/-- Knows every name, as a task carried out elsewhere. -/
def Resolver.remote : Resolver := fun name => some (.elsewhere name)

/-- Handlers under their own names. -/
structure Registry where
  handlers : Entries Handler := []

namespace Registry

/-- Adds a handler under its name. -/
def register (r : Registry) (h : Handler) : Registry := ⟨Entries.insert h.name h r.handlers⟩

def get? (r : Registry) (name : String) : Option Handler := Entries.find? name r.handlers

def has (r : Registry) (name : String) : Bool := Entries.has name r.handlers

/-- The names in ascending order. -/
def names (r : Registry) : List String := Entries.names r.handlers

/-- The registry as a resolver. -/
def resolver (r : Registry) : Resolver := r.get?

/-- The names for people to read. -/
def describe (r : Registry) : String :=
  "HandlerRegistry \x7b handlers: [" ++ String.intercalate ", " (r.names.map Text.shown) ++ "] \x7d"

/-- Calls the handler of a name. -/
def invoke {σ : Type} (perform : Performer σ) (r : Registry) (name : String) (ctx : TaskContext)
    (branch : Option BranchIndex) (s : σ) : Reply × σ :=
  match r.get? name with
  | some h => h.invoke perform ctx branch s
  | none => ({ result := .error (.notFound name) }, s)

@[simp] theorem get?_register_self (r : Registry) (h : Handler) :
    (r.register h).get? h.name = some h := by simp [get?, register]

theorem get?_register_of_ne (r : Registry) (h : Handler) {name : String} (hn : name ≠ h.name) :
    (r.register h).get? name = r.get? name := Entries.find?_insert_of_ne h r.handlers hn

end Registry

end Workflow
