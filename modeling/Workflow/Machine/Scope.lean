import Workflow.Decimal.Layout

/-!
# Scopes and positions

A scope is the machine a state stands in, told by the way to it: the root machine has the empty
scope, and every branch on the way adds the name of its parallel state and its index in brackets.
Handlers are filed under a scope and a state, and a trace lists positions.
-/

namespace Workflow

/-- The way to a machine inside a document. -/
abbrev Scope := String

namespace Scope

/-- The scope of the whole machine. -/
def root : Scope := ""

/-- The scope of a branch of the parallel state `state`. -/
def branch (parent : Scope) (state : String) (index : Nat) : Scope :=
  let step := s!"{state}[{wholeText index}]"
  if parent = root then step else s!"{parent}/{step}"

/-- The name of a state together with its scope. -/
def position (scope : Scope) (state : String) : String :=
  if scope = root then state else s!"{scope}/{state}"

/-- The scope at the end of a chain of parallel states and branch indices. -/
def ofChain (chain : List (String × Nat)) : Scope :=
  chain.foldl (fun scope link => scope.branch link.1 link.2) root

@[simp] theorem ofChain_nil : ofChain [] = root := rfl

theorem ofChain_append (chain : List (String × Nat)) (state : String) (index : Nat) :
    ofChain (chain ++ [(state, index)]) = (ofChain chain).branch state index := by
  simp [ofChain]

end Scope

end Workflow
