import Workflow.Machine.Basic

/-!
# Reachable states

`Machine.Reaches` says which names a run may come to by following transitions from the start, and
`Machine.unreached` computes the states that are never come to.

The search goes in rounds. A round takes the states at the frontier out of those not yet reached and
collects their targets, which are the next frontier. A round that takes nothing out ends the search,
so there are at most as many rounds as states and one more.
-/

namespace Workflow

namespace Machine

/-- The names that transitions lead to from the start. A target need not be the name of a state. -/
inductive Reaches (m : Machine) : String → Prop where
  | start : Reaches m m.startAt
  | step {name target : String} {s : State} :
    Reaches m name → m.state? name = some s → target ∈ s.targets → Reaches m target

end Machine

/-- One round: the targets of the frontier, and the states that are still not reached. -/
def reachRound : List String → Entries State → List String × Entries State
  | [], unseen => ([], unseen)
  | name :: frontier, unseen =>
    match Entries.find? name unseen with
    | none => reachRound frontier unseen
    | some s =>
      let (targets, rest) := reachRound frontier (unseen.filter fun e => e.1 ≠ name)
      (s.targets ++ targets, rest)

/-- The states that are not reached from a frontier within some number of rounds. -/
def unreachedFrom : Nat → List String → Entries State → Entries State
  | 0, _, unseen => unseen
  | rounds + 1, frontier, unseen =>
    match reachRound frontier unseen with
    | ([], rest) => rest
    | (targets, rest) => unreachedFrom rounds targets rest

/-- The names of the states that no way from the start leads to, in ascending order. -/
def Machine.unreached (m : Machine) : List String :=
  Entries.names (unreachedFrom (m.states.length + 1) [m.startAt] m.states)

end Workflow
