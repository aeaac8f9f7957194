import Workflow.Decimal.Layout
import Workflow.Task.Handler
import Workflow.Text.Substitute

/-!
# Token bindings

Inside a replication its token stands for the index of the copy. The bindings of a place in a
document are those of the replications around it, the outermost first, and they are applied to a
text in that order: what an outer token leaves behind is open to the inner ones.
-/

namespace Workflow

/-- Tokens and the indices they stand for, the outermost first. -/
abbrev Bindings := List (String × Nat)

namespace Bindings

/-- Whether a token is bound. -/
def binds (b : Bindings) (token : String) : Bool := b.any fun e => e.1 = token

/-- The bindings one replication further in. -/
def extended (b : Bindings) (token : String) (index : Nat) : Bindings := b ++ [(token, index)]

/-- A text with every token replaced by its index, one token after the other. -/
def apply (b : Bindings) (text : String) : String :=
  b.foldl (fun s e => Text.substitute e.1 (wholeText e.2) s) text

/-- The indices alone. -/
def branchIndex (b : Bindings) : BranchIndex := b.map Prod.snd

theorem binds_iff (b : Bindings) (token : String) :
    b.binds token = true ↔ token ∈ b.map Prod.fst := by
  simp only [binds, List.any_eq_true, List.mem_map, decide_eq_true_eq]

@[simp] theorem apply_nil (text : String) : apply [] text = text := rfl

theorem apply_append (b c : Bindings) (text : String) :
    apply (b ++ c) text = apply c (apply b text) := List.foldl_append

theorem apply_extended (b : Bindings) (token : String) (index : Nat) (text : String) :
    (b.extended token index).apply text
      = Text.substitute token (wholeText index) (b.apply text) := by
  simp [extended, apply]

@[simp] theorem branchIndex_extended (b : Bindings) (token : String) (index : Nat) :
    (b.extended token index).branchIndex = b.branchIndex ++ [index] := by
  simp [branchIndex, extended]

end Bindings

end Workflow
