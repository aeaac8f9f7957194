import Mathlib.Data.List.Infix
import Workflow.Proofs.Text.Occurrences

/-!
# Replacing one pattern and then another

Two patterns that never overlap may be replaced in either order, if neither has anything in common
with what the other is replaced by (`substituteFrom_comm`).

A pattern may overlap itself, and then it depends on what stands before an occurrence whether that
one is replaced. Both replacements therefore go through the text together. At the front there is an
occurrence of the one pattern, or of the other, or of neither. What stands there, and what it is
replaced by, is passed over by the other replacement (`substituteFrom_append`), so neither of them
is out of step afterwards.
-/

namespace Workflow

variable {p q v w : List Char}

/-- The second text begins nowhere in the first one, whatever stands behind that. -/
def Excludes (p q : List Char) : Prop := ¬q <:+: p ∧ ∀ s ∈ p.tails, s ≠ [] → ¬s <+: q

instance : Decidable (Excludes p q) :=
  inferInstanceAs (Decidable (¬q <:+: p ∧ ∀ s ∈ p.tails, s ≠ [] → ¬s <+: q))

/-- Neither text contains the other, and no end of one is the beginning of the other. -/
def NonOverlapping (p q : List Char) : Prop := Excludes p q ∧ Excludes q p

instance : Decidable (NonOverlapping p q) := inferInstanceAs (Decidable (_ ∧ _))

theorem NonOverlapping.symm (h : NonOverlapping p q) : NonOverlapping q p := And.symm h

namespace Excludes

theorem not_prefix {s : List Char} (h : Excludes p q) (hs : s <:+ p) (hne : s ≠ [])
    (rest : List Char) : ¬q <+: s ++ rest := by
  intro hprefix
  rcases List.prefix_or_prefix_of_prefix hprefix (List.prefix_append s rest) with hinside | hend
  · exact h.1 (hinside.isInfix.trans hs.isInfix)
  · exact h.2 s ((List.mem_tails s p).mpr hs) hne hend

theorem of_cons {c : Char} (h : Excludes (c :: p) q) : Excludes p q :=
  ⟨fun hinside ↦ h.1 (List.infix_cons hinside),
    fun s hs ↦ h.2 s (List.mem_cons_of_mem _ hs)⟩

theorem of_apart (h : Apart q v) (hq : q ≠ []) : Excludes v q := by
  obtain ⟨c, q, rfl⟩ := List.exists_cons_of_ne_nil hq
  refine ⟨fun hinside ↦ h c List.mem_cons_self (hinside.subset List.mem_cons_self), ?_⟩
  intro s hs hne hbegins
  obtain ⟨x, s, rfl⟩ := List.exists_cons_of_ne_nil hne
  exact h x (hbegins.subset List.mem_cons_self)
    (((List.mem_tails _ v).mp hs).subset List.mem_cons_self)

end Excludes

theorem substituteFrom_append (h : Excludes p q) (w rest : List Char) :
    substituteFrom q w 0 (p ++ rest) = p ++ substituteFrom q w 0 rest := by
  induction p with
  | nil => rfl
  | cons c p ih =>
    have hfront : ¬q <+: c :: (p ++ rest) :=
      h.not_prefix List.suffix_rfl (List.cons_ne_nil c p) rest
    rw [List.cons_append, substituteFrom_cons_kept hfront, ih h.of_cons, List.cons_append]

/-- An occurrence at the front does not bring the two replacements out of step. -/
theorem substituteFrom_comm_append {rest : List Char} (hp : p ≠ []) (hoccurrence : Excludes p q)
    (hvalue : Excludes v q)
    (hrest : substituteFrom q w 0 (substituteFrom p v 0 rest)
      = substituteFrom p v 0 (substituteFrom q w 0 rest)) :
    substituteFrom q w 0 (substituteFrom p v 0 (p ++ rest))
      = substituteFrom p v 0 (substituteFrom q w 0 (p ++ rest)) := by
  rw [substituteFrom_pattern_append hp, substituteFrom_append hvalue, hrest,
    substituteFrom_append hoccurrence, substituteFrom_pattern_append hp]

/-- **Patterns that never overlap** may be replaced in either order. -/
theorem substituteFrom_comm (hp : p ≠ []) (hq : q ≠ []) (h : NonOverlapping p q) (hv : v ≠ [])
    (hw : w ≠ []) (hqv : Apart q v) (hpw : Apart p w) (cs : List Char) :
    substituteFrom q w 0 (substituteFrom p v 0 cs)
      = substituteFrom p v 0 (substituteFrom q w 0 cs) := by
  induction hlength : cs.length using Nat.strong_induction_on generalizing cs with
  | h n ih =>
    subst hlength
    have hshorter : ∀ front rest : List Char, front ≠ [] →
        rest.length < (front ++ rest).length := by
      intro front rest hne
      rw [List.length_append]
      exact Nat.lt_add_of_pos_left (List.length_pos_of_ne_nil hne)
    by_cases hfront : p <+: cs
    · obtain ⟨rest, rfl⟩ := hfront
      have hrest := ih _ (hshorter p rest hp) rest rfl
      exact substituteFrom_comm_append hp h.1 (.of_apart hqv hq) hrest
    by_cases hother : q <+: cs
    · obtain ⟨rest, rfl⟩ := hother
      have hrest := ih _ (hshorter q rest hq) rest rfl
      exact (substituteFrom_comm_append hq h.2 (.of_apart hpw hp) hrest.symm).symm
    rcases cs with _ | ⟨c, cs⟩
    · rfl
    · have hkept := substituteFrom_cons_kept hfront v
      have hkept' := substituteFrom_cons_kept hother w
      have hfront' : ¬p <+: c :: substituteFrom q w 0 cs := by
        rw [← hkept']
        exact mt (prefix_of_prefix_substituteFrom hpw hw) hfront
      have hother' : ¬q <+: c :: substituteFrom p v 0 cs := by
        rw [← hkept]
        exact mt (prefix_of_prefix_substituteFrom hqv hv) hother
      rw [hkept, hkept', substituteFrom_cons_kept hother',
        substituteFrom_cons_kept hfront', ih cs.length (Nat.lt_succ_self _) cs rfl]

end Workflow
