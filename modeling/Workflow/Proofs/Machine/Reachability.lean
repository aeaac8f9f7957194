import Workflow.Machine.Reachable
import Workflow.Proofs.Entries

/-!
# The search for unreachable states

The search keeps a frontier of names to look at and the states that were not looked at so far. What
it knows in between is `Machine.Searched`: every name it came to is reached from the start, and what
is reached in one step from a state it looked at is at the frontier or was looked at as well. When
the frontier is empty, nothing that is reached can have been missed.

A round that comes to new names has looked at one more state, and so the rounds do not run out
before the frontier is empty.
-/

namespace Workflow

namespace Entries

variable {α : Type}

theorem find?_filter (keep : String → Bool) (name : String) (es : Entries α) :
    find? name (es.filter fun e ↦ keep e.1) = if keep name = true then find? name es else none := by
  induction es with
  | nil => exact (ite_self none).symm
  | cons e es ih =>
    obtain ⟨n, a⟩ := e
    rcases hn : keep n with _ | _
    · rw [List.filter_cons_of_neg (by simp [hn]), ih, find?_cons]
      by_cases hname : n = name
      · rw [← hname, hn, if_neg Bool.false_ne_true, if_neg Bool.false_ne_true]
      · rw [if_neg hname]
    · rw [List.filter_cons_of_pos (by simp [hn]), find?_cons, find?_cons, ih]
      by_cases hname : n = name
      · rw [if_pos hname, if_pos hname, ← hname, if_pos hn]
      · rw [if_neg hname, if_neg hname]

theorem find?_filter_ne (name other : String) (es : Entries α) :
    find? other (es.filter fun e ↦ e.1 ≠ name) = if other = name then none else find? other es := by
  rw [find?_filter fun n ↦ decide (n ≠ name)]
  by_cases hother : other = name
  · rw [if_pos hother, if_neg (by simpa using hother)]
  · rw [if_neg hother, if_pos (by simpa using hother)]

theorem length_filter_ne_lt {name : String} {a : α} {es : Entries α} (h : find? name es = some a) :
    (es.filter fun e ↦ e.1 ≠ name).length < es.length :=
  List.length_filter_lt_length_iff_exists.mpr ⟨_, mem_of_find? h, by simp⟩

end Entries

namespace Machine

/-- What the search knows of a machine while the names at the frontier are still to be looked at and
the states in `unseen` were not looked at. -/
structure Searched (m : Machine) (frontier : List String) (unseen : Entries State) : Prop where
  start : m.startAt ∈ frontier ∨ Entries.find? m.startAt unseen = none
  reached : ∀ name ∈ frontier, m.Reaches name
  own : ∀ name s, Entries.find? name unseen = some s → m.state? name = some s
  seen : ∀ name s, m.state? name = some s → Entries.find? name unseen = none →
    m.Reaches name ∧ ∀ target ∈ s.targets, target ∈ frontier ∨ Entries.find? target unseen = none

namespace Searched

variable {m : Machine} {frontier frontier' : List String} {unseen : Entries State} {name : String}

theorem initial (m : Machine) : m.Searched [m.startAt] m.states where
  start := .inl List.mem_cons_self
  reached := List.forall_mem_singleton.mpr .start
  own _ _ h := h
  seen _ _ hs hnone := by
    rw [state?, hnone] at hs
    cases hs

/-- The order of the frontier does not matter. -/
theorem congr (h : m.Searched frontier unseen) (hsame : ∀ n, n ∈ frontier ↔ n ∈ frontier') :
    m.Searched frontier' unseen where
  start := h.start.imp_left (hsame _).mp
  reached n hn := h.reached n ((hsame n).mpr hn)
  own := h.own
  seen n s hs hnone := (h.seen n s hs hnone).imp_right fun htargets target htarget ↦
    (htargets target htarget).imp_left (hsame target).mp

/-- A name that was looked at, or is no state, need not stay at the frontier. -/
theorem drop (h : m.Searched (name :: frontier) unseen) (hname : Entries.find? name unseen = none) :
    m.Searched frontier unseen := by
  have hmove : ∀ n, n ∈ name :: frontier ∨ Entries.find? n unseen = none →
      n ∈ frontier ∨ Entries.find? n unseen = none := by
    intro n hn
    rcases hn with hmem | hnone
    · rcases List.mem_cons.mp hmem with rfl | hmem
      · exact .inr hname
      · exact .inl hmem
    · exact .inr hnone
  exact {
    start := hmove _ h.start
    reached := fun n hn ↦ h.reached n (List.mem_cons_of_mem _ hn)
    own := h.own
    seen := fun n s hs hnone ↦ (h.seen n s hs hnone).imp_right fun htargets target htarget ↦
      hmove target (htargets target htarget) }

/-- Looking at a state brings its targets to the frontier. -/
theorem visit (h : m.Searched (name :: frontier) unseen) {s : State}
    (hs : Entries.find? name unseen = some s) :
    m.Searched (s.targets ++ frontier) (unseen.filter fun e ↦ e.1 ≠ name) := by
  have hreached : m.Reaches name := h.reached name List.mem_cons_self
  have hstate : m.state? name = some s := h.own name s hs
  have hmove : ∀ n, n ∈ name :: frontier ∨ Entries.find? n unseen = none →
      n ∈ s.targets ++ frontier ∨
        Entries.find? n (unseen.filter fun e ↦ e.1 ≠ name) = none := by
    intro n hn
    rw [Entries.find?_filter_ne]
    by_cases hname : n = name
    · exact .inr (if_pos hname)
    · rw [if_neg hname]
      rcases hn with hmem | hnone
      · exact .inl (List.mem_append_right _ ((List.mem_cons.mp hmem).resolve_left hname))
      · exact .inr hnone
  refine ⟨hmove _ h.start, fun n hn ↦ ?_, fun n t ht ↦ ?_, fun n t ht hnone ↦ ?_⟩
  · rcases List.mem_append.mp hn with htarget | hmem
    · exact .step hreached hstate htarget
    · exact h.reached n (List.mem_cons_of_mem _ hmem)
  · rw [Entries.find?_filter_ne] at ht
    split at ht
    · cases ht
    · exact h.own n t ht
  · by_cases hname : n = name
    · rw [hname, hstate] at ht
      rw [hname, ← Option.some.inj ht]
      exact ⟨hreached, fun target htarget ↦ .inl (List.mem_append_left _ htarget)⟩
    · rw [Entries.find?_filter_ne, if_neg hname] at hnone
      exact (h.seen n t ht hnone).imp_right fun htargets target htarget ↦
        hmove target (htargets target htarget)

/-- When nothing is left to look at, everything that is reached was looked at. -/
theorem find?_of_reaches (h : m.Searched [] unseen) (hreaches : m.Reaches name) :
    Entries.find? name unseen = none := by
  induction hreaches with
  | start => exact h.start.resolve_left List.not_mem_nil
  | step _ hs htarget ih => exact ((h.seen _ _ hs ih).2 _ htarget).resolve_left List.not_mem_nil

theorem mem_names_iff (h : m.Searched [] unseen) :
    name ∈ Entries.names unseen ↔ name ∈ m.names ∧ ¬m.Reaches name := by
  rw [names, ← Entries.has_iff, ← Entries.has_iff]
  constructor
  · intro hhas
    obtain ⟨s, hs⟩ := Option.isSome_iff_exists.mp hhas
    refine ⟨Option.isSome_iff_exists.mpr ⟨s, h.own name s hs⟩, fun hreaches ↦ ?_⟩
    rw [h.find?_of_reaches hreaches] at hs
    cases hs
  · rintro ⟨hhas, hreaches⟩
    obtain ⟨s, hs⟩ := Option.isSome_iff_exists.mp hhas
    refine Classical.byContradiction fun hnot ↦ hreaches ?_
    have hnone : Entries.find? name unseen = none :=
      Option.not_isSome_iff_eq_none.mp hnot
    exact (h.seen name s hs hnone).1

end Searched

/-! ## Rounds -/

variable {m : Machine} {frontier targets : List String} {unseen rest : Entries State}

/-- A round replaces its frontier by the targets it comes to. `others` are names that stay at the
frontier through the round. -/
theorem Searched.round (hround : reachRound frontier unseen = (targets, rest))
    (others : List String) (h : m.Searched (frontier ++ others) unseen) :
    m.Searched (targets ++ others) rest := by
  induction frontier generalizing unseen others targets with
  | nil =>
    obtain ⟨rfl, rfl⟩ := Prod.mk.inj hround
    exact h
  | cons name frontier ih =>
    rw [reachRound] at hround
    split at hround
    · next hnone => exact ih hround others (h.drop hnone)
    · next s hs =>
      obtain ⟨rfl, hrest⟩ := Prod.mk.inj hround
      rw [List.cons_append] at h
      have hnext : m.Searched (frontier ++ (s.targets ++ others)) _ :=
        (h.visit hs).congr fun n ↦ by simp only [List.mem_append, or_left_comm]
      refine (ih (Prod.ext rfl hrest) _ hnext).congr fun n ↦ ?_
      simp only [List.mem_append, or_assoc, or_left_comm]

theorem sublist_reachRound (frontier : List String) (unseen : Entries State) :
    (reachRound frontier unseen).2.Sublist unseen := by
  induction frontier generalizing unseen with
  | nil => exact .refl _
  | cons name frontier ih =>
    rw [reachRound]
    split
    · exact ih unseen
    · exact (ih _).trans List.filter_sublist

/-- A round that comes to any target has looked at a state. -/
theorem length_lt_of_reachRound (hround : reachRound frontier unseen = (targets, rest))
    (hne : targets ≠ []) : rest.length < unseen.length := by
  induction frontier generalizing unseen targets with
  | nil =>
    obtain ⟨rfl, rfl⟩ := Prod.mk.inj hround
    exact absurd rfl hne
  | cons name frontier ih =>
    rw [reachRound] at hround
    split at hround
    · exact ih hround hne
    · next s hs =>
      obtain ⟨-, hrest⟩ := Prod.mk.inj hround
      rw [← hrest]
      exact Nat.lt_of_le_of_lt (sublist_reachRound _ _).length_le (Entries.length_filter_ne_lt hs)

theorem sublist_unreachedFrom (rounds : Nat) (frontier : List String) (unseen : Entries State) :
    (unreachedFrom rounds frontier unseen).Sublist unseen := by
  induction rounds generalizing frontier unseen with
  | zero => exact .refl _
  | succ rounds ih =>
    have hround := sublist_reachRound frontier unseen
    rw [unreachedFrom]
    split
    · next heq => rwa [heq] at hround
    · next heq =>
      rw [heq] at hround
      exact (ih _ _).trans hround

/-- With more rounds than states there are enough of them. -/
theorem Searched.mem_unreachedFrom_iff {rounds : Nat} {name : String}
    (h : m.Searched frontier unseen) (hrounds : unseen.length < rounds) :
    name ∈ Entries.names (unreachedFrom rounds frontier unseen) ↔
      name ∈ m.names ∧ ¬m.Reaches name := by
  induction rounds generalizing frontier unseen with
  | zero => exact absurd hrounds (Nat.not_lt_zero _)
  | succ rounds ih =>
    rw [unreachedFrom]
    have hafter : ∀ targets rest, reachRound frontier unseen = (targets, rest) →
        m.Searched targets rest := by
      intro targets rest hround
      have hround' := Searched.round hround [] (by rwa [List.append_nil])
      rwa [List.append_nil] at hround'
    split
    · next rest hround => exact (hafter _ _ hround).mem_names_iff
    · next targets rest hne hround =>
      have hlt := length_lt_of_reachRound hround hne
      exact ih (hafter _ _ hround) (by omega)

/-- **The search finds the states that no way from the start leads to.** -/
theorem mem_unreached_iff {name : String} :
    name ∈ m.unreached ↔ name ∈ m.names ∧ ¬m.Reaches name :=
  (Searched.initial m).mem_unreachedFrom_iff (Nat.lt_succ_self _)

end Machine

end Workflow
