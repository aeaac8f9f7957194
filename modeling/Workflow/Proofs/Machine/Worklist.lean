import Mathlib.Algebra.Order.BigOperators.Group.List
import Mathlib.Algebra.Order.Ring.Nat
import Mathlib.Data.List.Sort
import Mathlib.Logic.Function.Iterate
import Workflow.Proofs.Json.Canonical
import Workflow.Proofs.Machine.Rules

/-!
# Searching one name at a time

The search for unreached states can be made with a queue of names. The name in front is taken out;
if it was not seen before, it is marked as seen, and the targets of its state are put at the end.
The queue may grow, may hold a name several times, and may hold names that are no states.

A name is marked before its targets are queued, so the targets of every state come in once at most.
`Worklist.weight` counts the names in the queue and the targets that may still come in. Every look
at a name takes one off, and so the queue gets empty.

Between two looks the search knows what the search in rounds knows between two rounds
(`Machine.Searched`), and so both leave the same states over. `Machine.unreached_exact` says which
these are: the states that no chain of transitions leads to from the start.
-/

namespace Workflow

namespace Entries

variable {α : Type} {name : String} {es : Entries α}

theorem filter_ne_of_find?_eq_none (h : find? name es = none) :
    es.filter (fun e ↦ e.1 ≠ name) = es := by
  refine List.filter_eq_self.mpr fun e he ↦ decide_eq_true fun hname ↦ ?_
  have hhas : has name es = true := (has_iff name es).mpr (hname ▸ mem_names_of_mem he)
  rw [has, h] at hhas
  cases hhas

theorem sum_filter_ne_add_le (f : α → Nat) {a : α} (h : find? name es = some a) :
    ((es.filter fun e ↦ e.1 ≠ name).map fun e ↦ f e.2).sum + f a
      ≤ (es.map fun e ↦ f e.2).sum := by
  induction es with
  | nil => cases h
  | cons e es ih =>
    obtain ⟨n, b⟩ := e
    rw [find?_cons] at h
    rw [List.map_cons, List.sum_cons]
    by_cases hname : n = name
    · rw [if_pos hname] at h
      obtain rfl := Option.some.inj h
      rw [List.filter_cons_of_neg (by simpa using hname), Nat.add_comm]
      exact Nat.add_le_add_left
        ((List.filter_sublist.map _).sum_le_sum fun _ _ ↦ Nat.zero_le _) _
    · rw [if_neg hname] at h
      rw [List.filter_cons_of_pos (by simpa using hname), List.map_cons, List.sum_cons,
        Nat.add_assoc]
      exact Nat.add_le_add_left (ih h) _

end Entries

/-! ## Chains of transitions -/

namespace Machine

/-- A state of the first name may be followed by the second one. -/
def Transits (m : Machine) (name target : String) : Prop :=
  ∃ s, m.state? name = some s ∧ s.LeadsTo target

/-- What is reached is at the end of a chain of transitions. -/
theorem reaches_iff {m : Machine} {name : String} :
    m.Reaches name ↔ Relation.ReflTransGen m.Transits m.startAt name := by
  constructor
  · intro h
    induction h with
    | start => exact .refl
    | step _ hs htarget ih => exact ih.tail ⟨_, hs, State.mem_targets_iff.mp htarget⟩
  · intro h
    induction h with
    | refl => exact .start
    | tail _ hlink ih =>
      obtain ⟨s, hs, hleads⟩ := hlink
      exact ih.step hs (State.mem_targets_iff.mpr hleads)

end Machine

/-! ## The search -/

/-- A search that looks at one name after the other. -/
structure Worklist where
  seen : List String
  /-- The names still to look at, the next one first. -/
  queue : List String

namespace Worklist

variable {m : Machine} {w : Worklist}

/-- Only the start is to be looked at. -/
def start (m : Machine) : Worklist := ⟨[], [m.startAt]⟩

/-- Looks at the name in front of the queue, if there is one. -/
def look (m : Machine) : Worklist → Worklist
  | ⟨seen, []⟩ => ⟨seen, []⟩
  | ⟨seen, name :: queue⟩ =>
    if name ∈ seen then ⟨seen, queue⟩
    else ⟨name :: seen, queue ++ ((m.state? name).map State.targets).getD []⟩

/-- The states that were not looked at. -/
def unseen (m : Machine) (w : Worklist) : Entries State := m.states.filter fun e ↦ e.1 ∉ w.seen

theorem unseen_start (m : Machine) : (start m).unseen m = m.states :=
  List.filter_eq_self.mpr fun _ _ ↦ by simp [start]

theorem find?_unseen (m : Machine) (w : Worklist) (name : String) :
    Entries.find? name (w.unseen m) = if name ∈ w.seen then none else m.state? name := by
  rw [unseen, Entries.find?_filter fun n ↦ decide (n ∉ w.seen), Machine.state?]
  by_cases hseen : name ∈ w.seen
  · rw [if_pos hseen, if_neg (by simpa using hseen)]
  · rw [if_neg hseen, if_pos (by simpa using hseen)]

/-- A look at a name either comes to no state that was not looked at, or it takes the state out of
those and brings its targets into the queue. -/
theorem look_cons {name : String} {queue : List String} (h : w.queue = name :: queue) :
    (Entries.find? name (w.unseen m) = none ∧
      (w.look m).queue = queue ∧ (w.look m).unseen m = w.unseen m) ∨
    ∃ s, Entries.find? name (w.unseen m) = some s ∧ (w.look m).queue = queue ++ s.targets ∧
      (w.look m).unseen m = (w.unseen m).filter fun e ↦ e.1 ≠ name := by
  obtain ⟨seen, _⟩ := w
  obtain rfl : _ = name :: queue := h
  rw [find?_unseen, look]
  by_cases hseen : name ∈ seen
  · rw [if_pos hseen, if_pos hseen]
    exact .inl ⟨rfl, rfl, rfl⟩
  · have hunseen : ∀ queue', unseen m ⟨name :: seen, queue'⟩
        = (unseen m ⟨seen, name :: queue⟩).filter fun e ↦ e.1 ≠ name := by
      intro queue'
      rw [unseen, unseen, List.filter_filter]
      exact List.filter_congr fun e _ ↦ by simp
    rw [if_neg hseen, if_neg hseen]
    rcases hs : m.state? name with _ | s
    · refine .inl ⟨rfl, List.append_nil queue, ?_⟩
      rw [hunseen]
      refine Entries.filter_ne_of_find?_eq_none ?_
      rw [find?_unseen, if_neg hseen, hs]
    · exact .inr ⟨s, rfl, rfl, hunseen _⟩

/-- The names in the queue, and the targets that may still come into it. -/
def weight (m : Machine) (w : Worklist) : Nat :=
  w.queue.length + ((w.unseen m).map fun e ↦ e.2.targets.length).sum

theorem weight_look_lt (h : w.queue ≠ []) : (w.look m).weight m < w.weight m := by
  obtain ⟨name, queue, hqueue⟩ := List.exists_cons_of_ne_nil h
  rw [weight, weight, hqueue, List.length_cons]
  rcases look_cons (m := m) hqueue with ⟨-, hrest, hunseen⟩ | ⟨s, hs, hrest, hunseen⟩
  · rw [hrest, hunseen]
    omega
  · have hsum := Entries.sum_filter_ne_add_le (fun s : State ↦ s.targets.length) hs
    rw [hrest, hunseen, List.length_append]
    omega

/-- **The queue gets empty.** -/
theorem queue_iterate_eq_nil {looks : Nat} (h : w.weight m ≤ looks) :
    ((look m)^[looks] w).queue = [] := by
  induction looks generalizing w with
  | zero =>
    rw [weight] at h
    exact List.length_eq_zero_iff.mp (Nat.eq_zero_of_add_eq_zero_right (Nat.le_zero.mp h))
  | succ looks ih =>
    rw [Function.iterate_succ_apply]
    by_cases hqueue : w.queue = []
    · obtain ⟨seen, _⟩ := w
      obtain rfl : _ = [] := hqueue
      rw [look, Function.iterate_fixed rfl]
    · exact ih (Nat.le_of_lt_succ (Nat.lt_of_lt_of_le (weight_look_lt hqueue) h))

theorem searched_look (h : m.Searched w.queue (w.unseen m)) :
    m.Searched (w.look m).queue ((w.look m).unseen m) := by
  rcases hqueue : w.queue with _ | ⟨name, queue⟩
  · obtain ⟨seen, _⟩ := w
    obtain rfl : _ = [] := hqueue
    exact h
  · rw [hqueue] at h
    rcases look_cons (m := m) hqueue with ⟨hnone, hrest, hunseen⟩ | ⟨s, hs, hrest, hunseen⟩
    · rw [hrest, hunseen]
      exact h.drop hnone
    · rw [hrest, hunseen]
      exact (h.visit hs).congr fun n ↦ by rw [List.mem_append, List.mem_append, or_comm]

theorem searched_iterate (m : Machine) (looks : Nat) :
    m.Searched ((look m)^[looks] (start m)).queue (((look m)^[looks] (start m)).unseen m) := by
  induction looks with
  | zero =>
    rw [Function.iterate_zero_apply, unseen_start]
    exact .initial m
  | succ looks ih =>
    rw [Function.iterate_succ_apply']
    exact searched_look ih

end Worklist

/-! ## What is left over -/

namespace Machine

variable {m : Machine}

theorem ascending_unreachedFrom (h : Entries.Ascending m.states) (rounds : Nat) :
    Entries.Ascending (unreachedFrom rounds [m.startAt] m.states) :=
  h.sublist ((sublist_unreachedFrom _ _ _).map Prod.fst)

/-- States that were searched to the end, and no others, are reached. -/
theorem Searched.filter_names_eq {seen : List String}
    (hend : m.Searched [] (Worklist.unseen m ⟨seen, []⟩)) (h : Entries.Ascending m.states) :
    m.names.filter (· ∉ seen) = m.unreached := by
  have hnames : Entries.names (Worklist.unseen m ⟨seen, []⟩) = m.names.filter (· ∉ seen) := by
    rw [names, Entries.names, Entries.names, List.filter_map]
    rfl
  have hfilter : (m.names.filter (· ∉ seen)).Pairwise (· < ·) := h.sublist List.filter_sublist
  refine hfilter.eq_of_mem_iff (ascending_unreachedFrom h _) fun name ↦ ?_
  rw [← hnames, hend.mem_names_iff]
  exact mem_unreached_iff.symm

/-- **The search is exact, and it comes to an end.** The states left over are those that no chain of
transitions leads to, in order. No further round takes any of them away. When the names are looked
at one by one, the queue is empty after as many looks as there are targets in all the states and one
more, and the states that were not seen are the same. -/
theorem unreached_exact (h : Entries.Ascending m.states) :
    (∀ name, name ∈ m.unreached ↔
      name ∈ m.names ∧ ¬Relation.ReflTransGen m.Transits m.startAt name) ∧
    m.unreached.Pairwise (· < ·) ∧
    (∀ rounds, m.states.length < rounds →
      Entries.names (unreachedFrom rounds [m.startAt] m.states) = m.unreached) ∧
    ∀ looks, 1 + (m.states.map fun e ↦ e.2.targets.length).sum ≤ looks →
      ((Worklist.look m)^[looks] (.start m)).queue = [] ∧
      m.names.filter (· ∉ ((Worklist.look m)^[looks] (.start m)).seen) = m.unreached := by
  refine ⟨fun name ↦ ?_, ascending_unreachedFrom h _, fun rounds hrounds ↦ ?_, ?_⟩
  · rw [mem_unreached_iff, reaches_iff]
  · refine (ascending_unreachedFrom h rounds).eq_of_mem_iff (ascending_unreachedFrom h _) ?_
    intro name
    rw [(Searched.initial m).mem_unreachedFrom_iff hrounds]
    exact mem_unreached_iff.symm
  · intro looks hlooks
    have hqueue : ((Worklist.look m)^[looks] (.start m)).queue = [] := by
      refine Worklist.queue_iterate_eq_nil ?_
      rwa [Worklist.weight, Worklist.unseen_start]
    have hsearched := Worklist.searched_iterate m looks
    rw [hqueue] at hsearched
    exact ⟨hqueue, hsearched.filter_names_eq h⟩

/-- Two states lead to each other and one of them to a name that is no state; two others, which lead
to each other and to them, are not come to. -/
def islands : Machine where
  startAt := "A"
  states := [
    ("A", .task { resource := "copy", transition := { next := some "B" },
                  catchers := [{ errorEquals := [ErrorName.all], next := "Lost" }] }),
    ("B", .choice { choices := [{ condition := .any [], next := some "A" }],
                    fallback := some "B" }),
    ("C", .wait { seconds := some 1, transition := { next := some "D" } }),
    ("D", .choice { choices := [{ condition := .any [], next := some "C" }],
                    fallback := some "A" })]

theorem unreached_exact_islands :
    Entries.Ascending islands.states ∧ islands.unreached = ["C", "D"] ∧
      ¬Relation.ReflTransGen islands.Transits "A" "C" ∧
      ((Worklist.look islands)^[8] (.start islands)).queue = [] := by
  have hascending : Entries.Ascending islands.states := by
    unfold Entries.Ascending
    decide
  have hunreached : islands.unreached = ["C", "D"] := by decide
  obtain ⟨hexact, -, -, hends⟩ := unreached_exact hascending
  have hmem : "C" ∈ islands.unreached := by
    rw [hunreached]
    exact List.mem_cons_self
  exact ⟨hascending, hunreached, ((hexact "C").mp hmem).2, (hends 8 (by decide)).1⟩

end Machine

end Workflow
