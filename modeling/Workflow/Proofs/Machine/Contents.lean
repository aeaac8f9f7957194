import Workflow.Proofs.Json.Finite
import Workflow.Proofs.Machine.RoundTrip
import Workflow.Proofs.Machine.Ways

/-!
# The states inside a machine

A machine contains its states and, through the branches of parallel states, states of other
machines. Each of them was read from a value inside the value that the machine was read from. So
what one reading promises of a state holds of all of them, and a machine can be written when its
states can, one by one.
-/

namespace Workflow

/-- `s` is a state of the machine or of a branch at any depth. -/
inductive Machine.Contains : Machine → State → Prop
  | here {m : Machine} {name : String} {s : State} (mem : (name, s) ∈ m.states) : m.Contains s
  | inside {m b : Machine} {name : String} {branches : List Machine} {settings : ParallelSettings}
      {s : State} (mem : (name, .parallel branches settings) ∈ m.states) (branch : b ∈ branches)
      (inner : b.Contains s) : m.Contains s

theorem sizeOf_lt_of_mem_branches {states : Entries State} {name : String} {b : Machine}
    {branches : List Machine} {settings : ParallelSettings}
    (hmem : (name, .parallel branches settings) ∈ states) (hb : b ∈ branches) :
    sizeOf b < sizeOf states := by
  have hstate := Entries.sizeOf_snd_lt_of_mem hmem
  have hbranch := List.sizeOf_lt_of_mem hb
  rw [State.parallel.sizeOf_spec] at hstate
  omega

/-- Induction over a machine, with the hypothesis for every branch of its states. -/
@[elab_as_elim]
theorem Machine.rec' {motive : Machine → Prop}
    (step : ∀ m : Machine, (∀ name branches settings,
      (name, State.parallel branches settings) ∈ m.states → ∀ b ∈ branches, motive b) → motive m) :
    ∀ m, motive m
  | ⟨comment, startAt, timeoutSeconds, states⟩ =>
    step ⟨comment, startAt, timeoutSeconds, states⟩ fun _ _ _ hmem b hb ↦
      have : sizeOf b < sizeOf states := sizeOf_lt_of_mem_branches hmem hb
      rec' step b
termination_by m => sizeOf m
decreasing_by
  rw [Machine.mk.sizeOf_spec]
  omega

/-! ## What can be written -/

theorem Machine.Writable.of_contains {m : Machine} {s : State} (hm : m.Writable)
    (hs : m.Contains s) : s.Writable := by
  induction hs with
  | here hmem =>
    obtain ⟨-, hstates⟩ := hm
    exact hstates _ hmem
  | inside hmem hbranch _ ih =>
    obtain ⟨-, hstates⟩ := hm
    cases hstates _ hmem with
    | parallel each _ => exact ih (each _ hbranch)

/-- A machine can be written if the names at every depth are in order and every single state says
only what can be written. -/
structure Machine.WritableByState (m : Machine) : Prop where
  names : Entries.Ascending m.states
  branches : ∀ branches settings, m.Contains (.parallel branches settings) →
    ∀ b ∈ branches, Entries.Ascending b.states
  parameters : ∀ t, m.Contains (.task t) → ∀ p ∈ t.parameters, p.canonical = p ∧ p ≠ .null
  rules : ∀ c, m.Contains (.choice c) → ∀ r ∈ c.choices, r.condition.Writable
  retry : ∀ s, m.Contains s → ∀ r ∈ s.retriers, r.Writable

theorem Machine.WritableByState.writable {m : Machine} (h : m.WritableByState) : m.Writable := by
  induction m using Machine.rec' with
  | step m ih =>
    refine .intro h.names fun ⟨name, s⟩ hs ↦ ?_
    cases s with
    | task t => exact .task (h.parameters t (.here hs)) (h.retry _ (.here hs))
    | choice c => exact .choice (h.rules c (.here hs))
    | wait w => exact .wait
    | parallel branches settings =>
      refine .parallel (fun b hb ↦ ih name branches settings hs b hb ?_) (h.retry _ (.here hs))
      exact {
        names := h.branches branches settings (.here hs) b hb
        branches := fun _ _ hinner ↦ h.branches _ _ (.inside hs hb hinner)
        parameters := fun _ hinner ↦ h.parameters _ (.inside hs hb hinner)
        rules := fun _ hinner ↦ h.rules _ (.inside hs hb hinner)
        retry := fun _ hinner ↦ h.retry _ (.inside hs hb hinner) }
    | succeed comment => exact .succeed
    | fail f => exact .fail

/-! ## Where it was read -/

theorem Json.within_of_find? {name : String} {v : Json} {fields : List (String × Json)}
    (h : Entries.find? name fields = some v) : v.Within (.object fields) :=
  .field (.refl v) (Entries.mem_of_find? h)

theorem exists_within_of_machineOf? {inBranch : Bool} {v : Json} {m : Machine}
    (h : machineOf? inBranch v = some m) :
    ∃ w, w.Within v ∧ statesOf? inBranch w = some m.states := by
  unfold machineOf? at h
  split at h
  · split at h
    · next states _ hstates =>
      obtain ⟨w, hw, hread⟩ := find?_of_statesAmong? hstates
      rw [Machine.states_of_ofFields? h]
      exact ⟨w, Json.within_of_find? hw, hread⟩
    · cases h
  · next states =>
    split at h
    · next read hread =>
      rw [Machine.states_of_ofFields? h]
      exact ⟨states, .item (.refl states) (by simp), hread⟩
    · cases h
  · cases h

theorem ascending_of_machineOf? {inBranch : Bool} {v : Json} {m : Machine}
    (h : machineOf? inBranch v = some m) : Entries.Ascending m.states := by
  obtain ⟨w, -, hread⟩ := exists_within_of_machineOf? h
  unfold statesOf? at hread
  split at hread
  · obtain ⟨es, -, hcollect⟩ := Option.map_eq_some_iff.mp hread
    rw [← hcollect]
    exact Entries.ascending_collect es
  · cases hread

theorem exists_mem_of_stateFields? {inBranch : Bool} {fields : List (String × Json)}
    {states : List (String × State)} (h : stateFields? inBranch fields = some states)
    {e : String × State} (he : e ∈ states) :
    ∃ f ∈ fields, stateOf? inBranch f.2 = some e.2 := by
  induction fields generalizing states with
  | nil =>
    rw [stateFields?] at h
    cases h
    cases he
  | cons f fields ih =>
    rw [stateFields?] at h
    split at h
    · cases h
    · next s hs =>
      obtain ⟨rest, hrest, rfl⟩ := Option.map_eq_some_iff.mp h
      rcases List.mem_cons.mp he with rfl | hmem
      · exact ⟨f, List.mem_cons_self, hs⟩
      · obtain ⟨f', hf', hread⟩ := ih hrest hmem
        exact ⟨f', List.mem_cons_of_mem f hf', hread⟩

theorem exists_within_of_mem_states {inBranch : Bool} {v : Json} {m : Machine}
    (h : machineOf? inBranch v = some m) {e : String × State} (he : e ∈ m.states) :
    ∃ w, w.Within v ∧ stateOf? inBranch w = some e.2 := by
  obtain ⟨w, hw, hread⟩ := exists_within_of_machineOf? h
  unfold statesOf? at hread
  split at hread
  · obtain ⟨es, hes, hcollect⟩ := Option.map_eq_some_iff.mp hread
    rw [← hcollect] at he
    obtain ⟨f, hf, hstate⟩ := exists_mem_of_stateFields? hes (Entries.mem_of_mem_collect he)
    exact ⟨f.2, .trans (.field (.refl f.2) hf) hw, hstate⟩
  · cases hread

theorem exists_within_of_branchesOf? {v : Json} {branches : List Machine}
    (h : branchesOf? v = some branches) {b : Machine} (hb : b ∈ branches) :
    ∃ w, w.Within v ∧ machineOf? true w = some b := by
  unfold branchesOf? at h
  split at h
  · obtain ⟨index, hindex⟩ := List.mem_iff_getElem?.mp hb
    obtain ⟨w, hw, hread⟩ := getElem?_of_branchItems? h hindex
    exact ⟨w, .item (.refl w) (List.mem_of_getElem? hw), hread⟩
  · cases h

theorem exists_within_of_mem_branches {inBranch : Bool} {v : Json} {branches : List Machine}
    {settings : ParallelSettings} (h : stateOf? inBranch v = some (.parallel branches settings))
    {b : Machine} (hb : b ∈ branches) : ∃ w, w.Within v ∧ machineOf? true w = some b := by
  rcases ofBody?_of_stateOf? h with ⟨kind, fields, rfl, hbody⟩ | ⟨kind, tag, items, rfl, hbody⟩
  · obtain ⟨u, hu, hread⟩ := find?_of_branchesAmong? (State.ofBody?_eq_parallel hbody)
    obtain ⟨w, hw, hbranch⟩ := exists_within_of_branchesOf? hread hb
    exact ⟨w, hw.trans (Json.within_of_find? hu), hbranch⟩
  · have hread := State.ofBody?_eq_parallel hbody
    cases items with
    | nil =>
      rw [firstBranches?] at hread
      cases hread
    | cons u items =>
      rw [firstBranches?] at hread
      obtain ⟨w, hw, hbranch⟩ := exists_within_of_branchesOf? hread hb
      exact ⟨w, hw.trans (.item (.refl u) (by simp)), hbranch⟩

/-- **Every state of a machine was read from a value inside.** -/
theorem exists_within_of_contains {inBranch : Bool} {v : Json} {m : Machine} {s : State}
    (h : machineOf? inBranch v = some m) (hs : m.Contains s) :
    ∃ b w, w.Within v ∧ stateOf? b w = some s := by
  induction hs generalizing inBranch v with
  | here hmem =>
    obtain ⟨w, hw, hread⟩ := exists_within_of_mem_states h hmem
    exact ⟨inBranch, w, hw, hread⟩
  | inside hmem hbranch _ ih =>
    obtain ⟨w, hw, hread⟩ := exists_within_of_mem_states h hmem
    obtain ⟨u, hu, hmachine⟩ := exists_within_of_mem_branches hread hbranch
    obtain ⟨b, x, hx, hstate⟩ := ih hmachine
    exact ⟨b, x, hx.trans (hu.trans hw), hstate⟩

end Workflow
