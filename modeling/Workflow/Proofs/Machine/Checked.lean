import Workflow.Machine.Check
import Workflow.Proofs.Entries
import Workflow.Run.Recovery

/-!
# The parts of a machine that passes validation

Validation is one pass over the document that stops at the first fault. When it finds none, every
part it looked at passed the check of that part: every state, and every branch as a machine of its
own.
-/

namespace Workflow

/-- Two checks in a row pass if both pass. -/
theorem seq_eq_ok_iff {ε : Type} {first second : Except ε Unit} :
    (first >>= fun _ ↦ second) = .ok () ↔ first = .ok () ∧ second = .ok () := by
  cases first with
  | ok u => exact ⟨fun h ↦ ⟨rfl, h⟩, fun h ↦ h.2⟩
  | error e =>
    constructor
    · intro h
      cases h
    · rintro ⟨h, -⟩
      cases h

theorem mapError_eq_ok_iff {ε δ : Type} {f : ε → δ} {x : Except ε Unit} :
    x.mapError f = .ok () ↔ x = .ok () := by
  cases x with
  | ok u => exact ⟨fun _ ↦ rfl, fun _ ↦ rfl⟩
  | error e =>
    constructor
    · intro h
      cases h
    · intro h
      cases h

/-- A machine that passes validation, as a document or as a branch inside one. -/
def Machine.Checked (m : Machine) : Prop := ∃ place, checkMachine place m = .ok ()

theorem Machine.checked_of_check {m : Machine} (h : m.check = .ok ()) : m.Checked := ⟨.root, h⟩

private theorem checkStates_mem {place : Place} {whole : Machine} {name : String} {s : State} :
    ∀ {states : List (String × State)}, checkStates place whole states = .ok () →
      (name, s) ∈ states →
        checkState place whole name s = .ok () ∧ checkInside place name s = .ok () := by
  intro states
  induction states with
  | nil => intro _ hmem; simp at hmem
  | cons entry states ih =>
    intro h hmem
    obtain ⟨n, t⟩ := entry
    rw [checkStates, seq_eq_ok_iff, seq_eq_ok_iff] at h
    rcases List.mem_cons.mp hmem with heq | hrest
    · cases heq
      exact ⟨h.1, h.2.1⟩
    · exact ih h.2.2 hrest

private theorem checkBranches_getElem? {place : Place} {name : String} {m : Machine} :
    ∀ {ms : List Machine} {index i : Nat}, checkBranches place name index ms = .ok () →
      ms[i]? = some m → m.Checked := by
  intro ms
  induction ms with
  | nil => intro index i _ hm; simp at hm
  | cons first ms ih =>
    intro index i h hm
    rw [checkBranches, seq_eq_ok_iff, seq_eq_ok_iff] at h
    cases i with
    | zero =>
      rw [List.getElem?_cons_zero, Option.some.injEq] at hm
      exact ⟨_, hm ▸ h.2.1⟩
    | succ i =>
      rw [List.getElem?_cons_succ] at hm
      exact ih h.2.2 hm

namespace Machine.Checked

variable {m : Machine} {name : String}

theorem states (h : m.Checked) {s : State} (hs : m.state? name = some s) :
    ∃ place, checkState place m name s = .ok () ∧ checkInside place name s = .ok () := by
  obtain ⟨place, hcheck⟩ := h
  obtain ⟨comment, startAt, timeoutSeconds, states⟩ := m
  rw [checkMachine, seq_eq_ok_iff, seq_eq_ok_iff] at hcheck
  exact ⟨place, checkStates_mem hcheck.2.1 (Entries.mem_of_find? hs)⟩

theorem self (h : m.Checked) {s : State} (hs : m.state? name = some s) :
    s.checkSelf = .ok () := by
  obtain ⟨place, hstate, -⟩ := h.states hs
  rw [checkState, seq_eq_ok_iff, seq_eq_ok_iff, mapError_eq_ok_iff] at hstate
  exact hstate.2.1

theorem branch (h : m.Checked) {branches : List Machine} {settings : ParallelSettings}
    (hs : m.state? name = some (.parallel branches settings)) {i : Nat} {b : Machine}
    (hb : branches[i]? = some b) : b.Checked := by
  obtain ⟨place, -, hinside⟩ := h.states hs
  rw [checkInside] at hinside
  exact checkBranches_getElem? hinside hb

end Machine.Checked

/-! ## What follows a state -/

/-- The kinds of states that say by themselves what follows. -/
def StateKind.Goes (k : StateKind) : Prop := k = .task ∨ k = .wait ∨ k = .parallel

theorem Step.after_of_checkTransition {s : State}
    (h : checkTransition s.kind s.transition = .ok ()) :
    (∃ name, Step.after s = .next name) ∨ Step.after s = .finish := by
  rcases hnext : s.transition.next with _ | name
  · rcases hend : s.transition.ending with _ | ending
    · simp [checkTransition, hnext, hend] at h
    · cases ending with
      | false => simp [checkTransition, hnext, hend] at h
      | true => exact .inr (by rw [Step.after, hnext, hend])
  · exact .inl ⟨name, by rw [Step.after, hnext]⟩

theorem WaitState.after_of_checkSelf {w : WaitState} (h : (State.wait w).checkSelf = .ok ()) :
    (∃ name, Step.after (.wait w) = .next name) ∨ Step.after (.wait w) = .finish := by
  rw [State.checkSelf, seq_eq_ok_iff] at h
  exact Step.after_of_checkTransition h.1

/-! ## Checks that pass part by part -/

theorem checkStates_eq_ok {place : Place} {whole : Machine} {states : List (String × State)}
    (h : ∀ e ∈ states, checkState place whole e.1 e.2 = .ok () ∧
      checkInside place e.1 e.2 = .ok ()) : checkStates place whole states = .ok () := by
  induction states with
  | nil => rfl
  | cons e states ih =>
    obtain ⟨⟨hself, hinside⟩, hrest⟩ := List.forall_mem_cons.mp h
    rw [checkStates, seq_eq_ok_iff, seq_eq_ok_iff]
    exact ⟨hself, hinside, ih hrest⟩

theorem checkBranches_eq_ok {place : Place} {name : String} {ms : List Machine}
    (h : ∀ m ∈ ms, m.timeoutSeconds = none ∧ ∀ inner, checkMachine inner m = .ok ()) (index : Nat) :
    checkBranches place name index ms = .ok () := by
  induction ms generalizing index with
  | nil => rfl
  | cons m ms ih =>
    obtain ⟨⟨htimeout, hcheck⟩, hrest⟩ := List.forall_mem_cons.mp h
    rw [checkBranches, seq_eq_ok_iff, seq_eq_ok_iff, require_eq_ok, htimeout]
    exact ⟨rfl, hcheck _, ih hrest (index + 1)⟩

theorem policiesOfMachines_eq_ok {ms : List Machine}
    (h : ∀ m ∈ ms, policiesOfMachine m = .ok ()) : policiesOfMachines ms = .ok () := by
  induction ms with
  | nil => rfl
  | cons m ms ih =>
    obtain ⟨hm, hrest⟩ := List.forall_mem_cons.mp h
    rw [policiesOfMachines, seq_eq_ok_iff]
    exact ⟨hm, ih hrest⟩

end Workflow
