import Workflow.Machine.Text
import Workflow.Proofs.Machine.Rereading
import Workflow.Proofs.Machine.Rules

/-!
# Accepted texts

A machine that was read from a text and accepted is written and read again. From JSON it always
comes back. YAML has floats that JSON has not: infinities and what is no number at all. In their
place `null` is written, and what is read from there is something else, a rule without a comparator
or a task without parameters.

Validation asks the backoff rate of a retrier to be finite. It does not look at the numbers that
rules compare with nor at parameters, so it is left to the text whether these come back.
-/

namespace Workflow

/-! ## Machines of texts -/

theorem Machine.parse_eq_ok_iff {text : String} {m : Machine} :
    parse text = .ok m ↔ ofText? text = some m ∧ m.check = .ok () := by
  rw [parse]
  cases hread : ofText? text with
  | none => exact iff_of_false nofun fun h ↦ nomatch h.1
  | some m' =>
    constructor
    · intro h
      dsimp only at h
      split at h
      · next hcheck =>
        cases h
        exact ⟨rfl, hcheck⟩
      · cases h
    · rintro ⟨⟨⟩, hcheck⟩
      simp only [hcheck]

/-- A machine of a text is read from a value, in JSON the value of the text. -/
theorem Machine.exists_value_of_ofText? {text : String} {m : Machine} (h : ofText? text = some m) :
    ∃ v, ofJson? v = some m ∧ (looksLikeJson text = true → Json.ofText? text = some v) := by
  rw [ofText?] at h
  split at h
  · obtain ⟨v, hv, hread⟩ := Option.bind_eq_some_iff.mp h
    exact ⟨v, hread, fun _ ↦ hv⟩
  · next hyaml =>
    obtain ⟨v, -, hread⟩ := Option.bind_eq_some_iff.mp h
    exact ⟨v, hread, fun hjson ↦ absurd hjson hyaml⟩

/-! ## What validation leaves open -/

theorem Machine.Valid.proper_of_contains {m : Machine} {s : State} (hm : m.Valid)
    (hs : m.Contains s) : s.Proper := by
  induction hs with
  | here hmem =>
    obtain ⟨-, -, -, -, hproper, -, -, -, -⟩ := hm
    exact hproper _ hmem
  | inside hmem hbranch _ ih =>
    obtain ⟨-, -, -, -, -, -, -, hbranches, -⟩ := hm
    exact ih (hbranches _ hmem _ hbranch)

theorem State.Proper.writable_retriers {s : State} (h : s.Proper) :
    ∀ r ∈ s.retriers, r.Writable := by
  cases h with
  | task _ _ _ _ hpolicies => exact fun r hr ↦ (hpolicies.retriers r hr).finite
  | parallel _ _ _ hpolicies => exact fun r hr ↦ (hpolicies.retriers r hr).finite
  | pause _ _ _ | pauseFor _ _ _ _ | choice _ _ _ | succeed _ | fail _ =>
    exact List.forall_mem_nil _

/-- The numbers that rules compare with are finite, and parameters are not `null`. Reading and
validation see to everything else in a state. -/
structure State.Expressible (s : State) : Prop where
  rules : ∀ c, s = .choice c → ∀ r ∈ c.choices, r.condition.Writable
  parameters : ∀ t, s = .task t → t.parameters ≠ some .null

theorem State.Writable.expressible {s : State} (h : s.Writable) : s.Expressible := by
  constructor
  · rintro c rfl
    cases h with
    | choice rules => exact rules
  · rintro t rfl hnull
    cases h with
    | task parameters _ => exact (parameters .null hnull).2 rfl

/-- A valid machine that was read can be written if its states are expressible. -/
theorem Machine.Valid.writable {inBranch : Bool} {v : Json} {m : Machine} (hvalid : m.Valid)
    (h : machineOf? inBranch v = some m) (hstates : ∀ s, m.Contains s → s.Expressible) :
    m.Writable := by
  refine WritableByState.writable ?_
  exact {
    names := ascending_of_machineOf? h
    branches := fun _ _ hs ↦ ascending_branches_of_contains h hs
    parameters := fun t hs p hp ↦ by
      obtain ⟨_, w, -, hread⟩ := exists_within_of_contains h hs
      refine ⟨canonical_of_stateOf? hread p hp, ?_⟩
      rintro rfl
      exact (hstates _ hs).parameters t rfl hp
    rules := fun c hs ↦ (hstates _ hs).rules c rfl
    retry := fun _ hs ↦ (hvalid.proper_of_contains hs).writable_retriers }

/-- **What comes back of an accepted text.** The machine does exactly if all its states are
expressible, and it always does if the text is JSON. -/
theorem Machine.ofJson?_toJson_iff_of_parse {text : String} {m : Machine}
    (h : parse text = .ok m) :
    m.check = .ok () ∧
      (ofJson? m.toJson.canonical = some m ↔ ∀ s, m.Contains s → s.Expressible) ∧
        (looksLikeJson text = true → ofJson? m.toJson.canonical = some m) := by
  obtain ⟨htext, hcheck⟩ := parse_eq_ok_iff.mp h
  obtain ⟨v, hread, hjson⟩ := exists_value_of_ofText? htext
  have hvalid : m.Valid := (checkMachine_eq_ok_iff m .root).mp hcheck
  refine ⟨hcheck, ⟨fun hback s hs ↦ ?_, fun hstates ↦ ?_⟩, fun hlooks ↦ ?_⟩
  · -- what was written has finite numbers only, so that the machine read from it can be written
    have hwritable : m.Writable := writable_of_machineOf? (Json.finite_canonical m.toJson) hback
    exact (hwritable.of_contains hs).expressible
  · exact ofJson?_toJson (hvalid.writable hread hstates)
  · exact ofJson?_toJson (writable_of_machineOf? (Json.finite_ofText? (hjson hlooks)) hread)

/-- A choice of all numbers below infinity. -/
def unboundedText : String :=
  "StartAt: P\nStates:\n  P:\n    Type: Choice\n    Choices:\n"
    ++ "      - Variable: $.n\n        NumericLessThan: .inf\n        Next: D\n"
    ++ "  D:\n    Type: Succeed\n"

theorem Machine.ofJson?_toJson_unbounded :
    ∃ m, parse unboundedText = .ok m ∧ m.check = .ok () ∧ ofJson? m.toJson.canonical = none ∧
      ¬∀ s, m.Contains s → s.Expressible := by
  have hnone : (parse unboundedText).toOption.any (fun m ↦ (ofJson? m.toJson.canonical).isNone)
      = true := by
    decide +kernel
  cases hparse : parse unboundedText with
  | error fault =>
    rw [hparse] at hnone
    cases hnone
  | ok m =>
    rw [hparse] at hnone
    have hread : ofJson? m.toJson.canonical = none := Option.isNone_iff_eq_none.mp hnone
    obtain ⟨hcheck, hback, -⟩ := ofJson?_toJson_iff_of_parse hparse
    refine ⟨m, rfl, hcheck, hread, fun hstates ↦ ?_⟩
    rw [hback.mpr hstates] at hread
    cases hread

end Workflow
