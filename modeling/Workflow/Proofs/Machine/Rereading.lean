import Workflow.Proofs.Machine.Contents

/-!
# Reading normalises

What is read from a value may be written with fewer fields, other numbers or another order than the
value had. But it can be written, and so it is read back as it is: reading has settled everything
that writing could disturb. A default of a policy is a finite number, of several forms of a rule one
was chosen, and parameters that are not `null` stay so in their canonical form.

The one thing reading does not settle by itself is whether numbers are finite; where they are in the
value, they are in the machine.
-/

namespace Workflow

open Json

/-! ## Readers of parts -/

namespace Json

theorem finite_of_record? {v w : Json} {declared : List String} {fields : Entries Json}
    {name : String} (hv : v.Finite) (h : v.record? declared = some fields)
    (hw : Entries.find? name fields = some w) : w.Finite := by
  have hmem := Entries.mem_of_find? hw
  cases v with
  | object given =>
    rw [record?] at h
    split at h
    · cases h
      exact hv.of_within (within_of_find? hw)
    · cases h
  | array items =>
    rw [record?] at h
    split at h
    · cases h
      exact finite_array_iff.mp hv w (List.of_mem_zip hmem).2
    · cases h
  | _ => cases h

/-- From a value with finite numbers, `read` gives nothing without the property. -/
def Gives {α : Type} (read : Json → Option α) (P : α → Prop) : Prop :=
  ∀ v a, v.Finite → read v = some a → P a

theorem gives_float : Gives float? (isFiniteFloat · = true) := by
  intro v x hv h
  cases v with
  | number n =>
    cases h
    exact finite_number_iff.mp hv
  | _ => cases h

theorem Gives.map {α β : Type} {read : Json → Option α} {P : α → Prop} {Q : β → Prop} {f : α → β}
    (hread : Gives read P) (hf : ∀ a, P a → Q (f a)) : Gives (fun v ↦ (read v).map f) Q := by
  intro v b hv h
  obtain ⟨a, ha, rfl⟩ := Option.map_eq_some_iff.mp h
  exact hf a (hread v a hv ha)

theorem Gives.listOf {α : Type} {read : Json → Option α} {P : α → Prop} (hread : Gives read P) :
    Gives (listOf? read) fun as ↦ ∀ a ∈ as, P a := by
  intro v as hv h
  cases v with
  | array items =>
    have hitems : ∀ w ∈ items, w.Finite := finite_array_iff.mp hv
    clear hv
    rw [listOf?] at h
    induction items generalizing as with
    | nil =>
      cases h
      exact List.forall_mem_nil _
    | cons w items ih =>
      obtain ⟨hw, hrest⟩ := List.forall_mem_cons.mp hitems
      rw [List.mapM_cons] at h
      obtain ⟨a, ha, h⟩ := Option.bind_eq_some_iff.mp h
      obtain ⟨rest, hread', h⟩ := Option.bind_eq_some_iff.mp h
      cases h
      exact List.forall_mem_cons.mpr ⟨hread w a hw ha, ih rest hread' hrest⟩
  | _ => cases h

theorem Gives.defaulting {α : Type} {read : Json → Option α} {P : α → Prop} {default a : α}
    {field : Option Json} (hread : Gives read P) (hdefault : P default)
    (hfield : ∀ v, field = some v → v.Finite) (h : defaulting default read field = some a) :
    P a := by
  cases field with
  | none =>
    cases h
    exact hdefault
  | some v => exact hread v a (hfield v rfl) h

/-- The canonical form of a finite value is not `null` if the value is not. -/
theorem canonical_ne_null {v : Json} (hv : v.Finite) (hne : v ≠ .null) : v.canonical ≠ .null := by
  cases v with
  | null => exact absurd rfl hne
  | number n =>
    cases n with
    | int n =>
      rw [canonical]
      exact nofun
    | float x =>
      have hx : isFiniteFloat x = true := finite_number_iff.mp hv
      rw [canonical, if_pos hx]
      exact nofun
  | bool _ | string _ | array _ | object _ =>
    rw [canonical]
    exact nofun

end Json

/-! ## Policies -/

theorem Retrier.gives : Gives Retrier.ofJson? Retrier.Writable := by
  intro v r hv h
  simp only [ofJson?, Option.bind_eq_bind, Option.bind_eq_some_iff] at h
  obtain ⟨fields, hfields, _, _, _, _, _, _, rate, hrate, h⟩ := h
  cases h
  exact gives_float.defaulting (by decide) (fun w hw ↦ finite_of_record? hv hfields hw) hrate

/-! ## Rules -/

theorem Comparator.gives_forms : ∀ form ∈ forms, Gives form.2 Comparator.Writable := by
  have hstring : Gives string? fun _ ↦ True := fun _ _ _ _ ↦ trivial
  have hbool : Gives bool? fun _ ↦ True := fun _ _ _ _ ↦ trivial
  simp only [forms, List.forall_mem_cons]
  exact ⟨hstring.map fun _ h ↦ h, gives_float.map fun _ h ↦ h, gives_float.map fun _ h ↦ h,
    gives_float.map fun _ h ↦ h, gives_float.map fun _ h ↦ h, gives_float.map fun _ h ↦ h,
    hbool.map fun _ h ↦ h, hbool.map fun _ h ↦ h, List.forall_mem_nil _⟩

theorem Comparator.writable_of_ofFields? {fields : List (String × Json)}
    (hfields : ∀ e ∈ fields, e.2.Finite) {c : Comparator} (h : ofFields? fields = some c) :
    c.Writable := by
  induction fields with
  | nil => cases h
  | cons e fields ih =>
    obtain ⟨name, v⟩ := e
    obtain ⟨hv, hrest⟩ := List.forall_mem_cons.mp hfields
    rw [ofFields?] at h
    split at h
    · next read hread => exact gives_forms _ (Entries.mem_of_find? hread) v c hv h
    · exact ih hrest h

theorem exists_of_form {α β : Type} {p : Prop} [Decidable p] {read : Option α} {f : α → β} {b : β}
    (h : (if p then read.map f else none) = some b) : ∃ a, read = some a ∧ f a = b := by
  split at h
  · exact Option.map_eq_some_iff.mp h
  · cases h

theorem or_of_orElse_eq_some {α : Type} {o o' : Option α} {a : α} (h : (o <|> o') = some a) :
    o = some a ∨ o' = some a := by
  cases o with
  | none => exact .inr h
  | some b => exact .inl h

/-- The condition of a rule is of one of the four forms. -/
theorem ChoiceRule.condition_of_ofJson? {fields : List (String × Json)} {rule : ChoiceRule}
    (h : ofJson? (.object fields) = some rule) :
    (∃ rules, rulesAmong? "And" fields = some rules ∧ .all rules = rule.condition) ∨
      (∃ rules, rulesAmong? "Or" fields = some rules ∧ .any rules = rule.condition) ∨
      (∃ inner, ruleAmong? "Not" fields = some inner ∧ .negate inner = rule.condition) ∨
      Condition.comparison? fields = some rule.condition := by
  rw [ofJson?] at h
  split at h
  · cases h
  · obtain ⟨c, hc, rfl⟩ := Option.map_eq_some_iff.mp h
    rcases or_of_orElse_eq_some hc with hall | hc
    · exact .inl (exists_of_form hall)
    rcases or_of_orElse_eq_some hc with hany | hc
    · exact .inr (.inl (exists_of_form hany))
    rcases or_of_orElse_eq_some hc with hnot | hcompare
    · exact .inr (.inr (.inl (exists_of_form hnot)))
    · exact .inr (.inr (.inr hcompare))

theorem exists_mem_of_ruleItems? {items : List Json} {rules : List ChoiceRule}
    (h : ruleItems? items = some rules) {rule : ChoiceRule} (hrule : rule ∈ rules) :
    ∃ v ∈ items, ChoiceRule.ofJson? v = some rule := by
  induction items generalizing rules with
  | nil =>
    rw [ruleItems?] at h
    cases h
    cases hrule
  | cons v items ih =>
    rw [ruleItems?] at h
    split at h
    · cases h
    · next first hfirst =>
      obtain ⟨rest, hrest, rfl⟩ := Option.map_eq_some_iff.mp h
      rcases List.mem_cons.mp hrule with rfl | hmem
      · exact ⟨v, List.mem_cons_self, hfirst⟩
      · obtain ⟨w, hw, hread⟩ := ih hrest hmem
        exact ⟨w, List.mem_cons_of_mem v hw, hread⟩

theorem ChoiceRule.eq_object_of_ofJson? {v : Json} {rule : ChoiceRule}
    (h : ofJson? v = some rule) : ∃ fields, v = .object fields := by
  unfold ofJson? at h
  split at h
  · exact ⟨_, rfl⟩
  · cases h

theorem eq_array_of_rulesOf? {v : Json} {rules : List ChoiceRule} (h : rulesOf? v = some rules) :
    ∃ items, v = .array items := by
  unfold rulesOf? at h
  split at h
  · exact ⟨_, rfl⟩
  · cases h

/-- A rule that is read from an object, when the rules that are read from its fields can be
written. -/
theorem ChoiceRule.writable_of_fields {fields : List (String × Json)}
    (hfields : ∀ e ∈ fields, e.2.Finite)
    (hrule : ∀ e ∈ fields, ∀ rule, ofJson? e.2 = some rule → rule.condition.Writable)
    (hrules : ∀ e ∈ fields, ∀ rules, rulesOf? e.2 = some rules → ∀ r ∈ rules, r.condition.Writable)
    {rule : ChoiceRule} (h : ofJson? (.object fields) = some rule) : rule.condition.Writable := by
  obtain ⟨condition, next⟩ := rule
  rcases condition_of_ofJson? h with
    ⟨rules, hread, rfl⟩ | ⟨rules, hread, rfl⟩ | ⟨inner, hread, rfl⟩ | hread
  · rw [rulesAmong?_eq] at hread
    obtain ⟨w, hw, hread⟩ := Option.bind_eq_some_iff.mp hread
    exact .all (hrules _ (Entries.mem_of_find? hw) rules hread)
  · rw [rulesAmong?_eq] at hread
    obtain ⟨w, hw, hread⟩ := Option.bind_eq_some_iff.mp hread
    exact .any (hrules _ (Entries.mem_of_find? hw) rules hread)
  · rw [ruleAmong?_eq] at hread
    obtain ⟨w, hw, hread⟩ := Option.bind_eq_some_iff.mp hread
    exact .negate (hrule _ (Entries.mem_of_find? hw) inner hread)
  · rw [Condition.comparison?] at hread
    obtain ⟨path, -, hread⟩ := Option.bind_eq_some_iff.mp hread
    obtain ⟨c, hc, hread⟩ := Option.bind_eq_some_iff.mp hread
    cases hread
    exact .compare (Comparator.writable_of_ofFields? hfields hc)

/-- Whatever is read from the value, a rule or a list of rules, can be written. -/
theorem writable_of_rules {v : Json} (hv : v.Finite) :
    (∀ rule, ChoiceRule.ofJson? v = some rule → rule.condition.Writable) ∧
      ∀ rules, rulesOf? v = some rules → ∀ r ∈ rules, r.condition.Writable := by
  induction v using Json.rec' with
  | array items ih =>
    refine ⟨fun rule h ↦ ?_, fun rules h r hr ↦ ?_⟩
    · obtain ⟨fields, heq⟩ := ChoiceRule.eq_object_of_ofJson? h
      cases heq
    · rw [rulesOf?] at h
      obtain ⟨w, hw, hread⟩ := exists_mem_of_ruleItems? h hr
      exact (ih w hw (finite_array_iff.mp hv w hw)).1 r hread
  | object fields ih =>
    have hfields : ∀ e ∈ fields, e.2.Finite := finite_object_iff.mp hv
    refine ⟨fun rule h ↦ ?_, fun rules h ↦ ?_⟩
    · exact ChoiceRule.writable_of_fields hfields (fun e he ↦ (ih e he (hfields e he)).1)
        (fun e he ↦ (ih e he (hfields e he)).2) h
    · obtain ⟨items, heq⟩ := eq_array_of_rulesOf? h
      cases heq
  | null | bool _ | number _ | string _ =>
    refine ⟨fun rule h ↦ ?_, fun rules h ↦ ?_⟩
    · obtain ⟨fields, heq⟩ := ChoiceRule.eq_object_of_ofJson? h
      cases heq
    · obtain ⟨items, heq⟩ := eq_array_of_rulesOf? h
      cases heq

/-! ## States -/

theorem TaskState.exists_fields_of_ofJson? {v : Json} {t : TaskState} (h : ofJson? v = some t) :
    ∃ declared fields, v.record? declared = some fields ∧
      optional free? (Entries.find? "Parameters" fields) = some t.parameters ∧
        defaulting [] (listOf? Retrier.ofJson?) (Entries.find? "Retry" fields) = some t.retry := by
  simp only [ofJson?, Option.bind_eq_bind, Option.bind_eq_some_iff] at h
  obtain ⟨fields, hfields, _, _, _, hparameters, _, _, _, _, _, _, _, hretry, _, _, _, _, h⟩ := h
  cases h
  exact ⟨_, fields, hfields, hparameters, hretry⟩

theorem ParallelSettings.exists_fields_of_ofJson? {v : Json} {p : ParallelSettings}
    (h : ofJson? v = some p) :
    ∃ declared fields, v.record? declared = some fields ∧
      defaulting [] (listOf? Retrier.ofJson?) (Entries.find? "Retry" fields) = some p.retry := by
  simp only [ofJson?, Option.bind_eq_bind, Option.bind_eq_some_iff] at h
  obtain ⟨fields, hfields, _, _, _, _, _, hretry, _, _, _, _, h⟩ := h
  cases h
  exact ⟨_, fields, hfields, hretry⟩

theorem ChoiceState.exists_fields_of_ofJson? {v : Json} {c : ChoiceState} (h : ofJson? v = some c) :
    ∃ declared fields, v.record? declared = some fields ∧
      required rulesOf? (Entries.find? "Choices" fields) = some c.choices := by
  simp only [ofJson?, Option.bind_eq_bind, Option.bind_eq_some_iff] at h
  obtain ⟨fields, hfields, _, hchoices, _, _, _, _, h⟩ := h
  cases h
  exact ⟨_, fields, hfields, hchoices⟩

/-- Parameters are the canonical form of something that is not `null`. -/
theorem TaskState.exists_parameters {v : Json} {t : TaskState} (h : ofJson? v = some t) :
    ∀ p ∈ t.parameters, ∃ w : Json, w ≠ .null ∧ p = w.canonical ∧ (v.Finite → w.Finite) := by
  intro p hp
  obtain ⟨declared, fields, hfields, hparameters, -⟩ := exists_fields_of_ofJson? h
  generalize hfield : Entries.find? "Parameters" fields = field at hparameters
  unfold Json.optional at hparameters
  split at hparameters
  · rw [← Option.some.inj hparameters] at hp
    cases hp
  · rw [← Option.some.inj hparameters] at hp
    cases hp
  · next w hne =>
    rw [free?, Option.map_some] at hparameters
    rw [← Option.some.inj hparameters] at hp
    cases hp
    exact ⟨w, hne, rfl, fun hv ↦ finite_of_record? hv hfields hfield⟩

theorem State.kind_of_ofBody? {kind : StateKind} {branches : Option (List Machine)} {body : Json}
    {s : State} (h : ofBody? kind branches body = some s) : s.kind = kind := by
  cases kind <;> simp only [ofBody?, Option.bind_eq_bind, Option.bind_eq_some_iff,
    Option.map_eq_some_iff] at h
  case succeed | parallel =>
    obtain ⟨_, _, _, _, heq⟩ := h
    cases heq
    rfl
  all_goals
    obtain ⟨_, _, rfl⟩ := h
    rfl

theorem exists_body_of_stateOf? {inBranch : Bool} {v : Json} {s : State}
    (h : stateOf? inBranch v = some s) :
    ∃ branches body, State.ofBody? s.kind branches body = some s ∧ (v.Finite → body.Finite) := by
  rcases ofBody?_of_stateOf? h with ⟨kind, fields, rfl, hbody⟩ | ⟨kind, tag, items, rfl, hbody⟩
  · rw [State.kind_of_ofBody? hbody]
    exact ⟨_, _, hbody, id⟩
  · rw [State.kind_of_ofBody? hbody]
    refine ⟨_, _, hbody, fun hv ↦ finite_array_iff.mpr ?_⟩
    exact (List.forall_mem_cons.mp (finite_array_iff.mp hv)).2

theorem canonical_of_stateOf? {inBranch : Bool} {v : Json} {t : TaskState}
    (h : stateOf? inBranch v = some (.task t)) : ∀ p ∈ t.parameters, p.canonical = p := by
  intro p hp
  obtain ⟨branches, body, hbody, -⟩ := exists_body_of_stateOf? h
  obtain ⟨w, -, rfl, -⟩ := TaskState.exists_parameters (State.ofBody?_eq_task hbody) p hp
  exact canonical_canonical w

section

variable {inBranch : Bool} {v : Json} (hv : v.Finite)

include hv

theorem ne_null_of_stateOf? {t : TaskState} (h : stateOf? inBranch v = some (.task t)) :
    ∀ p ∈ t.parameters, p ≠ .null := by
  intro p hp
  obtain ⟨branches, body, hbody, hfinite⟩ := exists_body_of_stateOf? h
  obtain ⟨w, hne, rfl, hw⟩ := TaskState.exists_parameters (State.ofBody?_eq_task hbody) p hp
  exact canonical_ne_null (hw (hfinite hv)) hne

theorem writable_rules_of_stateOf? {c : ChoiceState} (h : stateOf? inBranch v = some (.choice c)) :
    ∀ r ∈ c.choices, r.condition.Writable := by
  obtain ⟨branches, body, hbody, hfinite⟩ := exists_body_of_stateOf? h
  obtain ⟨read, hread, heq⟩ := Option.map_eq_some_iff.mp hbody
  cases heq
  obtain ⟨declared, fields, hfields, hchoices⟩ := ChoiceState.exists_fields_of_ofJson? hread
  obtain ⟨w, hw, hrules⟩ := Option.bind_eq_some_iff.mp hchoices
  exact (writable_of_rules (finite_of_record? (hfinite hv) hfields hw)).2 _ hrules

theorem writable_retriers_of_stateOf? {s : State} (h : stateOf? inBranch v = some s) :
    ∀ r ∈ s.retriers, r.Writable := by
  obtain ⟨branches, body, hbody, hfinite⟩ := exists_body_of_stateOf? h
  have hretriers : ∀ {declared fields retry}, body.record? declared = some fields →
      defaulting [] (listOf? Retrier.ofJson?) (Entries.find? "Retry" fields) = some retry →
        ∀ r ∈ retry, r.Writable := fun hfields hretry ↦
    Retrier.gives.listOf.defaulting (List.forall_mem_nil _)
      (fun w hw ↦ finite_of_record? (hfinite hv) hfields hw) hretry
  cases s with
  | task t =>
    obtain ⟨declared, fields, hfields, -, hretry⟩ :=
      TaskState.exists_fields_of_ofJson? (State.ofBody?_eq_task hbody)
    exact hretriers hfields hretry
  | parallel branches settings =>
    obtain ⟨read, hread, hbody⟩ := Option.bind_eq_some_iff.mp hbody
    obtain ⟨_, _, hbody⟩ := Option.bind_eq_some_iff.mp hbody
    cases hbody
    obtain ⟨declared, fields, hfields, hretry⟩ := ParallelSettings.exists_fields_of_ofJson? hread
    exact hretriers hfields hretry
  | choice _ | wait _ | succeed _ | fail _ => exact List.forall_mem_nil _

end

/-! ## Machines -/

theorem ascending_branches_of_contains {inBranch : Bool} {v : Json} {m : Machine}
    (h : machineOf? inBranch v = some m) {branches : List Machine} {settings : ParallelSettings}
    (hs : m.Contains (.parallel branches settings)) :
    ∀ b ∈ branches, Entries.Ascending b.states := by
  intro b hb
  obtain ⟨_, w, -, hread⟩ := exists_within_of_contains h hs
  obtain ⟨u, -, hbranch⟩ := exists_within_of_mem_branches hread hb
  exact ascending_of_machineOf? hbranch

/-- **A machine that is read from a value with finite numbers can be written.** -/
theorem writable_of_machineOf? {inBranch : Bool} {v : Json} (hv : v.Finite) {m : Machine}
    (h : machineOf? inBranch v = some m) : m.Writable := by
  refine Machine.WritableByState.writable ?_
  exact {
    names := ascending_of_machineOf? h
    branches := fun _ _ hs ↦ ascending_branches_of_contains h hs
    parameters := fun t hs p hp ↦ by
      obtain ⟨_, w, hw, hread⟩ := exists_within_of_contains h hs
      exact ⟨canonical_of_stateOf? hread p hp, ne_null_of_stateOf? (hv.of_within hw) hread p hp⟩
    rules := fun c hs ↦ by
      obtain ⟨_, w, hw, hread⟩ := exists_within_of_contains h hs
      exact writable_rules_of_stateOf? (hv.of_within hw) hread
    retry := fun s hs ↦ by
      obtain ⟨_, w, hw, hread⟩ := exists_within_of_contains h hs
      exact writable_retriers_of_stateOf? (hv.of_within hw) hread }

/-- **Reading normalises once.** What is written for a machine that was read is read as the same
machine. -/
theorem Machine.ofJson?_toJson_of_ofJson? {v : Json} (hv : v.Finite) {m : Machine}
    (h : ofJson? v = some m) : ofJson? m.toJson.canonical = some m :=
  ofJson?_toJson (writable_of_machineOf? hv h)

/-- Fields in no order, a task with defaults, and two rules: one with two comparators and one with
two forms. -/
def looseDocument : Json :=
  .object [
    ("States", .object [
      ("pick", .object [
        ("Choices", .array [
          .object [("Variable", .string "$.n"), ("NumericEquals", ofUInt32 1),
            ("IsPresent", .bool true), ("Next", .string "work")],
          .object [("Or", .array []), ("And", .null), ("Next", .string "work")]]),
        ("Type", .string "Choice")]),
      ("work", .object [
        ("Type", .string "Task"), ("Resource", .string "copy"),
        ("Parameters", .object [("b", .null), ("a", .bool true)]), ("Comment", .null),
        ("Retry", .array [.object [("ErrorEquals", .array [.string "States.ALL"])]]),
        ("End", .bool true)])]),
    ("StartAt", .string "pick"), ("TimeoutSeconds", .null)]

/-- What is read from `looseDocument`. -/
def looseMachine : Machine where
  startAt := "pick"
  states := [
    ("pick", .choice {
      choices := [
        { condition := .compare "$.n" (.numericEquals 1.0), next := some "work" },
        { condition := .any [], next := some "work" }] }),
    ("work", .task {
      resource := "copy"
      parameters := some (.object [("a", .bool true), ("b", .null)])
      transition := { ending := some true }
      retry := [⟨["States.ALL"], 1, 3, 2.0⟩] })]

theorem finite_looseDocument : looseDocument.Finite := by
  simp [looseDocument, ofUInt32]

theorem Machine.ofJson?_toJson_looseMachine :
    looseDocument.Finite ∧ ofJson? looseDocument = some looseMachine ∧
      ofJson? looseMachine.toJson.canonical = some looseMachine :=
  ⟨finite_looseDocument, rfl, ofJson?_toJson_of_ofJson? finite_looseDocument rfl⟩

end Workflow
