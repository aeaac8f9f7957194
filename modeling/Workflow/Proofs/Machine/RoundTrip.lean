import Workflow.Machine.Reading
import Workflow.Proofs.Json.ReadBack

/-!
# Machines are read back

A machine is written, brought into the canonical form and read again. The canonical form moves the
fields around, so the reader has to find each of them wherever it stands, and the condition of a
rule by its form although the form is tried on all its fields.

`Machine.Writable` says what a document can express: states in ascending order, finite numbers and
parameters that are canonical and not `null`.
-/

namespace Workflow

open Json

/-! ## What can be written -/

/-- The expected number, if there is one, is finite. -/
def Comparator.Writable : Comparator → Prop
  | .stringEquals _ | .booleanEquals _ | .isPresent _ => True
  | .numericEquals x | .numericGreaterThan x | .numericGreaterThanEquals x | .numericLessThan x
  | .numericLessThanEquals x => isFiniteFloat x = true

inductive Condition.Writable : Condition → Prop
  | all {rules : List ChoiceRule} (each : ∀ r ∈ rules, Writable r.condition) : Writable (.all rules)
  | any {rules : List ChoiceRule} (each : ∀ r ∈ rules, Writable r.condition) : Writable (.any rules)
  | negate {rule : ChoiceRule} (inner : Writable rule.condition) : Writable (.negate rule)
  | compare {path : String} {c : Comparator} (expected : c.Writable) : Writable (.compare path c)

def Retrier.Writable (r : Retrier) : Prop := isFiniteFloat r.backoffRate = true

mutual

/-- A machine that a document can express. -/
inductive Machine.Writable : Machine → Prop
  | intro {m : Machine} (names : Entries.Ascending m.states)
      (states : ∀ e ∈ m.states, State.Writable e.2) : Machine.Writable m

inductive State.Writable : State → Prop
  | task {t : TaskState} (parameters : ∀ p ∈ t.parameters, p.canonical = p ∧ p ≠ .null)
      (retry : ∀ r ∈ t.retry, r.Writable) : State.Writable (.task t)
  | choice {c : ChoiceState} (rules : ∀ r ∈ c.choices, r.condition.Writable) :
      State.Writable (.choice c)
  | wait {w : WaitState} : State.Writable (.wait w)
  | parallel {branches : List Machine} {settings : ParallelSettings}
      (each : ∀ m ∈ branches, Machine.Writable m) (retry : ∀ r ∈ settings.retry, r.Writable) :
      State.Writable (.parallel branches settings)
  | succeed {comment : Option String} : State.Writable (.succeed comment)
  | fail {f : FailState} : State.Writable (.fail f)

end

/-! ## Policies -/

theorem Retrier.readsBack {r : Retrier} (h : r.Writable) : ReadsBack ofJson? toJson r := by
  have hdeclared : Declared ["ErrorEquals", "IntervalSeconds", "MaxAttempts", "BackoffRate"] _ :=
    declared_single _ (ofFloat r.backoffRate) |>.cons _ (ofUInt32 r.maxAttempts)
      |>.cons _ (ofUInt32 r.intervalSeconds) |>.cons _ (ofStrings r.errorEquals)
  obtain ⟨fields, hcanonical, hfields⟩ := hdeclared.exists_carries (by decide)
  change r.toJson.canonical = _ at hcanonical
  refine ⟨?_, by rw [hcanonical]; exact nofun⟩
  rw [hcanonical, ofJson?, hfields.record?]
  simp [hfields.find?, Entries.find?_cons,
    defaulting_of_readsBack 1 (readsBack_uint32 r.intervalSeconds),
    defaulting_of_readsBack 3 (readsBack_uint32 r.maxAttempts),
    defaulting_of_readsBack 2.0 (readsBack_float h)]

theorem Catcher.readsBack (c : Catcher) : ReadsBack ofJson? toJson c := by
  have hdeclared : Declared ["ErrorEquals", "Next", "ResultPath"] _ :=
    declared_fieldOf _ .string c.resultPath |>.cons _ (.string c.next)
      |>.cons _ (ofStrings c.errorEquals)
  obtain ⟨fields, hcanonical, hfields⟩ := hdeclared.exists_carries (by decide)
  change c.toJson.canonical = _ at hcanonical
  refine ⟨?_, by rw [hcanonical]; exact nofun⟩
  rw [hcanonical, ofJson?, hfields.record?]
  simp [hfields.find?, Entries.find?_cons]

/-! ## Rules -/

namespace Comparator

/-- Only the field of the comparator itself has a form. -/
theorem ofFields?_of_form {fields : List (String × Json)} {name : String} {v : Json}
    {read : Json → Option Comparator} (hform : Entries.find? name forms = some read)
    (hv : Entries.find? name fields = some v)
    (hother : ∀ n ∈ Entries.names fields, n ≠ name → Entries.find? n forms = none) :
    ofFields? fields = read v := by
  induction fields with
  | nil => cases hv
  | cons e fields ih =>
    obtain ⟨n, w⟩ := e
    obtain ⟨hfirst, hrest⟩ := List.forall_mem_cons.mp hother
    rw [Entries.find?_cons] at hv
    rw [ofFields?]
    by_cases hn : n = name
    · rw [if_pos hn] at hv
      rw [hn, hform, Option.some.inj hv]
    · rw [if_neg hn] at hv
      rw [hfirst hn, ih hv hrest]

/-- A comparator is read back by the form of its name. -/
theorem exists_form {c : Comparator} (h : c.Writable) :
    ∃ read, Entries.find? c.toField.1 forms = some read ∧ read c.toField.2.canonical = some c := by
  cases c with
  | stringEquals s => exact ⟨_, rfl, by simp [toField, (readsBack_string s).read]⟩
  | numericEquals x => exact ⟨_, rfl, by simp [toField, (readsBack_float h).read]⟩
  | numericGreaterThan x => exact ⟨_, rfl, by simp [toField, (readsBack_float h).read]⟩
  | numericGreaterThanEquals x => exact ⟨_, rfl, by simp [toField, (readsBack_float h).read]⟩
  | numericLessThan x => exact ⟨_, rfl, by simp [toField, (readsBack_float h).read]⟩
  | numericLessThanEquals x => exact ⟨_, rfl, by simp [toField, (readsBack_float h).read]⟩
  | booleanEquals b => exact ⟨_, rfl, by simp [toField, (readsBack_bool b).read]⟩
  | isPresent b => exact ⟨_, rfl, by simp [toField, (readsBack_bool b).read]⟩

theorem nodup_names (c : Comparator) : ["Variable", c.toField.1, "Next"].Nodup := by
  cases c <;> simp [toField]

end Comparator

theorem rulesAmong?_eq (name : String) (fields : List (String × Json)) :
    rulesAmong? name fields = (Entries.find? name fields).bind rulesOf? := by
  induction fields with
  | nil => rfl
  | cons e fields ih =>
    rw [rulesAmong?, Entries.find?_cons, ih]
    split <;> rfl

theorem ruleAmong?_eq (name : String) (fields : List (String × Json)) :
    ruleAmong? name fields = (Entries.find? name fields).bind ChoiceRule.ofJson? := by
  induction fields with
  | nil => rfl
  | cons e fields ih =>
    rw [ruleAmong?, Entries.find?_cons, ih]
    split <;> rfl

theorem ChoiceRule.exists_carries (c : Condition) (next : Option String) :
    ∃ fields, (ChoiceRule.toJson ⟨c, next⟩).canonical = .object fields ∧
      Carries fields (conditionFields c ++ fieldOf "Next" .string next) := by
  have hnext := declared_fieldOf "Next" .string next
  cases c with
  | all rules => exact (hnext.cons "And" _).exists_carries (by decide)
  | any rules => exact (hnext.cons "Or" _).exists_carries (by decide)
  | negate rule => exact (hnext.cons "Not" _).exists_carries (by decide)
  | compare path c =>
    exact (hnext.cons c.toField.1 c.toField.2 |>.cons "Variable" (.string path)).exists_carries
      c.nodup_names

/-- The forms are tried in their order, each on the field of its name. -/
theorem ChoiceRule.ofJson?_of_carries {fields : List (String × Json)} {c : Condition}
    {next : Option String} (h : Carries fields (conditionFields c ++ fieldOf "Next" .string next)) :
    ChoiceRule.ofJson? (.object fields)
      = ((((Entries.find? "And" fields).bind rulesOf?).map Condition.all) <|>
        (((Entries.find? "Or" fields).bind rulesOf?).map Condition.any) <|>
        (((Entries.find? "Not" fields).bind ChoiceRule.ofJson?).map Condition.negate) <|>
        Condition.comparison? fields).map fun c ↦ ⟨c, next⟩ := by
  have hnone : Entries.find? "Next" (conditionFields c) = none := by
    cases c with
    | compare path c => cases c <;> rfl
    | _ => rfl
  have hread : ChoiceRule.next? fields = some next := by
    rw [ChoiceRule.next?, if_pos (h.once _), h.find?, find?_append, hnone, Option.none_or,
      find?_fieldOf, if_pos rfl, Option.map_map, optional_string]
  rw [ChoiceRule.ofJson?, hread]
  simp only [h.once, if_true, rulesAmong?_eq, ruleAmong?_eq]

/-- A comparison is found by the name of its comparator. -/
theorem Condition.comparison?_of_carries {fields : List (String × Json)} {path : String}
    {c : Comparator} {next : Option String} (hc : c.Writable)
    (h : Carries fields (conditionFields (.compare path c) ++ fieldOf "Next" .string next)) :
    Condition.comparison? fields = some (.compare path c) := by
  obtain ⟨read, hform, hread⟩ := Comparator.exists_form hc
  have hpath : (sole? "Variable" fields).bind string? = some path := by
    rw [sole?, if_pos (h.once _), h.find?]
    rfl
  have hcomparator : Comparator.ofFields? fields = some c := by
    have hname : "Variable" ≠ c.toField.1 := by
      cases c <;> simp [Comparator.toField]
    have hfound : Entries.find? c.toField.1 fields = some c.toField.2.canonical := by
      rw [h.find?, conditionFields, List.cons_append, Entries.find?_cons, if_neg hname]
      rw [List.cons_append, Entries.find?_cons, if_pos rfl, Option.map_some]
    rw [Comparator.ofFields?_of_form hform hfound, hread]
    intro n hn hne
    have hdeclared : Declared ["Variable", c.toField.1, "Next"]
        (conditionFields (.compare path c) ++ fieldOf "Next" .string next) :=
      declared_fieldOf "Next" .string next |>.cons c.toField.1 _ |>.cons "Variable" _
    rcases List.mem_cons.mp (List.Sublist.subset hdeclared (h.names n hn)) with rfl | hmem
    · rfl
    · rcases List.mem_cons.mp hmem with rfl | hmem
      · exact absurd rfl hne
      · rw [List.mem_singleton.mp hmem]
        rfl
  rw [Condition.comparison?, hpath, hcomparator]
  rfl

mutual

/-- **Rules are read back.** -/
theorem ChoiceRule.ofJson?_toJson : ∀ rule : ChoiceRule, rule.condition.Writable →
    ChoiceRule.ofJson? rule.toJson.canonical = some rule
  | ⟨.all rules, next⟩, h => by
    cases h with
    | all each =>
      obtain ⟨fields, hcanonical, hfields⟩ := ChoiceRule.exists_carries (.all rules) next
      rw [hcanonical, ChoiceRule.ofJson?_of_carries hfields]
      simp [hfields.find?, conditionFields, Entries.find?_cons, find?_fieldOf, canonical, rulesOf?,
        ruleItems?_toJson rules each]
  | ⟨.any rules, next⟩, h => by
    cases h with
    | any each =>
      obtain ⟨fields, hcanonical, hfields⟩ := ChoiceRule.exists_carries (.any rules) next
      rw [hcanonical, ChoiceRule.ofJson?_of_carries hfields]
      simp [hfields.find?, conditionFields, Entries.find?_cons, find?_fieldOf, canonical, rulesOf?,
        ruleItems?_toJson rules each]
  | ⟨.negate rule, next⟩, h => by
    cases h with
    | negate inner =>
      obtain ⟨fields, hcanonical, hfields⟩ := ChoiceRule.exists_carries (.negate rule) next
      rw [hcanonical, ChoiceRule.ofJson?_of_carries hfields]
      simp [hfields.find?, conditionFields, Entries.find?_cons, find?_fieldOf,
        ChoiceRule.ofJson?_toJson rule inner]
  | ⟨.compare path c, next⟩, h => by
    cases h with
    | compare expected =>
      obtain ⟨fields, hcanonical, hfields⟩ := ChoiceRule.exists_carries (.compare path c) next
      rw [hcanonical, ChoiceRule.ofJson?_of_carries hfields,
        Condition.comparison?_of_carries expected hfields]
      cases c <;> simp [hfields.find?, conditionFields, Entries.find?_cons, Comparator.toField]

private theorem ruleItems?_toJson : ∀ rules : List ChoiceRule,
    (∀ r ∈ rules, r.condition.Writable) →
      ruleItems? (canonicalItems (rulesToJson rules)) = some rules
  | [], _ => by
    rw [rulesToJson, canonicalItems, ruleItems?]
  | rule :: rules, h => by
    obtain ⟨hrule, hrules⟩ := List.forall_mem_cons.mp h
    rw [rulesToJson, canonicalItems, ruleItems?, ChoiceRule.ofJson?_toJson rule hrule,
      ruleItems?_toJson rules hrules]
    rfl

end

/-! ## States -/

/-- The fields of a state behind its `Type`. -/
def StateKind.fields : StateKind → List String
  | .task => ["Resource", "Parameters", "ResultPath", "TimeoutSeconds", "Next", "End", "Retry",
    "Catch", "Comment"]
  | .choice => ["Choices", "Default", "Comment"]
  | .wait => ["Seconds", "SecondsPath", "Next", "End", "Comment"]
  | .parallel => ["Branches", "ResultPath", "Next", "End", "Retry", "Catch", "Comment"]
  | .succeed => ["Comment"]
  | .fail => ["Error", "Cause", "Comment"]

theorem StateKind.nodup_fields (k : StateKind) : ("Type" :: k.fields).Nodup := by
  cases k <;> decide

theorem Transition.declared_toFields (t : Transition) : Declared ["Next", "End"] t.toFields :=
  (declared_fieldOf ..).append (declared_fieldOf ..)

theorem declared_stateFields (s : State) : Declared s.kind.fields (stateFields s) := by
  cases s with
  | task t =>
    exact declared_single "Resource" (.string t.resource) |>.append (declared_fieldOf ..)
      |>.append (declared_fieldOf ..) |>.append (declared_fieldOf ..)
      |>.append t.transition.declared_toFields |>.append (declared_listField ..)
      |>.append (declared_listField ..) |>.append (declared_fieldOf ..)
  | choice c =>
    exact declared_single "Choices" (.array (rulesToJson c.choices))
      |>.append (declared_fieldOf ..) |>.append (declared_fieldOf ..)
  | wait w =>
    exact declared_fieldOf "Seconds" ofUInt64 w.seconds |>.append (declared_fieldOf ..)
      |>.append w.transition.declared_toFields |>.append (declared_fieldOf ..)
  | parallel branches p =>
    exact declared_fieldOf "ResultPath" .string p.resultPath
      |>.append p.transition.declared_toFields |>.append (declared_listField ..)
      |>.append (declared_listField ..) |>.append (declared_fieldOf ..) |>.cons "Branches" _
  | succeed comment => exact declared_fieldOf ..
  | fail f =>
    exact declared_fieldOf "Error" .string f.error |>.append (declared_fieldOf ..)
      |>.append (declared_fieldOf ..)

theorem State.exists_carries (s : State) :
    ∃ fields, s.toJson.canonical = .object fields ∧
      Carries fields (("Type", .string s.kind.name) :: stateFields s) :=
  ((declared_stateFields s).cons "Type" _).exists_carries s.kind.nodup_fields

section

variable {fields : List (String × Json)} {tag : Json}

theorem TaskState.ofJson?_of_carries {t : TaskState}
    (h : Carries fields (("Type", tag) :: t.toFields))
    (hparameters : ∀ p ∈ t.parameters, p.canonical = p ∧ p ≠ .null)
    (hretry : ∀ r ∈ t.retry, r.Writable) : TaskState.ofJson? (.object fields) = some t := by
  have htransition : Transition.ofFields? fields = some t.transition := by
    simp [Transition.ofFields?, h.find?, toFields, Transition.toFields, Entries.find?_cons]
  rw [TaskState.ofJson?, h.record?]
  simp [htransition, h.find?, toFields, Transition.toFields, Entries.find?_cons,
    optional_free hparameters, defaulting_listValue? fun r hr ↦ Retrier.readsBack (hretry r hr),
    defaulting_listValue? fun c (_ : c ∈ t.catchers) ↦ c.readsBack]

theorem ChoiceState.ofJson?_of_carries {c : ChoiceState}
    (h : Carries fields (("Type", tag) :: c.toFields))
    (hrules : ∀ r ∈ c.choices, r.condition.Writable) :
    ChoiceState.ofJson? (.object fields) = some c := by
  have hchoices : rulesOf? (Json.array (rulesToJson c.choices)).canonical = some c.choices := by
    rw [canonical, rulesOf?, ruleItems?_toJson c.choices hrules]
  rw [ChoiceState.ofJson?, h.record?]
  simp [h.find?, toFields, Entries.find?_cons, required, hchoices]

theorem WaitState.ofJson?_of_carries {w : WaitState}
    (h : Carries fields (("Type", tag) :: w.toFields)) :
    WaitState.ofJson? (.object fields) = some w := by
  have htransition : Transition.ofFields? fields = some w.transition := by
    simp [Transition.ofFields?, h.find?, toFields, Transition.toFields, Entries.find?_cons]
  rw [WaitState.ofJson?, h.record?]
  simp [htransition, h.find?, toFields, Transition.toFields, Entries.find?_cons]

theorem ParallelSettings.ofJson?_of_carries {branches : Json} {p : ParallelSettings}
    (h : Carries fields (("Type", tag) :: ("Branches", branches) :: p.toFields))
    (hretry : ∀ r ∈ p.retry, r.Writable) :
    ParallelSettings.ofJson? (.object fields) = some p := by
  have htransition : Transition.ofFields? fields = some p.transition := by
    simp [Transition.ofFields?, h.find?, toFields, Transition.toFields, Entries.find?_cons]
  rw [ParallelSettings.ofJson?, h.record?]
  simp [htransition, h.find?, toFields, Transition.toFields, Entries.find?_cons,
    defaulting_listValue? fun r hr ↦ Retrier.readsBack (hretry r hr),
    defaulting_listValue? fun c (_ : c ∈ p.catchers) ↦ c.readsBack]

theorem FailState.ofJson?_of_carries {f : FailState}
    (h : Carries fields (("Type", tag) :: f.toFields)) :
    FailState.ofJson? (.object fields) = some f := by
  rw [FailState.ofJson?, h.record?]
  simp [h.find?, toFields, Entries.find?_cons]

end

/-! ## Machines -/

theorem StateKind.ofName?_name (k : StateKind) : ofName? k.name = some k := by
  cases k <;> rfl

theorem statesAmong?_eq (inBranch : Bool) (fields : List (String × Json)) :
    statesAmong? inBranch fields = (Entries.find? "States" fields).bind (statesOf? inBranch) := by
  induction fields with
  | nil => rfl
  | cons e fields ih =>
    rw [statesAmong?, Entries.find?_cons, ih]
    split <;> rfl

theorem branchesAmong?_eq (fields : List (String × Json)) :
    branchesAmong? fields = (Entries.find? "Branches" fields).bind branchesOf? := by
  induction fields with
  | nil => rfl
  | cons e fields ih =>
    rw [branchesAmong?, Entries.find?_cons, ih]
    split <;> rfl

/-- The state of a machine is told by its `Type`, and its body is read from all its fields. -/
theorem stateOf?_of_carries {inBranch : Bool} {fields : List (String × Json)} {s : State}
    (h : Carries fields (("Type", .string s.kind.name) :: stateFields s)) :
    stateOf? inBranch (.object fields)
      = State.ofBody? s.kind ((Entries.find? "Branches" fields).bind branchesOf?)
        (.object fields) := by
  have hkind : (sole? "Type" fields).bind (State.kindOf? inBranch) = some s.kind := by
    rw [sole?, if_pos (h.once _), h.find?, Entries.find?_cons, if_pos rfl, Option.map_some,
      Option.bind_some, canonical, State.kindOf?, StateKind.ofName?_name]
  rw [stateOf?, hkind, ← branchesAmong?_eq]

theorem statesToJson_eq_map (states : List (String × State)) :
    statesToJson states = states.map fun e ↦ (e.1, e.2.toJson) := by
  induction states with
  | nil => rfl
  | cons e states ih =>
    obtain ⟨name, s⟩ := e
    rw [statesToJson, ih, List.map_cons, State.toJson]

theorem names_statesToJson (states : List (String × State)) :
    Entries.names (statesToJson states) = Entries.names states := by
  rw [statesToJson_eq_map, Entries.names, List.map_map]
  rfl

theorem machinesToJson_eq_map (ms : List Machine) : machinesToJson ms = ms.map Machine.toJson := by
  induction ms with
  | nil => rfl
  | cons m ms ih => rw [machinesToJson, ih, List.map_cons]

/-- The fields of a machine as they are written. -/
def Machine.toFields (m : Machine) : List (String × Json) :=
  fieldOf "Comment" .string m.comment ++ [("StartAt", .string m.startAt)]
    ++ fieldOf "TimeoutSeconds" ofUInt64 m.timeoutSeconds
    ++ [("States", .object (statesToJson m.states))]

theorem Machine.toJson_eq (m : Machine) : m.toJson = .object m.toFields := by
  cases m
  rfl

theorem Machine.declared_toFields (m : Machine) : Declared Machine.declared m.toFields :=
  declared_fieldOf "Comment" .string m.comment |>.append (declared_single "StartAt" _)
    |>.append (declared_fieldOf "TimeoutSeconds" ofUInt64 m.timeoutSeconds)
    |>.append (declared_single "States" _)

/-- The states of a machine are read before its other fields. -/
theorem machineOf?_of_carries {inBranch : Bool} {fields : List (String × Json)} {m : Machine}
    (h : Carries fields m.toFields)
    (hstates : statesOf? inBranch (Json.object (statesToJson m.states)).canonical = some m.states) :
    machineOf? inBranch (.object fields) = some m := by
  have hread : statesAmong? inBranch fields = some m.states := by
    rw [statesAmong?_eq, h.find?]
    simp [Machine.toFields, Entries.find?_cons, hstates]
  rw [machineOf?, h.record?, hread]
  cases m
  simp [Machine.ofFields?, h.find?, Machine.toFields, Entries.find?_cons]

mutual

/-- **Machines are read back** from the canonical form of what was written. -/
theorem machineOf?_toJson (inBranch : Bool) : ∀ m : Machine, m.Writable →
    machineOf? inBranch m.toJson.canonical = some m
  | ⟨comment, startAt, timeoutSeconds, states⟩, h => by
    obtain ⟨hnames, hstates⟩ := h
    obtain ⟨fields, hcanonical, hfields⟩ :=
      (Machine.declared_toFields ⟨comment, startAt, timeoutSeconds, states⟩).exists_carries
        (by decide)
    rw [Machine.toJson_eq, hcanonical]
    refine machineOf?_of_carries hfields ?_
    -- the states are in order already, so they stay where they are
    have hsorted : Entries.Ascending (statesToJson states) := by
      rw [Entries.Ascending, names_statesToJson]
      exact hnames
    rw [canonical, statesOf?, canonicalFields_of_ascending hsorted,
      stateFields?_toJson inBranch states hstates, Option.map_some,
      Entries.collect_of_ascending hnames]

private theorem stateFields?_toJson (inBranch : Bool) : ∀ states : List (String × State),
    (∀ e ∈ states, e.2.Writable) →
      stateFields? inBranch ((statesToJson states).map fun e ↦ (e.1, e.2.canonical)) = some states
  | [], _ => by
    rw [statesToJson, List.map_nil, stateFields?]
  | (name, s) :: states, h => by
    obtain ⟨hs, hstates⟩ := List.forall_mem_cons.mp h
    rw [statesToJson, List.map_cons, stateFields?, ← State.toJson, stateOf?_toJson inBranch s hs,
      stateFields?_toJson inBranch states hstates]
    rfl

private theorem stateOf?_toJson (inBranch : Bool) : ∀ s : State, s.Writable →
    stateOf? inBranch s.toJson.canonical = some s
  | .task t, h => by
    obtain ⟨fields, hcanonical, hfields⟩ := State.exists_carries (.task t)
    cases h with
    | task parameters retry =>
      rw [hcanonical, stateOf?_of_carries hfields]
      exact congrArg (Option.map State.task) (TaskState.ofJson?_of_carries hfields parameters retry)
  | .choice c, h => by
    obtain ⟨fields, hcanonical, hfields⟩ := State.exists_carries (.choice c)
    cases h with
    | choice rules =>
      rw [hcanonical, stateOf?_of_carries hfields]
      exact congrArg (Option.map State.choice) (ChoiceState.ofJson?_of_carries hfields rules)
  | .wait w, _ => by
    obtain ⟨fields, hcanonical, hfields⟩ := State.exists_carries (.wait w)
    rw [hcanonical, stateOf?_of_carries hfields]
    exact congrArg (Option.map State.wait) (WaitState.ofJson?_of_carries hfields)
  | .parallel branches settings, h => by
    obtain ⟨fields, hcanonical, hfields⟩ := State.exists_carries (.parallel branches settings)
    cases h with
    | parallel each retry =>
      have hbranches : (Entries.find? "Branches" fields).bind branchesOf? = some branches := by
        rw [hfields.find?]
        simp [stateFields, Entries.find?_cons, canonical, branchesOf?,
          branchItems?_toJson branches each]
      rw [hcanonical, stateOf?_of_carries hfields, hbranches]
      have hsettings := ParallelSettings.ofJson?_of_carries hfields retry
      simp [State.kind, State.ofBody?, hsettings]
  | .succeed comment, _ => by
    obtain ⟨fields, hcanonical, hfields⟩ := State.exists_carries (.succeed comment)
    rw [hcanonical, stateOf?_of_carries hfields, State.kind, State.ofBody?, hfields.record?]
    simp [hfields.find?, stateFields, Entries.find?_cons]
  | .fail f, _ => by
    obtain ⟨fields, hcanonical, hfields⟩ := State.exists_carries (.fail f)
    rw [hcanonical, stateOf?_of_carries hfields]
    exact congrArg (Option.map State.fail) (FailState.ofJson?_of_carries hfields)

private theorem branchItems?_toJson : ∀ branches : List Machine, (∀ m ∈ branches, m.Writable) →
    branchItems? (canonicalItems (machinesToJson branches)) = some branches
  | [], _ => by
    rw [machinesToJson, canonicalItems, branchItems?]
  | m :: ms, h => by
    obtain ⟨hm, hms⟩ := List.forall_mem_cons.mp h
    rw [machinesToJson, canonicalItems, branchItems?, machineOf?_toJson true m hm,
      branchItems?_toJson ms hms]
    rfl

end

/-- **A machine is read back** from the canonical form of what is written for it. -/
theorem Machine.ofJson?_toJson {m : Machine} (h : m.Writable) :
    Machine.ofJson? m.toJson.canonical = some m := machineOf?_toJson false m h

end Workflow
