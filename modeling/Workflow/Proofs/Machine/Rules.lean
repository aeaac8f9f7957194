import Workflow.Proofs.Decimal.Finite
import Workflow.Proofs.Machine.Reachability
import Workflow.Proofs.Machine.Sound

/-!
# The rules of validation

What a machine has to look like, said without the order in which validation looks at it: rules for
the parts of a state, for the state, and for a machine with its branches. `Machine.check_eq_ok_iff`
says that validation accepts the machines that keep all of them and no others.

Validation stops at the first rule that is broken, so that one broken rule hides the next. This is
of no consequence here: it passes when every single check passes, whatever their order.
-/

namespace Workflow

/-! ## Texts and transitions -/

/-- A text with a character that is not white space. -/
def Inked (text : String) : Prop := ∃ c ∈ text.toList, isWhiteSpace c = false

theorem inked_iff {text : String} : Inked text ↔ (!isBlankText text) = true := by
  rw [Inked, Bool.not_eq_true', isBlankText, List.all_eq_false]
  simp only [Bool.not_eq_true]

/-- Either another state follows or the run ends. -/
inductive Transition.Decided : Transition → Prop
  | next {t : Transition} {name : String} (next : t.next = some name)
      (ending : t.ending ≠ some true) : t.Decided
  | ending {t : Transition} (next : t.next = none) (ending : t.ending = some true) : t.Decided

theorem checkTransition_eq_ok_iff {kind : StateKind} {t : Transition} :
    checkTransition kind t = .ok () ↔ t.Decided := by
  constructor
  · intro h
    rw [checkTransition] at h
    split at h
    · cases h
    · next name ending hnext hending => exact .next hnext (by simpa using hending)
    · next hnext hending => exact .ending hnext hending
    · cases h
  · intro h
    rw [checkTransition]
    cases h with
    | next hnext hending =>
      rw [hnext]
      split
      · next heq => exact absurd heq hending
      · rfl
      · next heq _ => cases heq
      · next heq _ => cases heq
    | ending hnext hending => rw [hnext, hending]

/-- A time limit is not zero. -/
theorem require_ne_zero_iff {ε : Type} {seconds : Option UInt64} {fault : ε} :
    require (seconds ≠ some 0) fault = .ok () ↔ ∀ n ∈ seconds, 0 < n := by
  rw [require_eq_ok, decide_eq_true_iff]
  constructor
  · rintro hne n rfl
    exact UInt64.pos_iff_ne_zero.mpr fun hzero ↦ hne (congrArg some hzero)
  · rintro hpos rfl
    exact absurd (hpos 0 rfl) (by decide)

/-! ## Policies -/

/-- The error names of the entries of a policy. The name for all errors is only allowed alone and in
the last entry. -/
structure NamesErrors (lists : List (List String)) : Prop where
  nonempty : ∀ names ∈ lists, names ≠ []
  all : ∀ before names after, lists = before ++ names :: after → ErrorName.all ∈ names →
    names = [ErrorName.all] ∧ after = []

theorem namesErrors_nil : NamesErrors [] where
  nonempty := nofun
  all before names after h := by simp at h

theorem namesErrors_cons {names : List String} {lists : List (List String)} :
    NamesErrors (names :: lists) ↔
      (names ≠ [] ∧ (ErrorName.all ∈ names → names = [ErrorName.all] ∧ lists = [])) ∧
        NamesErrors lists := by
  constructor
  · intro h
    obtain ⟨hfirst, hrest⟩ := List.forall_mem_cons.mp h.nonempty
    refine ⟨⟨hfirst, fun hall ↦ h.all [] names lists rfl hall⟩, hrest, ?_⟩
    intro before others after heq hall
    exact h.all (names :: before) others after (by rw [heq, List.cons_append]) hall
  · rintro ⟨⟨hfirst, hfirstAll⟩, h⟩
    refine ⟨List.forall_mem_cons.mpr ⟨hfirst, h.nonempty⟩, ?_⟩
    intro before others after heq hall
    cases before with
    | nil =>
      obtain ⟨rfl, rfl⟩ := List.cons.inj heq
      exact hfirstAll hall
    | cons _ before => exact h.all before others after (List.cons.inj heq).2 hall

theorem checkErrorNames_eq_ok_iff {block : PolicyBlock} {isLast : Bool} {names : List String} :
    checkErrorNames block isLast names = .ok () ↔
      names ≠ [] ∧ (ErrorName.all ∈ names → names = [ErrorName.all] ∧ isLast = true) := by
  rw [checkErrorNames, seq_eq_ok_iff, require_eq_ok, require_eq_ok, Bool.not_eq_true',
    List.isEmpty_eq_false_iff]
  refine and_congr_right fun _ ↦ ?_
  rw [Bool.or_eq_true, Bool.not_eq_true', Bool.and_eq_true, decide_eq_true_iff]
  by_cases hall : ErrorName.all ∈ names
  · have hcontains : names.contains ErrorName.all = true := List.contains_iff_mem.mpr hall
    rw [hcontains, forall_prop_of_true hall]
    constructor
    · rintro (hnot | ⟨hlength, hlast⟩)
      · cases hnot
      · obtain ⟨name, rfl⟩ := List.length_eq_one_iff.mp hlength
        rw [List.mem_singleton.mp hall]
        exact ⟨rfl, hlast⟩
    · rintro ⟨hnames, hlast⟩
      exact .inr ⟨by rw [hnames]; rfl, hlast⟩
  · have hcontains : names.contains ErrorName.all = false :=
      Bool.eq_false_iff.mpr fun h ↦ hall (List.contains_iff_mem.mp h)
    exact iff_of_true (.inl hcontains) fun h ↦ absurd h hall

structure Retrier.Proper (r : Retrier) : Prop where
  interval : 1 ≤ r.intervalSeconds
  finite : isFiniteFloat r.backoffRate = true
  rate : 1.0 ≤ r.backoffRate

theorem Retrier.proper_iff {r : Retrier} :
    1 ≤ r.intervalSeconds ∧
      require (isFiniteFloat r.backoffRate && !(r.backoffRate < 1.0))
        (StateFault.backoffRate r.backoffRate) = .ok () ↔ r.Proper := by
  have hone : isFiniteFloat 1.0 = true := by decide
  rw [require_eq_ok, Bool.and_eq_true, Bool.not_eq_true', decide_eq_false_iff_not]
  constructor
  · rintro ⟨hinterval, hfinite, hrate⟩
    exact ⟨hinterval, hfinite, (float_not_lt_iff hfinite hone).mp hrate⟩
  · rintro ⟨hinterval, hfinite, hrate⟩
    exact ⟨hinterval, hfinite, (float_not_lt_iff hfinite hone).mpr hrate⟩

theorem checkRetriers_eq_ok_iff {retry : List Retrier} :
    checkRetriers retry = .ok () ↔
      NamesErrors (retry.map Retrier.errorEquals) ∧ ∀ r ∈ retry, r.Proper := by
  induction retry with
  | nil => exact iff_of_true rfl ⟨namesErrors_nil, nofun⟩
  | cons r rs ih =>
    rw [checkRetriers, seq_eq_ok_iff, seq_eq_ok_iff, seq_eq_ok_iff, ih, checkErrorNames_eq_ok_iff,
      require_eq_ok, List.map_cons, namesErrors_cons, List.forall_mem_cons, ← Retrier.proper_iff,
      decide_eq_true_iff, List.isEmpty_iff, List.map_eq_nil_iff]
    constructor
    · rintro ⟨hnames, hinterval, hrate, hrest, hretriers⟩
      exact ⟨⟨hnames, hrest⟩, ⟨hinterval, hrate⟩, hretriers⟩
    · rintro ⟨⟨hnames, hrest⟩, ⟨hinterval, hrate⟩, hretriers⟩
      exact ⟨hnames, hinterval, hrate, hrest, hretriers⟩

theorem checkCatchers_eq_ok_iff {catchers : List Catcher} :
    checkCatchers catchers = .ok () ↔
      NamesErrors (catchers.map Catcher.errorEquals) ∧
        ∀ c ∈ catchers, ∀ path ∈ c.resultPath, IsPath path := by
  induction catchers with
  | nil => exact iff_of_true rfl ⟨namesErrors_nil, nofun⟩
  | cons c cs ih =>
    rw [checkCatchers, seq_eq_ok_iff, seq_eq_ok_iff, ih, checkErrorNames_eq_ok_iff,
      checkPath_eq_ok, List.map_cons, namesErrors_cons, List.forall_mem_cons, List.isEmpty_iff,
      List.map_eq_nil_iff]
    constructor
    · rintro ⟨hnames, hpath, hrest, hpaths⟩
      exact ⟨⟨hnames, hrest⟩, hpath, hpaths⟩
    · rintro ⟨⟨hnames, hrest⟩, hpath, hpaths⟩
      exact ⟨hnames, hpath, hrest, hpaths⟩

/-- What the retriers and catchers of a state have to say. -/
structure ProperPolicies (retry : List Retrier) (catchers : List Catcher) : Prop where
  retryNames : NamesErrors (retry.map Retrier.errorEquals)
  retriers : ∀ r ∈ retry, r.Proper
  catchNames : NamesErrors (catchers.map Catcher.errorEquals)
  catchPaths : ∀ c ∈ catchers, ∀ path ∈ c.resultPath, IsPath path

/-! ## Choice rules -/

/-- A condition that compares values at paths, at every depth. Rules inside it lead nowhere. -/
inductive Condition.Proper : Condition → Prop
  | all {rules : List ChoiceRule} (nonempty : rules ≠ []) (next : ∀ rule ∈ rules, rule.next = none)
      (proper : ∀ rule ∈ rules, rule.condition.Proper) : Condition.Proper (.all rules)
  | any {rules : List ChoiceRule} (nonempty : rules ≠ []) (next : ∀ rule ∈ rules, rule.next = none)
      (proper : ∀ rule ∈ rules, rule.condition.Proper) : Condition.Proper (.any rules)
  | negate {rule : ChoiceRule} (next : rule.next = none) (proper : rule.condition.Proper) :
    Condition.Proper (.negate rule)
  | compare {path : String} (comparator : Comparator) (isPath : IsPath path) :
    Condition.Proper (.compare path comparator)

mutual

theorem checkRule_eq_ok_iff : ∀ rule : ChoiceRule,
    checkRule rule = .ok () ↔ rule.condition.Proper
  | ⟨condition, _⟩ => by
    rw [checkRule]
    exact checkCondition_eq_ok_iff condition

theorem checkCondition_eq_ok_iff : ∀ condition : Condition,
    checkCondition condition = .ok () ↔ condition.Proper
  | .all rules => by
    rw [checkCondition, seq_eq_ok_iff, require_eq_ok, checkNested_eq_ok_iff rules,
      Bool.not_eq_true', List.isEmpty_eq_false_iff]
    constructor
    · rintro ⟨hnonempty, hnext, hproper⟩
      exact .all hnonempty hnext hproper
    · intro h
      cases h with
      | all hnonempty hnext hproper => exact ⟨hnonempty, hnext, hproper⟩
  | .any rules => by
    rw [checkCondition, seq_eq_ok_iff, require_eq_ok, checkNested_eq_ok_iff rules,
      Bool.not_eq_true', List.isEmpty_eq_false_iff]
    constructor
    · rintro ⟨hnonempty, hnext, hproper⟩
      exact .any hnonempty hnext hproper
    · intro h
      cases h with
      | any hnonempty hnext hproper => exact ⟨hnonempty, hnext, hproper⟩
  | .negate rule => by
    rw [checkCondition, seq_eq_ok_iff, require_eq_ok, checkRule_eq_ok_iff rule,
      Option.isNone_iff_eq_none]
    constructor
    · rintro ⟨hnext, hproper⟩
      exact .negate hnext hproper
    · intro h
      cases h with
      | negate hnext hproper => exact ⟨hnext, hproper⟩
  | .compare path comparator => by
    rw [checkCondition, checkPath_eq_ok]
    constructor
    · intro h
      exact .compare comparator (h path rfl)
    · intro h text htext
      cases h with
      | compare _ hpath => exact Option.some.inj htext ▸ hpath

theorem checkNested_eq_ok_iff : ∀ rules : List ChoiceRule,
    checkNested rules = .ok () ↔
      (∀ rule ∈ rules, rule.next = none) ∧ ∀ rule ∈ rules, rule.condition.Proper
  | [] => by simp [checkNested]
  | rule :: rules => by
    rw [checkNested, seq_eq_ok_iff, seq_eq_ok_iff, require_eq_ok, checkRule_eq_ok_iff rule,
      checkNested_eq_ok_iff rules, Option.isNone_iff_eq_none, List.forall_mem_cons,
      List.forall_mem_cons]
    constructor
    · rintro ⟨hnext, hproper, hnexts, hpropers⟩
      exact ⟨⟨hnext, hnexts⟩, hproper, hpropers⟩
    · rintro ⟨⟨hnext, hnexts⟩, hproper, hpropers⟩
      exact ⟨hnext, hproper, hnexts, hpropers⟩

end

theorem checkRules_eq_ok_iff {rules : List ChoiceRule} :
    checkRules rules = .ok () ↔
      (∀ rule ∈ rules, rule.next ≠ none) ∧ ∀ rule ∈ rules, rule.condition.Proper := by
  induction rules with
  | nil => exact iff_of_true rfl ⟨nofun, nofun⟩
  | cons rule rules ih =>
    rw [checkRules, seq_eq_ok_iff, seq_eq_ok_iff, require_eq_ok, checkRule_eq_ok_iff, ih,
      Option.isSome_iff_ne_none, List.forall_mem_cons, List.forall_mem_cons]
    constructor
    · rintro ⟨hnext, hproper, hnexts, hpropers⟩
      exact ⟨⟨hnext, hnexts⟩, hproper, hpropers⟩
    · rintro ⟨⟨hnext, hnexts⟩, hproper, hpropers⟩
      exact ⟨hnext, hproper, hnexts, hpropers⟩

/-! ## States -/

/-- What a state has to say by itself. -/
inductive State.Proper : State → Prop
  | task {t : TaskState} (transition : t.transition.Decided)
      (resultPath : ∀ path ∈ t.resultPath, IsPath path)
      (timeout : ∀ seconds ∈ t.timeoutSeconds, 0 < seconds) (resource : Inked t.resource)
      (policies : ProperPolicies t.retry t.catchers) : State.Proper (.task t)
  | parallel {branches : List Machine} {p : ParallelSettings} (transition : p.transition.Decided)
      (resultPath : ∀ path ∈ p.resultPath, IsPath path) (nonempty : branches ≠ [])
      (policies : ProperPolicies p.retry p.catchers) : State.Proper (.parallel branches p)
  | pause {w : WaitState} {seconds : UInt64} (transition : w.transition.Decided)
      (seconds : w.seconds = some seconds) (path : w.secondsPath = none) : State.Proper (.wait w)
  | pauseFor {w : WaitState} {text : String} (transition : w.transition.Decided)
      (seconds : w.seconds = none) (path : w.secondsPath = some text) (isPath : IsPath text) :
    State.Proper (.wait w)
  | choice {c : ChoiceState} (nonempty : c.choices ≠ [])
      (next : ∀ rule ∈ c.choices, rule.next ≠ none)
      (proper : ∀ rule ∈ c.choices, rule.condition.Proper) : State.Proper (.choice c)
  | succeed (comment : Option String) : State.Proper (.succeed comment)
  | fail (f : FailState) : State.Proper (.fail f)

theorem checkPolicies_eq_ok_iff {retry : List Retrier} {catchers : List Catcher} :
    checkRetriers retry = .ok () ∧ checkCatchers catchers = .ok () ↔
      ProperPolicies retry catchers := by
  rw [checkRetriers_eq_ok_iff, checkCatchers_eq_ok_iff]
  constructor
  · rintro ⟨⟨hretryNames, hretriers⟩, hcatchNames, hpaths⟩
    exact ⟨hretryNames, hretriers, hcatchNames, hpaths⟩
  · rintro ⟨hretryNames, hretriers, hcatchNames, hpaths⟩
    exact ⟨⟨hretryNames, hretriers⟩, hcatchNames, hpaths⟩

/-- A wait state has a duration or a path to one, and not both. -/
theorem WaitState.checkSelf_eq_ok_iff {w : WaitState} :
    (State.wait w).checkSelf = .ok () ↔ (State.wait w).Proper := by
  rw [State.checkSelf, seq_eq_ok_iff, checkTransition_eq_ok_iff]
  constructor
  · rintro ⟨htransition, h⟩
    split at h
    · next seconds hseconds hpath => exact .pause htransition hseconds hpath
    · next path hseconds hpath =>
      exact .pauseFor htransition hseconds hpath (checkPath_eq_ok.mp h path rfl)
    · cases h
  · intro h
    cases h with
    | pause htransition hseconds hpath =>
      rw [hseconds, hpath]
      exact ⟨htransition, rfl⟩
    | pauseFor htransition hseconds hpath hisPath =>
      rw [hseconds, hpath]
      refine ⟨htransition, checkPath_eq_ok.mpr ?_⟩
      rintro text ⟨⟩
      exact hisPath

theorem State.checkSelf_eq_ok_iff {s : State} : s.checkSelf = .ok () ↔ s.Proper := by
  cases s with
  | task t =>
    rw [checkSelf, seq_eq_ok_iff, seq_eq_ok_iff, seq_eq_ok_iff, seq_eq_ok_iff, seq_eq_ok_iff,
      checkTransition_eq_ok_iff, checkPath_eq_ok, require_ne_zero_iff, require_eq_ok, ← inked_iff,
      checkPolicies_eq_ok_iff]
    constructor
    · rintro ⟨htransition, hpath, htimeout, hresource, hpolicies⟩
      exact .task htransition hpath htimeout hresource hpolicies
    · intro h
      cases h with
      | task htransition hpath htimeout hresource hpolicies =>
        exact ⟨htransition, hpath, htimeout, hresource, hpolicies⟩
  | parallel branches p =>
    rw [checkSelf, seq_eq_ok_iff, seq_eq_ok_iff, seq_eq_ok_iff, seq_eq_ok_iff,
      checkTransition_eq_ok_iff, checkPath_eq_ok, require_eq_ok, checkPolicies_eq_ok_iff,
      Bool.not_eq_true', List.isEmpty_eq_false_iff]
    constructor
    · rintro ⟨htransition, hpath, hnonempty, hpolicies⟩
      exact .parallel htransition hpath hnonempty hpolicies
    · intro h
      cases h with
      | parallel htransition hpath hnonempty hpolicies =>
        exact ⟨htransition, hpath, hnonempty, hpolicies⟩
  | wait w => exact WaitState.checkSelf_eq_ok_iff
  | choice c =>
    rw [checkSelf, seq_eq_ok_iff, require_eq_ok, checkRules_eq_ok_iff, Bool.not_eq_true',
      List.isEmpty_eq_false_iff]
    constructor
    · rintro ⟨hnonempty, hnext, hproper⟩
      exact .choice hnonempty hnext hproper
    · intro h
      cases h with
      | choice hnonempty hnext hproper => exact ⟨hnonempty, hnext, hproper⟩
  | succeed comment => exact iff_of_true rfl (.succeed comment)
  | fail f => exact iff_of_true rfl (.fail f)

/-- The states that a state names as the next one. -/
inductive State.LeadsTo : State → String → Prop
  | next {s : State} {name : String} (next : s.transition.next = some name) : s.LeadsTo name
  | recovery {s : State} {c : Catcher} (mem : c ∈ s.catchers) : s.LeadsTo c.next
  | rule {c : ChoiceState} {rule : ChoiceRule} {name : String} (mem : rule ∈ c.choices)
      (next : rule.next = some name) : State.LeadsTo (.choice c) name
  | fallback {c : ChoiceState} {name : String} (fallback : c.fallback = some name) :
    State.LeadsTo (.choice c) name

theorem State.mem_targets_iff {s : State} {name : String} : name ∈ s.targets ↔ s.LeadsTo name := by
  rw [targets.eq_def, List.mem_append, List.mem_append, Option.mem_toList, List.mem_map]
  constructor
  · rintro ((hnext | ⟨c, hc, rfl⟩) | hchoice)
    · exact .next hnext
    · exact .recovery hc
    · cases s with
      | choice c =>
        rcases List.mem_append.mp hchoice with hrule | hfallback
        · obtain ⟨rule, hmem, hnext⟩ := List.mem_filterMap.mp hrule
          exact .rule hmem hnext
        · exact .fallback (Option.mem_toList.mp hfallback)
      | task _ | wait _ | parallel _ _ | succeed _ | fail _ => exact absurd hchoice List.not_mem_nil
  · intro h
    cases h with
    | next hnext => exact .inl (.inl hnext)
    | recovery hc => exact .inl (.inr ⟨_, hc, rfl⟩)
    | rule hmem hnext =>
      exact .inr (List.mem_append_left _ (List.mem_filterMap.mpr ⟨_, hmem, hnext⟩))
    | fallback hfallback =>
      exact .inr (List.mem_append_right _ (Option.mem_toList.mpr hfallback))

/-- The branches of a parallel state. -/
def State.branches : State → List Machine
  | .parallel branches _ => branches
  | .task _ | .choice _ | .wait _ | .succeed _ | .fail _ => []

/-! ## Machines -/

/-- The rules for a machine, which the branches of its states have to keep as well. -/
inductive Machine.Valid : Machine → Prop
  | intro {m : Machine} (nonempty : m.states ≠ []) (start : m.startAt ∈ m.names)
      (timeout : ∀ seconds ∈ m.timeoutSeconds, 0 < seconds)
      (names : ∀ name ∈ m.names, Inked name) (proper : ∀ e ∈ m.states, e.2.Proper)
      (targets : ∀ e ∈ m.states, ∀ name, e.2.LeadsTo name → name ∈ m.names)
      (branchTimeout : ∀ e ∈ m.states, ∀ b ∈ e.2.branches, b.timeoutSeconds = none)
      (branches : ∀ e ∈ m.states, ∀ b ∈ e.2.branches, b.Valid)
      (reached : ∀ name ∈ m.names, m.Reaches name) : m.Valid

theorem Machine.has_iff_mem {m : Machine} {name : String} : m.has name = true ↔ name ∈ m.names :=
  Entries.has_iff name m.states

theorem checkHead_eq_ok_iff {place : Place} {m : Machine} :
    checkHead place m = .ok () ↔
      m.states ≠ [] ∧ m.startAt ∈ m.names ∧ ∀ seconds ∈ m.timeoutSeconds, 0 < seconds := by
  rw [checkHead, seq_eq_ok_iff, seq_eq_ok_iff, require_eq_ok, require_eq_ok, require_ne_zero_iff,
    Machine.has_iff_mem, Bool.not_eq_true', List.isEmpty_eq_false_iff]

theorem checkState_eq_ok_iff {place : Place} {m : Machine} {name : String} {s : State} :
    checkState place m name s = .ok () ↔
      Inked name ∧ s.Proper ∧ ∀ target, s.LeadsTo target → target ∈ m.names := by
  rw [checkState, seq_eq_ok_iff, seq_eq_ok_iff, require_eq_ok, mapError_eq_ok_iff,
    mapError_eq_ok_iff, State.checkSelf_eq_ok_iff, checkTargets_eq_ok_iff, ← inked_iff]
  simp only [State.mem_targets_iff, Machine.has_iff_mem]

theorem checkReachable_eq_ok_iff {place : Place} {m : Machine} :
    checkReachable place m = .ok () ↔ ∀ name ∈ m.names, m.Reaches name := by
  have hunreached : m.unreached = [] ↔ ∀ name ∈ m.names, m.Reaches name := by
    rw [List.eq_nil_iff_forall_not_mem]
    simp only [Machine.mem_unreached_iff, not_and, Classical.not_not]
  rw [← hunreached, checkReachable]
  split
  · next hnil => exact iff_of_true rfl hnil
  · next hcons => exact iff_of_false nofun (by rw [hcons]; nofun)

mutual

theorem checkMachine_eq_ok_iff : ∀ (m : Machine) (place : Place),
    checkMachine place m = .ok () ↔ m.Valid
  | ⟨comment, startAt, timeoutSeconds, states⟩, place => by
    rw [checkMachine, seq_eq_ok_iff, seq_eq_ok_iff, checkHead_eq_ok_iff,
      checkStates_eq_ok_iff states, checkReachable_eq_ok_iff]
    constructor
    · rintro ⟨⟨hnonempty, hstart, htimeout⟩, hstates, hreached⟩
      refine .intro hnonempty hstart htimeout ?_ (fun e he ↦ (hstates e he).1.2.1)
        (fun e he ↦ (hstates e he).1.2.2) (fun e he b hb ↦ ((hstates e he).2 b hb).1)
        (fun e he b hb ↦ ((hstates e he).2 b hb).2) hreached
      intro name hname
      obtain ⟨e, he, rfl⟩ := List.mem_map.mp hname
      exact (hstates e he).1.1
    · intro h
      cases h with
      | intro hnonempty hstart htimeout hnames hproper htargets hnone hbranches hreached =>
        refine ⟨⟨hnonempty, hstart, htimeout⟩, fun e he ↦ ?_, hreached⟩
        exact ⟨⟨hnames _ (List.mem_map_of_mem he), hproper e he, htargets e he⟩,
          fun b hb ↦ ⟨hnone e he b hb, hbranches e he b hb⟩⟩

theorem checkStates_eq_ok_iff : ∀ (states : List (String × State)) (place : Place)
    (whole : Machine), checkStates place whole states = .ok () ↔
      ∀ e ∈ states, (Inked e.1 ∧ e.2.Proper ∧ ∀ name, e.2.LeadsTo name → name ∈ whole.names) ∧
        ∀ b ∈ e.2.branches, b.timeoutSeconds = none ∧ b.Valid
  | [], _, _ => by simp [checkStates]
  | (name, s) :: states, place, whole => by
    rw [checkStates, seq_eq_ok_iff, seq_eq_ok_iff, checkInside_eq_ok_iff s,
      checkStates_eq_ok_iff states, checkState_eq_ok_iff, List.forall_mem_cons]
    exact and_assoc.symm

theorem checkInside_eq_ok_iff : ∀ (s : State) (place : Place) (name : String),
    checkInside place name s = .ok () ↔ ∀ b ∈ s.branches, b.timeoutSeconds = none ∧ b.Valid
  | .parallel branches _, place, name => checkBranches_eq_ok_iff branches place name 0
  | .task _, _, _ => by simp [checkInside, State.branches]
  | .choice _, _, _ => by simp [checkInside, State.branches]
  | .wait _, _, _ => by simp [checkInside, State.branches]
  | .succeed _, _, _ => by simp [checkInside, State.branches]
  | .fail _, _, _ => by simp [checkInside, State.branches]

theorem checkBranches_eq_ok_iff : ∀ (ms : List Machine) (place : Place) (name : String)
    (index : Nat), checkBranches place name index ms = .ok () ↔
      ∀ b ∈ ms, b.timeoutSeconds = none ∧ b.Valid
  | [], _, _, _ => by simp [checkBranches]
  | m :: ms, place, name, index => by
    rw [checkBranches, seq_eq_ok_iff, seq_eq_ok_iff, require_eq_ok, checkMachine_eq_ok_iff m,
      checkBranches_eq_ok_iff ms, List.forall_mem_cons, Option.isNone_iff_eq_none, and_assoc]

end

/-- **Validation accepts exactly the machines that keep the rules.** -/
theorem Machine.check_eq_ok_iff (m : Machine) : m.check = .ok () ↔ m.Valid :=
  checkMachine_eq_ok_iff m .root

end Workflow
