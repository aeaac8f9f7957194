import Workflow.Proofs.Machine.Checked
import Workflow.Run.Engine

/-!
# What validation promises

The engine has an answer ready for everything a document can say, and some of these answers are
faults: a name that is no state, a state that says neither what follows nor that it is the last, a
text that is no path. `State.IsSound` lists what the engine relies on at a state when none of these
faults is to come up, and a machine that passes validation has nothing but sound states.
-/

namespace Workflow

/-- A text that is a path. -/
def IsPath (text : String) : Prop := ∃ p, ContextPath.parse text = .ok p

/-! ## The paths in a state -/

mutual

/-- The variables that the condition of a rule may look at. -/
def ChoiceRule.variables : ChoiceRule → List String
  | ⟨condition, _⟩ => conditionVariables condition

def conditionVariables : Condition → List String
  | .all rules => rulesVariables rules
  | .any rules => rulesVariables rules
  | .negate rule => ChoiceRule.variables rule
  | .compare path _ => [path]

def rulesVariables : List ChoiceRule → List String
  | [] => []
  | rule :: rules => ChoiceRule.variables rule ++ rulesVariables rules

end

/-- The paths of the state, at any depth of its rules. -/
def State.paths : State → List String
  | .task t => t.resultPath.toList ++ t.catchers.filterMap Catcher.resultPath
  | .parallel _ p => p.resultPath.toList ++ p.catchers.filterMap Catcher.resultPath
  | .wait w => w.secondsPath.toList
  | .choice c => rulesVariables c.choices
  | .succeed _ | .fail _ => []

theorem State.mem_paths_of_catcher {s : State} {c : Catcher} (hc : c ∈ s.catchers) {text : String}
    (htext : text ∈ c.resultPath.toList) : text ∈ s.paths := by
  have hmem : text ∈ s.catchers.filterMap Catcher.resultPath :=
    List.mem_filterMap.mpr ⟨c, hc, Option.mem_toList.mp htext⟩
  cases s with
  | task t => exact List.mem_append_right _ hmem
  | parallel branches settings => exact List.mem_append_right _ hmem
  | wait _ | choice _ | succeed _ | fail _ => simp [catchers] at hc

theorem checkPath_eq_ok_iff {field : String} {text : Option String} :
    checkPath field text = .ok () ↔ ∀ t ∈ text.toList, IsPath t := by
  simp only [checkPath_eq_ok, Option.mem_toList, IsPath]
  rfl

theorem isPath_of_checkCatchers {catchers : List Catcher} (h : checkCatchers catchers = .ok ()) :
    ∀ text ∈ catchers.filterMap Catcher.resultPath, IsPath text := by
  induction catchers with
  | nil => simp
  | cons c cs ih =>
    rw [checkCatchers, seq_eq_ok_iff, seq_eq_ok_iff] at h
    obtain ⟨-, hpath, hrest⟩ := h
    intro text htext
    obtain ⟨c', hc', hpath'⟩ := List.mem_filterMap.mp htext
    rcases List.mem_cons.mp hc' with rfl | hmem
    · exact checkPath_eq_ok_iff.mp hpath text (Option.mem_toList.mpr hpath')
    · exact ih hrest text (List.mem_filterMap.mpr ⟨c', hmem, hpath'⟩)

/-- The paths that a state with attempts stores at. -/
theorem isPath_of_checks {field : String} {path : Option String} {catchers : List Catcher}
    (hpath : checkPath field path = .ok ()) (hcatchers : checkCatchers catchers = .ok ()) :
    ∀ text ∈ path.toList ++ catchers.filterMap Catcher.resultPath, IsPath text := by
  intro text htext
  rcases List.mem_append.mp htext with htext | htext
  · exact checkPath_eq_ok_iff.mp hpath text htext
  · exact isPath_of_checkCatchers hcatchers text htext

mutual

private theorem isPath_of_checkRule :
    ∀ {rule : ChoiceRule}, checkRule rule = .ok () → ∀ text ∈ rule.variables, IsPath text
  | ⟨condition, _⟩, h => by
    rw [checkRule] at h
    rw [ChoiceRule.variables]
    exact isPath_of_checkCondition h

private theorem isPath_of_checkCondition :
    ∀ {condition : Condition}, checkCondition condition = .ok () →
      ∀ text ∈ conditionVariables condition, IsPath text
  | .all rules, h => by
    rw [checkCondition, seq_eq_ok_iff] at h
    exact isPath_of_checkNested h.2
  | .any rules, h => by
    rw [checkCondition, seq_eq_ok_iff] at h
    exact isPath_of_checkNested h.2
  | .negate rule, h => by
    rw [checkCondition, seq_eq_ok_iff] at h
    exact isPath_of_checkRule h.2
  | .compare path comparator, h => by
    rw [checkCondition] at h
    exact checkPath_eq_ok_iff.mp h

private theorem isPath_of_checkNested :
    ∀ {rules : List ChoiceRule}, checkNested rules = .ok () →
      ∀ text ∈ rulesVariables rules, IsPath text
  | [], _ => by simp [rulesVariables]
  | rule :: rules, h => by
    rw [checkNested, seq_eq_ok_iff, seq_eq_ok_iff] at h
    intro text htext
    rcases List.mem_append.mp htext with htext | htext
    · exact isPath_of_checkRule h.2.1 text htext
    · exact isPath_of_checkNested h.2.2 text htext

end

/-- Every rule of a choice that passes leads somewhere and looks at paths only. -/
theorem of_checkRules {rules : List ChoiceRule} (h : checkRules rules = .ok ()) :
    (∀ rule ∈ rules, rule.next.isSome = true) ∧ ∀ text ∈ rulesVariables rules, IsPath text := by
  induction rules with
  | nil => exact ⟨by simp, by simp [rulesVariables]⟩
  | cons rule rules ih =>
    rw [checkRules, seq_eq_ok_iff, seq_eq_ok_iff, require_eq_ok] at h
    obtain ⟨hnext, hrule, hrest⟩ := h
    obtain ⟨hnexts, hpaths⟩ := ih hrest
    refine ⟨List.forall_mem_cons.mpr ⟨hnext, hnexts⟩, fun text htext ↦ ?_⟩
    rcases List.mem_append.mp htext with htext | htext
    · exact isPath_of_checkRule hrule text htext
    · exact hpaths text htext

/-! ## Rules that are true or false -/

mutual

/-- A rule that looks at paths only is true or false of every document. -/
theorem ChoiceRule.exists_holds (doc : Json) : ∀ rule : ChoiceRule,
    (∀ text ∈ rule.variables, IsPath text) → ∃ b, rule.holds doc = .ok b
  | ⟨condition, _⟩, h => by
    rw [ChoiceRule.holds]
    exact exists_conditionHolds doc condition h

private theorem exists_conditionHolds (doc : Json) : ∀ condition : Condition,
    (∀ text ∈ conditionVariables condition, IsPath text) →
      ∃ b, conditionHolds doc condition = .ok b
  | .all rules, h => (exists_listHolds doc rules h).1
  | .any rules, h => (exists_listHolds doc rules h).2
  | .negate rule, h => by
    obtain ⟨b, hb⟩ := ChoiceRule.exists_holds doc rule h
    exact ⟨!b, by rw [conditionHolds, hb]; rfl⟩
  | .compare path comparator, h => by
    obtain ⟨p, hp⟩ := h path (List.mem_singleton.mpr rfl)
    exact ⟨comparator.holds (p.read doc), by rw [conditionHolds, hp]; rfl⟩

private theorem exists_listHolds (doc : Json) : ∀ rules : List ChoiceRule,
    (∀ text ∈ rulesVariables rules, IsPath text) →
      (∃ b, allHold doc rules = .ok b) ∧ ∃ b, anyHolds doc rules = .ok b
  | [], _ => ⟨⟨true, rfl⟩, ⟨false, rfl⟩⟩
  | rule :: rules, h => by
    obtain ⟨b, hb⟩ := ChoiceRule.exists_holds doc rule fun text htext ↦
      h text (List.mem_append_left _ htext)
    obtain ⟨hall, hany⟩ := exists_listHolds doc rules fun text htext ↦
      h text (List.mem_append_right _ htext)
    rw [allHold, anyHolds, hb]
    cases b with
    | true => exact ⟨hall, true, rfl⟩
    | false => exact ⟨⟨false, rfl⟩, hany⟩

end

/-- What some rules come to for a document: the target of one that is true of it, or the fallback
when none is. -/
inductive Chooses (doc : Json) (fallback : Option String) (rules : List ChoiceRule) :
    Option String → Prop
  | rule {rule : ChoiceRule} {name : String} (mem : rule ∈ rules)
      (holds : rule.holds doc = .ok true) (next : rule.next = some name) :
      Chooses doc fallback rules (some name)
  | fallback (holds : ∀ rule ∈ rules, rule.holds doc = .ok false) :
      Chooses doc fallback rules fallback

theorem exists_chooseAmong (fallback : Option String) {rules : List ChoiceRule}
    (hnext : ∀ rule ∈ rules, rule.next.isSome = true)
    (hpaths : ∀ text ∈ rulesVariables rules, IsPath text) (doc : Json) :
    ∃ target, chooseAmong doc fallback rules = .ok target ∧ Chooses doc fallback rules target := by
  induction rules with
  | nil => exact ⟨fallback, rfl, .fallback (by simp)⟩
  | cons rule rules ih =>
    obtain ⟨b, hb⟩ := ChoiceRule.exists_holds doc rule fun text htext ↦
      hpaths text (List.mem_append_left _ htext)
    rw [chooseAmong, hb]
    cases b with
    | true =>
      obtain ⟨name, hname⟩ := Option.isSome_iff_exists.mp (hnext rule List.mem_cons_self)
      exact ⟨rule.next, rfl, hname ▸ .rule List.mem_cons_self hb hname⟩
    | false =>
      obtain ⟨target, htarget, hchooses⟩ :=
        ih (fun r hr ↦ hnext r (List.mem_cons_of_mem rule hr))
          fun text htext ↦ hpaths text (List.mem_append_right _ htext)
      refine ⟨target, htarget, ?_⟩
      cases hchooses with
      | rule mem holds next => exact .rule (List.mem_cons_of_mem rule mem) holds next
      | fallback holds => exact .fallback (List.forall_mem_cons.mpr ⟨hb, holds⟩)

/-! ## Sound states -/

/-- What the engine relies on at a state of `m`. -/
structure State.IsSound (m : Machine) (s : State) : Prop where
  targets : ∀ name ∈ s.targets, ∃ s', m.state? name = some s'
  paths : ∀ text ∈ s.paths, IsPath text
  follows : s.kind.Goes → (∃ name, Step.after s = .next name) ∨ Step.after s = .finish
  /-- There is a duration, or a path to it, and not both. -/
  duration : ∀ w, s = .wait w →
    (∃ seconds, w.seconds = some seconds ∧ w.secondsPath = none) ∨
      ∃ path, w.seconds = none ∧ w.secondsPath = some path
  chooses : ∀ c, s = .choice c → ∀ doc,
    ∃ target, c.choose doc = .ok target ∧ Chooses doc c.fallback c.choices target

theorem WaitState.duration_of_checkSelf {w : WaitState}
    (h : (State.wait w).checkSelf = .ok ()) :
    (∃ seconds, w.seconds = some seconds ∧ w.secondsPath = none) ∨
      ∃ path, w.seconds = none ∧ w.secondsPath = some path ∧ IsPath path := by
  rw [State.checkSelf, seq_eq_ok_iff] at h
  obtain ⟨-, h⟩ := h
  split at h
  · rename_i seconds hseconds hpath
    exact .inl ⟨seconds, hseconds, hpath⟩
  · rename_i path hseconds hpath
    exact .inr ⟨path, hseconds, hpath, checkPath_eq_ok_iff.mp h path (by simp)⟩
  · cases h

theorem checkTargets_eq_ok_iff {m : Machine} {names : List String} :
    checkTargets m names = .ok () ↔ ∀ name ∈ names, m.has name = true := by
  induction names with
  | nil => simp [checkTargets]
  | cons name names ih =>
    rw [checkTargets, seq_eq_ok_iff, require_eq_ok, ih, List.forall_mem_cons]

theorem Machine.has_iff_exists {m : Machine} {name : String} :
    m.has name = true ↔ ∃ s, m.state? name = some s :=
  Option.isSome_iff_exists

namespace Machine.Checked

variable {m : Machine} {name : String}

theorem start (h : m.Checked) : ∃ s, m.state? m.startAt = some s := by
  obtain ⟨place, hcheck⟩ := h
  obtain ⟨comment, startAt, timeoutSeconds, states⟩ := m
  rw [checkMachine, seq_eq_ok_iff, checkHead, seq_eq_ok_iff, seq_eq_ok_iff] at hcheck
  rw [← has_iff_exists]
  exact require_eq_ok.mp hcheck.1.2.1

/-- **Validation leaves only sound states.** -/
theorem isSound (h : m.Checked) {s : State} (hs : m.state? name = some s) : s.IsSound m := by
  obtain ⟨place, hstate, -⟩ := h.states hs
  rw [checkState, seq_eq_ok_iff, seq_eq_ok_iff, mapError_eq_ok_iff, mapError_eq_ok_iff] at hstate
  obtain ⟨-, hself, htargets⟩ := hstate
  have htargets' : ∀ name ∈ s.targets, ∃ s', m.state? name = some s' := fun name hname ↦
    has_iff_exists.mp (checkTargets_eq_ok_iff.mp htargets name hname)
  cases s with
  | task t =>
    rw [State.checkSelf, seq_eq_ok_iff, seq_eq_ok_iff, seq_eq_ok_iff, seq_eq_ok_iff,
      seq_eq_ok_iff] at hself
    obtain ⟨htransition, hpath, -, -, -, hcatchers⟩ := hself
    exact ⟨htargets', isPath_of_checks hpath hcatchers,
      fun _ ↦ Step.after_of_checkTransition htransition, by simp, by simp⟩
  | parallel branches settings =>
    rw [State.checkSelf, seq_eq_ok_iff, seq_eq_ok_iff, seq_eq_ok_iff, seq_eq_ok_iff] at hself
    obtain ⟨htransition, hpath, -, -, hcatchers⟩ := hself
    exact ⟨htargets', isPath_of_checks hpath hcatchers,
      fun _ ↦ Step.after_of_checkTransition htransition, by simp, by simp⟩
  | wait w =>
    -- the path of a wait state is parsed only where there is no fixed duration
    have hduration := WaitState.duration_of_checkSelf hself
    refine ⟨htargets', fun text htext ↦ ?_, fun _ ↦ WaitState.after_of_checkSelf hself, ?_, by simp⟩
    · rw [State.paths, Option.mem_toList] at htext
      rcases hduration with ⟨-, -, hnone⟩ | ⟨path, -, hsome, hpath⟩
      · rw [hnone] at htext
        cases htext
      · rw [hsome, Option.some.injEq] at htext
        exact htext ▸ hpath
    · rintro w' ⟨⟩
      rcases hduration with hseconds | ⟨path, hnone, hsome, -⟩
      · exact .inl hseconds
      · exact .inr ⟨path, hnone, hsome⟩
  | choice c =>
    rw [State.checkSelf, seq_eq_ok_iff] at hself
    obtain ⟨hnext, hpaths⟩ := of_checkRules hself.2
    refine ⟨htargets', hpaths, by simp [StateKind.Goes, State.kind], by simp, ?_⟩
    rintro c' ⟨⟩ doc
    exact exists_chooseAmong c.fallback hnext hpaths doc
  | succeed comment =>
    exact ⟨htargets', by simp [State.paths], by simp [StateKind.Goes, State.kind], by simp, by simp⟩
  | fail f =>
    exact ⟨htargets', by simp [State.paths], by simp [StateKind.Goes, State.kind], by simp, by simp⟩

end Machine.Checked

/-- Every name that the targets lead to is a state. -/
theorem Machine.Reaches.exists_state {m : Machine} {name : String} (h : m.Reaches name)
    (hm : m.Checked) : ∃ s, m.state? name = some s := by
  cases h with
  | start => exact hm.start
  | step _ hs htarget => exact (hm.isSound hs).targets _ htarget

end Workflow
