import Workflow.CopyJob.Machine
import Workflow.Proofs.Machine.Sound
import Workflow.Proofs.Run.Accounts

/-!
# How copy jobs end

A copy job works in a loop of six states and reports in the other four, which are passed once:

```text
work → Notify → Succeed
  ↓      ↓
  NotifyFailure → Fail
```

A run may also be cut: it is out of time, or an error comes up that is named for the engine itself,
which none of the catchers of a job is for. `Course` says where a run goes from a state on, and the
endings follow from it, the states that report first.

Options and handlers are arbitrary, so the machine of a job need not pass validation.
-/

namespace Workflow

namespace CopyJob

open Engine

/-! ## The machine -/

/-- The states before those that report. -/
def workStates : List String :=
  ["PreExecutionCheck", "PreExecutionCheckPassed", "ScheduleCopy", "Wait", "GetJobStatus",
    "JobDone"]

/-- What stands under the names of the machine. -/
inductive Template.Has (t : Template) : String → State → Prop
  | task {name : String} (h : Handler) (resultPath next onError : String)
      (goes : name ≠ "Succeed" ∧ name ≠ "Fail") :
      Has t name (taskState h none resultPath next onError)
  | choice {name : String} {c : ChoiceState} (fallback : c.fallback.isSome = true)
      (checked : checkRules c.choices = .ok ()) (goes : name ≠ "Succeed" ∧ name ≠ "Fail") :
      Has t name (.choice c)
  | wait : Has t "Wait" (.wait waitForCopy)
  | succeed : Has t "Succeed" (.succeed none)
  | fail : Has t "Fail" (.fail jobFailed)

namespace Template

variable (t : Template)

theorem has_of_state? {name : String} {s : State} (h : t.machine.state? name = some s) :
    t.Has name s := by
  have hmem := Entries.mem_of_find? h
  simp only [machine, build, List.mem_cons, Prod.mk.injEq, List.not_mem_nil, or_false] at hmem
  rcases hmem with ⟨rfl, rfl⟩ | ⟨rfl, rfl⟩ | ⟨rfl, rfl⟩ | ⟨rfl, rfl⟩ | ⟨rfl, rfl⟩ | ⟨rfl, rfl⟩ |
    ⟨rfl, rfl⟩ | ⟨rfl, rfl⟩ | ⟨rfl, rfl⟩ | ⟨rfl, rfl⟩
  · exact .fail
  · exact .task _ _ _ _ (by decide)
  · exact .choice rfl rfl (by decide)
  · exact .task _ _ _ _ (by decide)
  · exact .task _ _ _ _ (by decide)
  · exact .task _ _ _ _ (by decide)
  · exact .choice rfl rfl (by decide)
  · exact .task _ _ _ _ (by decide)
  · exact .succeed
  · exact .wait

/-- The targets of the state of a name. -/
def targetsOf (name : String) : List String := ((t.machine.state? name).map State.targets).getD []

theorem targetsOf_eq {name : String} {s : State} (h : t.machine.state? name = some s) :
    t.targetsOf name = s.targets := by
  rw [targetsOf, h, Option.map_some, Option.getD_some]

theorem mem_targetsOf_work {name target : String} (hname : name ∈ workStates)
    (h : target ∈ t.targetsOf name) :
    target ∈ workStates ∨ target = "Notify" ∨ target = "NotifyFailure" := by
  have hmem : target ∈ workStates.flatMap t.targetsOf := List.mem_flatMap.mpr ⟨name, hname, h⟩
  have hall : workStates.flatMap t.targetsOf = ["PreExecutionCheckPassed", "NotifyFailure",
    "ScheduleCopy", "NotifyFailure", "Wait", "NotifyFailure", "GetJobStatus", "JobDone",
    "NotifyFailure", "NotifyFailure", "NotifyFailure", "Wait", "Notify", "Wait"] := rfl
  have key : ∀ target ∈ workStates.flatMap t.targetsOf,
      target ∈ workStates ∨ target = "Notify" ∨ target = "NotifyFailure" := by
    rw [hall]
    decide
  exact key target hmem

/-- Every target is a state. -/
theorem exists_state_of_reaches {name : String} (h : t.machine.Reaches name) :
    ∃ s, t.machine.state? name = some s := by
  have hnames : t.machine.names = ["Fail", "GetJobStatus", "JobDone", "Notify", "NotifyFailure",
    "PreExecutionCheck", "PreExecutionCheckPassed", "ScheduleCopy", "Succeed", "Wait"] := rfl
  have hall : t.machine.names.flatMap t.targetsOf = ["JobDone", "NotifyFailure", "NotifyFailure",
    "NotifyFailure", "Wait", "Notify", "Wait", "Succeed", "NotifyFailure", "Fail", "Fail",
    "PreExecutionCheckPassed", "NotifyFailure", "ScheduleCopy", "NotifyFailure", "Wait",
    "NotifyFailure", "GetJobStatus"] := rfl
  have key : ∀ target ∈ t.machine.names.flatMap t.targetsOf, target ∈ t.machine.names := by
    rw [hall, hnames]
    decide
  rw [← Machine.has_iff_exists, Machine.has, Entries.has_iff]
  cases h with
  | start =>
    rw [show Entries.names t.machine.states = _ from hnames]
    exact show "PreExecutionCheck" ∈ _ by decide
  | @step name _ s _ hs htarget =>
    refine key _ (List.mem_flatMap.mpr ⟨name, ?_, t.targetsOf_eq hs ▸ htarget⟩)
    exact Entries.mem_names_of_mem (Entries.mem_of_find? hs)

end Template

/-! ## A course through the machine -/

/-- The verdicts of a run that is cut. -/
inductive Cut : Verdict → Prop
  | timedOut : Cut .timedOut
  | failed {f : Failure} (runtime : f.error = ErrorName.runtime) : Cut (.failed f)

/-- The failure of a job that did not complete. -/
def incomplete : Failure := ⟨"CopyJobFailed", "Copy job did not complete successfully"⟩

/-- Where a run of the job goes from a state on: the names entered, and the verdict. -/
inductive Course (t : Template) : String → List String → Verdict → Prop
  | cutBefore {name : String} {v : Verdict} (cut : Cut v) : Course t name [] v
  | cutInside {name : String} {v : Verdict} (cut : Cut v)
      (goes : name ≠ "Succeed" ∧ name ≠ "Fail") : Course t name [name] v
  | next {name target : String} {names : List String} {v : Verdict}
      (mem : target ∈ t.targetsOf name) (rest : Course t target names v) :
      Course t name (name :: names) v
  | succeeded {name : String} (last : name = "Succeed") : Course t name [name] .succeeded
  | failed {name : String} (last : name = "Fail") : Course t name [name] (.failed incomplete)

variable {σ : Type} {t : Template} {e : Engine σ} {run : Runner σ} {site : Site} {name : String}

/-- The only error that no catcher of a task is for. -/
theorem error_of_uncaught {error next : String}
    (h : Catcher.for? (failureCatchers next) error = none) : error = ErrorName.runtime := by
  by_cases hruntime : error = ErrorName.runtime
  · exact hruntime
  · have hcovers : coversError [ErrorName.all] error = true :=
      coversError_iff.mpr (.inr ⟨List.mem_singleton.mpr rfl, hruntime⟩)
    simp [Catcher.for?, failureCatchers, hcovers] at h

/-- A choice with a fallback always goes on. -/
theorem exists_chooseStep (name : String) {c : ChoiceState} (hfallback : c.fallback.isSome = true)
    (hchecked : checkRules c.choices = .ok ()) (doc : Json) :
    ∃ target, chooseStep name c doc = .next target := by
  obtain ⟨hnext, hpaths⟩ := of_checkRules hchecked
  obtain ⟨target, htarget, hchooses⟩ := exists_chooseAmong c.fallback hnext hpaths doc
  have hsome : ∃ target', target = some target' := by
    cases hchooses with
    | rule _ _ _ => exact ⟨_, rfl⟩
    | fallback _ => exact Option.isSome_iff_exists.mp hfallback
  obtain ⟨target', rfl⟩ := hsome
  exact ⟨target', by rw [chooseStep, ChoiceState.choose, htarget]⟩

/-- A state fails with an error of the engine, except for the one that is there to fail. -/
theorem Template.Has.failure {s : State} {p q : Progress σ} {activity : Activity} {f : Failure}
    (h : t.Has name s) (hvisit : Visits e run site name s p (.fail f) activity q) :
    (name ≠ "Succeed" ∧ name ≠ "Fail") ∧ f.error = ErrorName.runtime ∨
      name = "Fail" ∧ f = incomplete := by
  cases h with
  | task handler resultPath next onError goes =>
    refine .inl ⟨goes, ?_⟩
    cases hvisit.failsBy rfl with
    | dangling _ after => cases after
    | uncaught _ uncaught => exact error_of_uncaught uncaught
    | caught _ _ _ => rfl
    | unreadable state _ | unchosen state _ | named state | ungathered state _ _ _ _ => cases state
  | choice fallback checked _ =>
    generalize hstep : Step.fail f = step at hvisit
    cases hvisit with
    | chose =>
      obtain ⟨target, htarget⟩ := exists_chooseStep name fallback checked p.document
      rw [htarget] at hstep
      cases hstep
  | wait =>
    refine .inl ⟨by decide, ?_⟩
    generalize hstep : Step.fail f = step at hvisit
    cases hvisit with
    | waited _ => cases hstep
    | unreadable _ =>
      cases hstep
      rfl
  | succeed => cases hvisit
  | fail =>
    cases hvisit
    exact .inr ⟨rfl, rfl⟩

theorem Template.Has.finish {s : State} {p q : Progress σ} {activity : Activity}
    (h : t.Has name s) (hvisit : Visits e run site name s p .finish activity q) :
    name = "Succeed" ∧ q = p := by
  cases h with
  | succeed =>
    cases hvisit
    exact ⟨rfl, rfl⟩
  | task _ _ _ _ _ | choice _ _ _ | wait | fail =>
    cases hvisit.decides with
    | finish last => rcases last with hafter | ⟨comment, hstate⟩ <;> contradiction

theorem Template.Has.goes_of_outOfTime {s : State} {p q : Progress σ} {activity : Activity}
    (h : t.Has name s) (hvisit : Visits e run site name s p .outOfTime activity q) :
    name ≠ "Succeed" ∧ name ≠ "Fail" := by
  cases h with
  | task _ _ _ _ goes | choice _ _ goes => exact goes
  | wait => decide
  | succeed | fail => cases hvisit

/-- **Every run of the job follows a course.** -/
theorem course_of_walks (hm : site.machine = t.machine) {current : String} {p q : Progress σ}
    {visits : List Visit} {verdict : Verdict} (h : e.Walks site current p visits verdict q)
    (hreaches : t.machine.Reaches current) : Course t current (visits.map Visit.state) verdict := by
  have has : ∀ {name : String} {s : State}, site.machine.state? name = some s → t.Has name s :=
    fun hs ↦ t.has_of_state? (hm ▸ hs)
  induction h with
  | late _ => exact .cutBefore .timedOut
  | ceiling _ _ => exact .cutBefore (.failed rfl)
  | missing _ _ state =>
    obtain ⟨s, hs⟩ := t.exists_state_of_reaches hreaches
    rw [hm, hs] at state
    cases state
  | next first _ ih =>
    have hs := hm ▸ first.state
    have hmem := first.visit.mem_targets
    exact .next (t.targetsOf_eq hs ▸ hmem) (ih (.step hreaches hs hmem))
  | finished last =>
    obtain ⟨rfl, rfl⟩ := (has last.state).finish last.visit
    rw [if_neg (by simp [last.onTime])]
    exact .succeeded rfl
  | failed last =>
    rcases (has last.state).failure last.visit with ⟨goes, hf⟩ | ⟨rfl, rfl⟩
    · exact .cutInside (.failed hf) goes
    · exact .failed rfl
  | outOfTime last => exact .cutInside .timedOut ((has last.state).goes_of_outOfTime last.visit)

/-! ## Endings -/

/-- How a run of the job ends, from the first state that reports on. -/
inductive Ending : List String → Verdict → Prop
  | cut {v : Verdict} (cut : Cut v) : Ending [] v
  | notifying {v : Verdict} (cut : Cut v) : Ending ["Notify"] v
  | succeeded : Ending ["Notify", "Succeed"] .succeeded
  | reporting {before : List String} {v : Verdict} (notified : before = [] ∨ before = ["Notify"])
      (cut : Cut v) : Ending (before ++ ["NotifyFailure"]) v
  | failed {before : List String} (notified : before = [] ∨ before = ["Notify"]) :
      Ending (before ++ ["NotifyFailure", "Fail"]) (.failed incomplete)

namespace Course

variable {names : List String} {v : Verdict}

theorem of_succeed (h : Course t "Succeed" names v) :
    names = [] ∧ Cut v ∨ names = ["Succeed"] ∧ v = .succeeded := by
  cases h with
  | cutBefore cut => exact .inl ⟨rfl, cut⟩
  | cutInside _ goes => exact absurd rfl goes.1
  | next mem _ => cases mem
  | succeeded _ => exact .inr ⟨rfl, rfl⟩
  | failed last => exact absurd last (by decide)

theorem of_fail (h : Course t "Fail" names v) :
    names = [] ∧ Cut v ∨ names = ["Fail"] ∧ v = .failed incomplete := by
  cases h with
  | cutBefore cut => exact .inl ⟨rfl, cut⟩
  | cutInside _ goes => exact absurd rfl goes.2
  | next mem _ => cases mem
  | failed _ => exact .inr ⟨rfl, rfl⟩
  | succeeded last => exact absurd last (by decide)

theorem of_notifyFailure {before : List String} (notified : before = [] ∨ before = ["Notify"])
    (h : Course t "NotifyFailure" names v) :
    names = [] ∧ Cut v ∨ Ending (before ++ names) v := by
  cases h with
  | cutBefore cut => exact .inl ⟨rfl, cut⟩
  | cutInside cut _ => exact .inr (.reporting notified cut)
  | @next _ target _ _ mem rest =>
    obtain rfl : target = "Fail" := by
      have hmem : target ∈ ["Fail", "Fail"] := mem
      simpa using hmem
    rcases rest.of_fail with ⟨rfl, cut⟩ | ⟨rfl, rfl⟩
    · exact .inr (.reporting notified cut)
    · exact .inr (.failed notified)
  | succeeded last | failed last => exact absurd last (by decide)

theorem of_notify (h : Course t "Notify" names v) : Ending names v := by
  cases h with
  | cutBefore cut => exact .cut cut
  | cutInside cut _ => exact .notifying cut
  | @next _ target names _ mem rest =>
    have hmem : target ∈ ["Succeed", "NotifyFailure"] := mem
    obtain rfl | rfl : target = "Succeed" ∨ target = "NotifyFailure" := by simpa using hmem
    · rcases rest.of_succeed with ⟨rfl, cut⟩ | ⟨rfl, rfl⟩
      · exact .notifying cut
      · exact .succeeded
    · rcases rest.of_notifyFailure (.inr rfl) with ⟨rfl, cut⟩ | hending
      · exact .notifying cut
      · exact hending
  | succeeded last | failed last => exact absurd last (by decide)

/-- A run of the job works for some time, and then it ends. -/
theorem exists_ending (h : Course t name names v) (hname : name ∈ workStates) :
    ∃ before after, names = before ++ after ∧ (∀ n ∈ before, n ∈ workStates) ∧ Ending after v := by
  induction h with
  | cutBefore cut => exact ⟨[], [], rfl, by simp, .cut cut⟩
  | @cutInside name _ cut _ => exact ⟨[name], [], rfl, by simpa using hname, .cut cut⟩
  | @next name target names v mem rest ih =>
    rcases t.mem_targetsOf_work hname mem with hwork | rfl | rfl
    · obtain ⟨before, after, rfl, hbefore, hending⟩ := ih hwork
      exact ⟨name :: before, after, rfl, List.forall_mem_cons.mpr ⟨hname, hbefore⟩, hending⟩
    · exact ⟨[name], names, rfl, by simpa using hname, rest.of_notify⟩
    · refine ⟨[name], names, rfl, by simpa using hname, ?_⟩
      rcases rest.of_notifyFailure (.inl rfl) with ⟨rfl, cut⟩ | hending
      · exact .cut cut
      · exact hending
  | succeeded last | failed last =>
    subst last
    exact absurd hname (by decide)

end Course

namespace Ending

variable {before after : List String} {v : Verdict}

theorem notMem_append (hbefore : ∀ n ∈ before, n ∈ workStates) {n : String}
    (hwork : n ∉ workStates) (hafter : n ∉ after) : n ∉ before ++ after := by
  rw [List.mem_append]
  rintro (hmem | hmem)
  · exact hwork (hbefore n hmem)
  · exact hafter hmem

/-- The three kinds of runs: those that go on to the end of a success, those that go on to the end
of a failure, and those that are cut before they have come to either. -/
theorem trichotomy (h : Ending after v) (hbefore : ∀ n ∈ before, n ∈ workStates) :
    (v = .succeeded ∧ ["Notify", "Succeed"] <:+ before ++ after ∧
        "NotifyFailure" ∉ before ++ after ∧ "Fail" ∉ before ++ after) ∨
      (v = .failed incomplete ∧ ["NotifyFailure", "Fail"] <:+ before ++ after ∧
        ¬["Notify", "Succeed"] <:+ before ++ after) ∨
      (Cut v ∧ ¬["Notify", "Succeed"] <:+ before ++ after ∧
        ¬["NotifyFailure", "Fail"] <:+ before ++ after) := by
  have hnot : ∀ n, n ∉ workStates → n ∉ after → n ∉ before ++ after :=
    fun _ hwork hafter ↦ notMem_append hbefore hwork hafter
  have hsuffix : ∀ {names}, names <:+ after → names <:+ before ++ after :=
    fun h ↦ h.trans (List.suffix_append before after)
  -- a run that ends with `Succeed` or with `Fail` has come to that state
  have hsucceed : "Succeed" ∉ after → ¬["Notify", "Succeed"] <:+ before ++ after :=
    fun hafter h ↦ hnot _ (by decide) hafter (h.subset (by simp))
  have hfail : "Fail" ∉ after → ¬["NotifyFailure", "Fail"] <:+ before ++ after :=
    fun hafter h ↦ hnot _ (by decide) hafter (h.subset (by simp))
  cases h with
  | cut cut | notifying cut =>
    exact .inr (.inr ⟨cut, hsucceed (by decide), hfail (by decide)⟩)
  | succeeded =>
    exact .inl ⟨rfl, hsuffix (List.suffix_refl _), hnot _ (by decide) (by decide),
      hnot _ (by decide) (by decide)⟩
  | reporting notified cut =>
    exact .inr (.inr ⟨cut, hsucceed (by rcases notified with rfl | rfl <;> decide),
      hfail (by rcases notified with rfl | rfl <;> decide)⟩)
  | failed notified =>
    exact .inr (.inl ⟨rfl, hsuffix (List.suffix_append _ _),
      hsucceed (by rcases notified with rfl | rfl <;> decide)⟩)

/-- The failure is reported once, and only the end of the run follows. -/
theorem reported (h : Ending after v) (hbefore : ∀ n ∈ before, n ∈ workStates)
    (hmem : "NotifyFailure" ∈ before ++ after) :
    (before ++ after).count "NotifyFailure" = 1 ∧
      (["NotifyFailure"] <:+ before ++ after ∨ ["NotifyFailure", "Fail"] <:+ before ++ after) := by
  have hzero : before.count "NotifyFailure" = 0 :=
    List.count_eq_zero.mpr fun hmem ↦ absurd (hbefore _ hmem) (by decide)
  have hsuffix : ∀ {names}, names <:+ after → names <:+ before ++ after :=
    fun h ↦ h.trans (List.suffix_append before after)
  rw [List.count_append, hzero, Nat.zero_add]
  cases h with
  | cut _ | notifying _ | succeeded =>
    exact absurd hmem (notMem_append hbefore (by decide) (by decide))
  | reporting notified _ =>
    exact ⟨by rcases notified with rfl | rfl <;> decide, .inl (hsuffix (List.suffix_append _ _))⟩
  | failed notified =>
    exact ⟨by rcases notified with rfl | rfl <;> decide, .inr (hsuffix (List.suffix_append _ _))⟩

end Ending

/-! ## Executions of jobs -/

/-- Only parallel states fork, and the job has none. -/
theorem unforked_of_walks (hm : site.machine = t.machine) {current : String} {p q : Progress σ}
    {visits : List Visit} {verdict : Verdict} (h : e.Walks site current p visits verdict q)
    {v : Visit} (hv : v ∈ visits) (rounds : List (Attempt (List ScopeRun))) :
    v.activity ≠ .forked rounds := by
  intro hforked
  cases h.made hv with
  | missing _ _ _ => cases hforked
  | passed pass =>
    subst hforked
    obtain ⟨branches, settings, rfl⟩ := pass.visit.exists_parallel
    cases t.has_of_state? (hm ▸ pass.state)

/-- The trace of a job has the names of its visits. -/
theorem trace_run (h : e.document.machine = t.machine) (input : Json) (world : σ) :
    (e.run input world).1.trace = (e.run input world).1.visits.map Visit.state := by
  obtain ⟨visits, verdict, q, hrun, hwalk⟩ := e.walks_run input world
  rw [hrun, ScopeRun.trace]
  exact traceVisits_of_unforked fun v hv rounds ↦ unforked_of_walks h hwalk hv rounds

/-- The run of a job goes from its start to one of the endings. -/
theorem exists_ending_of_run (t : Template) (e : Engine σ) (h : e.document.machine = t.machine)
    (input : Json) (world : σ) :
    ∃ before after, (e.run input world).1.trace = before ++ after ∧
      (∀ n ∈ before, n ∈ workStates) ∧ Ending after (e.run input world).1.verdict := by
  have hroot : e.root.machine = t.machine := h
  obtain ⟨visits, verdict, q, hrun, hwalk⟩ := e.walks_run input world
  have hcourse := course_of_walks hroot hwalk (hroot ▸ .start)
  rw [trace_run h, hrun]
  refine hcourse.exists_ending ?_
  rw [hroot]
  exact List.mem_cons_self

/-- How an execution of a job may turn out. -/
structure Concluded (x : Execution) : Prop where
  succeeded_iff : x.status = .succeeded ↔ ["Notify", "Succeed"] <:+ x.trace
  /-- A job that has succeeded was not on the way of a failure. -/
  clean : x.status = .succeeded → "NotifyFailure" ∉ x.trace ∧ "Fail" ∉ x.trace
  /-- The way of a failure is taken once, and nothing follows on it but `Fail`. -/
  reported : "NotifyFailure" ∈ x.trace → x.visits "NotifyFailure" = 1 ∧
    (["NotifyFailure"] <:+ x.trace ∨ ["NotifyFailure", "Fail"] <:+ x.trace)
  incomplete_iff : x.status = .failed →
    (x.error = some "CopyJobFailed" ↔ ["NotifyFailure", "Fail"] <:+ x.trace)
  runtime : x.status = .failed → x.error ≠ some "CopyJobFailed" →
    x.error = some ErrorName.runtime
  timedOut : x.status ≠ .succeeded → x.status ≠ .failed →
    x.status = .timedOut ∧ x.error = some ErrorName.timeout

/-- **A job ends in one of two ways, unless it is cut**, whatever its handlers and options are. -/
theorem execute_job (t : Template) (e : Engine σ) (h : e.document.machine = t.machine)
    (input : Json) (world : σ) : Concluded (e.execute input world).1 := by
  obtain ⟨before, after, hrun, hbefore, hending⟩ := exists_ending_of_run t e h input world
  have htrace : (e.execute input world).1.trace = before ++ after := trace_execute.trans hrun
  have hreported := hending.reported hbefore
  have hkinds := hending.trichotomy hbefore
  rw [← htrace] at hreported hkinds
  rcases hkinds with ⟨hv, hend, hclean⟩ | ⟨hv, hend, hno⟩ | ⟨hcut, hno, hno'⟩
  · have hstatus := status_of_succeeded hv
    exact ⟨iff_of_true hstatus hend, fun _ ↦ hclean, hreported, by simp [hstatus],
      by simp [hstatus], by simp [hstatus]⟩
  · obtain ⟨hstatus, herror⟩ := status_of_failed hv
    exact ⟨iff_of_false (by simp [hstatus]) hno, by simp [hstatus], hreported,
      fun _ ↦ iff_of_true herror hend, fun _ hne ↦ absurd herror hne, by simp [hstatus]⟩
  · generalize hv : (e.run input world).1.verdict = v at hcut
    cases hcut with
    | timedOut =>
      obtain ⟨hstatus, herror⟩ := status_of_timedOut hv
      exact ⟨iff_of_false (by simp [hstatus]) hno, by simp [hstatus], hreported, by simp [hstatus],
        by simp [hstatus], fun _ _ ↦ ⟨hstatus, herror⟩⟩
    | failed hf =>
      obtain ⟨hstatus, herror⟩ := status_of_failed hv
      rw [hf] at herror
      have hne : (e.execute input world).1.error ≠ some "CopyJobFailed" := by
        rw [herror]
        decide
      exact ⟨iff_of_false (by simp [hstatus]) hno, by simp [hstatus], hreported,
        fun _ ↦ iff_of_false hne hno', fun _ _ ↦ herror, by simp [hstatus]⟩

/-- A job all of whose tasks are the same one. -/
def uniformJob : Template where
  handlers :=
    let work : Handler := .here { name := "work" }
    ⟨work, work, work, work, work⟩

/-- The task answers that the check has not passed. -/
def refusedRun : Engine Unit where
  document := .ofMachine uniformJob.machine
  registry := Registry.register {} (.here { name := "work" })
  perform := fun _ s ↦ ({ result := .ok (.object [("checkout_status", .string "FAILED")]) }, s)

theorem execute_refusedRun :
    refusedRun.document.machine = uniformJob.machine ∧
      (refusedRun.execute (.object []) ()).1.status = .failed ∧
      (refusedRun.execute (.object []) ()).1.trace
        = ["PreExecutionCheck", "PreExecutionCheckPassed", "NotifyFailure", "Fail"] ∧
      (refusedRun.execute (.object []) ()).1.error = some "CopyJobFailed" := by
  have hstatus : (refusedRun.execute (.object []) ()).1.status = .failed := by decide +kernel
  have htrace : (refusedRun.execute (.object []) ()).1.trace
      = ["PreExecutionCheck", "PreExecutionCheckPassed", "NotifyFailure", "Fail"] := by
    decide +kernel
  have hends := (execute_job uniformJob refusedRun rfl (.object []) ()).incomplete_iff hstatus
  refine ⟨rfl, hstatus, htrace, hends.mpr ?_⟩
  rw [htrace]
  decide

end CopyJob

end Workflow
