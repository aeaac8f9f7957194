import Workflow.Proofs.Machine.Checked
import Workflow.Proofs.Machine.Writes
import Workflow.Proofs.Run.Rounds

/-!
# What a visit decides

A decision goes back to the last attempt at the state. `Departs` lists the ways in which a visit can
end, with the document that it leaves, and `Visits.departs` says that there are no others. From it
the rest is read off: a visit that goes on goes to one of the targets of its state, and a visit that
fails does so in one of the ways that `FailsBy` lists. Which of these ways are open to the states of
a particular machine, or of any machine that passes validation, is then a question about the states
alone.
-/

namespace Workflow

/-! ## Targets -/

namespace State

/-- Where the result of the attempts at a state is stored; the whole document if missing. -/
def resultPath : State → Option String
  | .task t => t.resultPath
  | .parallel _ p => p.resultPath
  | _ => none

theorem mem_targets_of_next {s : State} {name : String} (h : s.transition.next = some name) :
    name ∈ s.targets := by
  simp [targets, h]

theorem mem_targets_of_catcher {s : State} {c : Catcher} (h : c ∈ s.catchers) :
    c.next ∈ s.targets := by
  have hmem : c.next ∈ s.catchers.map Catcher.next := List.mem_map.mpr ⟨c, h, rfl⟩
  simp only [targets, List.mem_append]
  exact .inl (.inr hmem)

end State

/-- A choice leads to the target of one of its rules, or else to its fallback. -/
theorem chooseAmong_eq_ok {doc : Json} {fallback : Option String} {rules : List ChoiceRule}
    {target : Option String} (h : chooseAmong doc fallback rules = .ok target) :
    (∃ rule ∈ rules, rule.holds doc = .ok true ∧ target = rule.next) ∨ target = fallback := by
  induction rules with
  | nil => exact .inr (Except.ok.inj h).symm
  | cons rule rules ih =>
    rw [chooseAmong] at h
    split at h
    · rename_i hholds
      exact .inl ⟨rule, List.mem_cons_self, hholds, (Except.ok.inj h).symm⟩
    · rcases ih h with ⟨r, hr, hholds⟩ | hfallback
      · exact .inl ⟨r, List.mem_cons_of_mem rule hr, hholds⟩
      · exact .inr hfallback
    · cases h

theorem ChoiceState.mem_targets {c : ChoiceState} {doc : Json} {name : String}
    (h : c.choose doc = .ok (some name)) : name ∈ (State.choice c).targets := by
  have hmem : name ∈ c.choices.filterMap ChoiceRule.next ++ c.fallback.toList := by
    rw [List.mem_append, List.mem_filterMap, Option.mem_toList]
    rcases chooseAmong_eq_ok h with ⟨rule, hrule, -, hnext⟩ | hfallback
    · exact .inl ⟨rule, hrule, hnext.symm⟩
    · exact .inr hfallback.symm
  simp only [State.targets, List.mem_append]
  exact .inr (List.mem_append.mp hmem)

/-! ## Catchers -/

theorem Catcher.mem_of_for? {catchers : List Catcher} {error : String} {c : Catcher}
    (h : Catcher.for? catchers error = some c) : c ∈ catchers :=
  List.mem_of_find?_eq_some h

/-- What becomes of an error that is not retried, and of the document: the first catcher for the
error stores what describes it, if there is one and its path can be written at. -/
inductive Handles (catchers : List Catcher) (f : Failure) (doc : Json) : Step → Json → Prop
  | uncaught (uncaught : Catcher.for? catchers f.error = none) :
      Handles catchers f doc (.fail f) doc
  | caught {c : Catcher} {doc' : Json} (caught : Catcher.for? catchers f.error = some c)
      (stored : storeAt c.resultPath f.toJson doc = (doc', none)) :
      Handles catchers f doc (.next c.next) doc'
  | unstored {c : Catcher} {cause : String} (caught : Catcher.for? catchers f.error = some c)
      (stored : storeAt c.resultPath f.toJson doc = (doc, some cause)) :
      Handles catchers f doc (.fail (.runtime cause)) doc

theorem handles_handleFailure (catchers : List Catcher) (f : Failure) (doc : Json) :
    Handles catchers f doc (handleFailure catchers f doc).1 (handleFailure catchers f doc).2 := by
  rw [handleFailure]
  split
  · rename_i hnone
    exact .uncaught hnone
  · rename_i c hc
    split
    · rename_i hstored
      exact .caught hc hstored
    · rename_i hstored
      obtain rfl := storeAt_document_of_failure hstored
      exact .unstored hc hstored

/-! ## Attempts at a task -/

namespace Engine

variable {σ : Type}

/-- What a task is told at an attempt. -/
def taskContext (e : Engine σ) (name : String) (t : TaskState) (attempt : Nat) (doc : Json) :
    TaskContext where
  executionId := e.executionId
  state := name
  attempt := attempt
  input := doc
  parameters := t.parameters

/-- A call is told what it is told, whatever handler it goes to. -/
theorem call_context (e : Engine σ) (site : Site) (name : String) (t : TaskState)
    (ctx : TaskContext) (world : σ) : (e.call site name t ctx world).1.context = ctx := by
  simp only [call]
  split <;> rfl

/-- What an attempt at a task does with the result of its call. -/
inductive Answers (s : State) (t : TaskState) (result : Except TaskError Json) (doc : Json) :
    AttemptResult → Json → Prop
  | failed {error : TaskError} (answered : result = .error error) :
      Answers s t result doc (.failed ⟨error.errorName, error.cause⟩) doc
  | stored {v doc' : Json} (answered : result = .ok v)
      (stored : storeAt t.resultPath v doc = (doc', none)) :
      Answers s t result doc (.settled (.after s)) doc'
  | unstored {v : Json} {cause : String} (answered : result = .ok v)
      (stored : storeAt t.resultPath v doc = (doc, some cause)) :
      Answers s t result doc
        (.settled (handleFailure t.catchers ⟨ErrorName.resultPath, cause⟩ doc).1)
        (handleFailure t.catchers ⟨ErrorName.resultPath, cause⟩ doc).2

theorem answers_of_attemptTask {e : Engine σ} {site : Site} {name : String} {s : State}
    {t : TaskState} {k : Nat} {p q : Progress σ} {result : AttemptResult} {call : Call}
    (h : e.attemptTask site name s t k p = (result, call, q)) :
    ∃ doc world, Answers s t call.result p.document result doc ∧
      e.call site name t (e.taskContext name t k p.document) p.world = (call, world) ∧
      q = { p with world, document := doc } := by
  rcases hcall : e.call site name t (e.taskContext name t k p.document) p.world with ⟨call', world⟩
  have hcall' := hcall
  rw [taskContext] at hcall'
  rcases hresult : call'.result with error | v
  · simp only [attemptTask, hcall', hresult, Prod.mk.injEq] at h
    obtain ⟨rfl, rfl, rfl⟩ := h
    exact ⟨_, _, .failed hresult, rfl, rfl⟩
  · rcases hstore : storeAt t.resultPath v p.document with ⟨doc, _ | cause⟩
    · simp only [attemptTask, hcall', hresult, hstore, Prod.mk.injEq] at h
      obtain ⟨rfl, rfl, rfl⟩ := h
      exact ⟨_, _, .stored hresult hstore, rfl, rfl⟩
    · have hdoc := storeAt_document_of_failure hstore
      subst hdoc
      simp only [attemptTask, hcall', hresult, hstore, Prod.mk.injEq] at h
      obtain ⟨rfl, rfl, rfl⟩ := h
      exact ⟨_, _, .unstored hresult hstore, rfl, rfl⟩

/-- An attempt at a parallel state is a round of its branches, whose clock is that of the slowest
one. -/
theorem rounds_of_attemptParallel {run : Runner σ} {site : Site} {name : String} {s : State}
    {branches : List Machine} {settings : ParallelSettings} {k : Nat} {p q : Progress σ}
    {result : AttemptResult} {runs : List ScopeRun}
    (h : attemptParallel run site name s branches settings k p = (result, runs, q)) :
    ∃ doc q', Rounds s settings runs p.document result doc ∧
      runBranches run site name p.toMoment 0 branches p = (runs, q') ∧
      q = { q' with document := doc, clock := slowest p.clock runs } := by
  obtain ⟨result', doc, heq, hrounds⟩ :=
    rounds_attemptParallel run site name s branches settings k p
  rw [heq] at h
  simp only [Prod.mk.injEq] at h
  obtain ⟨rfl, rfl, rfl⟩ := h
  exact ⟨doc, _, hrounds, rfl, rfl⟩

/-- An attempt at a task that fails leaves the document as it was. -/
theorem attemptTask_document_of_failed {e : Engine σ} {site : Site} {name : String} {s : State}
    {t : TaskState} {k : Nat} {p q : Progress σ} {f : Failure} {call : Call}
    (h : e.attemptTask site name s t k p = (.failed f, call, q)) : q.document = p.document := by
  obtain ⟨doc, world, hanswers, -, rfl⟩ := answers_of_attemptTask h
  cases hanswers with
  | failed _ => rfl

/-- So does a round of branches that fails. -/
theorem attemptParallel_document_of_failed {run : Runner σ} {site : Site} {name : String}
    {s : State} {branches : List Machine} {settings : ParallelSettings} {k : Nat}
    {p q : Progress σ} {f : Failure} {runs : List ScopeRun}
    (h : attemptParallel run site name s branches settings k p = (.failed f, runs, q)) :
    q.document = p.document := by
  obtain ⟨doc, q', hrounds, -, rfl⟩ := rounds_of_attemptParallel h
  cases hrounds with
  | failed _ => rfl

end Engine

/-! ## The last attempt -/

/-- How the last attempt at a state leads to the step. `doc` is the document on entry, which all
attempts see. -/
inductive Concludes {σ ρ : Type} (catchers : List Catcher)
    (attempt : Nat → Progress σ → AttemptResult × ρ × Progress σ) (doc : Json) (record : ρ) :
    Step → Json → Prop
  | settled {k : Nat} {p q : Progress σ} {step : Step} {doc' : Json}
      (document : p.document = doc) (made : attempt k p = (.settled step, record, q))
      (exit : q.document = doc') : Concludes catchers attempt doc record step doc'
  | handled {k : Nat} {p q : Progress σ} {f : Failure} {step : Step} {doc' : Json}
      (document : p.document = doc) (made : attempt k p = (.failed f, record, q))
      (handled : handleFailure catchers f doc = (step, doc')) :
      Concludes catchers attempt doc record step doc'
  | late : Concludes catchers attempt doc record .outOfTime doc

theorem Retries.concludes {σ ρ : Type} {isLate : Nat → Bool} {catchers : List Catcher}
    {attempt : Nat → Progress σ → AttemptResult × ρ × Progress σ}
    (hkeeps : ∀ {k p f record q}, attempt k p = (.failed f, record, q) → q.document = p.document)
    {t : RetryTracker} {p q : Progress σ} {step : Step} {attempts : List (Attempt ρ)}
    (h : Retries isLate catchers attempt t p step attempts q) :
    ∃ last, attempts.getLast? = some last ∧
      Concludes catchers attempt p.document last.record step q.document := by
  induction h with
  | settled made => exact ⟨_, rfl, .settled rfl made rfl⟩
  | handled made _ =>
    have hdoc := hkeeps made
    exact ⟨_, rfl, .handled rfl made (by rw [hdoc])⟩
  | late made _ _ =>
    have hdoc := hkeeps made
    exact ⟨_, rfl, hdoc ▸ .late⟩
  | again made _ _ _ ih =>
    obtain ⟨last, hlast, hconcludes⟩ := ih
    have hdoc := hkeeps made
    refine ⟨last, by rw [List.getLast?_cons, hlast, Option.getD_some], ?_⟩
    rw [← hdoc]
    exact hconcludes

/-- All attempts see the document on entry, since those that fail leave it as it was. -/
theorem Retries.forall_seen {σ ρ : Type} {isLate : Nat → Bool} {catchers : List Catcher}
    {attempt : Nat → Progress σ → AttemptResult × ρ × Progress σ} (seen : Json → ρ → Prop)
    (hkeeps : ∀ {k p f record q}, attempt k p = (.failed f, record, q) → q.document = p.document)
    (hseen : ∀ {k p result record q}, attempt k p = (result, record, q) → seen p.document record)
    {t : RetryTracker} {p q : Progress σ} {step : Step} {attempts : List (Attempt ρ)}
    (h : Retries isLate catchers attempt t p step attempts q) :
    ∀ a ∈ attempts, seen p.document a.record := by
  induction h with
  | settled made | handled made _ | late made _ _ =>
    intro a ha
    rw [List.mem_singleton.mp ha]
    exact hseen made
  | again made _ _ _ ih =>
    rw [hkeeps made] at ih
    exact List.forall_mem_cons.mpr ⟨hseen made, ih⟩

/-- Nothing is entered after the last attempt. -/
theorem Retries.exists_last {σ ρ : Type} {isLate : Nat → Bool} {catchers : List Catcher}
    {attempt : Nat → Progress σ → AttemptResult × ρ × Progress σ}
    (hattempt : ∀ k p, (attempt k p).2.2.left ≤ p.left)
    {t : RetryTracker} {p q : Progress σ} {step : Step} {attempts : List (Attempt ρ)}
    (h : Retries isLate catchers attempt t p step attempts q) :
    ∃ last k p' result q', attempts.getLast? = some last ∧ p'.left ≤ p.left ∧
      attempt k p' = (result, last.record, q') ∧ q'.left = q.left := by
  induction h with
  | settled made | handled made _ | late made _ _ =>
    exact ⟨_, _, _, _, _, rfl, Nat.le_refl _, made, rfl⟩
  | @again t _ p _ _ _ _ _ _ _ made _ _ _ ih =>
    obtain ⟨last, k, p', result, q', hlast, hleft, hmade, hq⟩ := ih
    have hle := hattempt t.total p
    rw [made] at hle
    exact ⟨last, k, p', result, q', by rw [List.getLast?_cons, hlast, Option.getD_some],
      Nat.le_trans hleft hle, hmade, hq⟩

namespace Engine

variable {σ : Type} {e : Engine σ} {run : Runner σ} {site : Site} {name : String}

theorem Visits.exists_parallel {s : State} {p q : Progress σ} {step : Step}
    {rounds : List (Attempt (List ScopeRun))}
    (h : Visits e run site name s p step (.forked rounds) q) :
    ∃ branches settings, s = .parallel branches settings := by
  cases h with
  | forked _ => exact ⟨_, _, rfl⟩

theorem Visits.exists_rounds {branches : List Machine} {settings : ParallelSettings}
    {p q : Progress σ} {step : Step} {activity : Activity}
    (h : Visits e run site name (.parallel branches settings) p step activity q) :
    ∃ rounds, activity = .forked rounds := by
  cases h with
  | @forked _ _ _ _ _ rounds _ => exact ⟨rounds, rfl⟩

/-- The last run of the last round is that of a branch, and ends with as many states left to enter
as the visit does. -/
theorem Visits.exists_last_run (hrun : Narrows run) {branches : List Machine}
    {settings : ParallelSettings} {p q : Progress σ} {step : Step}
    {rounds : List (Attempt (List ScopeRun))} {round : Attempt (List ScopeRun)} {r : ScopeRun}
    (h : Visits e run site name (.parallel branches settings) p step (.forked rounds) q)
    (hround : rounds.getLast? = some round) (hr : round.record.getLast? = some r) :
    ∃ m p' q', branches[round.record.length - 1]? = some m ∧ p'.left ≤ p.left ∧
      run (branchSite site name (round.record.length - 1) m) p' = (r, q') ∧ q'.left = q.left := by
  cases h with
  | forked attempts =>
    obtain ⟨last, k, p', result, q', hlast, hleft, hmade, hq⟩ :=
      attempts.exists_last (attemptParallel_left_le hrun site name _ _ _)
    obtain rfl : round = last := Option.some.inj (hround.symm.trans hlast)
    obtain ⟨doc, q'', -, hruns, rfl⟩ := rounds_of_attemptParallel hmade
    obtain ⟨m, p'', hm, hle, hrun'⟩ := getLast?_runBranches hrun hruns hr
    rw [Nat.zero_add] at hrun'
    exact ⟨m, p'', q'', hm, Nat.le_trans hle hleft, hrun', hq⟩

/-! ## Failures -/

/-- The error that a visit is left with when no attempt is to follow, by the document on entry and
what went on. -/
inductive Raises (s : State) (doc : Json) : Activity → Failure → Prop
  /-- The last call failed. -/
  | answered {calls : List (Attempt Call)} {last : Attempt Call} {error : TaskError}
      (mem : calls.getLast? = some last) (answered : last.record.result = .error error) :
      Raises s doc (.called calls) ⟨error.errorName, error.cause⟩
  /-- The result of the last call cannot be stored. -/
  | unstored {t : TaskState} {calls : List (Attempt Call)} {last : Attempt Call} {v : Json}
      {cause : String} (state : s = .task t) (mem : calls.getLast? = some last)
      (answered : last.record.result = .ok v)
      (stored : storeAt t.resultPath v doc = (doc, some cause)) :
      Raises s doc (.called calls) ⟨ErrorName.resultPath, cause⟩
  /-- The last branch of the last round failed. -/
  | inside {rounds : List (Attempt (List ScopeRun))} {last : Attempt (List ScopeRun)}
      {r : ScopeRun} {f : Failure} (mem : rounds.getLast? = some last)
      (mem_round : last.record.getLast? = some r) (failed : r.verdict = .failed f) :
      Raises s doc (.forked rounds) { f with cause := s!"{r.scope}: {f.cause}" }

/-- The ways in which the visit of a state comes to a failure, by the document on entry and what
went on. -/
inductive FailsBy (s : State) (doc : Json) (activity : Activity) : Failure → Prop
  /-- The document does not say what follows. -/
  | dangling {f : Failure} (goes : s.kind.Goes) (after : Step.after s = .fail f) :
      FailsBy s doc activity f
  | unreadable {w : WaitState} {cause : String} (state : s = .wait w)
      (read : waitSeconds w doc = .error cause) : FailsBy s doc activity (.runtime cause)
  | unchosen {c : ChoiceState} {name : String} {f : Failure} (state : s = .choice c)
      (chosen : chooseStep name c doc = .fail f) : FailsBy s doc activity f
  | named {f : FailState} (state : s = .fail f) :
      FailsBy s doc activity ⟨f.error.getD ErrorName.fail, f.cause.getD ""⟩
  /-- The outputs of the last round cannot be stored, and no catcher is asked. -/
  | ungathered {branches : List Machine} {settings : ParallelSettings}
      {rounds : List (Attempt (List ScopeRun))} {last : Attempt (List ScopeRun)}
      {outputs : List Json} {cause : String} (state : s = .parallel branches settings)
      (forked : activity = .forked rounds) (mem : rounds.getLast? = some last)
      (gathered : gather last.record = .ok outputs)
      (stored : storeAt settings.resultPath (.array outputs) doc = (doc, some cause)) :
      FailsBy s doc activity (.runtime cause)
  | uncaught {f : Failure} (raised : Raises s doc activity f)
      (uncaught : Catcher.for? s.catchers f.error = none) : FailsBy s doc activity f
  /-- An error was caught, and what describes it cannot be stored. -/
  | caught {f : Failure} {c : Catcher} {cause : String} (raised : Raises s doc activity f)
      (caught : Catcher.for? s.catchers f.error = some c)
      (stored : storeAt c.resultPath f.toJson doc = (doc, some cause)) :
      FailsBy s doc activity (.runtime cause)

/-- A round that fails ends with the branch that failed. -/
theorem exists_getLast?_of_gather_eq_error {start : Moment} {index : Nat} {ms : List Machine}
    {p q : Progress σ} {runs : List ScopeRun} {f : Failure}
    (hruns : runBranches run site name start index ms p = (runs, q))
    (h : gather runs = .error (some f)) :
    ∃ r inner, runs.getLast? = some r ∧ r.verdict = .failed inner ∧
      f = { inner with cause := s!"{r.scope}: {inner.cause}" } := by
  obtain ⟨before, r, after, rfl, -, ⟨-, hf⟩ | ⟨inner, hv, hf⟩⟩ := exists_of_gather_eq_error h
  · cases hf
  · have hafter : after = [] :=
      eq_nil_of_runBranches (congrArg Prod.fst hruns) (by rw [hv]; simp)
    subst hafter
    exact ⟨r, inner, List.getLast?_concat, hv, Option.some.inj hf⟩

/-! ## Departures -/

/-- The value that the attempts at a state have come to: the result of the last call, or the outputs
of the last round. -/
inductive Yields : Activity → Json → Prop
  | answered {calls : List (Attempt Call)} {last : Attempt Call} {v : Json}
      (mem : calls.getLast? = some last) (answered : last.record.result = .ok v) :
      Yields (.called calls) v
  | gathered {rounds : List (Attempt (List ScopeRun))} {last : Attempt (List ScopeRun)}
      {outputs : List Json} (mem : rounds.getLast? = some last)
      (gathered : gather last.record = .ok outputs) : Yields (.forked rounds) (.array outputs)

/-- How the visit of a state ends, by the document on entry and what went on: the step and the
document that is left. At most one value is stored, and it is stored in the document on entry. -/
inductive Departs (s : State) (name : String) (doc : Json) (activity : Activity) :
    Step → Json → Prop
  | stored {v doc' : Json} (attempts : s.kind = .task ∨ s.kind = .parallel)
      (yields : Yields activity v) (stored : storeAt s.resultPath v doc = (doc', none)) :
      Departs s name doc activity (.after s) doc'
  | caught {f : Failure} {c : Catcher} {doc' : Json} (raised : Raises s doc activity f)
      (caught : Catcher.for? s.catchers f.error = some c)
      (stored : storeAt c.resultPath f.toJson doc = (doc', none)) :
      Departs s name doc activity (.next c.next) doc'
  | waited {w : WaitState} (state : s = .wait w) : Departs s name doc activity (.after s) doc
  | chose {c : ChoiceState} (state : s = .choice c) :
      Departs s name doc activity (chooseStep name c doc) doc
  | succeeded {comment : Option String} (state : s = .succeed comment) :
      Departs s name doc activity .finish doc
  | failed {f : Failure} (fails : FailsBy s doc activity f) :
      Departs s name doc activity (.fail f) doc
  /-- Only attempts run out of time in the middle of a visit. -/
  | outOfTime (attempts : s.kind = .task ∨ s.kind = .parallel) :
      Departs s name doc activity .outOfTime doc

/-- An error that is raised goes to the catchers. -/
theorem Raises.departs {s : State} {doc doc' : Json} {activity : Activity} {f : Failure}
    {step : Step} (h : Raises s doc activity f)
    (hhandled : handleFailure s.catchers f doc = (step, doc')) :
    Departs s name doc activity step doc' := by
  have hhandles := handles_handleFailure s.catchers f doc
  rw [hhandled] at hhandles
  cases hhandles with
  | uncaught uncaught => exact .failed (.uncaught h uncaught)
  | caught caught stored => exact .caught h caught stored
  | unstored caught stored => exact .failed (.caught h caught stored)

/-- **How a visit ends.** -/
theorem Visits.departs {s : State} {p q : Progress σ} {step : Step} {activity : Activity}
    (h : Visits e run site name s p step activity q) :
    Departs s name p.document activity step q.document := by
  cases h with
  | @called t _ _ _ calls attempts =>
    obtain ⟨last, hmem, hlast⟩ := attempts.concludes attemptTask_document_of_failed
    generalize q.document = exit at hlast ⊢
    cases hlast with
    | settled hdoc made hexit =>
      obtain ⟨doc, world, hanswers, -, rfl⟩ := answers_of_attemptTask made
      rw [hdoc] at hanswers
      obtain rfl : doc = exit := hexit
      -- the result is an index of `hanswers`, so it has to be a variable for the cases
      generalize hresult : AttemptResult.settled step = result at hanswers
      cases hanswers with
      | failed _ => cases hresult
      | stored answered stored =>
        cases hresult
        exact .stored (.inl rfl) (.answered hmem answered) stored
      | unstored answered stored =>
        cases hresult
        exact (Raises.unstored rfl hmem answered stored).departs rfl
    | handled _ made handled =>
      obtain ⟨_, _, hanswers, -⟩ := answers_of_attemptTask made
      cases hanswers with
      | failed answered => exact (Raises.answered hmem answered).departs handled
    | late => exact .outOfTime (.inl rfl)
  | @forked branches settings _ _ _ rounds attempts =>
    obtain ⟨last, hmem, hlast⟩ := attempts.concludes attemptParallel_document_of_failed
    generalize q.document = exit at hlast ⊢
    cases hlast with
    | settled hdoc made hexit =>
      obtain ⟨doc, _, hrounds, -, rfl⟩ := rounds_of_attemptParallel made
      rw [hdoc] at hrounds
      obtain rfl : doc = exit := hexit
      generalize hresult : AttemptResult.settled step = result at hrounds
      cases hrounds with
      | failed _ => cases hresult
      | outOfTime _ =>
        cases hresult
        exact .outOfTime (.inr rfl)
      | stored gathered stored =>
        cases hresult
        exact .stored (.inr rfl) (.gathered hmem gathered) stored
      | unstored gathered stored =>
        cases hresult
        obtain rfl := storeAt_document_of_failure stored
        exact .failed (.ungathered rfl rfl hmem gathered stored)
    | handled _ made handled =>
      obtain ⟨_, q', hrounds, hruns, -⟩ := rounds_of_attemptParallel made
      cases hrounds with
      | failed gathered =>
        obtain ⟨r, f, hr, hv, rfl⟩ := exists_getLast?_of_gather_eq_error hruns gathered
        exact (Raises.inside hmem hr hv).departs handled
    | late => exact .outOfTime (.inr rfl)
  | waited _ => exact .waited rfl
  | unreadable read => exact .failed (.unreadable rfl read)
  | chose => exact .chose rfl
  | succeeded => exact .succeeded rfl
  | failed => exact .failed (.named rfl)

/-- All calls of a task are told the document on entry. -/
theorem Visits.told {s : State} {p q : Progress σ} {step : Step} {calls : List (Attempt Call)}
    (h : Visits e run site name s p step (.called calls) q) :
    ∀ a ∈ calls, a.record.context.input = p.document := by
  cases h with
  | @called t _ _ _ _ attempts =>
    refine attempts.forall_seen (fun doc call ↦ call.context.input = doc)
      attemptTask_document_of_failed ?_
    intro k p result call q made
    obtain ⟨_, _, -, hcall, -⟩ := answers_of_attemptTask made
    have hcontext := e.call_context site name t (e.taskContext name t k p.document) p.world
    rw [hcall] at hcontext
    exact congrArg TaskContext.input hcontext

/-! ## Decisions -/

/-- What the visit of a state may decide. -/
inductive Decides (s : State) : Step → Prop
  | next {target : String} (mem : target ∈ s.targets) : Decides s (.next target)
  | finish (last : Step.after s = .finish ∨ ∃ comment, s = .succeed comment) : Decides s .finish
  | fail {f : Failure} : Decides s (.fail f)
  /-- Only attempts run out of time in the middle of a visit. -/
  | outOfTime (attempts : s.kind = .task ∨ s.kind = .parallel) : Decides s .outOfTime

theorem decides_after (s : State) : Decides s (.after s) := by
  rw [Step.after]
  split
  · rename_i hnext
    exact .next (State.mem_targets_of_next hnext)
  · rename_i hnext hend
    exact .finish (.inl (by rw [Step.after, hnext, hend]))
  · exact .fail

theorem decides_chooseStep (name : String) (c : ChoiceState) (doc : Json) :
    Decides (.choice c) (chooseStep name c doc) := by
  rw [chooseStep]
  split
  · rename_i next hchoose
    exact .next (ChoiceState.mem_targets hchoose)
  · exact .fail
  · exact .fail

theorem Departs.decides {s : State} {doc doc' : Json} {activity : Activity} {step : Step}
    (h : Departs s name doc activity step doc') : Decides s step := by
  cases h with
  | stored _ _ _ => exact decides_after s
  | caught _ caught _ => exact .next (State.mem_targets_of_catcher (Catcher.mem_of_for? caught))
  | waited _ => exact decides_after s
  | chose state =>
    subst state
    exact decides_chooseStep _ _ _
  | succeeded state => exact .finish (.inr ⟨_, state⟩)
  | failed _ => exact .fail
  | outOfTime attempts => exact .outOfTime attempts

/-- **What a visit decides.** -/
theorem Visits.decides {s : State} {p q : Progress σ} {step : Step} {activity : Activity}
    (h : Visits e run site name s p step activity q) : Decides s step :=
  h.departs.decides

theorem Visits.mem_targets {s : State} {p q : Progress σ} {target : String} {activity : Activity}
    (h : Visits e run site name s p (.next target) activity q) : target ∈ s.targets := by
  cases h.decides with
  | next mem => exact mem

/-- How the visit of a task goes on, by the document on entry and the calls made: to the target that
the document says, with the result of a call stored, or to that of a catcher, with an error
stored. -/
inductive GoesOn (t : TaskState) (doc : Json) (calls : List (Attempt Call)) : String → Json → Prop
  | stored {a : Attempt Call} {v doc' : Json} {target : String} (mem : a ∈ calls)
      (told : a.record.context.input = doc) (answered : a.record.result = .ok v)
      (stored : storeAt t.resultPath v doc = (doc', none))
      (after : Step.after (.task t) = .next target) : GoesOn t doc calls target doc'
  | caught {f : Failure} {c : Catcher} {doc' : Json}
      (caught : Catcher.for? t.catchers f.error = some c)
      (stored : storeAt c.resultPath f.toJson doc = (doc', none)) :
      GoesOn t doc calls c.next doc'

/-- **How a visit of a task goes on.** -/
theorem Visits.goesOn {t : TaskState} {p q : Progress σ} {target : String} {activity : Activity}
    (h : Visits e run site name (.task t) p (.next target) activity q) :
    ∃ calls, activity = .called calls ∧ GoesOn t p.document calls target q.document := by
  obtain ⟨calls, rfl⟩ : ∃ calls, activity = .called calls := by
    cases h with
    | @called _ _ _ _ calls _ => exact ⟨calls, rfl⟩
  refine ⟨calls, rfl, ?_⟩
  have htold := h.told
  have hdeparts := h.departs
  generalize hstep : Step.next target = step at hdeparts
  generalize q.document = exit at hdeparts ⊢
  cases hdeparts with
  | stored _ yields stored =>
    cases yields with
    | answered mem answered =>
      have hmem := List.mem_of_getLast? mem
      exact .stored hmem (htold _ hmem) answered stored hstep.symm
  | caught _ caught stored =>
    cases hstep
    exact .caught caught stored
  | waited state | chose state | succeeded state => cases state
  | failed _ | outOfTime _ => cases hstep

theorem Departs.failsBy {s : State} {doc doc' : Json} {activity : Activity} {step : Step}
    (h : Departs s name doc activity step doc') {f : Failure} (hstep : step = .fail f) :
    FailsBy s doc activity f := by
  cases h with
  | stored attempts _ _ =>
    exact .dangling (attempts.imp_right .inr) hstep
  | waited state =>
    subst state
    exact .dangling (.inr (.inl rfl)) hstep
  | chose state => exact .unchosen state hstep
  | failed fails =>
    cases hstep
    exact fails
  | caught _ _ _ | succeeded _ | outOfTime _ => cases hstep

/-- **How a visit fails.** -/
theorem Visits.failsBy {s : State} {p q : Progress σ} {step : Step} {activity : Activity}
    (h : Visits e run site name s p step activity q) {f : Failure} (hstep : step = .fail f) :
    FailsBy s p.document activity f :=
  h.departs.failsBy hstep

end Engine

end Workflow
