import Workflow.Proofs.Run.Accounts
import Workflow.Proofs.Run.Budgets

/-!
# The calls of a task

The visit of a task is a sequence of calls. All of them are told the same, but for their number; one
follows the other only when it has failed, the retriers grant a retry, and the delay of the retry
has passed on the clock. The last call decides how the visit ends: its value is stored, or the visit
goes to the catchers, or the time is up.

`Retries` tells the loop from its first attempt on. Here it is told by position (`InOrder`): the
attempt at position `k` is made as number `k`, from the moment that the attempt before it has left,
and the tracker decides about it as it decides about the error number `k` in the sequence of all
errors. What a visit of a task looks like is a reading of this for single calls.
-/

namespace Workflow

/-! ## Attempts by position -/

/-- The clock when an attempt that came to its end at `clock` is over, its delay included. -/
def Attempt.endsAt {ρ : Type} (a : Attempt ρ) (clock : Nat) : Nat :=
  match a.delay with
  | none => clock
  | some seconds => advance clock seconds

section Loop

variable {σ ρ : Type} {isLate : Nat → Bool} {catchers : List Catcher}
  {attempt : Nat → Progress σ → AttemptResult × ρ × Progress σ}

/-- The error names of attempts, as far as they failed. -/
def namesOf (errorOf : ρ → Option String) (attempts : List (Attempt ρ)) : List String :=
  attempts.filterMap fun a ↦ errorOf a.record

/-- The record of an attempt tells the error if it failed, and tells none if it settled what
follows. -/
structure Tells (errorOf : ρ → Option String)
    (attempt : Nat → Progress σ → AttemptResult × ρ × Progress σ) : Prop where
  failed : ∀ {k p f record q}, attempt k p = (.failed f, record, q) →
    errorOf record = some f.error
  settled : ∀ {k p step record q}, attempt k p = (.settled step, record, q) →
    errorOf record = none

theorem namesOf_cons_of_failed {errorOf : ρ → Option String} (h : Tells errorOf attempt) {k : Nat}
    {p q : Progress σ} {f : Failure} {record : ρ} (made : attempt k p = (.failed f, record, q))
    (delay : Option Nat) (rest : List (Attempt ρ)) :
    namesOf errorOf (⟨record, delay⟩ :: rest) = f.error :: namesOf errorOf rest :=
  List.filterMap_cons_some (h.failed made)

theorem namesOf_of_settled {errorOf : ρ → Option String} (h : Tells errorOf attempt) {k : Nat}
    {p q : Progress σ} {step : Step} {record : ρ}
    (made : attempt k p = (.settled step, record, q)) (delay : Option Nat) :
    namesOf errorOf [⟨record, delay⟩] = [] :=
  List.filterMap_cons_none (h.settled made)

/-- How a loop of attempts stops after its last attempt, which left `q`: the delay after it, the
step, and the progress then. `decision` is what the tracker says about the last error, if there was
one. -/
inductive Stops (isLate : Nat → Bool) (catchers : List Catcher)
    (decision : Option (Option Grant)) (q : Progress σ) :
    AttemptResult → Option Nat → Step → Progress σ → Prop
  | settled {step : Step} (unasked : decision = none) :
      Stops isLate catchers decision q (.settled step) none step q
  | refused {f : Failure} (refused : decision = some none) :
      Stops isLate catchers decision q (.failed f) none (handleFailure catchers f q.document).1
        { q with document := (handleFailure catchers f q.document).2 }
  | late {f : Failure} {g : Grant} (granted : decision = some (some g))
      (late : isLate (advance q.clock g.delay) = true) :
      Stops isLate catchers decision q (.failed f) (some g.delay) .outOfTime
        { q with clock := advance q.clock g.delay }

/-- What the attempt at some position of a loop is followed by: another one after the delay of a
retry, as long as there are more, and else the end of the loop. -/
inductive FollowedBy (isLate : Nat → Bool) (catchers : List Catcher)
    (decision : Option (Option Grant)) (q : Progress σ) (delay : Option Nat) (step : Step)
    (final : Progress σ) : AttemptResult → Bool → Prop
  | again {f : Failure} {g : Grant} (granted : decision = some (some g))
      (delayed : delay = some g.delay) (onTime : isLate (advance q.clock g.delay) = false) :
      FollowedBy isLate catchers decision q delay step final (.failed f) true
  | stop {result : AttemptResult}
      (stops : Stops isLate catchers decision q result delay step final) :
      FollowedBy isLate catchers decision q delay step final result false

/-- A loop of attempts by position: the attempt at position `k` has the number `first + k`, starts
where the one before it ended, and is followed by what the decision at position `k` says. -/
def InOrder (isLate : Nat → Bool) (catchers : List Catcher)
    (attempt : Nat → Progress σ → AttemptResult × ρ × Progress σ) (first : Nat)
    (decisions : List (Option Grant)) (p : Progress σ) (step : Step) (attempts : List (Attempt ρ))
    (final : Progress σ) : Prop :=
  ∃ moments : Nat → Progress σ, moments 0 = p ∧ ∀ k a, attempts[k]? = some a →
    ∃ result q, attempt (first + k) (moments k) = (result, a.record, q) ∧
      moments (k + 1) = { q with clock := a.endsAt q.clock } ∧
      FollowedBy isLate catchers decisions[k]? q a.delay step final result
        (decide (k + 1 < attempts.length))

theorem InOrder.single {first : Nat} {decisions : List (Option Grant)} {p q final : Progress σ}
    {result : AttemptResult} {record : ρ} {delay : Option Nat} {step : Step}
    (made : attempt first p = (result, record, q))
    (stops : Stops isLate catchers decisions[0]? q result delay step final) :
    InOrder isLate catchers attempt first decisions p step [⟨record, delay⟩] final := by
  let a : Attempt ρ := ⟨record, delay⟩
  refine ⟨Nat.rec p fun _ _ ↦ { q with clock := a.endsAt q.clock }, rfl, fun k b hb ↦ ?_⟩
  cases k with
  | succ k => cases hb
  | zero =>
    obtain rfl : a = b := Option.some.inj hb
    exact ⟨result, q, made, rfl, .stop stops⟩

theorem InOrder.cons {first : Nat} {decisions : List (Option Grant)} {p q final : Progress σ}
    {f : Failure} {g : Grant} {record : ρ} {step : Step} {rest : List (Attempt ρ)}
    (made : attempt first p = (.failed f, record, q))
    (onTime : isLate (advance q.clock g.delay) = false) (more : rest ≠ [])
    (h : InOrder isLate catchers attempt (first + 1) decisions
      { q with clock := advance q.clock g.delay } step rest final) :
    InOrder isLate catchers attempt first (some g :: decisions) p step
      (⟨record, some g.delay⟩ :: rest) final := by
  obtain ⟨moments, hzero, hrest⟩ := h
  refine ⟨Nat.rec p fun k _ ↦ moments k, rfl, fun k a ha ↦ ?_⟩
  cases k with
  | zero =>
    obtain rfl := Option.some.inj ha
    have hmore : decide (0 + 1 < (⟨record, some g.delay⟩ :: rest : List (Attempt ρ)).length)
        = true := decide_eq_true (Nat.succ_lt_succ (List.length_pos_iff.mpr more))
    rw [hmore]
    exact ⟨_, q, made, hzero, .again rfl rfl onTime⟩
  | succ k =>
    obtain ⟨result, q', hmade, hnext, hfollowed⟩ := hrest k a ha
    have hlength : decide (k + 1 + 1 < (⟨record, some g.delay⟩ :: rest : List (Attempt ρ)).length)
        = decide (k + 1 < rest.length) := decide_eq_decide.mpr Nat.add_lt_add_iff_right
    rw [hlength]
    exact ⟨result, q', by rw [← hmade, Nat.add_right_comm, Nat.add_assoc], hnext, hfollowed⟩

theorem Retries.ne_nil {t : RetryTracker} {p q : Progress σ} {step : Step}
    {attempts : List (Attempt ρ)} (h : Retries isLate catchers attempt t p step attempts q) :
    attempts ≠ [] := by
  cases h <;> exact List.cons_ne_nil _ _

/-- **A loop by position.** The numbers go on from the retries that the tracker has counted, and the
decisions are its answers to the sequence of errors. -/
theorem Retries.inOrder {errorOf : ρ → Option String} (htells : Tells errorOf attempt)
    {t : RetryTracker} {p q : Progress σ} {step : Step} {attempts : List (Attempt ρ)}
    (h : Retries isLate catchers attempt t p step attempts q) :
    InOrder isLate catchers attempt t.total (t.answers (namesOf errorOf attempts)).1 p step attempts
      q := by
  induction h with
  | settled made =>
    rw [namesOf_of_settled htells made]
    exact .single made (.settled rfl)
  | handled made refused =>
    rw [namesOf_cons_of_failed htells made, RetryTracker.answers_cons,
      RetryTracker.answer_of_refused refused]
    exact .single made (.refused rfl)
  | late made granted late =>
    rw [namesOf_cons_of_failed htells made, RetryTracker.answers_cons,
      RetryTracker.answer_of_granted granted]
    exact .single made (.late rfl late)
  | again made granted onTime more ih =>
    rw [namesOf_cons_of_failed htells made, RetryTracker.answers_cons,
      RetryTracker.answer_of_granted granted]
    rw [(RetryTracker.counts_of_grant? granted).1] at ih
    exact ih.cons made onTime more.ne_nil

theorem Stops.clock_eq {decision : Option (Option Grant)} {q final : Progress σ}
    {result : AttemptResult} {a : Attempt ρ} {step : Step}
    (h : Stops isLate catchers decision q result a.delay step final) :
    final.clock = a.endsAt q.clock := by
  rw [Attempt.endsAt]
  generalize a.delay = delay at h
  cases h <;> rfl

end Loop

/-! ## The calls of a visit -/

/-- The error name of a call that failed. -/
def Call.error? (c : Call) : Option String :=
  match c.result with
  | .error error => some error.errorName
  | .ok _ => none

/-- What the retriers of a task say about the calls that failed, in order. -/
def TaskState.decisions (t : TaskState) (calls : List (Attempt Call)) : List (Option Grant) :=
  ((RetryTracker.ofRetriers t.retry).answers (namesOf Call.error? calls)).1

namespace Engine

variable {σ : Type} {e : Engine σ} {site : Site} {name : String} {t : TaskState}

theorem tells_attemptTask (s : State) : Tells Call.error? (e.attemptTask site name s t) where
  failed made := by
    obtain ⟨doc, world, hanswers, -, -⟩ := answers_of_attemptTask made
    cases hanswers with
    | failed answered => rw [Call.error?, answered]
  settled := by
    intro k p step call q made
    obtain ⟨doc, world, hanswers, -, -⟩ := answers_of_attemptTask made
    generalize hresult : AttemptResult.settled step = result at hanswers
    cases hanswers with
    | failed _ => cases hresult
    | stored answered _ | unstored answered _ => rw [Call.error?, answered]

/-- The branch index that a task is called with. -/
def branchFor? (e : Engine σ) (site : Site) (name : String) (t : TaskState) : Option BranchIndex :=
  (e.handlerFor? site name t.resource).bind fun h ↦
    if site.branch ≠ [] ∧ h.acceptsBranch then some site.branch else none

/-- A call goes to the handler of the state with the branch of the site, whatever it is told. -/
theorem told_of_call {ctx : TaskContext} {world world' : σ} {made : Call}
    (h : e.call site name t ctx world = (made, world')) :
    made.context = ctx ∧ made.handler = e.handlerFor? site name t.resource ∧
      made.branch = e.branchFor? site name t := by
  obtain rfl : (e.call site name t ctx world).1 = made := congrArg Prod.fst h
  refine ⟨e.call_context site name t ctx world, ?_⟩
  rw [branchFor?, call]
  cases e.handlerFor? site name t.resource <;> exact ⟨rfl, rfl⟩

/-- How the visit of a task ends after its last call, by the document on entry and what the
retriers say about the error of the last call, if it failed: the step, the clock and the document
that is left. -/
inductive CallsEnd (e : Engine σ) (t : TaskState) (doc : Json) (decision : Option (Option Grant))
    (last : Attempt Call) (clock : Nat) : Step → Json → Prop
  | stored {v doc' : Json} (answered : last.record.result = .ok v) (undelayed : last.delay = none)
      (stored : storeAt t.resultPath v doc = (doc', none)) :
      CallsEnd e t doc decision last clock (.after (.task t)) doc'
  /-- The result cannot be stored. That is an error for the catchers, and no retrier is asked. -/
  | unstored {v : Json} {cause : String} {step : Step} {doc' : Json}
      (answered : last.record.result = .ok v) (undelayed : last.delay = none)
      (stored : storeAt t.resultPath v doc = (doc, some cause))
      (handles : Handles t.catchers ⟨ErrorName.resultPath, cause⟩ doc step doc') :
      CallsEnd e t doc decision last clock step doc'
  | refused {error : TaskError} {step : Step} {doc' : Json}
      (answered : last.record.result = .error error) (undelayed : last.delay = none)
      (refused : decision = some none)
      (handles : Handles t.catchers ⟨error.errorName, error.cause⟩ doc step doc') :
      CallsEnd e t doc decision last clock step doc'
  /-- A retry is granted, and the time is up before it. -/
  | late {error : TaskError} {g : Grant} (answered : last.record.result = .error error)
      (granted : decision = some (some g)) (delayed : last.delay = some g.delay)
      (late : e.isLate clock = true) : CallsEnd e t doc decision last clock .outOfTime doc

/-- The visit of a task as a sequence of calls. -/
structure CallSequence (e : Engine σ) (site : Site) (t : TaskState) (v : Visit)
    (calls : List (Attempt Call)) : Prop where
  /-- The call at position `k` has number `k`, and in everything else the calls are told the same:
  the document on entry, the parameters of the state, and the branch of the site. -/
  told : ∀ k a, calls[k]? = some a →
    a.record.context = e.taskContext v.state t k v.entry.document ∧
      a.record.handler = e.handlerFor? site v.state t.resource ∧
      a.record.branch = e.branchFor? site v.state t
  /-- They are made one after the other, and between the entry and the exit the clock is moved on by
  the delays after them. -/
  made : ∃ (worlds : Nat → σ) (clocks : Nat → Nat),
    clocks 0 = v.entry.clock ∧ clocks calls.length = v.exit.clock ∧
      ∀ k a, calls[k]? = some a →
        e.call site v.state t (e.taskContext v.state t k v.entry.document) (worlds k)
          = (a.record, worlds (k + 1)) ∧ clocks (k + 1) = a.endsAt (clocks k)
  /-- All but the last have failed and are followed by the delay of the retry that is granted. -/
  repeated : ∀ k a, calls[k]? = some a → k + 1 < calls.length →
    ∃ error g, a.record.result = .error error ∧ (t.decisions calls)[k]? = some (some g) ∧
      a.delay = some g.delay
  ends : ∃ last, calls.getLast? = some last ∧
    CallsEnd e t v.entry.document (t.decisions calls)[calls.length - 1]? last v.exit.clock v.step
      v.exit.document

/-- The calls of a task by position. Every call is made on the document on entry, since only failed
calls are before it. -/
theorem exists_worlds_of_inOrder {isLate : Nat → Bool} {catchers : List Catcher} {s : State}
    {decisions : List (Option Grant)} {p final : Progress σ} {step : Step}
    {calls : List (Attempt Call)}
    (h : InOrder isLate catchers (e.attemptTask site name s t) 0 decisions p step calls final) :
    ∃ (worlds : Nat → σ) (clocks : Nat → Nat), clocks 0 = p.clock ∧ ∀ k a, calls[k]? = some a →
      e.call site name t (e.taskContext name t k p.document) (worlds k)
        = (a.record, worlds (k + 1)) ∧ clocks (k + 1) = a.endsAt (clocks k) ∧
      ∃ result q, Answers s t a.record.result p.document result q.document ∧ q.clock = clocks k ∧
        FollowedBy isLate catchers decisions[k]? q a.delay step final result
          (decide (k + 1 < calls.length)) := by
  obtain ⟨moments, hzero, hmoments⟩ := h
  have hdocument : ∀ k, k < calls.length → (moments k).document = p.document := by
    intro k hk
    induction k with
    | zero => rw [hzero]
    | succ k ih =>
      have hk' : k < calls.length := Nat.lt_of_succ_lt hk
      obtain ⟨result, q, hmade, hnext, hfollowed⟩ :=
        hmoments k calls[k] (List.getElem?_eq_getElem hk')
      rw [decide_eq_true hk] at hfollowed
      cases hfollowed with
      | again _ _ _ => rw [hnext, ← ih hk', ← attemptTask_document_of_failed hmade]
  refine ⟨fun k ↦ (moments k).world, fun k ↦ (moments k).clock, congrArg (·.clock) hzero, ?_⟩
  intro k a ha
  obtain ⟨result, q, hmade, hnext, hfollowed⟩ := hmoments k a ha
  obtain ⟨doc, world, hanswers, hcall, rfl⟩ := answers_of_attemptTask hmade
  rw [hdocument k (List.getElem?_eq_some_iff.mp ha).1, Nat.zero_add] at hcall
  rw [hdocument k (List.getElem?_eq_some_iff.mp ha).1] at hanswers
  exact ⟨hcall.trans (congrArg (fun p ↦ (a.record, p.world)) hnext.symm), congrArg (·.clock) hnext,
    result, { moments k with world, document := doc }, hanswers, rfl, hfollowed⟩

/-- A call that is followed by another one has failed, and a retry is granted. -/
theorem exists_grant_of_followedBy {isLate : Nat → Bool} {catchers : List Catcher} {s : State}
    {decision : Option (Option Grant)} {q final : Progress σ} {delay : Option Nat} {step : Step}
    {result : AttemptResult} {answer : Except TaskError Json} {doc exit : Json}
    (h : FollowedBy isLate catchers decision q delay step final result true)
    (hanswers : Answers s t answer doc result exit) :
    ∃ error g, answer = .error error ∧ decision = some (some g) ∧ delay = some g.delay := by
  cases h with
  | again granted delayed _ =>
    cases hanswers with
    | failed answered => exact ⟨_, _, answered, granted, delayed⟩

/-- The end of a task's loop, in terms of its last call. -/
theorem callsEnd_of_stops {decision : Option (Option Grant)} {q final : Progress σ} {doc : Json}
    {result : AttemptResult} {last : Attempt Call} {step : Step}
    (h : Stops e.isLate t.catchers decision q result last.delay step final)
    (hanswers : Answers (.task t) t last.record.result doc result q.document) :
    CallsEnd e t doc decision last final.clock step final.document := by
  generalize hdelay : last.delay = delay at h
  generalize hexit : q.document = exit at hanswers
  cases h with
  | settled _ =>
    generalize hresult : AttemptResult.settled step = result at hanswers
    cases hanswers with
    | failed _ => cases hresult
    | stored answered stored =>
      cases hresult
      subst hexit
      exact .stored answered hdelay stored
    | unstored answered stored =>
      cases hresult
      rw [hexit]
      exact .unstored answered hdelay stored (handles_handleFailure _ _ _)
  | refused refused =>
    cases hanswers with
    | failed answered =>
      subst hexit
      exact .refused answered hdelay refused (handles_handleFailure _ _ _)
  | late granted late =>
    cases hanswers with
    | failed answered =>
      subst hexit
      exact .late answered granted hdelay late

/-- **The visit of a task is a sequence of calls.** -/
theorem Visits.exists_calls {run : Runner σ} {p q : Progress σ} {step : Step} {activity : Activity}
    (h : Visits e run site name (.task t) p step activity q) :
    ∃ calls, activity = .called calls ∧
      CallSequence e site t ⟨name, p.toMoment, activity, step, q.toMoment⟩ calls := by
  cases h with
  | @called _ _ _ _ calls attempts =>
    have hinOrder := attempts.inOrder (tells_attemptTask (.task t))
    rw [RetryTracker.total_ofRetriers] at hinOrder
    obtain ⟨worlds, clocks, hzero, hcalls⟩ := exists_worlds_of_inOrder hinOrder
    have hpos : 0 < calls.length := List.length_pos_iff.mpr attempts.ne_nil
    have hlt : calls.length - 1 < calls.length := Nat.sub_one_lt_of_lt hpos
    have hlast : calls[calls.length - 1]? = some calls[calls.length - 1] :=
      List.getElem?_eq_getElem hlt
    obtain ⟨-, hend, result, q', hanswers, hclock, hfollowed⟩ := hcalls _ _ hlast
    rw [Nat.sub_add_cancel hpos, decide_eq_false (Nat.lt_irrefl _)] at hfollowed
    rw [Nat.sub_add_cancel hpos] at hend
    cases hfollowed with
    | stop stops =>
      refine ⟨calls, rfl, fun k a ha ↦ told_of_call (hcalls k a ha).1,
        ⟨worlds, clocks, hzero, ?_, fun k a ha ↦ ⟨(hcalls k a ha).1, (hcalls k a ha).2.1⟩⟩, ?_, _,
        ?_, callsEnd_of_stops stops hanswers⟩
      · rw [hend, ← hclock, stops.clock_eq]
      · intro k a ha hmore
        obtain ⟨-, -, result, q', hanswers, -, hfollowed⟩ := hcalls k a ha
        rw [decide_eq_true hmore] at hfollowed
        exact exists_grant_of_followedBy hfollowed hanswers
      · rw [List.getLast?_eq_getElem?, hlast]

/-- **Visits of tasks.** Whenever a run enters a task, in whatever scope, the visit is a sequence of
calls: they are numbered from zero and are otherwise told the same; each of them but the last has
failed and is followed by the delay of one retry; and what becomes of the last one settles the step
and the only write to the document. -/
theorem called_of_entered (e : Engine σ) (input : Json) (world : σ) {x : Entered}
    (hx : x ∈ e.entered input world) {t : TaskState} (ht : x.state? = some (.task t)) :
    ∃ calls, x.visit.activity = .called calls ∧ CallSequence e x.site t x.visit calls := by
  obtain ⟨p, -, hmade⟩ := ((e.run_accounts input world).occurs x hx).made
  obtain ⟨site, visit⟩ := x
  cases hmade with
  | missing _ _ state => cases state.symm.trans ht
  | passed pass =>
    obtain rfl := Option.some.inj (pass.state.symm.trans ht)
    exact pass.visit.exists_calls

/-- A task that is busy once. -/
def busyTask : TaskState where
  resource := "work"
  resultPath := some "$.note.answer"
  transition := { ending := some true }
  retry := [{ errorEquals := ["Busy"], maxAttempts := 1 }]
  catchers := [{ errorEquals := [ErrorName.all], next := "Done", resultPath := some "$.error" }]

/-- Its answer would go below a value that is no object. -/
def busyOnce : Engine Nat where
  document := .ofMachine {
    startAt := "Work", states := [("Work", .task busyTask), ("Done", .succeed none)] }
  registry := Registry.register {} (.here { name := "work" })
  perform := fun _ n ↦
    ({ result := if n = 0 then .error (.failed "Busy" "later") else .ok .null }, n + 1)

/-- The first call is retried after a second. The second one comes to a value that cannot be stored,
which goes to the catcher at once. -/
theorem called_of_entered_busyOnce :
    ∃ x ∈ busyOnce.entered (.object [("note", .bool true)]) 0, ∃ t,
      x.state? = some (.task t) ∧ x.visit.step = .next "Done" ∧ x.visit.exit.clock = 1 ∧
        ∃ calls, x.visit.activity = .called calls ∧ invocationsOf calls = 2 ∧
          CallSequence busyOnce x.site t x.visit calls := by
  -- what is asked of the first state entered is asked of it in the list
  have hfirst : ((busyOnce.entered (.object [("note", .bool true)]) 0)[0]?.map fun x ↦
      (x.state?.map State.kind, x.visit.step, x.visit.exit.clock, x.visit.invocations))
        = some (some .task, .next "Done", 1, 2) := by decide +kernel
  obtain ⟨x, hx, hfacts⟩ := Option.map_eq_some_iff.mp hfirst
  simp only [Prod.mk.injEq] at hfacts
  obtain ⟨hkind, hstep, hclock, hcount⟩ := hfacts
  obtain ⟨s, hs, htask⟩ := Option.map_eq_some_iff.mp hkind
  cases s with
  | task t =>
    have hmem := List.mem_of_getElem? hx
    obtain ⟨calls, hcalls, hsequence⟩ := called_of_entered busyOnce _ _ hmem hs
    rw [Visit.invocations, hcalls] at hcount
    exact ⟨x, hmem, t, hs, hstep, hclock, calls, hcalls, hcount, hsequence⟩
  | choice _ | wait _ | parallel _ _ | succeed _ | fail _ => cases htask

end Engine

end Workflow
