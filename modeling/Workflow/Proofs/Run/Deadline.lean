import Workflow.Proofs.Machine.Checked
import Workflow.Proofs.Run.Tree
import Workflow.Run.Execution

/-!
# The time limit of a run

The clock is compared with the time limit when a state is entered, when a scope comes to its end,
after the delay of a retry, and when a branch has run out of time. Between these places it moves
freely: a wait may carry it past the limit, and a parallel state takes over the clock of its slowest
branch.

## The invariant

Whatever a visit decides, its clock can be late only if the decision is `outOfTime`, which always
is, or if the decision leads to another comparison, which `next` and `finish` do. A failure is the
one decision that ends a scope without looking at the clock, so a failure has to be on time. Waiting
is the one thing that moves the clock without looking at it, so a wait must not fail afterwards, and
that is what validation sees to.
-/

namespace Workflow

namespace Engine

variable {σ : Type} (e : Engine σ)

/-! ## Late clocks -/

theorem isLate_iff {clock : Nat} :
    e.isLate clock = true ↔
      ∃ limit, e.document.machine.timeoutSeconds = some limit ∧ limit.toNat < clock := by
  rw [isLate, deadline]
  cases e.document.machine.timeoutSeconds with
  | none => simp
  | some limit => simp

theorem isLate_max (a b : Nat) : e.isLate (max a b) = (e.isLate a || e.isLate b) := by
  rw [isLate, isLate, isLate]
  cases e.deadline with
  | none => rfl
  | some limit =>
    rw [← Bool.decide_or, decide_eq_decide]
    omega

/-- The slowest of some runs is late if one of them is. -/
theorem isLate_slowest {start : Nat} {runs : List ScopeRun} :
    e.isLate (slowest start runs) = true ↔
      e.isLate start = true ∨ ∃ r ∈ runs, e.isLate r.final.clock = true := by
  induction runs generalizing start with
  | nil => simp [slowest]
  | cons r rs ih =>
    rw [slowest_cons, ih, isLate_max, Bool.or_eq_true, or_assoc]
    simp only [List.mem_cons, exists_eq_or_imp]

/-- Runs that are all on time are on time together. -/
theorem onTime_slowest {start : Nat} {runs : List ScopeRun} (hstart : e.isLate start = false)
    (hruns : ∀ r ∈ runs, e.isLate r.final.clock = false) :
    e.isLate (slowest start runs) = false := by
  rw [Bool.eq_false_iff, Ne, isLate_slowest]
  rintro (hlate | ⟨r, hr, hlate⟩)
  · rw [hstart] at hlate
    cases hlate
  · rw [hruns r hr] at hlate
    cases hlate

/-! ## What a visit leaves behind -/

/-- The clock after a visit, as far as the decision of the visit tells about it. -/
structure Leaves (step : Step) (clock : Nat) : Prop where
  le_limit : clock ≤ clockLimit
  late_of_outOfTime : step = .outOfTime → e.isLate clock = true
  onTime_of_fail : ∀ f, step = .fail f → e.isLate clock = false

/-- The clock at the end of a scope: it is late exactly if the scope ran out of time. -/
structure Ends (verdict : Verdict) (clock : Nat) : Prop where
  le_limit : clock ≤ clockLimit
  late_iff : verdict = .timedOut ↔ e.isLate clock = true

variable {e}

theorem Ends.onTime {verdict : Verdict} {clock : Nat} (h : e.Ends verdict clock)
    (hv : verdict ≠ .timedOut) : e.isLate clock = false := by
  rw [Bool.eq_false_iff, Ne, ← h.late_iff]
  exact hv

theorem leaves_of_onTime {step : Step} {clock : Nat} (hstep : step ≠ .outOfTime)
    (hlimit : clock ≤ clockLimit) (hclock : e.isLate clock = false) : e.Leaves step clock :=
  ⟨hlimit, fun h ↦ absurd h hstep, fun _ _ ↦ hclock⟩

end Engine

theorem Step.after_ne_outOfTime (s : State) : Step.after s ≠ .outOfTime := by
  rw [Step.after]
  split <;> simp

theorem handleFailure_ne_outOfTime (catchers : List Catcher) (f : Failure) (doc : Json) :
    (handleFailure catchers f doc).1 ≠ .outOfTime := by
  rw [handleFailure]
  split
  · simp
  · split <;> simp

namespace Engine

variable {σ : Type} {e : Engine σ}

/-- The attempts at a state keep the clock on time until one of them settles what follows. `n`
bounds the states left to enter, for the sake of the branches. -/
theorem Leaves.of_retries {ρ : Type} {catchers : List Catcher}
    {attempt : Nat → Progress σ → AttemptResult × ρ × Progress σ} {n : Nat}
    (hsettled : ∀ k p step record q, p.left ≤ n → p.clock ≤ clockLimit → e.isLate p.clock = false →
      attempt k p = (.settled step, record, q) → e.Leaves step q.clock)
    (hfailed : ∀ k p f record q, p.left ≤ n → p.clock ≤ clockLimit → e.isLate p.clock = false →
      attempt k p = (.failed f, record, q) →
        q.left ≤ n ∧ q.clock ≤ clockLimit ∧ e.isLate q.clock = false)
    {t : RetryTracker} {p q : Progress σ} {step : Step} {attempts : List (Attempt ρ)}
    (h : Retries e.isLate catchers attempt t p step attempts q) (hn : p.left ≤ n)
    (hlimit : p.clock ≤ clockLimit) (hclock : e.isLate p.clock = false) :
    e.Leaves step q.clock := by
  induction h with
  | settled made => exact hsettled _ _ _ _ _ hn hlimit hclock made
  | handled made _ =>
    obtain ⟨-, hq, hq'⟩ := hfailed _ _ _ _ _ hn hlimit hclock made
    exact leaves_of_onTime (handleFailure_ne_outOfTime _ _ _) hq hq'
  | late _ _ late =>
    refine ⟨advance_le _ _, fun _ ↦ late, ?_⟩
    intro f hf
    cases hf
  | again made _ onTime _ ih =>
    obtain ⟨hleft, -, -⟩ := hfailed _ _ _ _ _ hn hlimit hclock made
    exact ih hleft (advance_le _ _) onTime

theorem attemptTask_clock (site : Site) (name : String) (s : State) (t : TaskState) (k : Nat)
    (p : Progress σ) : (e.attemptTask site name s t k p).2.2.clock = p.clock := by
  simp only [attemptTask]
  split
  · rfl
  · split <;> rfl

theorem attemptTask_ne_outOfTime (site : Site) (name : String) (s : State) (t : TaskState)
    (k : Nat) (p : Progress σ) :
    (e.attemptTask site name s t k p).1 ≠ .settled .outOfTime := by
  simp only [attemptTask]
  split
  · simp
  · split
    · simpa using Step.after_ne_outOfTime s
    · simpa using handleFailure_ne_outOfTime _ _ _

/-- The runs of a round in which every run keeps to the limit. -/
theorem Leaves.of_rounds {s : State} {settings : ParallelSettings} {runs : List ScopeRun}
    {doc doc' : Json} {start : Nat} {step : Step}
    (hruns : ∀ r ∈ runs, e.Ends r.verdict r.final.clock) (hlimit : start ≤ clockLimit)
    (hclock : e.isLate start = false)
    (h : Rounds s settings runs doc (.settled step) doc') :
    e.Leaves step (slowest start runs) := by
  have hle : slowest start runs ≤ clockLimit :=
    slowest_le_iff.mpr ⟨hlimit, fun r hr ↦ (hruns r hr).le_limit⟩
  have honTime : ∀ outputs, gather runs = .ok outputs → e.isLate (slowest start runs) = false := by
    intro outputs hgather
    refine e.onTime_slowest hclock fun r hr ↦ (hruns r hr).onTime ?_
    rw [(gather_eq_ok_iff.mp hgather).1 r hr]
    decide
  cases h with
  | outOfTime gathered =>
    refine ⟨hle, fun _ ↦ ?_, ?_⟩
    · obtain ⟨before, r, after, rfl, -, ⟨hv, -⟩ | ⟨f, -, hf⟩⟩ :=
        exists_of_gather_eq_error gathered
      · exact e.isLate_slowest.mpr (.inr ⟨r, by simp, (hruns r (by simp)).late_iff.mp hv⟩)
      · cases hf
    · intro f hf
      cases hf
  | stored gathered _ =>
    exact leaves_of_onTime (Step.after_ne_outOfTime s) hle (honTime _ gathered)
  | unstored gathered _ => exact leaves_of_onTime (by simp) hle (honTime _ gathered)

/-- A round that failed was on time, because the branch that failed was the last one started. -/
theorem onTime_of_rounds_failed {run : Runner σ} {site : Site} {name : String}
    {s : State} {settings : ParallelSettings} {branches : List Machine} {p : Progress σ}
    {doc doc' : Json} {start : Nat} {f : Failure}
    (hruns : ∀ r ∈ (runBranches run site name p.toMoment 0 branches p).1,
      e.Ends r.verdict r.final.clock)
    (hclock : e.isLate start = false)
    (h : Rounds s settings (runBranches run site name p.toMoment 0 branches p).1 doc (.failed f)
      doc') :
    e.isLate (slowest start (runBranches run site name p.toMoment 0 branches p).1) = false := by
  cases h with
  | failed gathered =>
    obtain ⟨before, r, after, heq, hbefore, ⟨-, hf⟩ | ⟨f', hv, -⟩⟩ :=
      exists_of_gather_eq_error gathered
    · cases hf
    · have hafter := eq_nil_of_runBranches heq (by rw [hv]; simp)
      subst hafter
      -- those before the last run succeeded and the last one failed, so none was late
      refine e.onTime_slowest hclock fun r' hr' ↦ (hruns r' hr').onTime ?_
      rw [heq, List.mem_append, List.mem_singleton] at hr'
      rcases hr' with hr' | rfl
      · rw [hbefore r' hr']
        decide
      · rw [hv]
        simp

/-! ## Visits, walks and runs -/

/-- Runs of checked machines keep to the limit, as long as fewer than `n` states are left to
enter. -/
def EndsBelow (e : Engine σ) (n : Nat) : Prop :=
  ∀ (site : Site) (p : Progress σ), p.left < n → site.machine.Checked → p.clock ≤ clockLimit →
    e.Ends (e.runScope site p).1.verdict (e.runScope site p).1.final.clock

theorem EndsBelow.round {n : Nat} (hbelow : e.EndsBelow n) (site : Site) (name : String)
    {branches : List Machine} {p : Progress σ} (hleft : p.left < n)
    (hbranches : ∀ (i : Nat) (b : Machine), branches[i]? = some b → b.Checked)
    (hlimit : p.clock ≤ clockLimit) :
    ∀ r ∈ (runBranches e.runScope site name p.toMoment 0 branches p).1,
      e.Ends r.verdict r.final.clock := by
  intro r hr
  obtain ⟨i, m, p', hm, hstart, hle, rfl⟩ := exists_of_mem_runBranches e.narrows_runScope hr
  have hclock : p'.clock = p.clock := congrArg Moment.clock hstart
  exact hbelow _ p' (Nat.lt_of_le_of_lt hle hleft) (hbranches i m hm) (hclock ▸ hlimit)

theorem Visits.leaves {n : Nat} (hbelow : e.EndsBelow n) {site : Site} {name : String} {s : State}
    {p q : Progress σ} {step : Step} {activity : Activity} (hm : site.machine.Checked)
    (hs : site.machine.state? name = some s) (hleft : p.left < n) (hlimit : p.clock ≤ clockLimit)
    (hclock : e.isLate p.clock = false) (h : Visits e e.runScope site name s p step activity q) :
    e.Leaves step q.clock := by
  cases h with
  | @called t _ _ _ _ attempts =>
    refine Leaves.of_retries ?_ ?_ attempts (Nat.le_refl _) hlimit hclock
    · intro k p step call q _ hlimit hclock made
      have hq := attemptTask_clock (e := e) site name (.task t) t k p
      have hne := attemptTask_ne_outOfTime (e := e) site name (.task t) t k p
      rw [made] at hq hne
      rw [hq]
      exact leaves_of_onTime (fun h ↦ hne (congrArg _ h)) hlimit hclock
    · intro k p f call q hn hlimit hclock made
      have hq := attemptTask_clock (e := e) site name (.task t) t k p
      have hql := e.attemptTask_left site name (.task t) t k p
      rw [made] at hq hql
      exact ⟨hql ▸ hn, hq ▸ hlimit, hq ▸ hclock⟩
  | @forked branches settings _ _ _ _ attempts =>
    have hround := fun (p' : Progress σ) (hle : p'.left ≤ p.left) ↦
      EndsBelow.round hbelow site name (Nat.lt_of_le_of_lt hle hleft) fun i b ↦ hm.branch hs
    refine Leaves.of_retries ?_ ?_ attempts (Nat.le_refl _) hlimit hclock
    · intro k p' step runs q hn hlimit hclock made
      obtain ⟨result, doc, heq, hrounds⟩ := rounds_attemptParallel e.runScope site name
        (.parallel branches settings) branches settings k p'
      rw [heq] at made
      cases made
      exact Leaves.of_rounds (hround p' hn hlimit) hlimit hclock hrounds
    · intro k p' f runs q hn hlimit hclock made
      obtain ⟨result, doc, heq, hrounds⟩ := rounds_attemptParallel e.runScope site name
        (.parallel branches settings) branches settings k p'
      rw [heq] at made
      cases made
      refine ⟨?_, slowest_le_iff.mpr ⟨hlimit, fun r hr ↦ (hround p' hn hlimit r hr).le_limit⟩,
        onTime_of_rounds_failed (hround p' hn hlimit) hclock hrounds⟩
      exact Nat.le_trans (runBranches_left_le e.narrows_runScope site name _ 0 branches p') hn
  | @waited w _ seconds _ =>
    -- the clock may be late now, and validation leaves no way to fail with it
    refine ⟨advance_le _ _, ?_, ?_⟩
    · exact fun h ↦ absurd h (Step.after_ne_outOfTime (.wait w))
    · intro f hf
      rcases WaitState.after_of_checkSelf (hm.self hs) with ⟨target, h⟩ | h <;> rw [h] at hf <;>
        cases hf
  | unreadable _ => exact leaves_of_onTime (by simp) hlimit hclock
  | chose =>
    refine leaves_of_onTime ?_ hlimit hclock
    rw [chooseStep]
    split <;> simp
  | succeeded => exact leaves_of_onTime (by simp) hlimit hclock
  | failed => exact leaves_of_onTime (by simp) hlimit hclock

theorem Walks.ends {n : Nat} (hbelow : e.EndsBelow n) {site : Site} {current : String}
    {p q : Progress σ} {visits : List Visit} {verdict : Verdict} (hm : site.machine.Checked)
    (hleft : p.left ≤ n) (hlimit : p.clock ≤ clockLimit)
    (h : e.Walks site current p visits verdict q) : e.Ends verdict q.clock := by
  have hleaves : ∀ {current : String} {p q : Progress σ} {s : State} {step : Step}
      {activity : Activity}, p.left ≤ n → p.clock ≤ clockLimit →
      e.Passes site current p s step activity q → e.Leaves step q.clock := by
    intro current p q s step activity hleft hlimit pass
    have hpos := pass.left_pos
    have hlt : p.left - 1 < n := by omega
    exact Visits.leaves (p := { p with left := p.left - 1 }) hbelow hm pass.state hlt hlimit
      pass.onTime pass.visit
  induction h with
  | late late => exact ⟨hlimit, iff_of_true rfl late⟩
  | ceiling onTime _ => exact ⟨hlimit, by simp [onTime]⟩
  | missing onTime _ _ => exact ⟨hlimit, by simp [onTime]⟩
  | next first _ ih =>
    have hlt := first.left_lt
    exact ih (by omega) (hleaves hleft hlimit first).le_limit
  | @finished _ _ q _ _ last =>
    refine ⟨(hleaves hleft hlimit last).le_limit, ?_⟩
    cases hq : e.isLate q.clock <;> simp
  | failed last =>
    have hq := hleaves hleft hlimit last
    exact ⟨hq.le_limit, by simp [hq.onTime_of_fail _ rfl]⟩
  | outOfTime last =>
    have hq := hleaves hleft hlimit last
    exact ⟨hq.le_limit, iff_of_true rfl (hq.late_of_outOfTime rfl)⟩

/-- **The invariant of a run**: a scope is out of time exactly if its clock is late at the end. -/
theorem runScope_ends (site : Site) (p : Progress σ) (hm : site.machine.Checked)
    (hlimit : p.clock ≤ clockLimit) :
    e.Ends (e.runScope site p).1.verdict (e.runScope site p).1.final.clock := by
  -- a branch has fewer states left to enter than the scope around it
  induction hn : p.left using Nat.strongRecOn generalizing site p with
  | ind n ih =>
    obtain ⟨visits, verdict, q, heq, hwalk⟩ := e.walks_runScope site p
    rw [heq]
    have hbelow : e.EndsBelow n := fun site' p' hlt hm' hlimit' ↦
      ih p'.left hlt site' p' hm' hlimit' rfl
    exact hwalk.ends hbelow hm (Nat.le_of_eq hn) hlimit

/-- Every visit in the tree of a run was entered on time, validated or not. -/
theorem onTime_of_enters {site : Site} {p : Progress σ} {scope : Scope} {v : Visit}
    (h : (e.runScope site p).1.Enters scope v) : e.isLate v.entry.clock = false := by
  obtain ⟨inner, -, -, hmade⟩ := exists_made_of_enters h
  cases hmade with
  | passed pass => exact pass.onTime
  | missing onTime _ _ => exact onTime

/-! ## The time limit of an execution -/

theorem elapsedSeconds_execute (e : Engine σ) (input : Json) (world : σ) :
    (e.execute input world).1.elapsedSeconds
      = UInt64.ofNat (e.run input world).1.final.clock := by
  simp only [execute, Execution.ofRun]
  split <;> rfl

/-- The run of a document ends with the clock that its execution shows. -/
theorem toNat_elapsedSeconds (h : e.document.machine.check = .ok ()) (input : Json) (world : σ) :
    (e.execute input world).1.elapsedSeconds.toNat = (e.run input world).1.final.clock := by
  have hends := runScope_ends (e := e) { machine := e.document.machine }
    { document := input, clock := 0, left := e.maxTransitions, world }
    (Machine.checked_of_check h) (Nat.zero_le _)
  have hlt : (e.run input world).1.final.clock < UInt64.size :=
    Nat.lt_of_le_of_lt hends.le_limit (by decide)
  rw [elapsedSeconds_execute, UInt64.toNat_ofNat_of_lt' hlt]

theorem status_eq_timedOut_iff (input : Json) (world : σ) :
    (e.execute input world).1.status = .timedOut ↔
      (e.run input world).1.verdict = .timedOut := by
  simp only [execute, Execution.ofRun]
  cases (e.run input world).1.verdict <;> simp

theorem isFinished_execute (input : Json) (world : σ) :
    (e.execute input world).1.isFinished = true := by
  simp only [execute, Execution.ofRun]
  cases (e.run input world).1.verdict <;> rfl

/-- **The time limit is kept exactly.** An execution of a machine that passes validation is timed
out if and only if it took longer than the limit. So an execution that ends in another way took no
longer, no state anywhere in it was entered after the limit, and without a limit none is timed
out. -/
theorem execute_timedOut_iff (e : Engine σ) (h : e.document.machine.check = .ok ())
    (input : Json) (world : σ) :
    ((e.execute input world).1.status = .timedOut ↔
      ∃ limit, e.document.machine.timeoutSeconds = some limit ∧
        limit < (e.execute input world).1.elapsedSeconds) ∧
    (e.execute input world).1.isFinished = true ∧
    (e.execute input world).1.elapsedSeconds.toNat = (e.run input world).1.final.clock ∧
    (∀ limit, e.document.machine.timeoutSeconds = some limit →
      ((e.execute input world).1.status ≠ .timedOut →
        (e.execute input world).1.elapsedSeconds ≤ limit) ∧
      ∀ scope v, (e.run input world).1.Enters scope v → v.entry.clock ≤ limit.toNat) ∧
    (e.document.machine.timeoutSeconds = none →
      (e.execute input world).1.status ≠ .timedOut) := by
  have helapsed := toNat_elapsedSeconds h input world
  have hstatus : (e.execute input world).1.status = .timedOut ↔
      ∃ limit, e.document.machine.timeoutSeconds = some limit ∧
        limit < (e.execute input world).1.elapsedSeconds := by
    have hends := runScope_ends (e := e) { machine := e.document.machine }
      { document := input, clock := 0, left := e.maxTransitions, world }
      (Machine.checked_of_check h) (Nat.zero_le _)
    rw [status_eq_timedOut_iff]
    refine hends.late_iff.trans (e.isLate_iff.trans ?_)
    simp only [UInt64.lt_iff_toNat_lt, helapsed]
    rfl
  refine ⟨hstatus, isFinished_execute input world, helapsed, fun limit hlimit ↦ ⟨?_, ?_⟩, ?_⟩
  · intro hne
    rw [UInt64.le_iff_toNat_le, ← Nat.not_lt, ← UInt64.lt_iff_toNat_lt]
    exact fun hlt ↦ hne (hstatus.mpr ⟨limit, hlimit, hlt⟩)
  · intro scope v hv
    have honTime := onTime_of_enters hv
    rw [Bool.eq_false_iff, Ne, isLate_iff] at honTime
    exact Nat.not_lt.mp fun hlt ↦ honTime ⟨limit, hlimit, hlt⟩
  · intro hnone htimedOut
    obtain ⟨limit, hlimit, -⟩ := hstatus.mp htimedOut
    rw [hnone] at hlimit
    cases hlimit

/-- Two branches that wait, one of them past the limit in its second state. -/
def slowBranch : Engine Unit where
  document := .ofMachine {
    startAt := "Fan", timeoutSeconds := some 10
    states := [("Fan", .parallel [
      { startAt := "Short", states := [
        ("Short", .wait { seconds := some 4, transition := { ending := some true } })] },
      { startAt := "Long", states := [
        ("Long", .wait { seconds := some 4, transition := { next := some "Longer" } }),
        ("Longer", .wait { seconds := some 8, transition := { ending := some true } })] }]
      { transition := { ending := some true } })] }
  perform := fun _ s ↦ ({ result := .ok .null }, s)

/-- A branch inside a parallel state takes the execution past its limit. -/
theorem execute_slowBranch :
    slowBranch.document.machine.check = .ok () ∧
      (slowBranch.execute .null ()).1.status = .timedOut ∧
      (slowBranch.execute .null ()).1.elapsedSeconds = 12 := by
  have hcheck : slowBranch.document.machine.check = .ok () := by rfl
  have helapsed : (slowBranch.execute .null ()).1.elapsedSeconds = 12 := by decide
  refine ⟨hcheck, ?_, helapsed⟩
  rw [(execute_timedOut_iff slowBranch hcheck .null ()).1]
  exact ⟨10, rfl, by rw [helapsed]; decide⟩

end Engine

end Workflow
