import Workflow.Proofs.Run.Attempts
import Workflow.Run.Engine

/-!
# Visits

What a visit of a state can do, one case for each thing that can happen. `Visits` has the cases and
`visits_visitState` says that there are no others, so that a fact about all visits is a case
analysis and nothing has to be unfolded.

The branches of a parallel state are run by a function that is a parameter here. A visit only calls
it with no more states left to enter than it has itself, which is what makes the recursion of a walk
independent of its bound.
-/

namespace Workflow

namespace Engine

variable {σ : Type}

/-- A way to run a machine at its site. -/
abbrev Runner (σ : Type) := Site → Progress σ → ScopeRun × Progress σ

/-- The site of a branch of the parallel state `name`. -/
def branchSite (site : Site) (name : String) (index : Nat) (m : Machine) : Site where
  machine := m
  scope := site.scope.branch name index
  branch := site.branch ++ [index]

/-! ## The cases -/

/-- What a visit of a state does: the step that is decided, what went on, and the progress after
it. -/
inductive Visits (e : Engine σ) (run : Runner σ) (site : Site) (name : String) :
    State → Progress σ → Step → Activity → Progress σ → Prop
  | called {t : TaskState} {p q : Progress σ} {step : Step} {calls : List (Attempt Call)}
      (attempts : Retries e.isLate t.catchers (e.attemptTask site name (.task t) t)
        (.ofRetriers t.retry) p step calls q) :
      Visits e run site name (.task t) p step (.called calls) q
  | forked {branches : List Machine} {settings : ParallelSettings} {p q : Progress σ}
      {step : Step} {rounds : List (Attempt (List ScopeRun))}
      (attempts : Retries e.isLate settings.catchers
        (attemptParallel run site name (.parallel branches settings) branches settings)
        (.ofRetriers settings.retry) p step rounds q) :
      Visits e run site name (.parallel branches settings) p step (.forked rounds) q
  | waited {w : WaitState} {p : Progress σ} {seconds : Nat}
      (read : waitSeconds w p.document = .ok seconds) :
      Visits e run site name (.wait w) p (.after (.wait w)) (.waited seconds)
        { p with clock := advance p.clock seconds }
  | unreadable {w : WaitState} {p : Progress σ} {cause : String}
      (read : waitSeconds w p.document = .error cause) :
      Visits e run site name (.wait w) p (.fail (.runtime cause)) .none p
  | chose {c : ChoiceState} {p : Progress σ} :
      Visits e run site name (.choice c) p (chooseStep name c p.document) .none p
  | succeeded {comment : Option String} {p : Progress σ} :
      Visits e run site name (.succeed comment) p .finish .none p
  | failed {f : FailState} {p : Progress σ} :
      Visits e run site name (.fail f) p
        (.fail ⟨f.error.getD ErrorName.fail, f.cause.getD ""⟩) .none p

theorem visits_visitState (e : Engine σ) (run : Runner σ) (site : Site) (name : String)
    (s : State) (p : Progress σ) :
    Visits e run site name s p (e.visitState run site name s p).1
      (e.visitState run site name s p).2.1 (e.visitState run site name s p).2.2 := by
  cases s with
  | task t =>
    obtain ⟨step, calls, q, heq, h⟩ := retries_withRetries e.isLate t.catchers
      (e.attemptTask site name (.task t) t)
      (Nat.le_of_eq (RetryTracker.remaining_ofRetriers t.retry)) [] p
    simp only [visitState, heq, List.reverse_nil, List.nil_append]
    exact .called h
  | parallel branches settings =>
    obtain ⟨step, rounds, q, heq, h⟩ := retries_withRetries e.isLate settings.catchers
      (attemptParallel run site name (.parallel branches settings) branches settings)
      (Nat.le_of_eq (RetryTracker.remaining_ofRetriers settings.retry)) [] p
    simp only [visitState, heq, List.reverse_nil, List.nil_append]
    exact .forked h
  | wait w =>
    cases hw : waitSeconds w p.document with
    | ok seconds =>
      simp only [visitState, hw]
      exact .waited hw
    | error cause =>
      simp only [visitState, hw]
      exact .unreadable hw
  | choice c => exact .chose
  | succeed comment => exact .succeeded
  | fail f => exact .failed

/-- A visit has no other outcome than that of `visitState`. -/
theorem Visits.visitState_eq {e : Engine σ} {run : Runner σ} {site : Site} {name : String}
    {s : State} {p q : Progress σ} {step : Step} {activity : Activity}
    (h : Visits e run site name s p step activity q) :
    e.visitState run site name s p = (step, activity, q) := by
  cases h with
  | @called t _ _ _ _ attempts =>
    have hmore := Nat.le_of_eq (RetryTracker.remaining_ofRetriers t.retry)
    simp only [visitState, attempts.withRetries_eq hmore, List.reverse_nil, List.nil_append]
  | @forked _ settings _ _ _ _ attempts =>
    have hmore := Nat.le_of_eq (RetryTracker.remaining_ofRetriers settings.retry)
    simp only [visitState, attempts.withRetries_eq hmore, List.reverse_nil, List.nil_append]
  | waited read | unreadable read => simp only [visitState, read]
  | chose | succeeded | failed => rfl

/-! ## How many states are left to enter

Only entering a state uses one up, so an attempt at a task leaves the number as it is and an attempt
at a parallel state leaves what its branches leave. -/

@[simp] theorem attemptTask_left (e : Engine σ) (site : Site) (name : String) (s : State)
    (t : TaskState) (attempt : Nat) (p : Progress σ) :
    (e.attemptTask site name s t attempt p).2.2.left = p.left := by
  simp only [attemptTask]
  split
  · rfl
  · split <;> rfl

/-- Running a machine never leaves more states to enter than there were. -/
def Narrows (run : Runner σ) : Prop := ∀ site p, (run site p).2.left ≤ p.left

theorem runBranches_cons_of_succeeded {run : Runner σ} {site : Site} {name : String}
    {start : Moment} {index : Nat} {m : Machine} {ms : List Machine} {p q : Progress σ}
    {r : ScopeRun} (hr : run (branchSite site name index m) { p with toMoment := start } = (r, q))
    (hv : r.verdict = .succeeded) :
    runBranches run site name start index (m :: ms) p
      = (r :: (runBranches run site name start (index + 1) ms q).1,
        (runBranches run site name start (index + 1) ms q).2) := by
  simp only [branchSite] at hr
  simp only [runBranches, hr, hv]

theorem runBranches_cons_of_ne {run : Runner σ} {site : Site} {name : String}
    {start : Moment} {index : Nat} {m : Machine} {ms : List Machine} {p q : Progress σ}
    {r : ScopeRun} (hr : run (branchSite site name index m) { p with toMoment := start } = (r, q))
    (hv : r.verdict ≠ .succeeded) :
    runBranches run site name start index (m :: ms) p = ([r], q) := by
  simp only [branchSite] at hr
  simp only [runBranches, hr]

theorem runBranches_left_le {run : Runner σ} (hrun : Narrows run) (site : Site) (name : String)
    (start : Moment) (index : Nat) (ms : List Machine) (p : Progress σ) :
    (runBranches run site name start index ms p).2.left ≤ p.left := by
  induction ms generalizing index p with
  | nil => exact Nat.le_refl _
  | cons m ms ih =>
    have hle := hrun (branchSite site name index m) { p with toMoment := start }
    rcases hr : run (branchSite site name index m) { p with toMoment := start } with ⟨r, q⟩
    rw [hr] at hle
    by_cases hv : r.verdict = .succeeded
    · rw [runBranches_cons_of_succeeded hr hv]
      exact Nat.le_trans (ih _ _) hle
    · rw [runBranches_cons_of_ne hr hv]
      exact hle

theorem attemptParallel_left_le {run : Runner σ} (hrun : Narrows run) (site : Site)
    (name : String) (s : State) (branches : List Machine) (settings : ParallelSettings)
    (attempt : Nat) (p : Progress σ) :
    (attemptParallel run site name s branches settings attempt p).2.2.left ≤ p.left := by
  have h := runBranches_left_le hrun site name p.toMoment 0 branches p
  simp only [attemptParallel]
  split
  · exact h
  · exact h
  · split <;> exact h

end Engine

theorem Retries.left_le {σ ρ : Type} {isLate : Nat → Bool} {catchers : List Catcher}
    {attempt : Nat → Progress σ → AttemptResult × ρ × Progress σ} {t : RetryTracker}
    {p q : Progress σ} {step : Step} {attempts : List (Attempt ρ)}
    (hattempt : ∀ k p, (attempt k p).2.2.left ≤ p.left)
    (h : Retries isLate catchers attempt t p step attempts q) : q.left ≤ p.left := by
  induction h with
  | @settled t p _ _ _ made =>
    have hle := hattempt t.total p
    rwa [made] at hle
  | @handled t p _ _ _ made _ =>
    have hle := hattempt t.total p
    rwa [made] at hle
  | @late t _ p _ _ _ _ made _ _ =>
    have hle := hattempt t.total p
    rwa [made] at hle
  | @again t _ p _ _ _ _ _ _ _ made _ _ _ ih =>
    have hle := hattempt t.total p
    rw [made] at hle
    exact Nat.le_trans ih hle

namespace Engine

variable {σ : Type}

theorem Visits.left_le {e : Engine σ} {run : Runner σ} (hrun : Narrows run) {site : Site}
    {name : String} {s : State} {p q : Progress σ} {step : Step} {activity : Activity}
    (h : Visits e run site name s p step activity q) : q.left ≤ p.left := by
  cases h with
  | called attempts =>
    exact attempts.left_le fun k p ↦ Nat.le_of_eq (e.attemptTask_left site name _ _ k p)
  | forked attempts => exact attempts.left_le (attemptParallel_left_le hrun site name _ _ _)
  | waited _ | unreadable _ | chose | succeeded | failed => exact Nat.le_refl _

/-! ## Runners that agree -/

/-- Two runners that agree as long as at most `n` states are left to enter. -/
def AgreeTo (n : Nat) (run run' : Runner σ) : Prop :=
  ∀ site p, p.left ≤ n → run site p = run' site p

theorem runBranches_congr {n : Nat} {run run' : Runner σ} (hagree : AgreeTo n run run')
    (hrun : Narrows run) (site : Site) (name : String) (start : Moment) (index : Nat)
    (ms : List Machine) {p : Progress σ} (hp : p.left ≤ n) :
    runBranches run site name start index ms p = runBranches run' site name start index ms p := by
  induction ms generalizing index p with
  | nil => rfl
  | cons m ms ih =>
    have hle := hrun (branchSite site name index m) { p with toMoment := start }
    have heq := hagree (branchSite site name index m) { p with toMoment := start } hp
    rcases hr : run (branchSite site name index m) { p with toMoment := start } with ⟨r, q⟩
    rw [hr] at hle heq
    by_cases hv : r.verdict = .succeeded
    · rw [runBranches_cons_of_succeeded hr hv, runBranches_cons_of_succeeded heq.symm hv,
        ih (index + 1) (Nat.le_trans hle hp)]
    · rw [runBranches_cons_of_ne hr hv, runBranches_cons_of_ne heq.symm hv]

end Engine

theorem withRetries_congr {σ ρ : Type} {isLate : Nat → Bool} {catchers : List Catcher}
    {attempt attempt' : Nat → Progress σ → AttemptResult × ρ × Progress σ} {n : Nat}
    (hagree : ∀ k p, p.left ≤ n → attempt k p = attempt' k p)
    (hattempt : ∀ k p, (attempt k p).2.2.left ≤ p.left) (more : Nat) (t : RetryTracker)
    (done : List (Attempt ρ)) {p : Progress σ} (hp : p.left ≤ n) :
    withRetries isLate catchers attempt more t done p
      = withRetries isLate catchers attempt' more t done p := by
  induction more generalizing t done p with
  | zero => rw [withRetries, withRetries, ← hagree _ _ hp]
  | succ more ih =>
    have hle := hattempt t.total p
    rw [withRetries, withRetries, ← hagree _ _ hp]
    rcases hmade : attempt t.total p with ⟨result, record, q⟩
    rw [hmade] at hle
    cases result with
    | settled step => rfl
    | failed f =>
      rcases hg : t.grant? f.error with _ | ⟨g, t'⟩
      · simp only [hg]
      · simp only [hg]
        rw [ih t' _ (p := { q with clock := advance q.clock g.delay }) (Nat.le_trans hle hp)]

namespace Engine

variable {σ : Type}

/-- A visit does not see what a runner does with more states left to enter than it has. -/
theorem visitState_congr (e : Engine σ) {n : Nat} {run run' : Runner σ}
    (hagree : AgreeTo n run run') (hrun : Narrows run) (site : Site) (name : String) (s : State)
    {p : Progress σ} (hp : p.left ≤ n) :
    e.visitState run site name s p = e.visitState run' site name s p := by
  -- only the attempts at a parallel state call the runner
  cases s with
  | parallel branches settings =>
    have hattempts : ∀ k q, q.left ≤ n →
        attemptParallel run site name (.parallel branches settings) branches settings k q
          = attemptParallel run' site name (.parallel branches settings) branches settings k q := by
      intro k q hq
      simp only [attemptParallel, runBranches_congr hagree hrun site name q.toMoment 0 branches hq]
    simp only [visitState]
    rw [withRetries_congr hattempts (attemptParallel_left_le hrun site name _ _ _) _ _ _ hp]
  | task t => rfl
  | wait w => rfl
  | choice c => rfl
  | succeed comment => rfl
  | fail f => rfl

end Engine

end Workflow
