import Workflow.Proofs.Run.Decisions
import Workflow.Proofs.Run.Room

/-!
# Branches as runs of their own

The branches of a parallel state run one after the other and share what the run has left. When the
performer answers by the invocation alone and the run does not reach its ceiling, nothing of that
shows: every round is what the branches would do each on its own, with as many states to enter as a
whole run and any state of the performer, up to the first branch that does not succeed.

`ForksAs` says what a parallel state does in these terms.
-/

namespace Workflow

/-! ## The runs that are started -/

/-- Of runs in a row, those up to the first without success. -/
def startedOf : List ScopeRun → List ScopeRun
  | [] => []
  | r :: rs => if r.verdict = .succeeded then r :: startedOf rs else [r]

theorem startedOf_eq_self {runs : List ScopeRun}
    (h : ∀ r ∈ startedOf runs, r.verdict = .succeeded) : startedOf runs = runs := by
  induction runs with
  | nil => rfl
  | cons r rs ih =>
    rw [startedOf] at h ⊢
    split at h
    · rename_i hr
      rw [if_pos hr, ih fun r' hr' ↦ h r' (List.mem_cons_of_mem r hr')]
    · rename_i hr
      exact absurd (h r List.mem_cons_self) hr

theorem exists_of_startedOf_eq {runs before after : List ScopeRun} {r : ScopeRun}
    (h : startedOf runs = before ++ r :: after) (hr : r.verdict ≠ .succeeded) :
    after = [] ∧ ∃ rest, runs = before ++ r :: rest := by
  induction runs generalizing before with
  | nil => simp [startedOf] at h
  | cons first rs ih =>
    rw [startedOf] at h
    split at h
    · rename_i hfirst
      cases before with
      | nil =>
        obtain rfl : first = r := (List.cons.inj h).1
        exact absurd hfirst hr
      | cons b before =>
        obtain ⟨rfl, hrest⟩ := List.cons.inj h
        obtain ⟨hafter, rest, rfl⟩ := ih hrest
        exact ⟨hafter, rest, rfl⟩
    · cases before with
      | nil =>
        obtain ⟨rfl, hafter⟩ := List.cons.inj h
        exact ⟨hafter.symm, rs, rfl⟩
      | cons b before => simp at h

/-- The run `r` is the first without success, and `before` are the runs before it. -/
structure StopsAt (runs before : List ScopeRun) (r : ScopeRun) : Prop where
  split : ∃ rest, runs = before ++ r :: rest
  succeeded : ∀ b ∈ before, b.verdict = .succeeded

namespace Engine

variable {σ : Type}

theorem stopsAt_of_gather {runs : List ScopeRun} {stopped : Option Failure}
    (h : gather (startedOf runs) = .error stopped) :
    ∃ before r, StopsAt runs before r ∧ startedOf runs = before ++ [r] ∧
      (r.verdict = .timedOut ∧ stopped = none ∨ ∃ f, r.verdict = .failed f ∧
        stopped = some { f with cause := s!"{r.scope}: {f.cause}" }) := by
  obtain ⟨before, r, after, heq, hbefore, hstopped⟩ := exists_of_gather_eq_error h
  have hr : r.verdict ≠ .succeeded := by
    rcases hstopped with ⟨hv, -⟩ | ⟨f, hv, -⟩ <;> rw [hv] <;> simp
  obtain ⟨rfl, hsplit⟩ := exists_of_startedOf_eq heq hr
  exact ⟨before, r, ⟨hsplit, hbefore⟩, heq, hstopped⟩

/-! ## Branches on their own -/

/-- The run of a branch on its own from some moment, with as many states to enter as a whole run. -/
def alone (e : Engine σ) (world : σ) (site : Site) (name : String) (start : Moment) (index : Nat)
    (m : Machine) : ScopeRun :=
  (e.runScope (branchSite site name index m)
    { toMoment := start, left := e.maxTransitions, world }).1

/-- All branches, each on its own. -/
def apart (e : Engine σ) (world : σ) (site : Site) (name : String) (branches : List Machine)
    (start : Moment) : List ScopeRun :=
  branches.mapIdx (e.alone world site name start)

/-- Every branch runs in its own scope. -/
theorem scope_of_apart {e : Engine σ} {world : σ} {site : Site} {name : String}
    {branches : List Machine} {start : Moment} {before rest : List ScopeRun} {r : ScopeRun}
    (h : e.apart world site name branches start = before ++ r :: rest) :
    r.scope = site.scope.branch name before.length := by
  have hget : (e.apart world site name branches start)[before.length]? = some r := by
    rw [h]
    simp
  rw [apart, List.getElem?_mapIdx] at hget
  obtain ⟨m, -, rfl⟩ := Option.map_eq_some_iff.mp hget
  rfl

variable {e : Engine σ} {world : σ} {site : Site} {name : String}

/-- **A round is what its branches do on their own.** -/
theorem runBranches_eq_startedOf (h : e.IsPure) (world : σ) {start : Moment} {index : Nat}
    {ms : List Machine} {p q : Progress σ} {runs : List ScopeRun}
    (hleft : p.left ≤ e.maxTransitions)
    (hruns : runBranches e.runScope site name start index ms p = (runs, q))
    (hroom : ∀ r ∈ runs, ¬r.ReachesCeiling) :
    runs = startedOf (ms.mapIdx fun i m ↦ e.alone world site name start (index + i) m) := by
  induction ms generalizing index p runs with
  | nil =>
    cases hruns
    rfl
  | cons m ms ih =>
    have hle := e.narrows_runScope (branchSite site name index m) { p with toMoment := start }
    rcases hr : e.runScope (branchSite site name index m) { p with toMoment := start } with ⟨r, q₁⟩
    rw [hr] at hle
    -- the branch on its own has more room than in the round
    have halone : ¬r.ReachesCeiling → e.alone world site name start index m = r := by
      intro hroom
      have hp : Ahead (e.maxTransitions - p.left) { p with toMoment := start }
          { toMoment := start, left := e.maxTransitions, world } :=
        ⟨rfl, (Nat.add_sub_cancel' hleft).symm⟩
      obtain ⟨q', hr', -⟩ := runScope_ahead h hp hr hroom
      rw [alone, hr']
    rw [List.mapIdx_cons, Nat.add_zero, startedOf]
    by_cases hv : r.verdict = .succeeded
    · rcases hrest : runBranches e.runScope site name start (index + 1) ms q₁ with ⟨rest, q₂⟩
      rw [runBranches_cons_of_succeeded hr hv, hrest] at hruns
      cases hruns
      have hmore := ih (Nat.le_trans hle hleft) hrest fun r' hr' ↦
        hroom r' (List.mem_cons_of_mem r hr')
      rw [halone (hroom r List.mem_cons_self), if_pos hv, hmore]
      simp only [Nat.add_right_comm index 1, Nat.add_assoc]
    · rw [runBranches_cons_of_ne hr hv] at hruns
      cases hruns
      rw [halone (hroom r List.mem_cons_self), if_neg hv]

/-! ## A parallel state told by its branches -/

/-- What a parallel state `s` does from some clock on. `apart` gives the runs of its branches on
their own when they start at a clock, and `doc` is the document on entry. -/
inductive ForksAs (e : Engine σ) (apart : Nat → List ScopeRun) (scopeOf : Nat → Scope) (s : State)
    (settings : ParallelSettings) (doc : Json) :
    RetryTracker → Nat → Step → List (Attempt (List ScopeRun)) → Moment → Prop
  /-- All branches succeed, and their outputs are stored. -/
  | stored {t : RetryTracker} {clock : Nat} {doc' : Json}
      (succeeded : ∀ r ∈ apart clock, r.verdict = .succeeded)
      (stored : storeAt settings.resultPath
        (.array ((apart clock).map fun r ↦ r.final.document)) doc = (doc', none)) :
      ForksAs e apart scopeOf s settings doc t clock (.after s) [⟨apart clock, none⟩]
        ⟨doc', slowest clock (apart clock)⟩
  /-- All branches succeed, and their outputs cannot be stored. -/
  | unstored {t : RetryTracker} {clock : Nat} {cause : String}
      (succeeded : ∀ r ∈ apart clock, r.verdict = .succeeded)
      (stored : storeAt settings.resultPath
        (.array ((apart clock).map fun r ↦ r.final.document)) doc = (doc, some cause)) :
      ForksAs e apart scopeOf s settings doc t clock (.fail (.runtime cause))
        [⟨apart clock, none⟩] ⟨doc, slowest clock (apart clock)⟩
  | outOfTime {t : RetryTracker} {clock : Nat} {before : List ScopeRun} {r : ScopeRun}
      (stops : StopsAt (apart clock) before r) (timedOut : r.verdict = .timedOut) :
      ForksAs e apart scopeOf s settings doc t clock .outOfTime [⟨before ++ [r], none⟩]
        ⟨doc, slowest clock (before ++ [r])⟩
  /-- A branch fails, and its error is not retried. -/
  | handled {t : RetryTracker} {clock : Nat} {before : List ScopeRun} {r : ScopeRun}
      {f error : Failure} (stops : StopsAt (apart clock) before r) (failed : r.verdict = .failed f)
      (raised : error = { f with cause := s!"{scopeOf before.length}: {f.cause}" })
      (refused : t.grant? error.error = none) :
      ForksAs e apart scopeOf s settings doc t clock
        (handleFailure settings.catchers error doc).1 [⟨before ++ [r], none⟩]
        ⟨(handleFailure settings.catchers error doc).2, slowest clock (before ++ [r])⟩
  /-- A branch fails, and the delay before the retry ends past the time limit. -/
  | late {t t' : RetryTracker} {clock : Nat} {before : List ScopeRun} {r : ScopeRun}
      {f : Failure} {g : Grant} (stops : StopsAt (apart clock) before r)
      (failed : r.verdict = .failed f) (granted : t.grant? f.error = some (g, t'))
      (late : e.isLate (advance (slowest clock (before ++ [r])) g.delay) = true) :
      ForksAs e apart scopeOf s settings doc t clock .outOfTime [⟨before ++ [r], some g.delay⟩]
        ⟨doc, advance (slowest clock (before ++ [r])) g.delay⟩
  /-- A branch fails, and all branches start again on the same document. -/
  | again {t t' : RetryTracker} {clock : Nat} {before : List ScopeRun} {r : ScopeRun}
      {f : Failure} {g : Grant} {step : Step} {rest : List (Attempt (List ScopeRun))}
      {exit : Moment} (stops : StopsAt (apart clock) before r) (failed : r.verdict = .failed f)
      (granted : t.grant? f.error = some (g, t'))
      (onTime : e.isLate (advance (slowest clock (before ++ [r])) g.delay) = false)
      (more : ForksAs e apart scopeOf s settings doc t'
        (advance (slowest clock (before ++ [r])) g.delay) step rest exit) :
      ForksAs e apart scopeOf s settings doc t clock step
        (⟨before ++ [r], some g.delay⟩ :: rest) exit

/-- The runs of an attempt are those of the branches on their own. -/
theorem attemptParallel_eq_startedOf (h : e.IsPure) (world : σ) {s : State}
    {branches : List Machine} {settings : ParallelSettings} {k : Nat} {p q : Progress σ}
    {result : AttemptResult} {runs : List ScopeRun} (hleft : p.left ≤ e.maxTransitions)
    (hroom : ∀ r ∈ runs, ¬r.ReachesCeiling)
    (made : attemptParallel e.runScope site name s branches settings k p = (result, runs, q)) :
    runs = startedOf (e.apart world site name branches p.toMoment) := by
  obtain ⟨_, _, -, hruns, -⟩ := rounds_of_attemptParallel made
  have hstarted := runBranches_eq_startedOf h world hleft hruns hroom
  simp only [Nat.zero_add] at hstarted
  exact hstarted

/-- An attempt fails with the error of the first branch that does not succeed. -/
theorem exists_stopsAt_of_failed (h : e.IsPure) (world : σ) {s : State} {branches : List Machine}
    {settings : ParallelSettings} {k : Nat} {p q : Progress σ} {f : Failure}
    {runs : List ScopeRun} (hleft : p.left ≤ e.maxTransitions)
    (hroom : ∀ r ∈ runs, ¬r.ReachesCeiling)
    (made : attemptParallel e.runScope site name s branches settings k p = (.failed f, runs, q)) :
    ∃ before r inner, StopsAt (e.apart world site name branches p.toMoment) before r ∧
      runs = before ++ [r] ∧ r.verdict = .failed inner ∧
      f = { inner with cause := s!"{site.scope.branch name before.length}: {inner.cause}" } ∧
      q.document = p.document ∧ q.clock = slowest p.clock (before ++ [r]) := by
  have hstarted := attemptParallel_eq_startedOf h world hleft hroom made
  obtain ⟨_, _, hrounds, -, rfl⟩ := rounds_of_attemptParallel made
  cases hrounds with
  | failed gathered =>
    rw [hstarted] at gathered
    obtain ⟨before, r, hstops, heq, ⟨-, hnone⟩ | ⟨inner, hv, hf⟩⟩ := stopsAt_of_gather gathered
    · cases hnone
    · obtain ⟨rest, hsplit⟩ := hstops.split
      rw [scope_of_apart hsplit] at hf
      have hruns : runs = before ++ [r] := hstarted.trans heq
      exact ⟨before, r, inner, hstops, hruns, hv, Option.some.inj hf, rfl, by rw [hruns]⟩

theorem forksAs_of_retries (h : e.IsPure) (world : σ) {s : State} {branches : List Machine}
    {settings : ParallelSettings} {t : RetryTracker} {p q : Progress σ} {step : Step}
    {rounds : List (Attempt (List ScopeRun))}
    (hretries : Retries e.isLate settings.catchers
      (attemptParallel e.runScope site name s branches settings) t p step rounds q)
    (hleft : p.left ≤ e.maxTransitions)
    (hroom : ∀ round ∈ rounds, ∀ r ∈ round.record, ¬r.ReachesCeiling) :
    ForksAs e (fun clock ↦ e.apart world site name branches ⟨p.document, clock⟩)
      (site.scope.branch name) s settings p.document t p.clock step rounds q.toMoment := by
  induction hretries with
  | @settled _ p _ _ runs made =>
    have hstarted : runs = startedOf (e.apart world site name branches p.toMoment) :=
      attemptParallel_eq_startedOf h world hleft (hroom _ List.mem_cons_self) made
    obtain ⟨_, _, hrounds, -, rfl⟩ := rounds_of_attemptParallel made
    -- the result is an index of `hrounds`, so it has to be a variable for the cases
    generalize hresult : AttemptResult.settled _ = result at hrounds
    cases hrounds with
    | failed _ => cases hresult
    | outOfTime gathered =>
      cases hresult
      rw [hstarted] at gathered
      obtain ⟨before, r, hstops, heq, ⟨hv, -⟩ | ⟨f, -, hf⟩⟩ := stopsAt_of_gather gathered
      · obtain rfl : runs = before ++ [r] := hstarted.trans heq
        exact .outOfTime hstops hv
      · cases hf
    | stored gathered stored =>
      cases hresult
      obtain ⟨hsucceeded, rfl⟩ := gather_eq_ok_iff.mp gathered
      obtain rfl : runs = _ := hstarted.trans (startedOf_eq_self (hstarted ▸ hsucceeded))
      exact .stored hsucceeded stored
    | unstored gathered stored =>
      cases hresult
      obtain ⟨hsucceeded, rfl⟩ := gather_eq_ok_iff.mp gathered
      obtain rfl : runs = _ := hstarted.trans (startedOf_eq_self (hstarted ▸ hsucceeded))
      obtain rfl := storeAt_document_of_failure stored
      exact .unstored hsucceeded stored
  | @handled _ p q f runs made refused =>
    obtain ⟨before, r, inner, hstops, rfl, hv, hf, hdoc, hclock⟩ :=
      exists_stopsAt_of_failed h world hleft (hroom _ List.mem_cons_self) made
    rw [hdoc]
    dsimp only
    rw [hclock]
    exact .handled hstops hv hf refused
  | @late _ _ p q f g runs made granted late =>
    obtain ⟨before, r, inner, hstops, rfl, hv, rfl, hdoc, hclock⟩ :=
      exists_stopsAt_of_failed h world hleft (hroom _ List.mem_cons_self) made
    rw [hclock] at late ⊢
    rw [hdoc]
    exact .late hstops hv granted late
  | @again t _ p q r f g _ runs rest made granted onTime _ ih =>
    have hle := attemptParallel_left_le e.narrows_runScope site name s branches settings t.total p
    rw [made] at hle
    obtain ⟨hfirst, hrest⟩ := List.forall_mem_cons.mp hroom
    obtain ⟨before, r, inner, hstops, rfl, hv, rfl, hdoc, hclock⟩ :=
      exists_stopsAt_of_failed h world hleft hfirst made
    have hmore := ih (Nat.le_trans hle hleft) hrest
    dsimp only at hmore
    rw [hclock] at onTime
    rw [hdoc, hclock] at hmore
    exact .again hstops hv granted onTime hmore

/-- If all branches succeed on their own, there is one round, and it ends with the slowest of them.
Their outputs are stored in order, as far as that is possible. -/
theorem ForksAs.of_succeeded {apart : Nat → List ScopeRun} {scopeOf : Nat → Scope} {s : State}
    {settings : ParallelSettings} {doc : Json} {t : RetryTracker} {clock : Nat} {step : Step}
    {rounds : List (Attempt (List ScopeRun))} {exit : Moment}
    (h : ForksAs e apart scopeOf s settings doc t clock step rounds exit)
    (hsucceeded : ∀ r ∈ apart clock, r.verdict = .succeeded) :
    rounds = [⟨apart clock, none⟩] ∧ exit.clock = slowest clock (apart clock) ∧
      ∃ failure, storeAt settings.resultPath
        (.array ((apart clock).map fun r ↦ r.final.document)) doc = (exit.document, failure) ∧
          step = (failure.map fun cause ↦ Step.fail (.runtime cause)).getD (.after s) := by
  have hstops : ∀ {before r}, StopsAt (apart clock) before r → r.verdict = .succeeded := by
    rintro before r ⟨⟨rest, hsplit⟩, -⟩
    exact hsucceeded r (by simp [hsplit])
  cases h with
  | stored _ stored => exact ⟨rfl, rfl, none, stored, rfl⟩
  | unstored _ stored => exact ⟨rfl, rfl, some _, stored, rfl⟩
  | outOfTime stops timedOut =>
    rw [hstops stops] at timedOut
    cases timedOut
  | handled stops failed _ _ | late stops failed _ _ | again stops failed _ _ _ =>
    rw [hstops stops] at failed
    cases failed

/-- The branches of a state entered, each on its own, on the document on entry and from some
clock. -/
def runsApart (e : Engine σ) (world : σ) (x : Entered) (branches : List Machine) (clock : Nat) :
    List ScopeRun :=
  e.apart world x.site x.visit.state branches ⟨x.visit.entry.document, clock⟩

/-- **Branches are independent runs.** A parallel state entered anywhere in a run does what its
branches do on their own, if the performer answers by the invocation alone and the run does not
reach its ceiling. -/
theorem forked_independent (e : Engine σ) (h : e.IsPure) (input : Json) (world world' : σ)
    (hroom : ¬(e.run input world).1.ReachesCeiling) {x : Entered} (hx : x ∈ e.entered input world)
    {branches : List Machine} {settings : ParallelSettings}
    (hs : x.state? = some (.parallel branches settings)) :
    ∃ rounds, x.visit.activity = .forked rounds ∧
      traceVisit x.site.scope x.visit
        = x.position :: rounds.flatMap (fun round ↦ round.record.flatMap ScopeRun.trace) ∧
      ForksAs e (e.runsApart world' x branches) (x.site.scope.branch x.visit.state)
        (.parallel branches settings) settings x.visit.entry.document (.ofRetriers settings.retry)
        x.visit.entry.clock x.visit.step rounds x.visit.exit ∧
      ((∀ r ∈ e.runsApart world' x branches x.visit.entry.clock, r.verdict = .succeeded) →
        rounds = [⟨e.runsApart world' x branches x.visit.entry.clock, none⟩] ∧
        x.visit.exit.clock = slowest x.visit.entry.clock
          (e.runsApart world' x branches x.visit.entry.clock) ∧
        ∃ failure, storeAt settings.resultPath
          (.array ((e.runsApart world' x branches x.visit.entry.clock).map
            fun r ↦ r.final.document)) x.visit.entry.document
            = (x.visit.exit.document, failure) ∧
          x.visit.step = (failure.map fun cause ↦ Step.fail (.runtime cause)).getD
            (.after (.parallel branches settings))) := by
  obtain ⟨p, hp, hmade⟩ := ((e.run_accounts input world).occurs x hx).made
  have hactivity := (ScopeRun.enters_of_mem_entered hx).hasRoom hroom
  obtain ⟨site, visit⟩ := x
  cases hmade with
  | missing _ _ state => cases state.symm.trans hs
  | passed pass =>
    obtain rfl := Option.some.inj (pass.state.symm.trans hs)
    have hvisit := pass.visit
    have hleft : p.left - 1 ≤ e.maxTransitions := Nat.le_trans (Nat.sub_le _ _) hp
    cases hvisit with
    | @forked _ _ _ _ _ rounds attempts =>
      have hforks := forksAs_of_retries h world' attempts hleft (hactivity rounds rfl)
      refine ⟨rounds, rfl, ?_, hforks, hforks.of_succeeded⟩
      rw [traceVisit, traceActivity, traceRounds_eq_flatMap]
      rfl

/-- A branch that has a task carried out and one that waits. -/
def pairBranches : List Machine :=
  [{ startAt := "Work", states := [
      ("Work", .task { resource := "work", transition := { ending := some true } })] },
    { startAt := "Pause", states := [
      ("Pause", .wait { seconds := some 4, transition := { ending := some true } })] }]

/-- The task answers with its input. -/
def echoPair : Engine Nat where
  document := .ofMachine {
    startAt := "Fan"
    states := [("Fan", .parallel pairBranches { transition := { ending := some true } })] }
  registry := Registry.register {} (.here { name := "work" })
  perform := fun i n ↦ ({ result := .ok i.context.input }, n + 1)
  maxTransitions := 5

theorem exit_echoPair :
    echoPair.IsPure ∧ ¬(echoPair.run .null 0).1.ReachesCeiling ∧
      ∃ x ∈ echoPair.entered .null 0,
        x.state? = some (.parallel pairBranches { transition := { ending := some true } }) ∧
          x.visit.exit.clock = 4 := by
  have hpure : echoPair.IsPure := fun _ _ _ ↦ rfl
  have hroom : ¬(echoPair.run .null 0).1.ReachesCeiling := fun h ↦
    absurd (length_trace_of_reachesCeiling h) (by decide)
  obtain ⟨x, hx, hs, hsucceeded, hclock⟩ : ∃ x ∈ echoPair.entered .null 0,
      x.state? = some (.parallel pairBranches { transition := { ending := some true } }) ∧
      (∀ r ∈ echoPair.runsApart 7 x pairBranches x.visit.entry.clock, r.verdict = .succeeded) ∧
      slowest x.visit.entry.clock (echoPair.runsApart 7 x pairBranches x.visit.entry.clock) = 4 :=
    ⟨_, List.mem_cons_self, rfl, by decide, rfl⟩
  obtain ⟨rounds, -, -, -, hapart⟩ := forked_independent echoPair hpure .null 0 7 hroom hx hs
  exact ⟨hpure, hroom, x, hx, hs, (hapart hsucceeded).2.1.trans hclock⟩

end Engine

end Workflow
