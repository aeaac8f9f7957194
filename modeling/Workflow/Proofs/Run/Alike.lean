import Mathlib.Data.List.Forall2
import Workflow.Proofs.Run.Accounts

/-!
# Runs that find their handlers elsewhere

Two engines may look for the handlers of the task states in different places. As long as every call
comes to the same task with the same branch index and the same answer, nothing else of their runs
differs: the performer sees the same invocations in the same order, and the records are the same but
for the way in which the handlers were found.

`Alike` asks this of the calls at the sites of a run, and `Alike.runScope` says what follows for the
run. As in every fact about whole runs, the induction is on the number of states left to enter.
-/

namespace Workflow

/-! ## Calls as the tasks see them -/

namespace Handler

/-- What is called in the end. -/
def unbound : Handler → Handler
  | .here task => .here task
  | .elsewhere name => .elsewhere name
  | .bound inner _ => inner.unbound

/-- The branch index that reaches the task when the handler is called with `branch`. -/
def told : Handler → Option BranchIndex → Option BranchIndex
  | .here _, branch => branch
  | .elsewhere _, branch => branch
  | .bound inner b, _ => inner.told (some b)

/-- Calling a handler is calling the task with the branch index that reaches it. -/
theorem invoke_eq_unbound {σ : Type} (perform : Performer σ) (h : Handler) (ctx : TaskContext)
    (branch : Option BranchIndex) (world : σ) :
    h.invoke perform ctx branch world
      = h.unbound.invoke perform ctx (h.told branch) world := by
  induction h generalizing branch with
  | here task => rfl
  | elsewhere name => rfl
  | bound inner b ih => exact ih (some b)

end Handler

/-- A call as it reaches the task. -/
def Call.direct (call : Call) : Call :=
  { call with
    handler := call.handler.map Handler.unbound
    branch := call.handler.bind fun h ↦ h.told call.branch }

/-- The calls made in a visit, as they reach the tasks. -/
def Activity.calls : Activity → List Call
  | .called calls => calls.map fun a ↦ a.record.direct
  | _ => []

/-- What the tasks notice of a state entered: its position and the calls. -/
def Entered.noticed (x : Entered) : String × List Call := (x.position, x.visit.activity.calls)

namespace Engine

variable {σ : Type}

/-! ## Engines that make the same calls -/

/-- Two engines that differ in where they find handlers, and make the same calls at all the sites
that the branches lead to. -/
structure Alike (e e' : Engine σ) (root : Site) : Prop where
  isLate : e'.isLate = e.isLate
  executionId : e'.executionId = e.executionId
  maxTransitions : e'.maxTransitions = e.maxTransitions
  call : ∀ {site : Site} {name : String} {t : TaskState}, Leads root site →
    site.machine.state? name = some (.task t) → ∀ (ctx : TaskContext) (world : σ),
      (e'.call site name t ctx world).1.direct = (e.call site name t ctx world).1.direct ∧
        (e'.call site name t ctx world).2 = (e.call site name t ctx world).2

/-- Two runs of a scope that show no difference but the way in which the handlers were found. -/
structure SameRun (site : Site) (r r' : ScopeRun) : Prop where
  scope : r'.scope = r.scope
  verdict : r'.verdict = r.verdict
  final : r'.final = r.final
  noticed : (r'.entered site).map Entered.noticed = (r.entered site).map Entered.noticed

/-- The same of the runs of the branches from an index on. -/
structure SameRuns (site : Site) (name : String) (index : Nat) (runs runs' : List ScopeRun) :
    Prop where
  gather : Engine.gather runs' = Engine.gather runs
  slowest : ∀ start, Engine.slowest start runs' = Engine.slowest start runs
  noticed : (enteredRuns site name index runs').map Entered.noticed
    = (enteredRuns site name index runs).map Entered.noticed

namespace SameRuns

variable {site : Site} {name : String} {index : Nat}

theorem nil : SameRuns site name index [] [] :=
  ⟨rfl, fun _ ↦ rfl, rfl⟩

theorem cons {r r' : ScopeRun} {runs runs' : List ScopeRun} {m : Machine}
    (hm : ((site.machine.branchesOf name)[index]?).getD default = m)
    (hr : SameRun (branchSite site name index m) r r')
    (hruns : SameRuns site name (index + 1) runs runs') :
    SameRuns site name index (r :: runs) (r' :: runs') where
  gather := by
    rw [Engine.gather, Engine.gather, hr.verdict, hr.final, hr.scope, hruns.gather]
  slowest start := by
    have hstart := hruns.slowest (max start r.final.clock)
    rw [Engine.slowest, Engine.slowest] at hstart ⊢
    rw [List.foldl_cons, List.foldl_cons, hr.final, hstart]
  noticed := by
    rw [enteredRuns, enteredRuns, hm, List.map_append, List.map_append, hr.noticed, hruns.noticed]

end SameRuns

/-! ## Attempts -/

variable {e e' : Engine σ} {root site : Site} {name : String}

theorem Alike.attemptTask (h : e.Alike e' root) (hsite : Leads root site) {t : TaskState}
    (ht : site.machine.state? name = some (.task t)) {s : State} {k : Nat} {p q : Progress σ}
    {result : AttemptResult} {call : Call}
    (made : e.attemptTask site name s t k p = (result, call, q)) :
    ∃ call', e'.attemptTask site name s t k p = (result, call', q) ∧
      call'.direct = call.direct := by
  have hcall := h.call hsite ht (e.taskContext name t k p.document) p.world
  rcases hfirst : e.call site name t (e.taskContext name t k p.document) p.world
    with ⟨first, world⟩
  rcases hsecond : e'.call site name t (e.taskContext name t k p.document) p.world
    with ⟨second, world'⟩
  rw [hfirst, hsecond] at hcall
  obtain ⟨hdirect, rfl⟩ : second.direct = first.direct ∧ world' = world := hcall
  -- an attempt looks at the answer only
  have hresult : second.result = first.result := by
    have h := congrArg Call.result hdirect
    exact h
  simp only [taskContext] at hfirst hsecond
  simp only [Engine.attemptTask, h.executionId, hfirst, hsecond, hresult] at made ⊢
  split at made
  · cases made
    exact ⟨second, rfl, hdirect⟩
  · split at made <;> cases made <;> exact ⟨second, rfl, hdirect⟩

/-- Loops of attempts with the same results are the same but for their records. -/
theorem Retries.alike {ρ : Type} {isLate : Nat → Bool} {catchers : List Catcher} {n : Nat}
    {attempt attempt' : Nat → Progress σ → AttemptResult × ρ × Progress σ} (same : ρ → ρ → Prop)
    (hnarrows : ∀ k p, (attempt k p).2.2.left ≤ p.left)
    (hattempt : ∀ {k p result record q}, p.left < n → attempt k p = (result, record, q) →
      ∃ record', attempt' k p = (result, record', q) ∧ same record record')
    {t : RetryTracker} {p q : Progress σ} {step : Step} {attempts : List (Attempt ρ)}
    (h : Retries isLate catchers attempt t p step attempts q) (hleft : p.left < n) :
    ∃ attempts', Retries isLate catchers attempt' t p step attempts' q ∧
      List.Forall₂ (fun a a' ↦ same a.record a'.record) attempts attempts' := by
  induction h with
  | settled made =>
    obtain ⟨record', made', hsame⟩ := hattempt hleft made
    exact ⟨_, .settled made', .cons hsame .nil⟩
  | handled made refused =>
    obtain ⟨record', made', hsame⟩ := hattempt hleft made
    exact ⟨_, .handled made' refused, .cons hsame .nil⟩
  | late made granted late =>
    obtain ⟨record', made', hsame⟩ := hattempt hleft made
    exact ⟨_, .late made' granted late, .cons hsame .nil⟩
  | @again t _ p _ _ _ _ _ _ _ made granted onTime _ ih =>
    have hle := hnarrows t.total p
    rw [made] at hle
    obtain ⟨record', made', hsame⟩ := hattempt hleft made
    obtain ⟨rest', hrest, hsameRest⟩ := ih (Nat.lt_of_le_of_lt hle hleft)
    exact ⟨_, .again made' granted onTime hrest, .cons hsame hsameRest⟩

/-! ## Runs -/

/-- Runs with fewer than `n` states left to enter show no difference. -/
def AlikeBelow (e e' : Engine σ) (root : Site) (n : Nat) : Prop :=
  ∀ {site : Site} {p q : Progress σ} {r : ScopeRun}, Leads root site → p.left < n →
    e.runScope site p = (r, q) → ∃ r', e'.runScope site p = (r', q) ∧ SameRun site r r'

variable {n : Nat}

/-- The runs of a round. `branches` are all branches of the state, of which `ms` are those from
`index` on. -/
theorem AlikeBelow.runBranches (hbelow : e.AlikeBelow e' root n) (hsite : Leads root site)
    {branches : List Machine} {settings : ParallelSettings}
    (hs : site.machine.state? name = some (.parallel branches settings)) {start : Moment}
    {index : Nat} {ms : List Machine} (hms : ∀ i, ms[i]? = branches[index + i]?)
    {p q : Progress σ} {runs : List ScopeRun} (hleft : p.left < n)
    (h : Engine.runBranches e.runScope site name start index ms p = (runs, q)) :
    ∃ runs', Engine.runBranches e'.runScope site name start index ms p = (runs', q) ∧
      SameRuns site name index runs runs' := by
  induction ms generalizing index p runs with
  | nil =>
    cases h
    exact ⟨[], rfl, .nil⟩
  | cons m ms ih =>
    have hm : branches[index]? = some m := (hms 0).symm
    have hmachine : ((site.machine.branchesOf name)[index]?).getD default = m := by
      rw [Machine.branchesOf_eq hs, hm, Option.getD_some]
    have hrest : ∀ i, ms[i]? = branches[index + 1 + i]? := by
      intro i
      rw [← List.getElem?_cons_succ, hms (i + 1), Nat.add_right_comm, Nat.add_assoc]
    have hle := e.narrows_runScope (branchSite site name index m) { p with toMoment := start }
    rcases hr : e.runScope (branchSite site name index m) { p with toMoment := start } with ⟨r, q₁⟩
    rw [hr] at hle
    obtain ⟨r', hr', hsame⟩ := hbelow (.branch hsite hs hm)
      (p := { p with toMoment := start }) hleft hr
    by_cases hv : r.verdict = .succeeded
    · rcases hmore : Engine.runBranches e.runScope site name start (index + 1) ms q₁
        with ⟨rest, q₂⟩
      rw [runBranches_cons_of_succeeded hr hv, hmore] at h
      cases h
      obtain ⟨rest', hmore', hsameRest⟩ := ih hrest (Nat.lt_of_le_of_lt hle hleft) hmore
      refine ⟨r' :: rest', ?_, .cons hmachine hsame hsameRest⟩
      rw [runBranches_cons_of_succeeded hr' (hsame.verdict.trans hv), hmore']
    · rw [runBranches_cons_of_ne hr hv] at h
      cases h
      refine ⟨[r'], runBranches_cons_of_ne hr' ?_, .cons hmachine hsame .nil⟩
      rw [hsame.verdict]
      exact hv

theorem AlikeBelow.attemptParallel (hbelow : e.AlikeBelow e' root n) (hsite : Leads root site)
    {branches : List Machine} {settings settings' : ParallelSettings}
    (hs : site.machine.state? name = some (.parallel branches settings)) {s : State} {k : Nat}
    {p q : Progress σ} {result : AttemptResult} {runs : List ScopeRun} (hleft : p.left < n)
    (made : Engine.attemptParallel e.runScope site name s branches settings' k p
      = (result, runs, q)) :
    ∃ runs', Engine.attemptParallel e'.runScope site name s branches settings' k p
      = (result, runs', q) ∧ SameRuns site name 0 runs runs' := by
  rcases hround : Engine.runBranches e.runScope site name p.toMoment 0 branches p
    with ⟨runs₁, q₁⟩
  obtain ⟨runs', hround', hsame⟩ := hbelow.runBranches hsite hs
    (fun i ↦ by rw [Nat.zero_add]) hleft hround
  simp only [Engine.attemptParallel, hround] at made
  simp only [Engine.attemptParallel, hround', hsame.gather, hsame.slowest]
  split at made
  · cases made
    exact ⟨runs', rfl, hsame⟩
  · cases made
    exact ⟨runs', rfl, hsame⟩
  · split at made <;> cases made <;> exact ⟨runs', rfl, hsame⟩

/-- What a visit shows: the calls of its own and all that its branches have entered. -/
structure SameActivity (site : Site) (name : String) (activity activity' : Activity) : Prop where
  calls : activity'.calls = activity.calls
  inside : (enteredActivity site name activity').map Entered.noticed
    = (enteredActivity site name activity).map Entered.noticed

theorem SameActivity.refl (site : Site) (name : String) (activity : Activity) :
    SameActivity site name activity activity :=
  ⟨rfl, rfl⟩

theorem SameActivity.called {calls calls' : List (Attempt Call)}
    (h : List.Forall₂ (fun a a' ↦ a'.record.direct = a.record.direct) calls calls') :
    SameActivity site name (.called calls) (.called calls') where
  calls := by
    rw [Activity.calls, Activity.calls]
    induction h with
    | nil => rfl
    | cons hcall _ ih => rw [List.map_cons, List.map_cons, hcall, ih]
  inside := rfl

theorem SameActivity.forked {rounds rounds' : List (Attempt (List ScopeRun))}
    (h : List.Forall₂ (fun a a' ↦ SameRuns site name 0 a.record a'.record) rounds rounds') :
    SameActivity site name (.forked rounds) (.forked rounds') where
  calls := rfl
  inside := by
    rw [enteredActivity, enteredActivity]
    induction h with
    | nil => rfl
    | @cons round round' _ _ hround _ ih =>
      obtain ⟨runs, delay⟩ := round
      obtain ⟨runs', delay'⟩ := round'
      rw [enteredRounds, enteredRounds, List.map_append, List.map_append, ih, hround.noticed]

theorem Visits.alike (h : e.Alike e' root) (hbelow : e.AlikeBelow e' root n)
    (hsite : Leads root site) {s : State} (hs : site.machine.state? name = some s)
    {p q : Progress σ} {step : Step} {activity : Activity}
    (hvisit : Visits e e.runScope site name s p step activity q) (hleft : p.left < n) :
    ∃ activity', Visits e' e'.runScope site name s p step activity' q ∧
      SameActivity site name activity activity' := by
  cases hvisit with
  | @called t _ _ _ _ attempts =>
    rw [← h.isLate] at attempts
    obtain ⟨calls', attempts', hsame⟩ := Retries.alike (fun call call' ↦ call'.direct = call.direct)
      (fun k p ↦ Nat.le_of_eq (e.attemptTask_left site name (.task t) t k p))
      (fun _ made ↦ h.attemptTask hsite hs made) attempts hleft
    exact ⟨.called calls', .called attempts', .called hsame⟩
  | forked attempts =>
    rw [← h.isLate] at attempts
    obtain ⟨rounds', attempts', hsame⟩ := Retries.alike (SameRuns site name 0)
      (attemptParallel_left_le e.narrows_runScope site name _ _ _)
      (fun hleft made ↦ hbelow.attemptParallel hsite hs hleft made) attempts hleft
    exact ⟨.forked rounds', .forked attempts', .forked hsame⟩
  | waited read => exact ⟨_, .waited read, .refl site name _⟩
  | unreadable read => exact ⟨_, .unreadable read, .refl site name _⟩
  | chose => exact ⟨_, .chose, .refl site name _⟩
  | succeeded => exact ⟨_, .succeeded, .refl site name _⟩
  | failed => exact ⟨_, .failed, .refl site name _⟩

theorem Passes.alike (h : e.Alike e' root) (hbelow : e.AlikeBelow e' root n)
    (hsite : Leads root site) {current : String} {p q : Progress σ} {s : State} {step : Step}
    {activity : Activity} (pass : e.Passes site current p s step activity q)
    (hleft : p.left ≤ n) :
    ∃ activity', e'.Passes site current p s step activity' q ∧
      (enteredVisit site ⟨current, p.toMoment, activity', step, q.toMoment⟩).map Entered.noticed
        = (enteredVisit site ⟨current, p.toMoment, activity, step, q.toMoment⟩).map
          Entered.noticed := by
  have hpos := pass.left_pos
  have hlt : p.left - 1 < n := by omega
  obtain ⟨activity', visit', hsame⟩ := pass.visit.alike h hbelow hsite pass.state hlt
  refine ⟨activity', ⟨h.isLate ▸ pass.onTime, hpos, pass.state, visit'⟩, ?_⟩
  rw [enteredVisit, enteredVisit, List.map_cons, List.map_cons, hsame.inside, Entered.noticed,
    Entered.noticed, hsame.calls]
  rfl

theorem Walks.alike (h : e.Alike e' root) (hbelow : e.AlikeBelow e' root n)
    (hsite : Leads root site) {current : String} {p q : Progress σ} {visits : List Visit}
    {verdict : Verdict} (hwalk : e.Walks site current p visits verdict q) (hleft : p.left ≤ n) :
    ∃ visits', e'.Walks site current p visits' verdict q ∧
      (enteredVisits site visits').map Entered.noticed
        = (enteredVisits site visits).map Entered.noticed := by
  -- the last state of a walk, whatever it decides
  have hlast : ∀ {current : String} {p q : Progress σ} {s : State} {step : Step}
      {activity : Activity}, e.Passes site current p s step activity q → p.left ≤ n →
      ∃ activity', e'.Passes site current p s step activity' q ∧
        (enteredVisits site [⟨current, p.toMoment, activity', step, q.toMoment⟩]).map
            Entered.noticed
          = (enteredVisits site [⟨current, p.toMoment, activity, step, q.toMoment⟩]).map
            Entered.noticed := by
    intro current p q s step activity last hleft
    obtain ⟨activity', last', hsame⟩ := last.alike h hbelow hsite hleft
    refine ⟨activity', last', ?_⟩
    simp only [enteredVisits, List.append_nil]
    exact hsame
  induction hwalk with
  | late late => exact ⟨[], .late (h.isLate ▸ late), rfl⟩
  | ceiling onTime spent =>
    have hceiling : e'.ceiling = e.ceiling := by
      rw [Engine.ceiling, Engine.ceiling, h.maxTransitions]
    exact ⟨[], hceiling ▸ .ceiling (h.isLate ▸ onTime) spent, rfl⟩
  | missing onTime left_pos state =>
    exact ⟨_, .missing (h.isLate ▸ onTime) left_pos state, rfl⟩
  | next first _ ih =>
    have hlt := first.left_lt
    obtain ⟨activity', first', hsame⟩ := first.alike h hbelow hsite hleft
    obtain ⟨visits', rest', hsameRest⟩ := ih (by omega)
    refine ⟨_, .next first' rest', ?_⟩
    rw [enteredVisits, enteredVisits, List.map_append, List.map_append, hsame, hsameRest]
  | finished last =>
    obtain ⟨activity', last', hsame⟩ := hlast last hleft
    exact ⟨_, h.isLate ▸ .finished last', hsame⟩
  | failed last =>
    obtain ⟨activity', last', hsame⟩ := hlast last hleft
    exact ⟨_, .failed last', hsame⟩
  | outOfTime last =>
    obtain ⟨activity', last', hsame⟩ := hlast last hleft
    exact ⟨_, .outOfTime last', hsame⟩

/-- **The runs of two engines that make the same calls** show no difference. -/
theorem Alike.runScope (h : e.Alike e' root) (hsite : Leads root site) {p q : Progress σ}
    {r : ScopeRun} (hr : e.runScope site p = (r, q)) :
    ∃ r', e'.runScope site p = (r', q) ∧ SameRun site r r' := by
  -- a branch has fewer states left to enter than the scope around it
  induction hn : p.left using Nat.strongRecOn generalizing site p q r with
  | ind n ih =>
    obtain ⟨visits, verdict, q₁, heq, hwalk⟩ := e.walks_runScope site p
    obtain ⟨rfl, rfl⟩ := Prod.mk.inj (heq.symm.trans hr)
    have hbelow : e.AlikeBelow e' root n := fun hsite hlt hr ↦ ih _ hlt hsite hr rfl
    obtain ⟨visits', walk', hsame⟩ := hwalk.alike h hbelow hsite (Nat.le_of_eq hn)
    exact ⟨_, walk'.runScope_eq, rfl, rfl, rfl, hsame⟩

/-- **The runs of a document** by two engines that make the same calls have the same outcome, leave
the performer in the same state, and come to the tasks with the same calls in the same order. -/
theorem Alike.execute (h : e.Alike e' e.root) (hmachine : e'.document.machine = e.document.machine)
    (input : Json) (world : σ) :
    e'.execute input world = e.execute input world ∧
      (e'.entered input world).map Entered.noticed
        = (e.entered input world).map Entered.noticed := by
  have hroot : e'.root = e.root := by rw [root, root, hmachine]
  have hstart : e'.start input world = e.start input world := by
    rw [start, start, h.maxTransitions]
  rcases hr : e.runScope e.root (e.start input world) with ⟨r, q⟩
  obtain ⟨r', hr', hsame⟩ := h.runScope .refl hr
  have hrun : e.run input world = (r, q.world) := congrArg (fun x ↦ (x.1, x.2.world)) hr
  have hrun' : e'.run input world = (r', q.world) := by
    rw [← hroot, ← hstart] at hr'
    exact congrArg (fun x ↦ (x.1, x.2.world)) hr'
  have htrace : r'.trace = r.trace := by
    have hpositions := congrArg (List.map Prod.fst) hsame.noticed
    rw [List.map_map, List.map_map] at hpositions
    rw [r'.trace_eq_map e.root, r.trace_eq_map e.root]
    exact hpositions
  have hdeadline : e'.deadline = e.deadline := by rw [deadline, deadline, hmachine]
  refine ⟨?_, ?_⟩
  · rw [Engine.execute, Engine.execute, hrun, hrun', hdeadline]
    simp only [Execution.ofRun, htrace, hsame.final, hsame.verdict]
  · rw [entered, entered, hrun, hrun', hroot]
    exact hsame.noticed

end Engine

end Workflow
