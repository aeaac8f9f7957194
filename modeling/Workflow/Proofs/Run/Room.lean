import Workflow.Proofs.Run.Ceiling

/-!
# Runs with more room

A run carries two things along that no document speaks of: the number of states that may still be
entered, and the state of the performer. When the performer answers every invocation in the same
way whatever its state, and the number is never used up, neither can be told from the record of the
run. `Ahead` relates two moments of a run that differ in nothing else, and every part of the engine
leads from related moments to related moments, with the same record.
-/

namespace Workflow

/-- The runs inside any visit in the tree are part of the run. -/
theorem ScopeRun.Enters.hasRoom {r : ScopeRun} {scope : Scope} {v : Visit}
    (h : r.Enters scope v) (hr : ¬r.ReachesCeiling) : v.activity.HasRoom := by
  induction h with
  | here mem =>
    intro rounds hforked round hround inner hinner hreaches
    exact hr (.inside mem hforked hround hinner hreaches)
  | inside mem forked mem_rounds mem_round _ ih =>
    exact ih fun hreaches ↦ hr (.inside mem forked mem_rounds mem_round hreaches)

namespace Engine

variable {σ : Type}

/-! ## Related moments -/

/-- The performer answers by the invocation alone: by the task, its context and its branch. -/
def IsPure (e : Engine σ) : Prop :=
  ∀ i world world', (e.perform i world).1 = (e.perform i world').1

/-- The same moment with `k` more states left to enter, and any state of the performer. -/
structure Ahead (k : Nat) (p p' : Progress σ) : Prop where
  moment : p'.toMoment = p.toMoment
  left : p'.left = p.left + k

namespace Ahead

variable {k : Nat} {p p' : Progress σ}

theorem clock (h : Ahead k p p') : p'.clock = p.clock := congrArg Moment.clock h.moment

theorem document (h : Ahead k p p') : p'.document = p.document :=
  congrArg Moment.document h.moment

theorem set (h : Ahead k p p') (moment : Moment) :
    Ahead k { p with toMoment := moment } { p' with toMoment := moment } :=
  ⟨rfl, h.left⟩

/-- Entering a state. -/
theorem enter (h : Ahead k p p') (hpos : 0 < p.left) :
    Ahead k { p with left := p.left - 1 } { p' with left := p'.left - 1 } :=
  ⟨h.moment, by have := h.left; dsimp only; omega⟩

end Ahead

/-! ## Attempts -/

theorem invoke_fst {e : Engine σ} (h : e.IsPure) (handler : Handler) (ctx : TaskContext)
    (branch : Option BranchIndex) (world world' : σ) :
    (handler.invoke e.perform ctx branch world').1
      = (handler.invoke e.perform ctx branch world).1 := by
  induction handler generalizing branch with
  | here task => exact h _ _ _
  | elsewhere name => rfl
  | bound inner b ih => exact ih (some b)

theorem call_fst {e : Engine σ} (h : e.IsPure) (site : Site) (name : String) (t : TaskState)
    (ctx : TaskContext) (world world' : σ) :
    (e.call site name t ctx world').1 = (e.call site name t ctx world).1 := by
  rw [call, call]
  split
  · rfl
  · simp only [invoke_fst h _ _ _ world world']

variable {e : Engine σ} {k n : Nat} {site : Site} {name : String}

theorem attemptTask_ahead (h : e.IsPure) {s : State} {t : TaskState} {m : Nat}
    {p p' q : Progress σ} {result : AttemptResult} {call : Call} (hp : Ahead k p p')
    (made : e.attemptTask site name s t m p = (result, call, q)) :
    ∃ q', e.attemptTask site name s t m p' = (result, call, q') ∧ Ahead k q q' := by
  have hcall := fun ctx ↦ call_fst h site name t ctx p.world p'.world
  simp only [attemptTask] at made ⊢
  simp only [hp.document, hcall]
  split at made
  · cases made
    exact ⟨_, rfl, ⟨hp.moment, hp.left⟩⟩
  · split at made <;> cases made <;> exact ⟨_, rfl, ⟨by simp [hp.clock], hp.left⟩⟩

/-- Loops of attempts that lead on from related moments do so as a whole. `fine` is what has to be
known of the records for that. -/
theorem Retries.ahead {ρ : Type} {isLate : Nat → Bool} {catchers : List Catcher}
    {attempt : Nat → Progress σ → AttemptResult × ρ × Progress σ} (fine : ρ → Prop)
    (hnarrows : ∀ m p, (attempt m p).2.2.left ≤ p.left)
    (hattempt : ∀ {m p p' result record q}, p.left < n → Ahead k p p' → fine record →
      attempt m p = (result, record, q) →
        ∃ q', attempt m p' = (result, record, q') ∧ Ahead k q q')
    {t : RetryTracker} {p p' q : Progress σ} {step : Step} {attempts : List (Attempt ρ)}
    (h : Retries isLate catchers attempt t p step attempts q)
    (hfine : ∀ a ∈ attempts, fine a.record) (hleft : p.left < n) (hp : Ahead k p p') :
    ∃ q', Retries isLate catchers attempt t p' step attempts q' ∧ Ahead k q q' := by
  induction h generalizing p' with
  | settled made =>
    obtain ⟨q', made', hq⟩ := hattempt hleft hp (hfine _ List.mem_cons_self) made
    exact ⟨q', .settled made', hq⟩
  | @handled _ _ q f _ made refused =>
    obtain ⟨q', made', hq⟩ := hattempt hleft hp (hfine _ List.mem_cons_self) made
    refine ⟨{ q' with document := (handleFailure catchers f q.document).2 }, ?_, ?_⟩
    · rw [← hq.document]
      exact .handled made' refused
    · exact ⟨by simp [hq.clock], hq.left⟩
  | @late _ _ _ q _ g _ made granted late =>
    obtain ⟨q', made', hq⟩ := hattempt hleft hp (hfine _ List.mem_cons_self) made
    refine ⟨{ q' with clock := advance q'.clock g.delay },
      .late made' granted (hq.clock ▸ late), ?_⟩
    exact ⟨by simp [hq.clock, hq.document], hq.left⟩
  | @again t _ p q _ _ g _ _ _ made granted onTime _ ih =>
    have hle := hnarrows t.total p
    rw [made] at hle
    obtain ⟨q', made', hq⟩ := hattempt hleft hp (hfine _ List.mem_cons_self) made
    have hdelayed : Ahead k { q with clock := advance q.clock g.delay }
        { q' with clock := advance q'.clock g.delay } :=
      ⟨by simp [hq.clock, hq.document], hq.left⟩
    obtain ⟨r, hrest, hr⟩ := ih (fun a ha ↦ hfine a (List.mem_cons_of_mem _ ha))
      (Nat.lt_of_le_of_lt hle hleft) hdelayed
    exact ⟨r, .again made' granted (hq.clock ▸ onTime) hrest, hr⟩

/-! ## Runs -/

/-- Runs with fewer than `n` states left to enter are the same with more. -/
def AheadBelow (e : Engine σ) (k n : Nat) : Prop :=
  ∀ {site : Site} {p p' q : Progress σ} {r : ScopeRun}, p.left < n → Ahead k p p' →
    e.runScope site p = (r, q) → ¬r.ReachesCeiling →
      ∃ q', e.runScope site p' = (r, q') ∧ Ahead k q q'

theorem AheadBelow.runBranches (hbelow : e.AheadBelow k n) {start : Moment} {index : Nat}
    {ms : List Machine} {p p' q : Progress σ} {runs : List ScopeRun} (hleft : p.left < n)
    (hp : Ahead k p p') (h : Engine.runBranches e.runScope site name start index ms p = (runs, q))
    (hroom : ∀ r ∈ runs, ¬r.ReachesCeiling) :
    ∃ q', Engine.runBranches e.runScope site name start index ms p' = (runs, q') ∧
      Ahead k q q' := by
  induction ms generalizing index p p' runs with
  | nil =>
    cases h
    exact ⟨p', rfl, hp⟩
  | cons m ms ih =>
    have hle := e.narrows_runScope (branchSite site name index m) { p with toMoment := start }
    rcases hr : e.runScope (branchSite site name index m) { p with toMoment := start } with ⟨r, q₁⟩
    rw [hr] at hle
    have hfirst : ¬r.ReachesCeiling →
        ∃ q₁', e.runScope (branchSite site name index m) { p' with toMoment := start } = (r, q₁') ∧
          Ahead k q₁ q₁' :=
      hbelow (p := { p with toMoment := start }) hleft (hp.set start) hr
    by_cases hv : r.verdict = .succeeded
    · rcases hrest : Engine.runBranches e.runScope site name start (index + 1) ms q₁
        with ⟨rest, q₂⟩
      rw [runBranches_cons_of_succeeded hr hv, hrest] at h
      cases h
      obtain ⟨q₁', hr', hq₁⟩ := hfirst (hroom r List.mem_cons_self)
      obtain ⟨q₂', hrest', hq₂⟩ := ih (Nat.lt_of_le_of_lt hle hleft) hq₁ hrest
        fun r' hr' ↦ hroom r' (List.mem_cons_of_mem r hr')
      exact ⟨q₂', by rw [runBranches_cons_of_succeeded hr' hv, hrest'], hq₂⟩
    · rw [runBranches_cons_of_ne hr hv] at h
      cases h
      obtain ⟨q₁', hr', hq₁⟩ := hfirst (hroom r List.mem_cons_self)
      exact ⟨q₁', runBranches_cons_of_ne hr' hv, hq₁⟩

theorem AheadBelow.attemptParallel (hbelow : e.AheadBelow k n) {s : State}
    {branches : List Machine} {settings : ParallelSettings} {m : Nat} {p p' q : Progress σ}
    {result : AttemptResult} {runs : List ScopeRun} (hleft : p.left < n) (hp : Ahead k p p')
    (hroom : ∀ r ∈ runs, ¬r.ReachesCeiling)
    (made : Engine.attemptParallel e.runScope site name s branches settings m p
      = (result, runs, q)) :
    ∃ q', Engine.attemptParallel e.runScope site name s branches settings m p'
      = (result, runs, q') ∧ Ahead k q q' := by
  rcases hround : Engine.runBranches e.runScope site name p.toMoment 0 branches p with ⟨runs', q₁⟩
  obtain rfl : runs' = runs := by
    have hruns := attemptParallel_runs e.runScope site name s branches settings m p
    rw [made, hround] at hruns
    exact hruns.symm
  obtain ⟨q₁', hround', hq₁⟩ := hbelow.runBranches hleft hp hround hroom
  simp only [Engine.attemptParallel, hround] at made
  simp only [Engine.attemptParallel, hp.moment, hround']
  split at made
  · cases made
    exact ⟨_, rfl, ⟨rfl, hq₁.left⟩⟩
  · cases made
    exact ⟨_, rfl, ⟨rfl, hq₁.left⟩⟩
  · split at made <;> cases made <;> exact ⟨_, rfl, ⟨rfl, hq₁.left⟩⟩

theorem Visits.ahead (h : e.IsPure) (hbelow : e.AheadBelow k n) {s : State} {p p' q : Progress σ}
    {step : Step} {activity : Activity}
    (hvisit : Visits e e.runScope site name s p step activity q) (hroom : activity.HasRoom)
    (hleft : p.left < n) (hp : Ahead k p p') :
    ∃ q', Visits e e.runScope site name s p' step activity q' ∧ Ahead k q q' := by
  cases hvisit with
  | @called t _ _ _ _ attempts =>
    obtain ⟨q', attempts', hq⟩ := Retries.ahead (fun _ ↦ True)
      (fun m p ↦ Nat.le_of_eq (e.attemptTask_left site name (.task t) t m p))
      (fun _ hp _ made ↦ attemptTask_ahead h hp made) attempts (fun _ _ ↦ trivial) hleft hp
    exact ⟨q', .called attempts', hq⟩
  | forked attempts =>
    obtain ⟨q', attempts', hq⟩ := Retries.ahead
      (fun runs ↦ ∀ r ∈ runs, ¬r.ReachesCeiling)
      (attemptParallel_left_le e.narrows_runScope site name _ _ _)
      (fun hleft hp hroom made ↦ hbelow.attemptParallel hleft hp hroom made) attempts
      (hroom _ rfl) hleft hp
    exact ⟨q', .forked attempts', hq⟩
  | @waited w _ seconds read =>
    refine ⟨{ p' with clock := advance p'.clock seconds }, .waited (hp.document ▸ read), ?_⟩
    exact ⟨by simp [hp.clock, hp.document], hp.left⟩
  | unreadable read => exact ⟨p', .unreadable (hp.document ▸ read), hp⟩
  | chose => exact ⟨p', hp.document ▸ .chose, hp⟩
  | succeeded => exact ⟨p', .succeeded, hp⟩
  | failed => exact ⟨p', .failed, hp⟩

theorem Passes.ahead (h : e.IsPure) (hbelow : e.AheadBelow k n) {current : String}
    {p p' q : Progress σ} {s : State} {step : Step} {activity : Activity}
    (pass : e.Passes site current p s step activity q) (hroom : activity.HasRoom)
    (hleft : p.left ≤ n) (hp : Ahead k p p') :
    ∃ q', e.Passes site current p' s step activity q' ∧ Ahead k q q' := by
  have hpos := pass.left_pos
  have hlt : p.left - 1 < n := by omega
  obtain ⟨q', visit, hq⟩ := pass.visit.ahead h hbelow hroom hlt (hp.enter hpos)
  have hpos' : 0 < p'.left := by
    rw [hp.left]
    omega
  exact ⟨q', ⟨hp.clock ▸ pass.onTime, hpos', pass.state, visit⟩, hq⟩

theorem Walks.ahead (h : e.IsPure) (hbelow : e.AheadBelow k n) {current : String}
    {p p' q : Progress σ} {visits : List Visit} {verdict : Verdict}
    (hwalk : e.Walks site current p visits verdict q)
    (hroom : ∀ v ∈ visits, v.activity.HasRoom)
    (hcut : ∀ f, verdict = .failed f → ∃ v ∈ visits, ∃ f', v.step = .fail f')
    (hleft : p.left ≤ n) (hp : Ahead k p p') :
    ∃ q', e.Walks site current p' visits verdict q' ∧ Ahead k q q' := by
  induction hwalk generalizing p' with
  | late late => exact ⟨p', .late (hp.clock ▸ late), hp⟩
  | ceiling _ _ =>
    obtain ⟨v, hv, -⟩ := hcut _ rfl
    cases hv
  | @missing current p onTime left_pos state =>
    have hpos' : 0 < p'.left := by
      rw [hp.left]
      omega
    have hsame : missingVisit current p' = missingVisit current p := by
      rw [missingVisit, missingVisit, hp.moment]
    exact ⟨_, hsame ▸ .missing (hp.clock ▸ onTime) hpos' state, hp.enter left_pos⟩
  | @next current target p q _ _ activity visits verdict first _ ih =>
    have hlt := first.left_lt
    obtain ⟨hfirst, hrest⟩ := List.forall_mem_cons.mp hroom
    obtain ⟨q', first', hq⟩ := first.ahead h hbelow hfirst hleft hp
    have hcut' : ∀ f, verdict = .failed f → ∃ v ∈ visits, ∃ f', v.step = .fail f' := by
      intro f hf
      obtain ⟨v, hv, f', hstep⟩ := hcut f hf
      rcases List.mem_cons.mp hv with rfl | hv
      · cases hstep
      · exact ⟨v, hv, f', hstep⟩
    obtain ⟨r', rest', hr⟩ := ih hrest hcut' (by omega) hq
    refine ⟨r', ?_, hr⟩
    rw [← hp.moment, ← hq.moment]
    exact .next first' rest'
  | @finished current p q s activity last =>
    obtain ⟨q', last', hq⟩ := last.ahead h hbelow (hroom _ List.mem_cons_self) hleft hp
    refine ⟨q', ?_, hq⟩
    rw [← hp.moment, ← hq.moment]
    exact .finished last'
  | failed last =>
    obtain ⟨q', last', hq⟩ := last.ahead h hbelow (hroom _ List.mem_cons_self) hleft hp
    refine ⟨q', ?_, hq⟩
    rw [← hp.moment, ← hq.moment]
    exact .failed last'
  | outOfTime last =>
    obtain ⟨q', last', hq⟩ := last.ahead h hbelow (hroom _ List.mem_cons_self) hleft hp
    refine ⟨q', ?_, hq⟩
    rw [← hp.moment, ← hq.moment]
    exact .outOfTime last'

/-- **A run that does not reach its ceiling is the same with more room.** -/
theorem runScope_ahead (h : e.IsPure) {p p' q : Progress σ} {r : ScopeRun} (hp : Ahead k p p')
    (hr : e.runScope site p = (r, q)) (hroom : ¬r.ReachesCeiling) :
    ∃ q', e.runScope site p' = (r, q') ∧ Ahead k q q' := by
  -- a branch has fewer states left to enter than the scope around it
  induction hn : p.left using Nat.strongRecOn generalizing site p p' q r with
  | ind n ih =>
    obtain ⟨visits, verdict, q₁, heq, hwalk⟩ := e.walks_runScope site p
    obtain ⟨rfl, rfl⟩ := Prod.mk.inj (heq.symm.trans hr)
    have hbelow : e.AheadBelow k n := fun hlt hp hr hroom ↦ ih _ hlt hp hr hroom rfl
    have hinside : ∀ v ∈ visits, v.activity.HasRoom := fun v hv ↦
      (ScopeRun.Enters.here hv).hasRoom hroom
    -- a walk that failed in none of its states would have been cut by the ceiling
    have hcut : ∀ f, verdict = .failed f → ∃ v ∈ visits, ∃ f', v.step = .fail f' := by
      intro f hf
      by_cases hfails : ∃ v ∈ visits, ∃ f', v.step = .fail f'
      · exact hfails
      · exact absurd (.here hf fun v hv f' hstep ↦ hfails ⟨v, hv, f', hstep⟩) hroom
    obtain ⟨q', walk', hq⟩ := hwalk.ahead h hbelow hinside hcut (Nat.le_of_eq hn) hp
    refine ⟨q', ?_, hq⟩
    rw [walk'.runScope_eq, hp.moment, hq.moment]

end Engine

end Workflow
