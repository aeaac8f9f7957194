import Workflow.Proofs.Run.Accounts
import Workflow.Proofs.Run.Deadline

/-!
# The ceiling of a run

Three loops may go round and round: the states of a scope, the attempts at a task, and the rounds of
a parallel state, in whose branches the other two go round again. Nothing in a document keeps them
from it, and the error of a run that has entered too many states can itself be retried or caught.

What ends them all is that every state entered takes one of the states that may be entered, in
whatever scope and in whatever round, and that a visit makes no more attempts than its retriers
allow.
-/

namespace Workflow

/-- An attempt is the first one, or a retry that the tracker could still grant. -/
theorem Retries.length_le {σ ρ : Type} {isLate : Nat → Bool} {catchers : List Catcher}
    {attempt : Nat → Progress σ → AttemptResult × ρ × Progress σ} {t : RetryTracker}
    {p q : Progress σ} {step : Step} {attempts : List (Attempt ρ)}
    (h : Retries isLate catchers attempt t p step attempts q) :
    attempts.length ≤ 1 + t.remaining := by
  induction h with
  | settled _ | handled _ _ | late _ _ _ => exact Nat.le_add_right 1 _
  | again _ granted _ _ ih =>
    have hremaining := RetryTracker.remaining_of_grant? granted
    rw [List.length_cons]
    omega

/-- How often a state may invoke a handler in one visit. -/
def State.allowance : State → Nat
  | .task t => 1 + totalAttempts t.retry
  | _ => 0

/-- How often a state entered may invoke a handler. -/
def Entered.allowance (x : Entered) : Nat := (x.state?.map State.allowance).getD 0

namespace Engine

variable {σ : Type}

theorem Visits.invocations_le {e : Engine σ} {run : Runner σ} {site : Site} {name : String}
    {s : State} {p q : Progress σ} {step : Step} {activity : Activity}
    (h : Visits e run site name s p step activity q) (entry exit : Moment) :
    Visit.invocations ⟨name, entry, activity, step, exit⟩ ≤ s.allowance := by
  cases h with
  | @called t _ _ _ calls attempts =>
    have hlength := attempts.length_le
    rw [RetryTracker.remaining_ofRetriers] at hlength
    calc invocationsOf calls
        ≤ calls.length := List.countP_le_length
      _ ≤ 1 + totalAttempts t.retry := hlength
  | forked _ | waited _ | unreadable _ | chose | succeeded | failed => exact Nat.zero_le _

theorem Occurs.invocations_le {e : Engine σ} {root : Site} {left : Nat} {x : Entered}
    (h : Occurs e root left x) : x.visit.invocations ≤ x.allowance := by
  obtain ⟨site, visit⟩ := x
  obtain ⟨p, -, hmade⟩ := h.made
  cases hmade with
  | @passed _ q _ _ _ pass =>
    rw [Entered.allowance, Entered.state?, pass.state]
    exact pass.visit.invocations_le p.toMoment q.toMoment
  | missing _ _ _ => exact Nat.zero_le _

/-- **A run ends within its ceiling**, whatever the document and the tasks are. The run of every
scope is a walk by rules that know no bound. The trace has no more entries than states may be
entered, and the tasks are invoked no more often than the task states in the trace allow, by the
calls recorded and by any count that the performer keeps itself. -/
theorem execute_within_ceiling (e : Engine σ) (input : Json) (world : σ) :
    (∀ site p, ∃ visits verdict q,
      e.runScope site p = (⟨site.scope, p.toMoment, visits, verdict, q.toMoment⟩, q) ∧
        e.Walks site site.machine.startAt p visits verdict q) ∧
    (e.execute input world).1.isFinished = true ∧
    (e.execute input world).1.trace = (e.entered input world).map Entered.position ∧
    (e.execute input world).1.trace.length ≤ e.maxTransitions ∧
    total (fun x ↦ x.visit.invocations) (e.entered input world)
      ≤ total Entered.allowance (e.entered input world) ∧
    ∀ count : σ → Nat, e.Counts count →
      count (e.execute input world).2
        ≤ count world + total Entered.allowance (e.entered input world) := by
  have haccounts := e.run_accounts input world
  have hinvocations : total (fun x ↦ x.visit.invocations) (e.entered input world)
      ≤ total Entered.allowance (e.entered input world) :=
    total_le_total fun x hx ↦ (haccounts.occurs x hx).invocations_le
  refine ⟨e.walks_runScope, isFinished_execute input world, trace_eq_map_entered, ?_,
    hinvocations, ?_⟩
  · have hleft : _ + (e.entered input world).length = e.maxTransitions := haccounts.left
    rw [trace_eq_map_entered, List.length_map]
    omega
  · intro count hcount
    exact Nat.le_trans (haccounts.count count hcount) (Nat.add_le_add_left hinvocations _)

/-- A loop inside a branch whose task fails every other time. The performer counts its invocations,
and the parallel state retries even the error of entering too many states. -/
def retriedLoop : Engine Nat where
  document := .ofMachine {
    startAt := "Fan"
    states := [("Fan", .parallel [
      { startAt := "Loop", states := [
        ("Loop", .task {
          resource := "work", transition := { next := some "Loop" }
          retry := [{ errorEquals := [ErrorName.taskFailed], maxAttempts := 1 }] })] }]
      { transition := { ending := some true }
        retry := [{ errorEquals := [ErrorName.runtime], maxAttempts := 1 }] })] }
  registry := Registry.register {} (.here { name := "work" })
  perform := fun _ n ↦
    ({ result := if n % 2 = 0 then .error (.taskFailed "once") else .ok .null }, n + 1)
  maxTransitions := 3

/-- Both bounds are reached. -/
theorem execute_retriedLoop :
    (retriedLoop.execute .null 0).1.trace = ["Fan", "Fan[0]/Loop", "Fan[0]/Loop"] ∧
      (retriedLoop.execute .null 0).2 = 4 ∧
      total Entered.allowance (retriedLoop.entered .null 0) = 4 ∧
      (retriedLoop.execute .null 0).2
        ≤ 0 + total Entered.allowance (retriedLoop.entered .null 0) := by
  have hbounds := execute_within_ceiling retriedLoop .null 0
  refine ⟨by decide +kernel, by decide +kernel, by decide +kernel, ?_⟩
  exact hbounds.2.2.2.2.2 (fun n ↦ n) fun _ _ ↦ Nat.le_refl _

end Engine

/-! ## Runs that reach the ceiling -/

/-- Somewhere in the run a scope came to an end because too many states had been entered: it has
failed, and none of its states has. -/
inductive ScopeRun.ReachesCeiling : ScopeRun → Prop
  | here {r : ScopeRun} {f : Failure} (failed : r.verdict = .failed f)
      (cut : ∀ v ∈ r.visits, ∀ f', v.step ≠ .fail f') : ReachesCeiling r
  | inside {r inner : ScopeRun} {v : Visit} {rounds : List (Attempt (List ScopeRun))}
      {round : Attempt (List ScopeRun)} (mem : v ∈ r.visits) (forked : v.activity = .forked rounds)
      (mem_rounds : round ∈ rounds) (mem_round : inner ∈ round.record)
      (reaches : ReachesCeiling inner) : ReachesCeiling r

/-- No run inside some activity reaches the ceiling. -/
def Activity.HasRoom (activity : Activity) : Prop :=
  ∀ rounds, activity = .forked rounds → ∀ round ∈ rounds, ∀ inner ∈ round.record,
    ¬inner.ReachesCeiling

namespace Engine

variable {σ : Type} {e : Engine σ} {site : Site} {n : Nat}

/-- With fewer than `n` states left to enter, runs that reach the ceiling leave none. -/
def SpendsBelow (e : Engine σ) (n : Nat) : Prop :=
  ∀ (site : Site) (p : Progress σ), p.left < n → (e.runScope site p).1.ReachesCeiling →
    (e.runScope site p).2.left = 0

theorem SpendsBelow.runBranches (hbelow : e.SpendsBelow n) {name : String} {start : Moment}
    {index : Nat} {ms : List Machine} {p q : Progress σ} {runs : List ScopeRun}
    (hleft : p.left < n)
    (h : Engine.runBranches e.runScope site name start index ms p = (runs, q)) :
    (∀ r ∈ runs, ¬r.ReachesCeiling) ∨ q.left = 0 := by
  induction ms generalizing index p runs with
  | nil =>
    cases h
    exact .inl (by simp)
  | cons m ms ih =>
    have hfirst := hbelow (branchSite site name index m) { p with toMoment := start } hleft
    have hle := e.narrows_runScope (branchSite site name index m) { p with toMoment := start }
    rcases hr : e.runScope (branchSite site name index m) { p with toMoment := start } with ⟨r, q₁⟩
    rw [hr] at hfirst hle
    by_cases hv : r.verdict = .succeeded
    · rcases hrest : Engine.runBranches e.runScope site name start (index + 1) ms q₁
        with ⟨rest, q₂⟩
      rw [runBranches_cons_of_succeeded hr hv, hrest] at h
      cases h
      by_cases hreaches : r.ReachesCeiling
      · have hle' := runBranches_left_le e.narrows_runScope site name start (index + 1) ms q₁
        rw [hrest, show q₁.left = 0 from hfirst hreaches] at hle'
        exact .inr (Nat.le_zero.mp hle')
      · rcases ih (Nat.lt_of_le_of_lt hle hleft) hrest with hroom | hzero
        · exact .inl (List.forall_mem_cons.mpr ⟨hreaches, hroom⟩)
        · exact .inr hzero
    · rw [runBranches_cons_of_ne hr hv] at h
      cases h
      by_cases hreaches : r.ReachesCeiling
      · exact .inr (hfirst hreaches)
      · exact .inl (List.forall_mem_cons.mpr ⟨hreaches, by simp⟩)

theorem Visits.hasRoom (hbelow : e.SpendsBelow n) {name : String} {s : State} {p q : Progress σ}
    {step : Step} {activity : Activity}
    (h : Visits e e.runScope site name s p step activity q) (hleft : p.left < n) :
    activity.HasRoom ∨ q.left = 0 := by
  cases h with
  | called _ | waited _ | unreadable _ | chose | succeeded | failed =>
    refine .inl fun rounds hforked ↦ ?_
    cases hforked
  | @forked branches settings _ _ _ rounds attempts =>
    -- what is left does not grow from one round to the next
    have hrounds : (∀ round ∈ rounds, ∀ r ∈ round.record, ¬r.ReachesCeiling) ∨ q.left = 0 := by
      refine (attempts.chain (fun p rounds q ↦ p.left < n → q.left ≤ p.left ∧
        ((∀ round ∈ rounds, ∀ r ∈ round.record, ¬r.ReachesCeiling) ∨ q.left = 0)) ?_ ?_ hleft).2
      · intro k p result runs q delay moment made hleft
        have hle := attemptParallel_left_le e.narrows_runScope site name
          (.parallel branches settings) branches settings k p
        rw [made] at hle
        obtain ⟨doc, q', -, hruns, rfl⟩ := rounds_of_attemptParallel made
        exact ⟨hle, (hbelow.runBranches hleft hruns).imp_left fun h ↦ by simpa using h⟩
      · intro p q r round rest hfirst hrest hleft
        obtain ⟨hle, hfirst⟩ := hfirst hleft
        obtain ⟨hle', hrest⟩ := hrest (Nat.lt_of_le_of_lt hle hleft)
        refine ⟨Nat.le_trans hle' hle, ?_⟩
        rcases hfirst with hfirst | hzero
        · exact hrest.imp_left fun h ↦
            List.forall_mem_cons.mpr ⟨hfirst round List.mem_cons_self, h⟩
        · exact .inr (Nat.le_zero.mp (hzero ▸ hle'))
    refine hrounds.imp_left fun h rounds' hforked ↦ ?_
    cases hforked
    exact h

theorem Walks.left_le {current : String} {p q : Progress σ} {visits : List Visit}
    {verdict : Verdict} (h : e.Walks site current p visits verdict q) : q.left ≤ p.left := by
  induction h with
  | late _ | ceiling _ _ => exact Nat.le_refl _
  | missing _ _ _ => exact Nat.sub_le _ _
  | next first _ ih => exact Nat.le_trans ih (Nat.le_of_lt first.left_lt)
  | finished last | failed last | outOfTime last => exact Nat.le_of_lt last.left_lt

theorem Walks.hasRoom (hbelow : e.SpendsBelow n) {current : String} {p q : Progress σ}
    {visits : List Visit} {verdict : Verdict} (h : e.Walks site current p visits verdict q)
    (hleft : p.left ≤ n) : (∀ v ∈ visits, v.activity.HasRoom) ∨ q.left = 0 := by
  have hpass : ∀ {current : String} {p q : Progress σ} {s : State} {step : Step}
      {activity : Activity}, p.left ≤ n → e.Passes site current p s step activity q →
        activity.HasRoom ∨ q.left = 0 := by
    intro current p q s step activity hleft pass
    have hpos := pass.left_pos
    have hlt : p.left - 1 < n := by omega
    exact Visits.hasRoom hbelow pass.visit hlt
  induction h with
  | late _ | ceiling _ _ => exact .inl (by simp)
  | missing _ _ _ => exact .inl (by simp [missingVisit, Activity.HasRoom])
  | next first rest ih =>
    have hlt := first.left_lt
    rcases hpass hleft first with hfirst | hzero
    · exact (ih (by omega)).imp_left fun h ↦ List.forall_mem_cons.mpr ⟨hfirst, h⟩
    · exact .inr (Nat.le_zero.mp (hzero ▸ rest.left_le))
  | finished last | failed last | outOfTime last =>
    exact (hpass hleft last).imp_left fun h ↦ List.forall_mem_cons.mpr ⟨h, by simp⟩

/-- A walk that fails in none of its states has come to the ceiling itself. -/
theorem Walks.left_eq_zero {current : String} {p q : Progress σ} {visits : List Visit}
    {verdict : Verdict} {f : Failure} (h : e.Walks site current p visits verdict q)
    (hverdict : verdict = .failed f) (hcut : ∀ v ∈ visits, ∀ f', v.step ≠ .fail f') :
    q.left = 0 := by
  induction h with
  | late _ | outOfTime _ => cases hverdict
  | ceiling _ spent => exact spent
  | missing _ _ _ => exact absurd rfl (hcut _ List.mem_cons_self _)
  | next _ _ ih => exact ih hverdict fun v hv ↦ hcut v (List.mem_cons_of_mem _ hv)
  | finished _ => split at hverdict <;> cases hverdict
  | failed _ => exact absurd rfl (hcut _ List.mem_cons_self _)

theorem runScope_left_of_reachesCeiling {p : Progress σ}
    (h : (e.runScope site p).1.ReachesCeiling) : (e.runScope site p).2.left = 0 := by
  -- a branch has fewer states left to enter than the scope around it
  induction hn : p.left using Nat.strongRecOn generalizing site p with
  | ind n ih =>
    obtain ⟨visits, verdict, q, heq, hwalk⟩ := e.walks_runScope site p
    rw [heq] at h ⊢
    have hbelow : e.SpendsBelow n := fun _ p' hlt h ↦ ih p'.left hlt h rfl
    cases h with
    | here failed cut => exact hwalk.left_eq_zero failed cut
    | inside mem forked mem_rounds mem_round reaches =>
      rcases hwalk.hasRoom hbelow (Nat.le_of_eq hn) with hroom | hzero
      · exact absurd reaches (hroom _ mem _ forked _ mem_rounds _ mem_round)
      · exact hzero

/-- **A run that reaches its ceiling has entered all the states it may.** -/
theorem length_trace_of_reachesCeiling {input : Json} {world : σ}
    (h : (e.run input world).1.ReachesCeiling) :
    (e.run input world).1.trace.length = e.maxTransitions := by
  have hzero : (e.runScope e.root (e.start input world)).2.left = 0 :=
    runScope_left_of_reachesCeiling h
  have hleft := (e.run_accounts input world).left
  rw [hzero, Nat.zero_add] at hleft
  rw [ScopeRun.trace_eq_map e.root, List.length_map]
  exact hleft

end Engine

end Workflow
