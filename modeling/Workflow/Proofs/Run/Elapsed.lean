import Workflow.Proofs.Run.Calls
import Workflow.Proofs.Run.Deadline
import Workflow.Proofs.Run.Graph

/-!
# What a run costs

The clock of a run stops at its limit, again and again on the way: every wait and every delay is
added to a clock that may have stopped already, and the clock of a parallel state is the greatest
of clocks of which each may have stopped. The cost of a run is the same account without a limit:
the waits, the delays of the retries that are granted, and for every round of branches the cost of
its dearest branch.

## The one fact

A clock that has stopped at the limit can be stopped once more without any difference, so
`advance clock` takes sums of costs to clocks one after the other (`advance_advance`) and greatest
costs to greatest clocks (`max_advance`). Hence the limit may be left for the end: the clock after
anything is `advance` of the clock before it by what it costs. This is proved of the loop of
attempts, of a round, of a visit and of a walk, in this order.
-/

namespace Workflow

/-! ## The clock -/

theorem advance_zero {clock : Nat} (h : clock ≤ clockLimit) : advance clock 0 = clock :=
  Nat.min_eq_right h

theorem advance_advance (clock a b : Nat) :
    advance (advance clock a) b = advance clock (a + b) := by
  unfold advance
  omega

theorem max_advance (clock a b : Nat) :
    max (advance clock a) (advance clock b) = advance clock (max a b) := by
  unfold advance
  omega

/-! ## Costs -/

/-- The seconds of the retries that are granted. -/
def grantedSeconds (decisions : List (Option Grant)) : Nat :=
  decisions.foldr (fun decision seconds ↦ (decision.map Grant.delay).getD 0 + seconds) 0

/-- The error name of a round that failed. -/
def roundError? (runs : List ScopeRun) : Option String :=
  match Engine.gather runs with
  | .error (some f) => some f.error
  | .error none | .ok _ => none

/-- What the retriers of a parallel state say about the rounds that failed, in order. -/
def ParallelSettings.decisions (settings : ParallelSettings)
    (rounds : List (Attempt (List ScopeRun))) : List (Option Grant) :=
  ((RetryTracker.ofRetriers settings.retry).answers (namesOf roundError? rounds)).1

/-- The seconds that a visit takes by itself, whatever goes on in branches: those of a wait, as far
as the document on entry has them, and those of the retries that the retriers of the state grant. -/
def ownSeconds (s : Option State) (doc : Json) (activity : Activity) : Nat :=
  match s, activity with
  | some (.wait w), _ => (Engine.waitSeconds w doc).toOption.getD 0
  | some (.task t), .called calls => grantedSeconds (t.decisions calls)
  | some (.parallel _ settings), .forked rounds => grantedSeconds (settings.decisions rounds)
  | _, _ => 0

mutual

/-- What the run of a scope costs in seconds, without any limit. -/
def ScopeRun.cost (m : Machine) : ScopeRun → Nat
  | ⟨_, _, visits, _, _⟩ => costVisits m visits

def costVisits (m : Machine) : List Visit → Nat
  | [] => 0
  | v :: vs => costVisit m v + costVisits m vs

def costVisit (m : Machine) : Visit → Nat
  | ⟨state, entry, activity, _, _⟩ =>
    ownSeconds (m.state? state) entry.document activity + costActivity m state activity

def costActivity (m : Machine) (name : String) : Activity → Nat
  | .none => 0
  | .waited _ => 0
  | .called _ => 0
  | .forked rounds => costRounds m name rounds

def costRounds (m : Machine) (name : String) : List (Attempt (List ScopeRun)) → Nat
  | [] => 0
  | ⟨runs, _⟩ :: rounds => costRuns m name 0 runs + costRounds m name rounds

/-- The cost of the dearest run among those of the branches from an index on. -/
def costRuns (m : Machine) (name : String) (index : Nat) : List ScopeRun → Nat
  | [] => 0
  | r :: rs =>
    max (ScopeRun.cost (((m.branchesOf name)[index]?).getD default) r)
      (costRuns m name (index + 1) rs)

end

/-! ## The loop of attempts -/

section Loop

variable {σ ρ : Type} {isLate : Nat → Bool} {catchers : List Catcher}
  {attempt : Nat → Progress σ → AttemptResult × ρ × Progress σ}

/-- What attempts cost, apart from the delays after them. -/
def costAttempts (costOf : ρ → Nat) (attempts : List (Attempt ρ)) : Nat :=
  attempts.foldr (fun a seconds ↦ costOf a.record + seconds) 0

theorem costAttempts_cons (costOf : ρ → Nat) (a : Attempt ρ) (attempts : List (Attempt ρ)) :
    costAttempts costOf (a :: attempts) = costOf a.record + costAttempts costOf attempts := rfl

/-- An attempt takes what its record costs, as long as at most `n` states are left to enter. -/
def Takes (n : Nat) (costOf : ρ → Nat)
    (attempt : Nat → Progress σ → AttemptResult × ρ × Progress σ) : Prop :=
  ∀ {k p result record q}, attempt k p = (result, record, q) → p.left ≤ n →
    p.clock ≤ clockLimit → q.left ≤ n ∧ q.clock = advance p.clock (costOf record)

/-- **The clock of a loop.** It is moved on by what the attempts cost and by the delays of the
retries that the tracker grants. -/
theorem Retries.clock_eq {errorOf : ρ → Option String} (htells : Tells errorOf attempt) {n : Nat}
    {costOf : ρ → Nat} (htakes : Takes n costOf attempt) {t : RetryTracker} {p q : Progress σ}
    {step : Step} {attempts : List (Attempt ρ)}
    (h : Retries isLate catchers attempt t p step attempts q) (hleft : p.left ≤ n)
    (hlimit : p.clock ≤ clockLimit) :
    q.clock = advance p.clock (costAttempts costOf attempts
      + grantedSeconds (t.answers (namesOf errorOf attempts)).1) := by
  induction h with
  | settled made =>
    rw [namesOf_of_settled htells made]
    exact (htakes made hleft hlimit).2
  | handled made refused =>
    rw [namesOf_cons_of_failed htells made, RetryTracker.answers_cons,
      RetryTracker.answer_of_refused refused]
    exact (htakes made hleft hlimit).2
  | @late _ _ p q _ g record made granted _ =>
    have hq := (htakes made hleft hlimit).2
    rw [namesOf_cons_of_failed htells made, RetryTracker.answers_cons,
      RetryTracker.answer_of_granted granted]
    calc advance q.clock g.delay
        = advance (advance p.clock (costOf record)) g.delay := by rw [hq]
      _ = advance p.clock (costOf record + g.delay) := advance_advance _ _ _
  | @again _ t' p q r _ g _ record rest made granted _ _ ih =>
    obtain ⟨hleft', hq⟩ := htakes made hleft hlimit
    rw [namesOf_cons_of_failed htells made, RetryTracker.answers_cons,
      RetryTracker.answer_of_granted granted, costAttempts_cons]
    generalize hsum : costAttempts costOf rest = later
    generalize hgranted : (t'.answers (namesOf errorOf rest)).1 = decisions
    rw [hsum, hgranted] at ih
    calc r.clock
        = advance (advance q.clock g.delay) (later + grantedSeconds decisions) :=
          ih hleft' (advance_le _ _)
      _ = advance p.clock (costOf record + g.delay + (later + grantedSeconds decisions)) := by
          rw [hq, advance_advance, advance_advance, Nat.add_assoc]
      _ = advance p.clock (costOf record + later + (g.delay + grantedSeconds decisions)) := by
          rw [Nat.add_add_add_comm]

/-- Every attempt of a loop starts within the time of the loop. -/
theorem Retries.exists_within {errorOf : ρ → Option String} (htells : Tells errorOf attempt)
    {n : Nat} {costOf : ρ → Nat} (htakes : Takes n costOf attempt) {t : RetryTracker}
    {p q : Progress σ} {step : Step} {attempts : List (Attempt ρ)}
    (h : Retries isLate catchers attempt t p step attempts q) (hleft : p.left ≤ n)
    (hlimit : p.clock ≤ clockLimit) {a : Attempt ρ} (ha : a ∈ attempts) :
    ∃ k p' result q', attempt k p' = (result, a.record, q') ∧ p'.left ≤ n ∧
      p.clock ≤ p'.clock ∧ p'.clock ≤ clockLimit ∧ q'.clock ≤ q.clock := by
  induction h with
  | settled made | handled made _ =>
    obtain rfl := List.mem_singleton.mp ha
    exact ⟨_, _, _, _, made, hleft, Nat.le_refl _, hlimit, Nat.le_refl _⟩
  | late made _ _ =>
    obtain rfl := List.mem_singleton.mp ha
    have hq := (htakes made hleft hlimit).2
    exact ⟨_, _, _, _, made, hleft, Nat.le_refl _, hlimit, le_advance _ (hq ▸ advance_le _ _)⟩
  | @again _ _ p q _ _ g _ _ _ made _ _ more ih =>
    obtain ⟨hleft', hq⟩ := htakes made hleft hlimit
    have hlater : q.clock ≤ advance q.clock g.delay := le_advance _ (hq ▸ advance_le _ _)
    rcases List.mem_cons.mp ha with rfl | hrest
    · have hend := more.clock_eq htells htakes hleft' (advance_le _ _)
      refine ⟨_, _, _, _, made, hleft, Nat.le_refl _, hlimit, Nat.le_trans hlater ?_⟩
      rw [hend]
      exact le_advance _ (advance_le _ _)
    · obtain ⟨k, p', result, q', made', hn, hstart, hrest⟩ := ih hleft' (advance_le _ _) hrest
      refine ⟨k, p', result, q', made', hn, Nat.le_trans ?_ hstart, hrest⟩
      exact Nat.le_trans (hq ▸ le_advance _ hlimit) hlater

end Loop

theorem costAttempts_zero {ρ : Type} (attempts : List (Attempt ρ)) :
    costAttempts (fun _ ↦ 0) attempts = 0 := by
  induction attempts with
  | nil => rfl
  | cons a rest ih => rw [costAttempts_cons, ih]

theorem costRounds_eq (m : Machine) (name : String) (rounds : List (Attempt (List ScopeRun))) :
    costRounds m name rounds = costAttempts (costRuns m name 0) rounds := by
  induction rounds with
  | nil => rfl
  | cons round rounds ih =>
    obtain ⟨runs, delay⟩ := round
    rw [costRounds, ih, costAttempts_cons]

namespace Engine

variable {σ : Type} {e : Engine σ} {site : Site} {name : String}

/-- Calls take no time. -/
theorem takes_attemptTask (n : Nat) (s : State) (t : TaskState) :
    Takes n (fun _ ↦ 0) (e.attemptTask site name s t) := by
  intro k p result call q made hleft hlimit
  obtain ⟨doc, world, -, -, rfl⟩ := answers_of_attemptTask made
  exact ⟨hleft, (advance_zero hlimit).symm⟩

/-! ## Rounds -/

theorem tells_attemptParallel {run : Runner σ} (s : State) (branches : List Machine)
    (settings : ParallelSettings) :
    Tells roundError? (attemptParallel run site name s branches settings) where
  failed made := by
    obtain ⟨doc, q', hrounds, -, -⟩ := rounds_of_attemptParallel made
    cases hrounds with
    | failed gathered => rw [roundError?, gathered]
  settled := by
    intro k p step runs q made
    obtain ⟨doc, q', hrounds, -, -⟩ := rounds_of_attemptParallel made
    generalize hresult : AttemptResult.settled step = result at hrounds
    cases hrounds with
    | failed _ => cases hresult
    | outOfTime gathered | stored gathered _ | unstored gathered _ => rw [roundError?, gathered]

/-- The slowest of some runs that started together is the dearest one. -/
theorem slowest_eq_advance {m : Machine} {index start : Nat} {runs : List ScopeRun}
    (h : ∀ (i : Nat) (r : ScopeRun), runs[i]? = some r →
      r.final.clock = advance start (r.cost (((m.branchesOf name)[index + i]?).getD default)))
    (seconds : Nat) :
    slowest (advance start seconds) runs
      = advance start (max seconds (costRuns m name index runs)) := by
  induction runs generalizing index seconds with
  | nil => rw [costRuns, Nat.max_zero, slowest, List.foldl_nil]
  | cons r rs ih =>
    have hr : r.final.clock = advance start (r.cost (((m.branchesOf name)[index]?).getD default)) :=
      h 0 r rfl
    rw [slowest_cons, hr, max_advance, costRuns, ← Nat.max_assoc]
    refine ih (fun i r' hr' ↦ ?_) _
    rw [Nat.add_right_comm, Nat.add_assoc]
    exact h (i + 1) r' hr'

/-- Runs with fewer than `n` states left to enter end as much later as they cost. -/
def ClocksBelow (e : Engine σ) (n : Nat) : Prop :=
  ∀ (site : Site) (p : Progress σ), p.left < n → p.clock ≤ clockLimit →
    (e.runScope site p).1.final.clock
      = advance p.clock ((e.runScope site p).1.cost site.machine)

variable {n : Nat}

/-- The runs of a round start together, and each of them ends as much later as it costs. -/
theorem ClocksBelow.runBranches (hbelow : e.ClocksBelow n) {branches : List Machine}
    {settings : ParallelSettings}
    (hs : site.machine.state? name = some (.parallel branches settings)) {p q : Progress σ}
    (hleft : p.left < n) (hlimit : p.clock ≤ clockLimit) {runs : List ScopeRun}
    (hruns : Engine.runBranches e.runScope site name p.toMoment 0 branches p = (runs, q)) {i : Nat}
    {r : ScopeRun} (hr : runs[i]? = some r) :
    r.start.clock = p.clock ∧ r.final.clock
      = advance p.clock (r.cost (((site.machine.branchesOf name)[i]?).getD default)) := by
  obtain rfl : (Engine.runBranches e.runScope site name p.toMoment 0 branches p).1 = runs :=
    congrArg Prod.fst hruns
  obtain ⟨m, p', hm, hp', hle, rfl⟩ := exists_of_getElem?_runBranches e.narrows_runScope hr
  have hclock : p'.clock = p.clock := congrArg Moment.clock hp'
  rw [Machine.branchesOf_eq hs, hm, Option.getD_some, ← hclock]
  exact ⟨rfl, hbelow _ p' (Nat.lt_of_le_of_lt hle hleft) (hclock ▸ hlimit)⟩

/-- A round takes as long as its dearest branch. -/
theorem ClocksBelow.takes (hbelow : e.ClocksBelow n) {branches : List Machine}
    {settings : ParallelSettings}
    (hs : site.machine.state? name = some (.parallel branches settings)) (s : State) {left : Nat}
    (hlt : left < n) :
    Takes left (costRuns site.machine name 0)
      (attemptParallel e.runScope site name s branches settings) := by
  intro k p result runs q made hleft hlimit
  have hle := attemptParallel_left_le e.narrows_runScope site name s branches settings k p
  rw [made] at hle
  obtain ⟨doc, q', -, hruns, rfl⟩ := rounds_of_attemptParallel made
  have hclocks : ∀ (i : Nat) (r : ScopeRun), runs[i]? = some r → r.final.clock = advance p.clock
      (r.cost (((site.machine.branchesOf name)[0 + i]?).getD default)) := by
    intro i r hr
    rw [Nat.zero_add]
    exact (hbelow.runBranches hs (Nat.lt_of_le_of_lt hleft hlt) hlimit hruns hr).2
  have hslowest := slowest_eq_advance hclocks 0
  rw [advance_zero hlimit, Nat.zero_max] at hslowest
  exact ⟨Nat.le_trans hle hleft, hslowest⟩

/-! ## Visits -/

/-- The time of a visit, by its cost at the machine of its scope. The rounds of branches lie inside
it, and the branches of a round start together. -/
structure Spans (m : Machine) (v : Visit) : Prop where
  exit : v.exit.clock = min clockLimit (v.entry.clock + costVisit m v)
  le : v.entry.clock ≤ v.exit.clock
  rounds : ∀ round ∈ v.activity.rounds, ∃ start, v.entry.clock ≤ start ∧
    ∀ r ∈ round.record, r.start.clock = start ∧ start ≤ r.final.clock ∧
      r.final.clock ≤ v.exit.clock

/-- What a loop of rounds lies between. -/
theorem ClocksBelow.exists_start (hbelow : e.ClocksBelow n) {branches : List Machine}
    {settings : ParallelSettings} {catchers : List Catcher} {s : State}
    (hs : site.machine.state? name = some (.parallel branches settings)) {tracker : RetryTracker}
    {p q : Progress σ} {step : Step} {rounds : List (Attempt (List ScopeRun))}
    (h : Retries e.isLate catchers (attemptParallel e.runScope site name s branches settings)
      tracker p step rounds q) (hlt : p.left < n) (hlimit : p.clock ≤ clockLimit)
    {round : Attempt (List ScopeRun)} (hround : round ∈ rounds) :
    ∃ start, p.clock ≤ start ∧ ∀ r ∈ round.record, r.start.clock = start ∧
      start ≤ r.final.clock ∧ r.final.clock ≤ q.clock := by
  obtain ⟨k, p', result, q', made, hleft, hstart, hlimit', hend⟩ := h.exists_within
    (tells_attemptParallel s branches settings) (hbelow.takes hs s hlt) (Nat.le_refl _) hlimit
    hround
  obtain ⟨doc, q'', -, hruns, rfl⟩ := rounds_of_attemptParallel made
  refine ⟨p'.clock, hstart, fun r hr ↦ ?_⟩
  obtain ⟨i, hi⟩ := List.mem_iff_getElem?.mp hr
  obtain ⟨hr', hfinal⟩ :=
    hbelow.runBranches hs (Nat.lt_of_le_of_lt hleft hlt) hlimit' hruns hi
  exact ⟨hr', hfinal ▸ le_advance _ hlimit', Nat.le_trans (le_slowest hr) hend⟩

/-- **The time of a visit.** -/
theorem Visits.spans (hbelow : e.ClocksBelow n) {s : State} {p q : Progress σ} {step : Step}
    {activity : Activity} (hs : site.machine.state? name = some s)
    (h : Visits e e.runScope site name s p step activity q) (hlt : p.left < n)
    (hlimit : p.clock ≤ clockLimit) :
    Spans site.machine ⟨name, p.toMoment, activity, step, q.toMoment⟩ := by
  have hexit : q.clock = advance p.clock
      (ownSeconds (some s) p.document activity + costActivity site.machine name activity) := by
    cases h with
    | @called t _ _ _ calls attempts =>
      have hq := attempts.clock_eq (tells_attemptTask _) (takes_attemptTask p.left _ t)
        (Nat.le_refl _) hlimit
      rw [costAttempts_zero, Nat.zero_add] at hq
      exact hq
    | @forked branches settings _ _ _ rounds attempts =>
      have hq := attempts.clock_eq (tells_attemptParallel _ branches settings)
        (hbelow.takes hs _ hlt) (Nat.le_refl _) hlimit
      rw [← costRounds_eq, Nat.add_comm] at hq
      exact hq
    | waited read => rw [ownSeconds, read, costActivity]; rfl
    | unreadable read => rw [ownSeconds, read]; exact (advance_zero hlimit).symm
    | chose | succeeded | failed => exact (advance_zero hlimit).symm
  refine ⟨?_, hexit ▸ le_advance _ hlimit, ?_⟩
  · rw [costVisit, hs]
    exact hexit
  · intro round hround
    obtain ⟨rounds, rfl, hround⟩ := Activity.exists_of_mem_rounds hround
    cases h with
    | forked attempts => exact hbelow.exists_start hs attempts hlt hlimit hround

/-! ## Runs -/

/-- The time of a walk, and of every visit on the way. -/
theorem Walks.spans (hbelow : e.ClocksBelow n) {current : String} {p q : Progress σ}
    {visits : List Visit} {verdict : Verdict} (h : e.Walks site current p visits verdict q)
    (hleft : p.left ≤ n) (hlimit : p.clock ≤ clockLimit) :
    q.clock = advance p.clock (costVisits site.machine visits) ∧
      ∀ v ∈ visits, Spans site.machine v := by
  have hpasses : ∀ {current : String} {p q : Progress σ} {s : State} {step : Step}
      {activity : Activity}, p.left ≤ n → p.clock ≤ clockLimit →
      e.Passes site current p s step activity q →
      Spans site.machine ⟨current, p.toMoment, activity, step, q.toMoment⟩ := by
    intro current p q s step activity hleft hlimit pass
    have hlt : p.left - 1 < n := Nat.lt_of_lt_of_le (Nat.sub_one_lt_of_lt pass.left_pos) hleft
    exact Visits.spans (p := { p with left := p.left - 1 }) hbelow pass.state pass.visit hlt hlimit
  induction h with
  | late _ | ceiling _ _ => exact ⟨(advance_zero hlimit).symm, by simp⟩
  | @missing current p _ _ state =>
    have hcost : costVisit site.machine (missingVisit current p) = 0 := by
      rw [missingVisit, costVisit, state]
      rfl
    have hclock := advance_zero hlimit
    refine ⟨by rw [costVisits, hcost]; exact hclock.symm, List.forall_mem_singleton.mpr ?_⟩
    exact ⟨by rw [hcost]; exact hclock.symm, Nat.le_refl _, by simp [missingVisit, Activity.rounds]⟩
  | @next _ _ p q _ _ _ visits _ first _ ih =>
    have hfirst := hpasses hleft hlimit first
    have hq : q.clock = advance p.clock _ := hfirst.exit
    obtain ⟨hrest, hspans⟩ := ih (Nat.le_trans (Nat.le_of_lt first.left_lt) hleft)
      (hq ▸ advance_le _ _)
    refine ⟨?_, List.forall_mem_cons.mpr ⟨hfirst, hspans⟩⟩
    rw [hrest, hq, advance_advance, costVisits]
  | finished last | failed last | outOfTime last =>
    have hlast := hpasses hleft hlimit last
    exact ⟨hlast.exit, List.forall_mem_singleton.mpr hlast⟩

/-- The run of a scope keeps the time: its visits follow one another without a gap, each of them
takes what it costs, and so does the whole. -/
structure KeepsTime (m : Machine) (r : ScopeRun) : Prop where
  first : ∀ v ∈ r.visits.head?, v.entry.clock = r.start.clock
  follows : r.visits.IsChain fun v w ↦ w.entry.clock = v.exit.clock
  visits : ∀ v ∈ r.visits, Spans m v
  final : r.final.clock = min clockLimit (r.start.clock + r.cost m)

/-- **A scope keeps the time.** -/
theorem keepsTime_runScope (e : Engine σ) (site : Site) (p : Progress σ)
    (hlimit : p.clock ≤ clockLimit) : KeepsTime site.machine (e.runScope site p).1 := by
  -- a branch has fewer states left to enter than the scope around it
  induction hn : p.left using Nat.strongRecOn generalizing site p with
  | ind n ih =>
    obtain ⟨visits, verdict, q, heq, hwalk⟩ := e.walks_runScope site p
    rw [heq]
    have hbelow : e.ClocksBelow n := fun site' p' hlt hlimit' ↦
      (ih p'.left hlt site' p' hlimit' rfl).final
    obtain ⟨hfinal, hspans⟩ := hwalk.spans hbelow (Nat.le_of_eq hn) hlimit
    exact ⟨fun v hv ↦ congrArg Moment.clock (hwalk.head v hv).2,
      hwalk.isChain.imp fun v w h ↦ congrArg Moment.clock h.entry, hspans, hfinal⟩

/-- **Time is accounted for.** The seconds that an execution shows are the cost of its run, up to
the limit of the clock. The same holds of every run of a branch that is started, from the time when
it starts, and of every visit, so a clock never goes back. -/
theorem elapsedSeconds_eq_cost (e : Engine σ) (input : Json) (world : σ) :
    (e.execute input world).1.elapsedSeconds.toNat
      = min clockLimit ((e.run input world).1.cost e.document.machine) ∧
    ∀ site r, Started e.root (e.run input world).1 site r → KeepsTime site.machine r := by
  have hroot : KeepsTime e.root.machine (e.run input world).1 :=
    e.keepsTime_runScope e.root (e.start input world) (Nat.zero_le _)
  have hfinal := hroot.final
  constructor
  · have hstart : (e.run input world).1.start.clock = 0 := rfl
    rw [hstart, Nat.zero_add] at hfinal
    have hlt : (e.run input world).1.final.clock < UInt64.size := by
      rw [hfinal]
      exact Nat.lt_of_le_of_lt (Nat.min_le_left _ _) (by decide)
    rw [elapsedSeconds_execute, UInt64.toNat_ofNat_of_lt' hlt, hfinal]
    rfl
  · intro site r hr
    induction hr with
    | whole => exact hroot
    | @branch outer run inner v round i started mem mem_rounds get ih =>
      obtain ⟨-, p, rfl⟩ := Started.exists_run (p := e.start input world)
        (started.branch mem mem_rounds get)
      -- the branch starts within a visit, whose clocks keep to the limit
      have hspans := ih.visits v mem
      obtain ⟨start, -, hinside⟩ := hspans.rounds round mem_rounds
      obtain ⟨hstart, hle, hend⟩ := hinside _ (List.mem_of_getElem? get)
      have hlimit : v.exit.clock ≤ clockLimit := hspans.exit ▸ Nat.min_le_left _ _
      refine e.keepsTime_runScope _ p ?_
      exact Nat.le_trans (Nat.le_of_eq hstart) (Nat.le_trans hle (Nat.le_trans hend hlimit))

/-- Two rounds in which one branch rests and the other one pauses and fails, and a wait that is as
long as the clock can show. -/
def failingFan : Engine Unit where
  document := .ofMachine {
    startAt := "Fan"
    states := [
      ("Fan", .parallel [
        { startAt := "Rest", states := [
          ("Rest", .wait { seconds := some 5, transition := { ending := some true } })] },
        { startAt := "Pause", states := [
          ("Busy", .fail { error := some "Busy" }),
          ("Pause", .wait { seconds := some 3, transition := { next := some "Busy" } })] }]
        { retry := [{ errorEquals := ["Busy"], maxAttempts := 1 }]
          catchers := [{ errorEquals := [ErrorName.all], next := "Long" }] }),
      ("Long", .wait {
        seconds := some 18446744073709551615, transition := { ending := some true } })] }
  perform := fun _ s ↦ ({ result := .ok .null }, s)

/-- Each round costs as much as its rest, and the delay between the rounds is one second. The pause
of the second round is charged to its own branch alone. -/
theorem elapsedSeconds_failingFan :
    (failingFan.run .null ()).1.cost failingFan.document.machine = 5 + 1 + 5 + clockLimit ∧
      (failingFan.execute .null ()).1.elapsedSeconds.toNat = clockLimit ∧
      ∃ site r, Started failingFan.root (failingFan.run .null ()).1 site r ∧
        site.branch = [1] ∧ r.start.clock = 6 ∧ r.final.clock = 9 ∧ KeepsTime site.machine r := by
  obtain ⟨htotal, hkeeps⟩ := failingFan.elapsedSeconds_eq_cost .null ()
  have hcost : (failingFan.run .null ()).1.cost failingFan.document.machine
      = 5 + 1 + 5 + clockLimit := by decide +kernel
  have hpause : ∃ v ∈ (failingFan.run .null ()).1.visits, ∃ round ∈ v.activity.rounds,
      ∃ r ∈ round.record[1]?, r.start.clock = 6 ∧ r.final.clock = 9 := by decide +kernel
  obtain ⟨v, hv, round, hround, r, hr, hstart, hfinal⟩ := hpause
  have hwhole : Started failingFan.root (failingFan.run .null ()).1 _ _ := .whole
  have hstarted := hwhole.branch hv hround hr
  refine ⟨hcost, ?_, _, r, hstarted, rfl, hstart, hfinal, hkeeps _ r hstarted⟩
  rw [htotal, hcost]
  exact Nat.min_eq_left (Nat.le_add_left _ _)

end Engine

end Workflow
