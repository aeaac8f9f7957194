import Workflow.Machine.Reachable
import Workflow.Proofs.Run.Decisions
import Workflow.Proofs.Run.Entered
import Workflow.Run.Execution

/-!
# Accounts of a run

What a run has entered accounts for what it has used. Every state entered takes one of the states
that could be entered, and nothing else does; the tasks are invoked by the visits of task states,
and nothing else does that; and every state entered was reached, from the start of its machine, by
way of targets.

The three are proved together, since all of them are sums along the run: what holds of a visit
without branches holds of the tree.
-/

namespace Workflow

/-- A number summed over the states entered. -/
def total (f : Entered → Nat) (entered : List Entered) : Nat :=
  entered.foldr (fun x n ↦ f x + n) 0

theorem total_append (f : Entered → Nat) (xs ys : List Entered) :
    total f (xs ++ ys) = total f xs + total f ys := by
  induction xs with
  | nil => simp [total]
  | cons x xs ih =>
    have hcons : ∀ zs, total f (x :: zs) = f x + total f zs := fun _ ↦ rfl
    rw [List.cons_append, hcons, hcons, ih, Nat.add_assoc]

theorem total_le_total {f g : Entered → Nat} {xs : List Entered} (h : ∀ x ∈ xs, f x ≤ g x) :
    total f xs ≤ total g xs := by
  induction xs with
  | nil => exact Nat.le_refl _
  | cons x xs ih =>
    exact Nat.add_le_add (h x List.mem_cons_self) (ih fun y hy ↦ h y (List.mem_cons_of_mem x hy))

/-! ## Invocations -/

/-- How many of some calls invoked a handler. A call without a handler invokes none. -/
def invocationsOf (calls : List (Attempt Call)) : Nat :=
  calls.countP fun a ↦ a.record.handler.isSome

/-- How often a visit invoked a handler. -/
def Visit.invocations (v : Visit) : Nat :=
  match v.activity with
  | .called calls => invocationsOf calls
  | _ => 0

namespace Engine

variable {σ : Type}

/-- A measure of the performer that an invocation of a task raises by one at the most, such as the
number of invocations so far. -/
def Counts (e : Engine σ) (count : σ → Nat) : Prop :=
  ∀ i world, count (e.perform i world).2 ≤ count world + 1

theorem count_invoke {e : Engine σ} {count : σ → Nat} (h : e.Counts count) (handler : Handler)
    (ctx : TaskContext) (branch : Option BranchIndex) (world : σ) :
    count (handler.invoke e.perform ctx branch world).2 ≤ count world + 1 := by
  induction handler generalizing branch with
  | here task => exact h _ _
  | elsewhere name => exact Nat.le_succ _
  | bound inner b ih => exact ih (some b)

theorem count_call {e : Engine σ} {count : σ → Nat} (h : e.Counts count) (site : Site)
    (name : String) (t : TaskState) (ctx : TaskContext) (world : σ) :
    count (e.call site name t ctx world).2
      ≤ count world + (e.call site name t ctx world).1.handler.isSome.toNat := by
  rw [call]
  split
  · exact Nat.le_refl _
  · exact count_invoke h _ _ _ _

/-- The attempts at a task leave the number of states left to enter as it is, and each of them
invokes at most one handler. -/
theorem Retries.count {e : Engine σ} {site : Site} {name : String} {s : State} {t : TaskState}
    {catchers : List Catcher} {tracker : RetryTracker} {p q : Progress σ} {step : Step}
    {calls : List (Attempt Call)}
    (h : Retries e.isLate catchers (e.attemptTask site name s t) tracker p step calls q) :
    q.left = p.left ∧
      ∀ count, e.Counts count → count q.world ≤ count p.world + invocationsOf calls := by
  refine h.chain (fun p calls q ↦ q.left = p.left ∧
    ∀ count, e.Counts count → count q.world ≤ count p.world + invocationsOf calls) ?_ ?_
  · intro k p result call q delay moment made
    obtain ⟨doc, world, -, hcall, rfl⟩ := answers_of_attemptTask made
    refine ⟨rfl, fun count hcount ↦ ?_⟩
    have hle := count_call hcount site name t (e.taskContext name t k p.document) p.world
    rw [hcall] at hle
    cases hh : call.handler <;> simpa [invocationsOf, hh] using hle
  · rintro p q r a rest ⟨hleft, hfirst⟩ ⟨hleft', hrest⟩
    refine ⟨hleft'.trans hleft, fun count hcount ↦ ?_⟩
    have h1 := hfirst count hcount
    have h2 := hrest count hcount
    have hsum : invocationsOf (a :: rest) = invocationsOf [a] + invocationsOf rest := by
      rw [invocationsOf, invocationsOf, invocationsOf, ← List.countP_append, List.singleton_append]
    omega

/-! ## Accounts -/

/-- `Made` with the progress on entry kept, which bounds what the branches of the visit may still
enter. -/
inductive MadeFrom (e : Engine σ) (site : Site) (p : Progress σ) : Visit → Prop
  | passed {current : String} {q : Progress σ} {s : State} {step : Step} {activity : Activity}
      (pass : e.Passes site current p s step activity q) :
      MadeFrom e site p ⟨current, p.toMoment, activity, step, q.toMoment⟩
  | missing {current : String} (onTime : e.isLate p.clock = false) (left_pos : 0 < p.left)
      (state : site.machine.state? current = none) :
      MadeFrom e site p (missingVisit current p)

/-- How a state came to be entered below `root`: at a site the branches lead to, under a name that
the targets lead to, with no more than `left` states left to enter. -/
structure Occurs (e : Engine σ) (root : Site) (left : Nat) (x : Entered) : Prop where
  leads : Leads root x.site
  reaches : x.site.machine.Reaches x.visit.state
  made : ∃ p : Progress σ, p.left ≤ left ∧ MadeFrom e x.site p x.visit

theorem Occurs.mono {e : Engine σ} {root site : Site} {left left' : Nat} {x : Entered}
    (h : Occurs e site left x) (hleads : Leads root site) (hleft : left ≤ left') :
    Occurs e root left' x := by
  obtain ⟨p, hp, hmade⟩ := h.made
  exact ⟨hleads.trans h.leads, h.reaches, p, Nat.le_trans hp hleft, hmade⟩

/-- The states entered below `root` from `p` to `q` account for the difference. -/
structure Accounts (e : Engine σ) (root : Site) (p : Progress σ) (entered : List Entered)
    (q : Progress σ) : Prop where
  occurs : ∀ x ∈ entered, Occurs e root p.left x
  left : q.left + entered.length = p.left
  count : ∀ count, e.Counts count →
    count q.world ≤ count p.world + total (fun x ↦ x.visit.invocations) entered

namespace Accounts

variable {e : Engine σ} {root site : Site}

theorem nil (p : Progress σ) (moment : Moment) :
    Accounts e root p [] { p with toMoment := moment } :=
  ⟨by simp, rfl, fun _ _ ↦ Nat.le_refl _⟩

theorem append {p q r : Progress σ} {xs ys : List Entered} (h : Accounts e root p xs q)
    (h' : Accounts e root q ys r) : Accounts e root p (xs ++ ys) r where
  occurs x hx := by
    rcases List.mem_append.mp hx with hx | hx
    · exact h.occurs x hx
    · exact (h'.occurs x hx).mono .refl (by have := h.left; omega)
  left := by
    have h1 := h.left
    have h2 := h'.left
    rw [List.length_append]
    omega
  count count hcount := by
    have h1 := h.count count hcount
    have h2 := h'.count count hcount
    rw [total_append]
    omega

theorem of_leads {p q : Progress σ} {xs : List Entered} (h : Accounts e site p xs q)
    (hleads : Leads root site) : Accounts e root p xs q :=
  ⟨fun x hx ↦ (h.occurs x hx).mono hleads (Nat.le_refl _), h.left, h.count⟩

/-- A single state, whose visit has no branches inside, or whose branches are still to come. -/
theorem single {p q : Progress σ} {v : Visit} (hreaches : site.machine.Reaches v.state)
    (hmade : MadeFrom e site p v) (hleft : q.left + 1 = p.left)
    (hcount : ∀ count, e.Counts count → count q.world ≤ count p.world + v.invocations) :
    Accounts e site p [⟨site, v⟩] q where
  occurs x hx := by
    rw [List.mem_singleton.mp hx]
    exact ⟨.refl, hreaches, p, Nat.le_refl _, hmade⟩
  left := hleft
  count := hcount

end Accounts

/-- Runs with fewer than `n` states left to enter are accounted for. -/
def AccountsBelow (e : Engine σ) (n : Nat) : Prop :=
  ∀ (site : Site) (p : Progress σ), p.left < n →
    Accounts e site p ((e.runScope site p).1.entered site) (e.runScope site p).2

variable {e : Engine σ} {n : Nat} {site : Site} {name : String}

/-- The runs of a round. `branches` are all branches of the state, of which `ms` are those from
`index` on. -/
theorem AccountsBelow.runBranches (hbelow : e.AccountsBelow n) {branches : List Machine}
    {settings : ParallelSettings}
    (hs : site.machine.state? name = some (.parallel branches settings)) {start : Moment}
    {index : Nat} {ms : List Machine} (hms : ∀ i, ms[i]? = branches[index + i]?) {p : Progress σ}
    (hleft : p.left < n) :
    Accounts e site p
      (enteredRuns site name index (Engine.runBranches e.runScope site name start index ms p).1)
      (Engine.runBranches e.runScope site name start index ms p).2 := by
  induction ms generalizing index p with
  | nil => exact .nil p p.toMoment
  | cons m ms ih =>
    have hm : branches[index]? = some m := (hms 0).symm
    have hmachine : ((site.machine.branchesOf name)[index]?).getD default = m := by
      rw [Machine.branchesOf_eq hs, hm, Option.getD_some]
    have hfirst := hbelow (branchSite site name index m) { p with toMoment := start } hleft
    rcases hr : e.runScope (branchSite site name index m) { p with toMoment := start } with ⟨r, q⟩
    rw [hr] at hfirst
    have hfirst' : Accounts e site p (r.entered (branchSite site name index m)) q :=
      Accounts.of_leads ⟨hfirst.occurs, hfirst.left, hfirst.count⟩ (Leads.refl.branch hs hm)
    by_cases hv : r.verdict = .succeeded
    · rw [runBranches_cons_of_succeeded hr hv, enteredRuns, hmachine]
      refine hfirst'.append (ih (fun i ↦ ?_) (by have := hfirst'.left; omega))
      rw [← List.getElem?_cons_succ, hms (i + 1), Nat.add_right_comm, Nat.add_assoc]
    · rw [runBranches_cons_of_ne hr hv, enteredRuns, hmachine]
      exact hfirst'.append (.nil q q.toMoment)

/-- The rounds of a parallel state. -/
theorem AccountsBelow.rounds (hbelow : e.AccountsBelow n) {branches : List Machine}
    {settings : ParallelSettings} {catchers : List Catcher} {s : State}
    (hs : site.machine.state? name = some (.parallel branches settings)) {tracker : RetryTracker}
    {p q : Progress σ} {step : Step} {rounds : List (Attempt (List ScopeRun))}
    (h : Retries e.isLate catchers
      (attemptParallel e.runScope site name s branches settings) tracker p step rounds q)
    (hleft : p.left < n) : Accounts e site p (enteredRounds site name rounds) q := by
  refine h.chain (fun p rounds q ↦ p.left < n →
    Accounts e site p (enteredRounds site name rounds) q) ?_ ?_ hleft
  · intro k p result runs q delay moment made hleft
    obtain ⟨doc, q', -, hruns, rfl⟩ := rounds_of_attemptParallel made
    have hround : Accounts e site p (enteredRuns site name 0
        (Engine.runBranches e.runScope site name p.toMoment 0 branches p).1) _ :=
      hbelow.runBranches hs (fun i ↦ by rw [Nat.zero_add]) hleft
    rw [hruns] at hround
    rw [enteredRounds, enteredRounds, List.append_nil]
    exact ⟨hround.occurs, hround.left, hround.count⟩
  · intro p q r a rest hfirst hrest hleft
    have hfirst := hfirst hleft
    have hle := hfirst.left
    rw [enteredRounds, enteredRounds, List.append_nil] at hfirst
    rw [enteredRounds]
    exact hfirst.append (hrest (by omega))

/-- A state passed, with all that its branches have entered. -/
theorem Passes.accounts (hbelow : e.AccountsBelow n) {current : String} {p q : Progress σ}
    {s : State} {step : Step} {activity : Activity}
    (pass : e.Passes site current p s step activity q) (hleft : p.left ≤ n)
    (hreaches : site.machine.Reaches current) :
    Accounts e site p
      (enteredVisit site ⟨current, p.toMoment, activity, step, q.toMoment⟩) q := by
  have hpos := pass.left_pos
  have hmade : MadeFrom e site p ⟨current, p.toMoment, activity, step, q.toMoment⟩ := .passed pass
  have hs := pass.state
  have hvisit := pass.visit
  rw [enteredVisit]
  cases hvisit with
  | called attempts =>
    obtain ⟨hq, hcount⟩ := Retries.count attempts
    exact .single hreaches hmade (by rw [hq]; exact Nat.sub_add_cancel hpos) hcount
  | forked attempts =>
    have hlt : p.left - 1 < n := by omega
    -- the state itself takes one of the states left, and the rounds start from there
    have hentry : ∀ v, MadeFrom e site p v → v.state = current →
        Accounts e site p [⟨site, v⟩] { p with left := p.left - 1 } := by
      rintro v hv rfl
      exact .single hreaches hv (Nat.sub_add_cancel hpos) fun _ _ ↦ Nat.le_add_right _ _
    exact (hentry _ hmade rfl).append (hbelow.rounds hs attempts hlt)
  | waited _ | unreadable _ | chose | succeeded | failed =>
    exact .single hreaches hmade (Nat.sub_add_cancel hpos) fun _ _ ↦ Nat.le_add_right _ _

theorem Walks.accounts (hbelow : e.AccountsBelow n) {current : String} {p q : Progress σ}
    {visits : List Visit} {verdict : Verdict} (h : e.Walks site current p visits verdict q)
    (hleft : p.left ≤ n) (hreaches : site.machine.Reaches current) :
    Accounts e site p (enteredVisits site visits) q := by
  induction h with
  | @late _ p _ | @ceiling _ p _ _ => exact .nil p p.toMoment
  | missing onTime left_pos state =>
    exact .single hreaches (.missing onTime left_pos state) (Nat.sub_add_cancel left_pos)
      fun _ _ ↦ Nat.le_add_right _ _
  | next first _ ih =>
    rw [enteredVisits]
    have hlt := first.left_lt
    exact (first.accounts hbelow hleft hreaches).append
      (ih (by omega) (.step hreaches first.state first.visit.mem_targets))
  | finished last | failed last | outOfTime last =>
    rw [enteredVisits, enteredVisits, List.append_nil]
    exact last.accounts hbelow hleft hreaches

/-- **The accounts of a run.** -/
theorem runScope_accounts (e : Engine σ) (site : Site) (p : Progress σ) :
    Accounts e site p ((e.runScope site p).1.entered site) (e.runScope site p).2 := by
  -- a branch has fewer states left to enter than the scope around it
  induction hn : p.left using Nat.strongRecOn generalizing site p with
  | ind n ih =>
    obtain ⟨visits, verdict, q, heq, hwalk⟩ := e.walks_runScope site p
    rw [heq]
    have hbelow : e.AccountsBelow n := fun site' p' hlt ↦ ih p'.left hlt site' p' rfl
    exact hwalk.accounts hbelow (Nat.le_of_eq hn) .start

/-! ## The run of a document -/

/-- The site of a whole document. -/
def root (e : Engine σ) : Site where
  machine := e.document.machine

/-- The moment at which a document is run. -/
def start (e : Engine σ) (input : Json) (world : σ) : Progress σ :=
  { document := input, clock := 0, left := e.maxTransitions, world }

/-- The states entered in the run of a document. -/
def entered (e : Engine σ) (input : Json) (world : σ) : List Entered :=
  (e.run input world).1.entered e.root

theorem run_accounts (e : Engine σ) (input : Json) (world : σ) :
    Accounts e e.root (e.start input world) (e.entered input world)
      (e.runScope e.root (e.start input world)).2 :=
  e.runScope_accounts e.root (e.start input world)

theorem walks_run (e : Engine σ) (input : Json) (world : σ) :
    ∃ visits verdict q, (e.run input world).1
      = ⟨e.root.scope, (e.start input world).toMoment, visits, verdict, q.toMoment⟩ ∧
        e.Walks e.root e.root.machine.startAt (e.start input world) visits verdict q := by
  obtain ⟨visits, verdict, q, heq, hwalk⟩ := e.walks_runScope e.root (e.start input world)
  exact ⟨visits, verdict, q, congrArg Prod.fst heq, hwalk⟩

variable {input : Json} {world : σ}

@[simp] theorem trace_execute :
    (e.execute input world).1.trace = (e.run input world).1.trace := by
  simp only [execute, Execution.ofRun]
  split <;> rfl

@[simp] theorem output_execute :
    (e.execute input world).1.output = (e.run input world).1.final.document := by
  simp only [execute, Execution.ofRun]
  split <;> rfl

theorem status_of_succeeded (h : (e.run input world).1.verdict = .succeeded) :
    (e.execute input world).1.status = .succeeded := by
  simp only [execute, Execution.ofRun, h]

theorem status_of_failed {f : Failure} (h : (e.run input world).1.verdict = .failed f) :
    (e.execute input world).1.status = .failed ∧
      (e.execute input world).1.error = some f.error := by
  simp only [execute, Execution.ofRun, h, and_self]

theorem status_of_timedOut (h : (e.run input world).1.verdict = .timedOut) :
    (e.execute input world).1.status = .timedOut ∧
      (e.execute input world).1.error = some ErrorName.timeout := by
  simp only [execute, Execution.ofRun, h, and_self]

theorem trace_eq_map_entered :
    (e.execute input world).1.trace = (e.entered input world).map Entered.position := by
  rw [trace_execute, entered, ScopeRun.trace_eq_map]

end Engine

end Workflow
