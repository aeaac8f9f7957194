import Workflow.Proofs.Machine.Checked
import Workflow.Proofs.Run.Rounds
import Workflow.Proofs.Run.Walk

/-!
# The tree of a run

A run is a tree: its visits, and inside the visit of a parallel state the runs of its branches.
`ScopeRun.Enters` says that a visit lies anywhere in the tree, together with the scope it lies in.

Two facts tie the tree to other things. The trace lists the positions of exactly these visits
(`mem_trace_iff`). And in a run of the engine every one of them is a state passed, or a name that
is no state, at a site that the branches lead to (`exists_made_of_enters`). What is true of all
passes at all such sites is therefore true in the whole tree.
-/

namespace Workflow

/-- A visit at any depth of a run, in its scope. -/
inductive ScopeRun.Enters : ScopeRun → Scope → Visit → Prop
  | here {r : ScopeRun} {v : Visit} (mem : v ∈ r.visits) : Enters r r.scope v
  | inside {r inner : ScopeRun} {scope : Scope} {v w : Visit}
      {rounds : List (Attempt (List ScopeRun))} {round : Attempt (List ScopeRun)}
      (mem : v ∈ r.visits) (forked : v.activity = .forked rounds) (mem_rounds : round ∈ rounds)
      (mem_round : inner ∈ round.record) (enters : Enters inner scope w) : Enters r scope w

/-! ## The trace -/

mutual

private theorem mem_traceRun (position : String) :
    ∀ r : ScopeRun, position ∈ r.trace ↔
      ∃ scope v, r.Enters scope v ∧ position = scope.position v.state
  | ⟨scope, start, visits, verdict, final⟩ => by
    rw [ScopeRun.trace, mem_traceVisits]
    constructor
    · rintro ⟨v, hv, rfl | ⟨rounds, round, inner, hforked, hround, hinner, s, w, hw, rfl⟩⟩
      · exact ⟨scope, v, .here hv, rfl⟩
      · exact ⟨s, w, .inside hv hforked hround hinner hw, rfl⟩
    · rintro ⟨s, v, hv, rfl⟩
      cases hv with
      | here hmem => exact ⟨v, hmem, .inl rfl⟩
      | inside hmem hforked hround hinner hw =>
        exact ⟨_, hmem, .inr ⟨_, _, _, hforked, hround, hinner, s, v, hw, rfl⟩⟩

private theorem mem_traceVisits (position : String) (scope : Scope) :
    ∀ visits : List Visit, position ∈ traceVisits scope visits ↔ ∃ v ∈ visits,
      position = scope.position v.state ∨ ∃ rounds round inner, v.activity = .forked rounds ∧
        round ∈ rounds ∧ inner ∈ round.record ∧
          ∃ s w, inner.Enters s w ∧ position = Scope.position s w.state
  | [] => by simp [traceVisits]
  | v :: vs => by
    rw [traceVisits, List.mem_append, mem_traceVisit position scope v,
      mem_traceVisits position scope vs]
    simp only [List.mem_cons, exists_eq_or_imp]

private theorem mem_traceVisit (position : String) (scope : Scope) :
    ∀ v : Visit, position ∈ traceVisit scope v ↔
      position = scope.position v.state ∨ ∃ rounds round inner, v.activity = .forked rounds ∧
        round ∈ rounds ∧ inner ∈ round.record ∧
          ∃ s w, inner.Enters s w ∧ position = Scope.position s w.state
  | ⟨state, entry, activity, step, exit⟩ => by
    rw [traceVisit, List.mem_cons, mem_traceActivity position activity]

private theorem mem_traceActivity (position : String) :
    ∀ activity : Activity, position ∈ traceActivity activity ↔
      ∃ rounds round inner, activity = .forked rounds ∧ round ∈ rounds ∧ inner ∈ round.record ∧
        ∃ s w, inner.Enters s w ∧ position = Scope.position s w.state
  | .none => by simp [traceActivity]
  | .waited _ => by simp [traceActivity]
  | .called _ => by simp [traceActivity]
  | .forked rounds => by
    rw [traceActivity, mem_traceRounds position rounds]
    constructor
    · rintro ⟨round, hround, inner, hinner, hw⟩
      exact ⟨rounds, round, inner, rfl, hround, hinner, hw⟩
    · rintro ⟨_, round, inner, heq, hround, hinner, hw⟩
      cases heq
      exact ⟨round, hround, inner, hinner, hw⟩

private theorem mem_traceRounds (position : String) :
    ∀ rounds : List (Attempt (List ScopeRun)), position ∈ traceRounds rounds ↔
      ∃ round ∈ rounds, ∃ inner ∈ round.record,
        ∃ s w, inner.Enters s w ∧ position = Scope.position s w.state
  | [] => by simp [traceRounds]
  | ⟨runs, delay⟩ :: rounds => by
    rw [traceRounds, List.mem_append, mem_traceRuns position runs, mem_traceRounds position rounds]
    simp only [List.mem_cons, exists_eq_or_imp]

private theorem mem_traceRuns (position : String) :
    ∀ runs : List ScopeRun, position ∈ traceRuns runs ↔
      ∃ inner ∈ runs, ∃ s w, inner.Enters s w ∧ position = Scope.position s w.state
  | [] => by simp [traceRuns]
  | r :: rs => by
    rw [traceRuns, List.mem_append, mem_traceRun position r, mem_traceRuns position rs]
    simp only [List.mem_cons, exists_eq_or_imp]

end

/-- The trace has the positions of all visits in the tree and no others. -/
theorem mem_trace_iff {r : ScopeRun} {position : String} :
    position ∈ r.trace ↔ ∃ scope v, r.Enters scope v ∧ position = scope.position v.state :=
  mem_traceRun position r

/-! ## The runs of a visit -/

/-- Every attempt of a loop was made by `attempt`, with no more states left to enter than at the
beginning. -/
theorem Retries.exists_of_mem {σ ρ : Type} {isLate : Nat → Bool} {catchers : List Catcher}
    {attempt : Nat → Progress σ → AttemptResult × ρ × Progress σ} {t : RetryTracker}
    {p q : Progress σ} {step : Step} {attempts : List (Attempt ρ)}
    (hattempt : ∀ k p, (attempt k p).2.2.left ≤ p.left)
    (h : Retries isLate catchers attempt t p step attempts q) {a : Attempt ρ}
    (ha : a ∈ attempts) : ∃ k p', p'.left ≤ p.left ∧ a.record = (attempt k p').2.1 := by
  induction h with
  | settled made | handled made _ | late made _ _ =>
    rw [List.mem_singleton] at ha
    exact ⟨_, _, Nat.le_refl _, by rw [ha, made]⟩
  | @again t _ p _ _ _ _ _ _ _ made _ _ _ ih =>
    rcases List.mem_cons.mp ha with rfl | hrest
    · exact ⟨_, _, Nat.le_refl _, by rw [made]⟩
    · obtain ⟨k, p', hleft, hrecord⟩ := ih hrest
      have hle := hattempt t.total p
      rw [made] at hle
      exact ⟨k, p', Nat.le_trans hleft hle, hrecord⟩

namespace Engine

variable {σ : Type}

/-- Runs are found only in the visits of parallel states, where they are runs of the branches in
their order. -/
theorem Visits.exists_branch_get {e : Engine σ} {run : Runner σ} (hrun : Narrows run) {site : Site}
    {name : String} {s : State} {p q : Progress σ} {step : Step}
    {rounds : List (Attempt (List ScopeRun))}
    (h : Visits e run site name s p step (.forked rounds) q) {round : Attempt (List ScopeRun)}
    (hround : round ∈ rounds) {i : Nat} {r : ScopeRun} (hr : round.record[i]? = some r) :
    ∃ branches settings m p', s = .parallel branches settings ∧ branches[i]? = some m ∧
      p'.left ≤ p.left ∧ r = (run (branchSite site name i m) p').1 := by
  cases h with
  | @forked branches settings _ _ _ _ attempts =>
    obtain ⟨k, p', hleft, hrecord⟩ :=
      attempts.exists_of_mem (attemptParallel_left_le hrun site name _ _ _) hround
    rw [hrecord, attemptParallel_runs] at hr
    obtain ⟨m, p'', hm, -, hleft', heq⟩ := exists_of_getElem?_runBranches hrun hr
    rw [Nat.zero_add] at heq
    exact ⟨branches, settings, m, p'', rfl, hm, Nat.le_trans hleft' hleft, heq⟩

theorem Visits.exists_branch {e : Engine σ} {run : Runner σ} (hrun : Narrows run) {site : Site}
    {name : String} {s : State} {p q : Progress σ} {step : Step}
    {rounds : List (Attempt (List ScopeRun))}
    (h : Visits e run site name s p step (.forked rounds) q) {round : Attempt (List ScopeRun)}
    (hround : round ∈ rounds) {r : ScopeRun} (hr : r ∈ round.record) :
    ∃ branches settings i m p', s = .parallel branches settings ∧ branches[i]? = some m ∧
      p'.left ≤ p.left ∧ r = (run (branchSite site name i m) p').1 := by
  obtain ⟨i, hi⟩ := List.mem_iff_getElem?.mp hr
  obtain ⟨branches, settings, m, p', h⟩ := h.exists_branch_get hrun hround hi
  exact ⟨branches, settings, i, m, p', h⟩

/-! ## The sites of a run -/

/-- The sites that branches lead to from a site. -/
inductive Leads (site : Site) : Site → Prop
  | refl : Leads site site
  | branch {inner : Site} {name : String} {branches : List Machine} {settings : ParallelSettings}
      {i : Nat} {m : Machine} (leads : Leads site inner)
      (state : inner.machine.state? name = some (.parallel branches settings))
      (mem : branches[i]? = some m) : Leads site (branchSite inner name i m)

theorem Leads.trans {site middle inner : Site} (h : Leads site middle) (h' : Leads middle inner) :
    Leads site inner := by
  induction h' with
  | refl => exact h
  | branch _ state mem ih => exact .branch ih state mem

theorem Leads.checked {root site : Site} (h : Leads root site) (hm : root.machine.Checked) :
    site.machine.Checked := by
  induction h with
  | refl => exact hm
  | branch _ state mem ih => exact ih.branch state mem

/-- A visit at a site: of a state passed, or of a name that is no state. -/
inductive Made (e : Engine σ) (site : Site) : Visit → Prop
  | passed {current : String} {p q : Progress σ} {s : State} {step : Step} {activity : Activity}
      (pass : e.Passes site current p s step activity q) :
      Made e site ⟨current, p.toMoment, activity, step, q.toMoment⟩
  | missing {current : String} {p : Progress σ} (onTime : e.isLate p.clock = false)
      (left_pos : 0 < p.left) (state : site.machine.state? current = none) :
      Made e site (missingVisit current p)

theorem Walks.made {e : Engine σ} {site : Site} {current : String} {p q : Progress σ}
    {visits : List Visit} {verdict : Verdict} (h : e.Walks site current p visits verdict q)
    {v : Visit} (hv : v ∈ visits) : Made e site v := by
  induction h with
  | late _ | ceiling _ _ => simp at hv
  | missing onTime left_pos state =>
    rw [List.mem_singleton.mp hv]
    exact .missing onTime left_pos state
  | next first _ ih =>
    rcases List.mem_cons.mp hv with rfl | hrest
    · exact .passed first
    · exact ih hrest
  | finished last | failed last | outOfTime last =>
    rw [List.mem_singleton.mp hv]
    exact .passed last

/-- Every visit in the tree of a run was made at a site that the branches lead to. -/
theorem exists_made_of_enters {e : Engine σ} {site : Site} {p : Progress σ} {scope : Scope}
    {v : Visit} (h : (e.runScope site p).1.Enters scope v) :
    ∃ inner : Site, Leads site inner ∧ inner.scope = scope ∧ Made e inner v := by
  generalize hr : (e.runScope site p).1 = r at h
  induction h generalizing site p with
  | here hmem =>
    obtain ⟨visits, verdict, q, heq, hwalk⟩ := e.walks_runScope site p
    rw [heq] at hr
    subst hr
    exact ⟨site, .refl, rfl, hwalk.made hmem⟩
  | inside hmem hforked hround hinner _ ih =>
    obtain ⟨visits, verdict, q, heq, hwalk⟩ := e.walks_runScope site p
    rw [heq] at hr
    subst hr
    have hmade := hwalk.made hmem
    cases hmade with
    | missing _ _ _ => simp [missingVisit] at hforked
    | passed pass =>
      -- the state is parallel, and the run inside is that of one of its branches
      subst hforked
      obtain ⟨branches, settings, i, m, p', rfl, hm, -, hrun⟩ :=
        pass.visit.exists_branch e.narrows_runScope hround hinner
      obtain ⟨inner, hleads, hscope, hinnerMade⟩ := ih hrun.symm
      exact ⟨inner, (Leads.refl.branch pass.state hm).trans hleads, hscope, hinnerMade⟩

end Engine

end Workflow
