import Workflow.Proofs.Run.Tree

/-!
# The states entered in a run

The tree of a run, laid out flat: the states entered, in the order of the trace, each with the site
it stands at. The trace itself keeps the positions only, and a position may be the text of several
sites; here the machine of a site is followed along with the branches, so that one can ask what the
document says about a state that was entered.
-/

namespace Workflow

/-- A state entered in a run: where it stands, and its visit. -/
structure Entered where
  site : Site
  visit : Visit

namespace Entered

def position (x : Entered) : String := x.site.scope.position x.visit.state

/-- What the document has under the name of the state. -/
def state? (x : Entered) : Option State := x.site.machine.state? x.visit.state

end Entered

/-- The branches of the state of a name. -/
def Machine.branchesOf (m : Machine) (name : String) : List Machine :=
  match m.state? name with
  | some (.parallel branches _) => branches
  | _ => []

theorem Machine.branchesOf_eq {m : Machine} {name : String} {branches : List Machine}
    {settings : ParallelSettings} (h : m.state? name = some (.parallel branches settings)) :
    m.branchesOf name = branches := by
  rw [branchesOf, h]

mutual

/-- The states entered in the run of a scope that stands at `site`. -/
def ScopeRun.entered (site : Site) : ScopeRun → List Entered
  | ⟨scope, _, visits, _, _⟩ => enteredVisits { site with scope } visits

def enteredVisits (site : Site) : List Visit → List Entered
  | [] => []
  | v :: vs => enteredVisit site v ++ enteredVisits site vs

def enteredVisit (site : Site) : Visit → List Entered
  | ⟨state, entry, activity, step, exit⟩ =>
    ⟨site, ⟨state, entry, activity, step, exit⟩⟩ :: enteredActivity site state activity

def enteredActivity (site : Site) (name : String) : Activity → List Entered
  | .none => []
  | .waited _ => []
  | .called _ => []
  | .forked rounds => enteredRounds site name rounds

def enteredRounds (site : Site) (name : String) : List (Attempt (List ScopeRun)) → List Entered
  | [] => []
  | ⟨runs, _⟩ :: rounds => enteredRuns site name 0 runs ++ enteredRounds site name rounds

/-- The states entered in the runs of the branches from an index on. -/
def enteredRuns (site : Site) (name : String) (index : Nat) : List ScopeRun → List Entered
  | [] => []
  | r :: rs =>
    let m := ((site.machine.branchesOf name)[index]?).getD default
    ScopeRun.entered (Engine.branchSite site name index m) r ++ enteredRuns site name (index + 1) rs

end

/-! ## The trace -/

mutual

private theorem trace_eq_map_run (site : Site) :
    ∀ r : ScopeRun, r.trace = (r.entered site).map Entered.position
  | ⟨scope, _, visits, _, _⟩ => by
    rw [ScopeRun.trace, ScopeRun.entered, trace_eq_map_visits { site with scope } visits]

private theorem trace_eq_map_visits (site : Site) : ∀ visits : List Visit,
    traceVisits site.scope visits = (enteredVisits site visits).map Entered.position
  | [] => rfl
  | v :: vs => by
    rw [traceVisits, enteredVisits, List.map_append, trace_eq_map_visit site v,
      trace_eq_map_visits site vs]

private theorem trace_eq_map_visit (site : Site) : ∀ v : Visit,
    traceVisit site.scope v = (enteredVisit site v).map Entered.position
  | ⟨state, _, activity, _, _⟩ => by
    rw [traceVisit, enteredVisit, List.map_cons, trace_eq_map_activity site state activity,
      Entered.position]

private theorem trace_eq_map_activity (site : Site) (name : String) : ∀ activity : Activity,
    traceActivity activity = (enteredActivity site name activity).map Entered.position
  | .none => rfl
  | .waited _ => rfl
  | .called _ => rfl
  | .forked rounds => by
    rw [traceActivity, enteredActivity, trace_eq_map_rounds site name rounds]

private theorem trace_eq_map_rounds (site : Site) (name : String) :
    ∀ rounds : List (Attempt (List ScopeRun)),
      traceRounds rounds = (enteredRounds site name rounds).map Entered.position
  | [] => rfl
  | ⟨runs, _⟩ :: rounds => by
    rw [traceRounds, enteredRounds, List.map_append, trace_eq_map_runs site name 0 runs,
      trace_eq_map_rounds site name rounds]

private theorem trace_eq_map_runs (site : Site) (name : String) (index : Nat) :
    ∀ runs : List ScopeRun,
      traceRuns runs = (enteredRuns site name index runs).map Entered.position
  | [] => rfl
  | r :: rs => by
    rw [traceRuns, enteredRuns, List.map_append, trace_eq_map_run _ r,
      trace_eq_map_runs site name (index + 1) rs]

end

/-- The trace has the positions of the states entered, in order. -/
theorem ScopeRun.trace_eq_map (site : Site) (r : ScopeRun) :
    r.trace = (r.entered site).map Entered.position :=
  trace_eq_map_run site r

theorem traceRuns_eq_flatMap (runs : List ScopeRun) :
    traceRuns runs = runs.flatMap ScopeRun.trace := by
  induction runs with
  | nil => rfl
  | cons r rs ih => rw [traceRuns, ih, List.flatMap_cons]

theorem traceRounds_eq_flatMap (rounds : List (Attempt (List ScopeRun))) :
    traceRounds rounds = rounds.flatMap fun round ↦ round.record.flatMap ScopeRun.trace := by
  induction rounds with
  | nil => rfl
  | cons round rounds ih =>
    obtain ⟨runs, delay⟩ := round
    rw [traceRounds, ih, List.flatMap_cons, traceRuns_eq_flatMap]

/-- A scope in which nothing forks has the names of its visits for a trace. -/
theorem traceVisits_of_unforked {scope : Scope} {visits : List Visit}
    (h : ∀ v ∈ visits, ∀ rounds, v.activity ≠ .forked rounds) :
    traceVisits scope visits = visits.map fun v ↦ scope.position v.state := by
  induction visits with
  | nil => rfl
  | cons v vs ih =>
    obtain ⟨hv, hvs⟩ := List.forall_mem_cons.mp h
    obtain ⟨state, entry, activity, step, exit⟩ := v
    rw [traceVisits, traceVisit, ih hvs]
    cases activity with
    | forked rounds => exact absurd rfl (hv rounds)
    | none | waited _ | called _ => rfl

/-! ## The tree -/

mutual

private theorem enters_of_mem_run {x : Entered} {site : Site} :
    ∀ r : ScopeRun, x ∈ r.entered site → r.Enters x.site.scope x.visit
  | ⟨scope, start, visits, verdict, final⟩ => by
    rw [ScopeRun.entered]
    intro h
    obtain ⟨v, hv, ⟨hsite, rfl⟩ | ⟨rounds, round, inner, hforked, hround, hinner, hw⟩⟩ :=
      enters_of_mem_visits visits h
    · rw [hsite]
      exact .here hv
    · exact .inside hv hforked hround hinner hw

private theorem enters_of_mem_visits {x : Entered} {site : Site} :
    ∀ visits : List Visit, x ∈ enteredVisits site visits → ∃ v ∈ visits,
      (x.site = site ∧ x.visit = v) ∨ ∃ rounds round inner, v.activity = .forked rounds ∧
        round ∈ rounds ∧ inner ∈ round.record ∧ inner.Enters x.site.scope x.visit
  | [] => by simp [enteredVisits]
  | v :: vs => by
    rw [enteredVisits, List.mem_append]
    rintro (h | h)
    · exact ⟨v, List.mem_cons_self, enters_of_mem_visit v h⟩
    · obtain ⟨w, hw, h⟩ := enters_of_mem_visits vs h
      exact ⟨w, List.mem_cons_of_mem v hw, h⟩

private theorem enters_of_mem_visit {x : Entered} {site : Site} :
    ∀ v : Visit, x ∈ enteredVisit site v →
      (x.site = site ∧ x.visit = v) ∨ ∃ rounds round inner, v.activity = .forked rounds ∧
        round ∈ rounds ∧ inner ∈ round.record ∧ inner.Enters x.site.scope x.visit
  | ⟨state, entry, activity, step, exit⟩ => by
    rw [enteredVisit, List.mem_cons]
    rintro (rfl | h)
    · exact .inl ⟨rfl, rfl⟩
    · exact .inr (enters_of_mem_activity activity h)

private theorem enters_of_mem_activity {x : Entered} {site : Site} {name : String} :
    ∀ activity : Activity, x ∈ enteredActivity site name activity →
      ∃ rounds round inner, activity = .forked rounds ∧ round ∈ rounds ∧ inner ∈ round.record ∧
        inner.Enters x.site.scope x.visit
  | .none => by simp [enteredActivity]
  | .waited _ => by simp [enteredActivity]
  | .called _ => by simp [enteredActivity]
  | .forked rounds => by
    rw [enteredActivity]
    intro h
    obtain ⟨round, hround, inner, hinner, hw⟩ := enters_of_mem_rounds rounds h
    exact ⟨rounds, round, inner, rfl, hround, hinner, hw⟩

private theorem enters_of_mem_rounds {x : Entered} {site : Site} {name : String} :
    ∀ rounds : List (Attempt (List ScopeRun)), x ∈ enteredRounds site name rounds →
      ∃ round ∈ rounds, ∃ inner ∈ round.record, inner.Enters x.site.scope x.visit
  | [] => by simp [enteredRounds]
  | ⟨runs, delay⟩ :: rounds => by
    rw [enteredRounds, List.mem_append]
    rintro (h | h)
    · exact ⟨⟨runs, delay⟩, List.mem_cons_self, enters_of_mem_runs runs h⟩
    · obtain ⟨round, hround, hw⟩ := enters_of_mem_rounds rounds h
      exact ⟨round, List.mem_cons_of_mem _ hround, hw⟩

private theorem enters_of_mem_runs {x : Entered} {site : Site} {name : String} {index : Nat} :
    ∀ runs : List ScopeRun, x ∈ enteredRuns site name index runs →
      ∃ inner ∈ runs, inner.Enters x.site.scope x.visit
  | [] => by simp [enteredRuns]
  | r :: rs => by
    rw [enteredRuns, List.mem_append]
    rintro (h | h)
    · exact ⟨r, List.mem_cons_self, enters_of_mem_run r h⟩
    · obtain ⟨inner, hinner, hw⟩ := enters_of_mem_runs rs h
      exact ⟨inner, List.mem_cons_of_mem r hinner, hw⟩

end

/-- Every state entered is a visit in the tree. -/
theorem ScopeRun.enters_of_mem_entered {r : ScopeRun} {site : Site} {x : Entered}
    (h : x ∈ r.entered site) : r.Enters x.site.scope x.visit :=
  enters_of_mem_run r h

end Workflow
