import Mathlib.Data.List.Chain
import Workflow.Proofs.Machine.Sound
import Workflow.Proofs.Run.Accounts

/-!
# Runs along the graph

A machine declares a graph: its states, and from each state the targets. The states that a scope
enters are a path in it from the start, and which of the targets comes next is settled by what went
on during the visit (`LeadsOn`). The other way round, a path breaks off before a state that ends
it only where the time or the states left to enter have run out.

All of this holds of every scope, so it is proved of a walk and handed on to the runs of the
branches. `Started` goes through these, every round of a parallel state being a new start.
-/

namespace Workflow

/-! ## What follows a state -/

namespace Step

theorem after_eq_next_iff {s : State} {name : String} :
    Step.after s = .next name ↔ s.transition.next = some name := by
  rw [Step.after]
  split
  · rename_i hnext
    rw [hnext, Step.next.injEq, Option.some.injEq]
  · rename_i hnext _
    simp [hnext]
  · rename_i hnext _
    simp [hnext]

theorem after_eq_finish_iff {s : State} :
    Step.after s = .finish ↔ s.transition.next = none ∧ s.transition.ending = some true := by
  rw [Step.after]
  split
  · rename_i hnext
    simp [hnext]
  · rename_i hnext hending
    simp [hnext, hending]
  · rename_i hnext hending
    simpa [hnext] using hending

end Step

/-- The rounds of branches during a visit. -/
def Activity.rounds : Activity → List (Attempt (List ScopeRun))
  | .forked rounds => rounds
  | .none | .waited _ | .called _ => []

theorem Activity.exists_of_mem_rounds {activity : Activity} {round : Attempt (List ScopeRun)}
    (h : round ∈ activity.rounds) : ∃ rounds, activity = .forked rounds ∧ round ∈ rounds := by
  cases activity with
  | forked rounds => exact ⟨rounds, rfl, h⟩
  | none | waited _ | called _ => cases h

namespace Engine

theorem chooseStep_eq_next_iff {name target : String} {c : ChoiceState} {doc : Json} :
    chooseStep name c doc = .next target ↔ c.choose doc = .ok (some target) := by
  rw [chooseStep]
  split <;> simp_all

/-- Where the attempts at a state lead to: to what the state says follows it if the last attempt
came to a value and the value is stored, and otherwise to the catcher for the error that it was left
with. -/
inductive AttemptsLead (s : State) (v : Visit) : String → Prop
  | stored {value : Json} {target : String} (yields : Yields v.activity value)
      (stored : storeAt s.resultPath value v.entry.document = (v.exit.document, none))
      (next : s.transition.next = some target) : AttemptsLead s v target
  | caught {f : Failure} {c : Catcher} (raised : Raises s v.entry.document v.activity f)
      (caught : Catcher.for? s.catchers f.error = some c)
      (stored : storeAt c.resultPath f.toJson v.entry.document = (v.exit.document, none)) :
      AttemptsLead s v c.next

/-- Where a visit of the state leads to. -/
def LeadsOn (s : State) (v : Visit) (target : String) : Prop :=
  match s with
  | .choice c => c.choose v.entry.document = .ok (some target)
  | .wait w => w.transition.next = some target
  | .task _ | .parallel _ _ => AttemptsLead s v target
  | .succeed _ | .fail _ => False

/-! ## There is one way on -/

/-- The attempts at a state are left with one error. -/
theorem Raises.unique {s : State} {doc : Json} {activity : Activity} {f f' : Failure}
    (h : Raises s doc activity f) (h' : Raises s doc activity f') : f = f' := by
  cases h with
  | answered mem answered =>
    cases h' with
    | answered mem' answered' =>
      obtain rfl := Option.some.inj (mem.symm.trans mem')
      obtain rfl := Except.error.inj (answered.symm.trans answered')
      rfl
    | unstored _ mem' answered' _ =>
      obtain rfl := Option.some.inj (mem.symm.trans mem')
      cases answered.symm.trans answered'
  | unstored state mem answered stored =>
    cases h' with
    | answered mem' answered' =>
      obtain rfl := Option.some.inj (mem.symm.trans mem')
      cases answered.symm.trans answered'
    | unstored state' mem' answered' stored' =>
      obtain rfl := State.task.inj (state.symm.trans state')
      obtain rfl := Option.some.inj (mem.symm.trans mem')
      obtain rfl := Except.ok.inj (answered.symm.trans answered')
      cases stored.symm.trans stored'
      rfl
  | inside mem mem_round failed =>
    cases h' with
    | inside mem' mem_round' failed' =>
      obtain rfl := Option.some.inj (mem.symm.trans mem')
      obtain rfl := Option.some.inj (mem_round.symm.trans mem_round')
      obtain rfl := Verdict.failed.inj (failed.symm.trans failed')
      rfl

/-- A value that is stored raises no error. -/
theorem Yields.not_raises {s : State} {doc doc' v : Json} {activity : Activity} {f : Failure}
    (h : Yields activity v) (hstored : storeAt s.resultPath v doc = (doc', none)) :
    ¬Raises s doc activity f := by
  intro hraises
  cases h with
  | answered mem answered =>
    cases hraises with
    | answered mem' answered' =>
      obtain rfl := Option.some.inj (mem.symm.trans mem')
      cases answered.symm.trans answered'
    | unstored state mem' answered' stored' =>
      subst state
      obtain rfl := Option.some.inj (mem.symm.trans mem')
      obtain rfl := Except.ok.inj (answered.symm.trans answered')
      cases hstored.symm.trans stored'
  | gathered mem gathered =>
    cases hraises with
    | inside mem' mem_round failed =>
      obtain rfl := Option.some.inj (mem.symm.trans mem')
      have hsucceeded := (gather_eq_ok_iff.mp gathered).1 _ (List.mem_of_getLast? mem_round)
      cases failed.symm.trans hsucceeded

theorem AttemptsLead.unique {s : State} {v : Visit} {target target' : String}
    (h : AttemptsLead s v target) (h' : AttemptsLead s v target') : target = target' := by
  cases h with
  | stored yields stored next =>
    cases h' with
    | stored _ _ next' => exact Option.some.inj (next.symm.trans next')
    | caught raised _ _ => exact absurd raised (yields.not_raises stored)
  | caught raised caught _ =>
    cases h' with
    | stored yields stored _ => exact absurd raised (yields.not_raises stored)
    | caught raised' caught' _ =>
      obtain rfl := raised.unique raised'
      obtain rfl := Option.some.inj (caught.symm.trans caught')
      rfl

/-- **A visit leads to one target at most.** -/
theorem LeadsOn.unique {s : State} {v : Visit} {target target' : String}
    (h : LeadsOn s v target) (h' : LeadsOn s v target') : target = target' := by
  cases s with
  | choice c => exact Option.some.inj (Except.ok.inj (h.symm.trans h'))
  | wait w => exact Option.some.inj (h.symm.trans h')
  | task _ | parallel _ _ => exact AttemptsLead.unique h h'
  | succeed _ | fail _ => exact h.elim

/-- A visit that goes on goes where it leads to. -/
theorem Departs.leadsOn {s : State} {v : Visit} {target : String}
    (h : Departs s v.state v.entry.document v.activity (.next target) v.exit.document) :
    LeadsOn s v target := by
  generalize hstep : Step.next target = step at h
  generalize hexit : v.exit.document = exit at h
  cases h with
  | stored attempts yields stored =>
    have hlead : AttemptsLead s v target :=
      .stored yields (hexit ▸ stored) (Step.after_eq_next_iff.mp hstep.symm)
    cases s with
    | task _ | parallel _ _ => exact hlead
    | choice _ | wait _ | succeed _ | fail _ => simp [State.kind] at attempts
  | @caught f c _ raised caught stored =>
    obtain rfl := Step.next.inj hstep
    have hlead : AttemptsLead s v c.next := .caught raised caught (hexit ▸ stored)
    cases s with
    | task _ | parallel _ _ => exact hlead
    | choice _ | wait _ | succeed _ | fail _ => cases caught
  | waited state =>
    subst state
    exact Step.after_eq_next_iff.mp hstep.symm
  | chose state =>
    subst state
    exact chooseStep_eq_next_iff.mp hstep.symm
  | succeeded _ | failed _ | outOfTime _ => cases hstep

/-! ## Paths -/

/-- The visit `w` comes after the visit `v`: it is of the one target that `v` leads to, and it
starts where `v` ends. -/
structure Precedes (m : Machine) (v w : Visit) : Prop where
  declared : ∃ s, m.state? v.state = some s ∧ w.state ∈ s.targets ∧
    ∀ target, LeadsOn s v target ↔ target = w.state
  entry : w.entry = v.exit

/-- The run of a scope at a site is along the graph of the machine there. -/
structure FollowsGraph {σ : Type} (e : Engine σ) (site : Site) (r : ScopeRun) : Prop where
  start : ∀ v ∈ r.visits.head?, v.state = site.machine.startAt ∧ v.entry = r.start
  states : ∀ v ∈ r.visits, ∃ s, site.machine.state? v.state = some s
  path : r.visits.IsChain (Precedes site.machine)
  /-- Where a path does not begin or breaks off, the run was cut short. -/
  cut : (∀ v ∈ r.visits.getLast?, ∃ target, v.step = .next target) →
    r.verdict = .timedOut ∨ r.verdict = .failed e.ceiling
  success : r.verdict = .succeeded → ∃ v s, r.visits.getLast? = some v ∧
    site.machine.state? v.state = some s ∧
    ((∃ comment, s = .succeed comment) ∨
      s.transition.next = none ∧ s.transition.ending = some true)

variable {σ : Type} {e : Engine σ} {site : Site}

theorem Walks.head {current : String} {p q : Progress σ} {visits : List Visit} {verdict : Verdict}
    (h : e.Walks site current p visits verdict q) :
    ∀ v ∈ visits.head?, v.state = current ∧ v.entry = p.toMoment := by
  intro v hv
  cases h with
  | late _ | ceiling _ _ => cases hv
  | missing _ _ _ | next _ _ | finished _ | failed _ | outOfTime _ =>
    cases hv
    exact ⟨rfl, rfl⟩

/-- A state passed comes before the state that it leads to. -/
theorem Passes.precedes {current target : String} {p q : Progress σ} {s : State}
    {activity : Activity} (h : e.Passes site current p s (.next target) activity q) {w : Visit}
    (hstate : w.state = target) (hentry : w.entry = q.toMoment) :
    Precedes site.machine ⟨current, p.toMoment, activity, .next target, q.toMoment⟩ w := by
  have hleads : LeadsOn s ⟨current, p.toMoment, activity, .next target, q.toMoment⟩ target :=
    Departs.leadsOn h.visit.departs
  refine ⟨⟨s, h.state, ?_, fun other ↦ ⟨fun hother ↦ ?_, fun hother ↦ ?_⟩⟩, hentry⟩
  · rw [hstate]
    exact h.visit.mem_targets
  · rw [hstate]
    exact hother.unique hleads
  · rw [hother, hstate]
    exact hleads

theorem Walks.isChain {current : String} {p q : Progress σ} {visits : List Visit}
    {verdict : Verdict} (h : e.Walks site current p visits verdict q) :
    visits.IsChain (Precedes site.machine) := by
  induction h with
  | late _ | ceiling _ _ => exact .nil
  | missing _ _ _ | finished _ | failed _ | outOfTime _ => exact .singleton _
  | next first rest ih =>
    refine List.isChain_cons.mpr ⟨fun w hw ↦ ?_, ih⟩
    obtain ⟨hstate, hentry⟩ := rest.head w hw
    exact first.precedes hstate hentry

/-- In a checked machine every name that is come to is a state. -/
theorem Walks.exists_state (hm : site.machine.Checked) {current : String} {p q : Progress σ}
    {visits : List Visit} {verdict : Verdict} (h : e.Walks site current p visits verdict q)
    (hreaches : site.machine.Reaches current) :
    ∀ v ∈ visits, ∃ s, site.machine.state? v.state = some s := by
  induction h with
  | late _ | ceiling _ _ => simp
  | missing _ _ _ => simpa [missingVisit] using hreaches.exists_state hm
  | next first _ ih =>
    have hrest := ih (.step hreaches first.state first.visit.mem_targets)
    exact List.forall_mem_cons.mpr ⟨⟨_, first.state⟩, hrest⟩
  | finished last | failed last | outOfTime last => simpa using ⟨_, last.state⟩

theorem Walks.cut {current : String} {p q : Progress σ} {visits : List Visit} {verdict : Verdict}
    (h : e.Walks site current p visits verdict q)
    (hlast : ∀ v ∈ visits.getLast?, ∃ target, v.step = .next target) :
    verdict = .timedOut ∨ verdict = .failed e.ceiling := by
  induction h with
  | late _ | outOfTime _ => exact .inl rfl
  | ceiling _ _ => exact .inr rfl
  | next _ _ ih =>
    refine ih fun w hw ↦ hlast w ?_
    rw [List.getLast?_cons, Option.mem_def.mp hw]
    rfl
  | missing _ _ _ | finished _ | failed _ =>
    obtain ⟨target, htarget⟩ := hlast _ rfl
    cases htarget

theorem Walks.success {current : String} {p q : Progress σ} {visits : List Visit}
    {verdict : Verdict} (h : e.Walks site current p visits verdict q)
    (hverdict : verdict = .succeeded) :
    ∃ v s, visits.getLast? = some v ∧ site.machine.state? v.state = some s ∧
      ((∃ comment, s = .succeed comment) ∨
        s.transition.next = none ∧ s.transition.ending = some true) := by
  induction h with
  | late _ | ceiling _ _ | missing _ _ _ | failed _ | outOfTime _ => cases hverdict
  | next _ _ ih =>
    obtain ⟨v, s, hlast, hs⟩ := ih hverdict
    exact ⟨v, s, by rw [List.getLast?_cons, hlast, Option.getD_some], hs⟩
  | finished last =>
    refine ⟨_, _, rfl, last.state, ?_⟩
    have hdecides := last.visit.decides
    cases hdecides with
    | finish hlast => exact hlast.symm.imp_right Step.after_eq_finish_iff.mp

/-- **A scope keeps to the graph of its machine.** -/
theorem followsGraph_runScope (hm : site.machine.Checked) (p : Progress σ) :
    FollowsGraph e site (e.runScope site p).1 := by
  obtain ⟨visits, verdict, q, heq, hwalk⟩ := e.walks_runScope site p
  rw [heq]
  exact ⟨hwalk.head, hwalk.exists_state hm .start, hwalk.isChain, hwalk.cut, hwalk.success⟩

/-! ## The scopes of a run -/

/-- The runs started in the run `r` of the scope at `site`, each with the site it stands at: the run
itself, and the runs of branches in every round of the parallel states that it visits. -/
inductive Started (site : Site) (r : ScopeRun) : Site → ScopeRun → Prop
  | whole : Started site r site r
  | branch {outer : Site} {run inner : ScopeRun} {v : Visit} {round : Attempt (List ScopeRun)}
      {i : Nat} (started : Started site r outer run) (mem : v ∈ run.visits)
      (mem_rounds : round ∈ v.activity.rounds) (get : round.record[i]? = some inner) :
      Started site r
        (branchSite outer v.state i (((outer.machine.branchesOf v.state)[i]?).getD default)) inner

/-- What is started in a run of the engine is a run of the engine, at a site that the branches lead
to. -/
theorem Started.exists_run {p : Progress σ} {inner : Site} {run : ScopeRun}
    (h : Started site (e.runScope site p).1 inner run) :
    Leads site inner ∧ ∃ p', run = (e.runScope inner p').1 := by
  induction h with
  | whole => exact ⟨.refl, p, rfl⟩
  | @branch outer _ run v round i _ mem mem_rounds get ih =>
    obtain ⟨hleads, p', rfl⟩ := ih
    obtain ⟨visits, verdict, q, heq, hwalk⟩ := e.walks_runScope outer p'
    rw [heq] at mem
    have hmade := hwalk.made mem
    cases hmade with
    | missing _ _ _ => cases mem_rounds
    | passed pass =>
      obtain ⟨rounds, rfl, hround⟩ := Activity.exists_of_mem_rounds mem_rounds
      obtain ⟨branches, settings, m, p'', rfl, hm, -, hrun⟩ :=
        pass.visit.exists_branch_get e.narrows_runScope hround get
      rw [Machine.branchesOf_eq pass.state, hm, Option.getD_some]
      exact ⟨hleads.branch pass.state hm, p'', hrun⟩

/-- **A run follows the declared graph.** The root scope and every run of a branch that is started
enter the states of a path in the graph of their machine, and each of them succeeds only at a state
that ends it. -/
theorem run_followsGraph (e : Engine σ) (h : e.document.machine.check = .ok ()) (input : Json)
    (world : σ) {site : Site} {r : ScopeRun}
    (hr : Started e.root (e.run input world).1 site r) :
    Leads e.root site ∧ r.scope = site.scope ∧ FollowsGraph e site r := by
  obtain ⟨hleads, p, rfl⟩ := Started.exists_run (p := e.start input world) hr
  have hchecked : e.root.machine.Checked := Machine.checked_of_check h
  exact ⟨hleads, rfl, followsGraph_runScope (hleads.checked hchecked) p⟩

/-- A choice between work in a branch and nothing. -/
def chosenFan : Engine Nat where
  document := .ofMachine {
    startAt := "Ask"
    states := [
      ("Ask", .choice {
        choices := [⟨.compare "$.work" (.booleanEquals true), some "Fan"⟩]
        fallback := some "Done" }),
      ("Done", .succeed none),
      ("Fan", .parallel [
        { startAt := "Work", states := [
          ("Rest", .wait { seconds := some 4, transition := { ending := some true } }),
          ("Work", .task {
            resource := "work"
            transition := { ending := some true }
            catchers := [⟨[ErrorName.all], "Rest", some "$.error"⟩] })] }]
        { resultPath := some "$.parts", transition := { next := some "Done" } })] }
  registry := Registry.register {} (.here { name := "work" })
  perform := fun _ n ↦ ({ result := .error (.taskFailed "busy") }, n + 1)
  maxTransitions := 5

/-- The branch goes from the work that fails to the rest, and succeeds there. -/
theorem followsGraph_chosenFan :
    let input : Json := .object [("work", .bool true)]
    chosenFan.document.machine.check = .ok () ∧
      FollowsGraph chosenFan chosenFan.root (chosenFan.run input 0).1 ∧
      ∃ site r, Started chosenFan.root (chosenFan.run input 0).1 site r ∧
        site.branch = [0] ∧ r.visits.map Visit.state = ["Work", "Rest"] ∧
        FollowsGraph chosenFan site r := by
  intro input
  have hcheck : chosenFan.document.machine.check = .ok () := by rfl
  have hfan : ∃ v ∈ (chosenFan.run input 0).1.visits, ∃ round ∈ v.activity.rounds,
      ∃ r ∈ round.record[0]?, r.visits.map Visit.state = ["Work", "Rest"] := by decide +kernel
  obtain ⟨v, hv, round, hround, r, hr, hstates⟩ := hfan
  have hwhole : Started chosenFan.root (chosenFan.run input 0).1 _ _ := .whole
  have hstarted := hwhole.branch hv hround hr
  exact ⟨hcheck, (run_followsGraph chosenFan hcheck input 0 hwhole).2.2, _, r, hstarted, rfl,
    hstates, (run_followsGraph chosenFan hcheck input 0 hstarted).2.2⟩

end Engine

end Workflow
