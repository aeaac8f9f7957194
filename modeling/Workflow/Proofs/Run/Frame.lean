import Workflow.Proofs.Run.Accounts

/-!
# What a run leaves alone

All writing goes through `storeAt`: the result of a task, the outputs of a parallel state, and the
description of a caught error are stored each at the path that the document declares for it. A path
of the context document that is apart from all of these is out of reach, so it reads at the end of a
run what it read at the beginning, and so it does in every document that a task or a branch is given
on the way.

## Branches

The branches of a parallel state work on documents of their own. Each of them starts on the document
that the state was entered with, whatever ran before it, and of all that they have written only the
documents at their ends are left, as entries of one array. `Outlasts` lists what can be left of a
round of branches.
-/

namespace Workflow

/-! ## Where a machine stores -/

/-- The path fields under which a visit of the state may store something. -/
def State.storeFields (s : State) : List (Option String) :=
  match s with
  | .task _ | .parallel _ _ => s.resultPath :: s.catchers.map Catcher.resultPath
  | .choice _ | .wait _ | .succeed _ | .fail _ => []

/-- The path is apart from every path at which a state of the machine stores. -/
def Machine.Spares (m : Machine) (q : ContextPath) : Prop :=
  ∀ entry ∈ m.states, ∀ field ∈ entry.2.storeFields, ∀ p ∈ storedAt? field, q.Apart p

instance (m : Machine) (q : ContextPath) : Decidable (m.Spares q) :=
  inferInstanceAs (Decidable (∀ entry ∈ m.states, ∀ field ∈ entry.2.storeFields,
    ∀ p ∈ storedAt? field, q.Apart p))

theorem State.resultPath_mem_storeFields {s : State} (h : s.kind = .task ∨ s.kind = .parallel) :
    s.resultPath ∈ s.storeFields := by
  cases s with
  | task _ | parallel _ _ => exact List.mem_cons_self
  | choice _ | wait _ | succeed _ | fail _ => simp [kind] at h

theorem State.mem_storeFields_of_catcher {s : State} {c : Catcher} (hc : c ∈ s.catchers) :
    c.resultPath ∈ s.storeFields := by
  have hmem : c.resultPath ∈ s.catchers.map Catcher.resultPath := List.mem_map.mpr ⟨c, hc, rfl⟩
  cases s with
  | task _ | parallel _ _ => exact List.mem_cons_of_mem _ hmem
  | choice _ | wait _ | succeed _ | fail _ => simp [catchers] at hc

theorem State.exists_of_kind_parallel {s : State} (h : s.kind = .parallel) :
    ∃ branches settings, s = .parallel branches settings := by
  cases s with
  | parallel branches settings => exact ⟨branches, settings, rfl⟩
  | task _ | choice _ | wait _ | succeed _ | fail _ => simp [kind] at h

/-! ## Documents that are given away -/

/-- The documents given to tasks and to branches during a visit. -/
def Activity.handed : Activity → List Json
  | .called calls => calls.map fun a ↦ a.record.context.input
  | .forked rounds => rounds.flatMap fun round ↦ round.record.map fun r ↦ r.start.document
  | .waited _ => []
  | .none => []

namespace Engine

variable {σ : Type} {e : Engine σ} {site : Site} {name : String}

/-- Every branch, in whatever round, starts on the document on entry. -/
theorem Visits.start_document {s : State} {p q : Progress σ} {step : Step}
    {rounds : List (Attempt (List ScopeRun))}
    (h : Visits e e.runScope site name s p step (.forked rounds) q) :
    ∀ round ∈ rounds, ∀ r ∈ round.record, r.start.document = p.document := by
  cases h with
  | forked attempts =>
    refine attempts.forall_seen
      (fun doc runs ↦ ∀ r ∈ runs, r.start.document = doc)
      attemptParallel_document_of_failed ?_
    intro k p result runs q made r hr
    obtain ⟨_, _, -, hruns, -⟩ := rounds_of_attemptParallel made
    obtain rfl : (runBranches _ _ _ _ _ _ _).1 = runs := congrArg Prod.fst hruns
    obtain ⟨i, m, p', -, hstart, -, rfl⟩ := exists_of_mem_runBranches e.narrows_runScope hr
    exact congrArg Moment.document hstart

theorem Visits.handed_eq {s : State} {p q : Progress σ} {step : Step} {activity : Activity}
    (h : Visits e e.runScope site name s p step activity q) :
    ∀ doc ∈ activity.handed, doc = p.document := by
  intro doc hdoc
  cases activity with
  | called calls =>
    obtain ⟨a, ha, rfl⟩ := List.mem_map.mp hdoc
    exact h.told a ha
  | forked rounds =>
    obtain ⟨round, hround, hdoc⟩ := List.mem_flatMap.mp hdoc
    obtain ⟨r, hr, rfl⟩ := List.mem_map.mp hdoc
    exact h.start_document round hround r hr
  | waited _ | none => simp [Activity.handed] at hdoc

/-! ## The frame of a run -/

/-- A visit stores at no other path than those of its state. -/
theorem Departs.read_eq {s : State} {doc doc' : Json} {activity : Activity} {step : Step}
    {q : ContextPath} (hq : ∀ field ∈ s.storeFields, ∀ p ∈ storedAt? field, q.Apart p)
    (h : Departs s name doc activity step doc') : q.read doc' = q.read doc := by
  cases h with
  | @stored v _ attempts _ stored =>
    have hread := read_storeAt (hq _ (State.resultPath_mem_storeFields attempts)) v doc
    rwa [stored] at hread
  | @caught f c _ _ caught stored =>
    have hmem := State.mem_storeFields_of_catcher (Catcher.mem_of_for? caught)
    have hread := read_storeAt (hq _ hmem) f.toJson doc
    rwa [stored] at hread
  | waited _ | chose _ | succeeded _ | failed _ | outOfTime _ => rfl

theorem Passes.read_eq {q : ContextPath} (hm : site.machine.Spares q) {current : String}
    {p r : Progress σ} {s : State} {step : Step} {activity : Activity}
    (h : e.Passes site current p s step activity r) : q.read r.document = q.read p.document :=
  h.visit.departs.read_eq (hm _ (Entries.mem_of_find? h.state))

theorem Walks.read_eq {q : ContextPath} (hm : site.machine.Spares q) {current : String}
    {p r : Progress σ} {visits : List Visit} {verdict : Verdict}
    (h : e.Walks site current p visits verdict r) :
    q.read r.document = q.read p.document ∧
      ∀ v ∈ visits, ∀ doc ∈ v.activity.handed, q.read doc = q.read p.document := by
  have hhanded : ∀ {current : String} {p r : Progress σ} {s : State} {step : Step}
      {activity : Activity}, e.Passes site current p s step activity r →
      ∀ doc ∈ activity.handed, q.read doc = q.read p.document :=
    fun pass doc hdoc ↦ congrArg q.read (pass.visit.handed_eq doc hdoc)
  induction h with
  | late _ | ceiling _ _ => exact ⟨rfl, by simp⟩
  | missing _ _ _ => exact ⟨rfl, by simp [missingVisit, Activity.handed]⟩
  | next first _ ih =>
    have hread := first.read_eq hm
    rw [hread] at ih
    exact ⟨ih.1, List.forall_mem_cons.mpr ⟨hhanded first, ih.2⟩⟩
  | finished last | failed last | outOfTime last =>
    refine ⟨last.read_eq hm, fun v hv ↦ ?_⟩
    rw [List.mem_singleton.mp hv]
    exact hhanded last

/-! ## What is left of branches -/

/-- What can be left of the rounds of a parallel state in the document that was `doc` on entry. -/
inductive Outlasts (branches : List Machine) (settings : ParallelSettings) (doc : Json)
    (rounds : List (Attempt (List ScopeRun))) : Json → Prop
  | nothing : Outlasts branches settings doc rounds doc
  /-- The error of the last branch that was started, at the path of a catcher. -/
  | error {last : Attempt (List ScopeRun)} {r : ScopeRun} {f caught : Failure} {c : Catcher}
      {doc' : Json} (mem : rounds.getLast? = some last) (mem_round : last.record.getLast? = some r)
      (failed : r.verdict = .failed f)
      (prefixed : caught = { f with cause := s!"{r.scope}: {f.cause}" })
      (covered : Catcher.for? settings.catchers caught.error = some c)
      (stored : storeAt c.resultPath caught.toJson doc = (doc', none)) :
      Outlasts branches settings doc rounds doc'
  /-- The document at the end of every branch, as an entry of its own. -/
  | outputs {last : Attempt (List ScopeRun)} {doc' : Json} (mem : rounds.getLast? = some last)
      (succeeded : ∀ r ∈ last.record, r.verdict = .succeeded)
      (length : last.record.length = branches.length)
      (stored : storeAt settings.resultPath
        (.array (last.record.map fun r ↦ r.final.document)) doc = (doc', none)) :
      Outlasts branches settings doc rounds doc'

/-- A round without a failure has run all branches. -/
theorem Visits.length_of_succeeded {branches : List Machine} {settings : ParallelSettings}
    {p q : Progress σ} {step : Step} {rounds : List (Attempt (List ScopeRun))}
    (h : Visits e e.runScope site name (.parallel branches settings) p step (.forked rounds) q)
    {round : Attempt (List ScopeRun)} (hround : round ∈ rounds)
    (hsucceeded : ∀ r ∈ round.record, r.verdict = .succeeded) :
    round.record.length = branches.length := by
  cases h with
  | forked attempts =>
    obtain ⟨k, p', -, hrecord⟩ :=
      attempts.exists_of_mem (attemptParallel_left_le e.narrows_runScope site name _ _ _) hround
    rw [attemptParallel_runs] at hrecord
    rw [hrecord] at hsucceeded ⊢
    exact length_runBranches hsucceeded

theorem Visits.outlasts {branches : List Machine} {settings : ParallelSettings}
    {p q : Progress σ} {step : Step} {rounds : List (Attempt (List ScopeRun))}
    (h : Visits e e.runScope site name (.parallel branches settings) p step (.forked rounds) q) :
    Outlasts branches settings p.document rounds q.document := by
  have hlength := fun round (hround : round ∈ rounds) ↦ h.length_of_succeeded hround
  have hdeparts := h.departs
  generalize q.document = exit at hdeparts ⊢
  cases hdeparts with
  | stored _ yields stored =>
    cases yields with
    | gathered mem gathered =>
      obtain ⟨hsucceeded, rfl⟩ := gather_eq_ok_iff.mp gathered
      exact .outputs mem hsucceeded (hlength _ (List.mem_of_getLast? mem) hsucceeded) stored
  | caught raised caught stored =>
    cases raised with
    | inside mem mem_round failed => exact .error mem mem_round failed rfl caught stored
  | waited state | chose state | succeeded state => cases state
  | failed _ | outOfTime _ => exact .nothing

/-! ## Executions -/

/-- **A run touches its result paths only.** A path apart from all at which the states of the
machine store reads at the end what it reads in the input, and so it does in every document that a
task or a branch is given. Of what the branches of a parallel state write, at any depth, nothing is
seen by another branch or in another round, and nothing is left but the entry of each in the
result. -/
theorem execute_spares (e : Engine σ) (input : Json) (world : σ) :
    (∀ q : ContextPath, e.document.machine.Spares q →
      q.read (e.execute input world).1.output = q.read input ∧
      ∀ v ∈ (e.run input world).1.visits, ∀ doc ∈ v.activity.handed, q.read doc = q.read input) ∧
    ∀ x ∈ e.entered input world, ∀ (branches : List Machine) (settings : ParallelSettings),
      x.state? = some (.parallel branches settings) →
      ∃ rounds, x.visit.activity = .forked rounds ∧
        (∀ round ∈ rounds, ∀ (i : Nat) (r : ScopeRun), round.record[i]? = some r →
          r.scope = x.site.scope.branch x.visit.state i ∧
            r.start.document = x.visit.entry.document) ∧
        Outlasts branches settings x.visit.entry.document rounds x.visit.exit.document := by
  constructor
  · intro q hq
    obtain ⟨visits, verdict, r, heq, hwalk⟩ := e.walks_run input world
    have houtput : (e.execute input world).1.output = r.document := by
      rw [output_execute, heq]
    rw [houtput, heq]
    exact hwalk.read_eq hq
  · intro x hx branches settings hs
    obtain ⟨p, -, hmade⟩ := ((e.run_accounts input world).occurs x hx).made
    obtain ⟨site, visit⟩ := x
    cases hmade with
    | missing _ _ state => cases state.symm.trans hs
    | passed pass =>
      obtain rfl := Option.some.inj (pass.state.symm.trans hs)
      have hvisit := pass.visit
      obtain ⟨rounds, rfl⟩ := hvisit.exists_rounds
      refine ⟨rounds, rfl, ?_, hvisit.outlasts⟩
      intro round hround i r hr
      obtain ⟨_, _, m, p', -, -, -, heq⟩ :=
        hvisit.exists_branch_get e.narrows_runScope hround hr
      refine ⟨by rw [heq]; rfl, ?_⟩
      exact hvisit.start_document round hround r (List.mem_of_getElem? hr)

/-- The first task fails and its error is noted, then two branches work. -/
def notedRun : Engine Nat where
  document := .ofMachine {
    startAt := "Try"
    states := [
      ("Fan", .parallel [
        { startAt := "Work", states := [
          ("Work", .task { resource := "work", transition := { ending := some true } })] },
        { startAt := "Pause", states := [
          ("Pause", .wait { seconds := some 4, transition := { ending := some true } })] }]
        { resultPath := some "$.parts", transition := { ending := some true } }),
      ("Try", .task {
        resource := "work"
        resultPath := some "$.done"
        transition := { next := some "Fan" }
        catchers := [⟨[ErrorName.all], "Fan", some "$.noted.error"⟩] })] }
  registry := Registry.register {} (.here { name := "work" })
  perform := fun i n ↦
    ({ result := if n = 0 then .error (.taskFailed "busy") else .ok i.context.input }, n + 1)
  maxTransitions := 5

theorem read_notedRun :
    let kept : ContextPath := ⟨["noted", "by"], by decide⟩
    let input : Json := .object [("noted", .object [("by", .string "me")])]
    notedRun.document.machine.Spares kept ∧
      kept.read (notedRun.execute input 0).1.output = some (.string "me") ∧
      ∃ x ∈ notedRun.entered input 0, ∃ branches settings rounds,
        x.state? = some (.parallel branches settings) ∧ x.visit.activity = .forked rounds ∧
          Outlasts branches settings x.visit.entry.document rounds x.visit.exit.document := by
  intro kept input
  have hspares : notedRun.document.machine.Spares kept := by decide
  have hforked : ((notedRun.entered input 0).any fun x ↦
      x.state?.any fun s ↦ s.kind = .parallel) = true := by decide +kernel
  obtain ⟨x, hx, hs⟩ := List.any_eq_true.mp hforked
  obtain ⟨s, hs, hkind⟩ := (Option.any_eq_true _ _).mp hs
  obtain ⟨branches, settings, rfl⟩ := State.exists_of_kind_parallel (of_decide_eq_true hkind)
  obtain ⟨hread, hforks⟩ := execute_spares notedRun input 0
  obtain ⟨rounds, hrounds, -, houtlasts⟩ := hforks x hx branches settings hs
  exact ⟨hspares, (hread kept hspares).1, x, hx, branches, settings, rounds, hs, hrounds, houtlasts⟩

end Engine

end Workflow
