import Workflow.Proofs.Run.Visits

/-!
# Rounds of branches

One attempt at a parallel state is a round of its branches. The round ends with the first branch
that does not succeed, and what it comes to is read off the runs it has started: the outputs of all
of them, or how the last one ended.
-/

namespace Workflow

namespace Engine

variable {σ : Type}

/-! ## What a round comes to -/

theorem gather_cons_of_succeeded {r : ScopeRun} {rs : List ScopeRun}
    (hv : r.verdict = .succeeded) :
    gather (r :: rs) = (gather rs).map (r.final.document :: ·) := by
  rw [gather, hv]

theorem gather_cons_of_failed {r : ScopeRun} {rs : List ScopeRun} {f : Failure}
    (hv : r.verdict = .failed f) :
    gather (r :: rs) = .error (some { f with cause := s!"{r.scope}: {f.cause}" }) := by
  rw [gather, hv]

theorem gather_cons_of_timedOut {r : ScopeRun} {rs : List ScopeRun}
    (hv : r.verdict = .timedOut) : gather (r :: rs) = .error none := by
  rw [gather, hv]

/-- A round has no outputs if a run of it did not succeed. -/
theorem gather_cons_ne_ok {r : ScopeRun} {rs : List ScopeRun} {outputs : List Json}
    (hv : r.verdict ≠ .succeeded) : gather (r :: rs) ≠ .ok outputs := by
  intro h
  rcases hr : r.verdict with _ | f | _
  · exact hv hr
  · rw [gather_cons_of_failed hr] at h
    cases h
  · rw [gather_cons_of_timedOut hr] at h
    cases h

theorem gather_eq_ok_iff {runs : List ScopeRun} {outputs : List Json} :
    gather runs = .ok outputs ↔
      (∀ r ∈ runs, r.verdict = .succeeded) ∧ outputs = runs.map fun r ↦ r.final.document := by
  induction runs generalizing outputs with
  | nil => simp [gather, eq_comm]
  | cons r rs ih =>
    by_cases hv : r.verdict = .succeeded
    · rw [gather_cons_of_succeeded hv]
      cases hrs : gather rs with
      | error x =>
        constructor
        · intro h
          cases h
        · rintro ⟨hall, -⟩
          have hok := ih.mpr ⟨fun r' hr' ↦ hall r' (List.mem_cons_of_mem r hr'), rfl⟩
          rw [hrs] at hok
          cases hok
      | ok later =>
        obtain ⟨hall, rfl⟩ := ih.mp hrs
        simp only [Except.map, Except.ok.injEq, List.mem_cons, forall_eq_or_imp, List.map_cons]
        exact ⟨fun h ↦ ⟨⟨hv, hall⟩, h.symm⟩, fun h ↦ h.2.symm⟩
    · constructor
      · intro h
        exact absurd h (gather_cons_ne_ok hv)
      · rintro ⟨hall, -⟩
        exact absurd (hall r List.mem_cons_self) hv

/-- A round without outputs has a first run without success, and ends as that run does. -/
theorem exists_of_gather_eq_error {runs : List ScopeRun} {stopped : Option Failure}
    (h : gather runs = .error stopped) :
    ∃ before r after, runs = before ++ r :: after ∧ (∀ b ∈ before, b.verdict = .succeeded) ∧
      (r.verdict = .timedOut ∧ stopped = none ∨ ∃ f, r.verdict = .failed f ∧
        stopped = some { f with cause := s!"{r.scope}: {f.cause}" }) := by
  induction runs with
  | nil => cases h
  | cons r rs ih =>
    rcases hv : r.verdict with _ | f | _
    · rw [gather_cons_of_succeeded hv] at h
      cases hrs : gather rs with
      | ok later =>
        rw [hrs] at h
        cases h
      | error x =>
        rw [hrs] at h
        cases h
        -- the first run without success is among the later ones
        obtain ⟨before, r', after, rfl, hbefore, hstopped⟩ := ih hrs
        refine ⟨r :: before, r', after, rfl, fun b hb ↦ ?_, hstopped⟩
        rcases List.mem_cons.mp hb with rfl | hb
        · exact hv
        · exact hbefore b hb
    · rw [gather_cons_of_failed hv] at h
      cases h
      exact ⟨[], r, rs, rfl, by simp, .inr ⟨f, hv, rfl⟩⟩
    · rw [gather_cons_of_timedOut hv] at h
      cases h
      exact ⟨[], r, rs, rfl, by simp, .inl ⟨hv, rfl⟩⟩

/-- No branch is started after one that did not succeed. -/
theorem eq_nil_of_runBranches {run : Runner σ} {site : Site} {name : String} {start : Moment}
    {index : Nat} {ms : List Machine} {p : Progress σ} {before after : List ScopeRun}
    {r : ScopeRun} (h : (runBranches run site name start index ms p).1 = before ++ r :: after)
    (hv : r.verdict ≠ .succeeded) : after = [] := by
  induction ms generalizing index p before with
  | nil => simp [runBranches] at h
  | cons m ms ih =>
    rcases hr : run (branchSite site name index m) { p with toMoment := start } with ⟨first, q⟩
    by_cases hfirst : first.verdict = .succeeded
    · rw [runBranches_cons_of_succeeded hr hfirst] at h
      cases before with
      | nil =>
        obtain ⟨rfl, -⟩ := List.cons.inj h
        exact absurd hfirst hv
      | cons b before => exact ih (List.cons.inj h).2
    · rw [runBranches_cons_of_ne hr hfirst] at h
      cases before with
      | nil => exact (List.cons.inj h).2.symm
      | cons b before => simp at h

/-- Every run of a round is the run of the branch at its index from the start of the round. -/
theorem exists_of_getElem?_runBranches {run : Runner σ} (hrun : Narrows run) {site : Site}
    {name : String} {start : Moment} {index i : Nat} {ms : List Machine} {p : Progress σ}
    {r : ScopeRun} (h : (runBranches run site name start index ms p).1[i]? = some r) :
    ∃ m p', ms[i]? = some m ∧ p'.toMoment = start ∧ p'.left ≤ p.left ∧
      r = (run (branchSite site name (index + i) m) p').1 := by
  induction ms generalizing index i p with
  | nil => simp [runBranches] at h
  | cons m ms ih =>
    have hle := hrun (branchSite site name index m) { p with toMoment := start }
    rcases hr : run (branchSite site name index m) { p with toMoment := start } with ⟨first, q⟩
    rw [hr] at hle
    have hfirst : first =
        (run (branchSite site name (index + 0) m) { p with toMoment := start }).1 :=
      (congrArg Prod.fst hr).symm
    by_cases hv : first.verdict = .succeeded
    · rw [runBranches_cons_of_succeeded hr hv] at h
      rcases i with _ | i
      · obtain rfl : first = r := Option.some.inj h
        exact ⟨m, { p with toMoment := start }, rfl, rfl, Nat.le_refl _, hfirst⟩
      · obtain ⟨m', p', hm, hp, hleft, heq⟩ := ih h
        refine ⟨m', p', hm, hp, Nat.le_trans hleft hle, ?_⟩
        rw [heq, Nat.add_right_comm, Nat.add_assoc]
    · rw [runBranches_cons_of_ne hr hv] at h
      rcases i with _ | i
      · obtain rfl : first = r := Option.some.inj h
        exact ⟨m, { p with toMoment := start }, rfl, rfl, Nat.le_refl _, hfirst⟩
      · cases h

theorem exists_of_mem_runBranches {run : Runner σ} (hrun : Narrows run) {site : Site}
    {name : String} {start : Moment} {index : Nat} {ms : List Machine} {p : Progress σ}
    {r : ScopeRun} (h : r ∈ (runBranches run site name start index ms p).1) :
    ∃ i m p', ms[i]? = some m ∧ p'.toMoment = start ∧ p'.left ≤ p.left ∧
      r = (run (branchSite site name (index + i) m) p').1 := by
  obtain ⟨i, hi⟩ := List.mem_iff_getElem?.mp h
  exact ⟨i, exists_of_getElem?_runBranches hrun hi⟩

/-- All branches are started if none of them is without success. -/
theorem length_runBranches {run : Runner σ} {site : Site} {name : String} {start : Moment}
    {index : Nat} {ms : List Machine} {p : Progress σ}
    (h : ∀ r ∈ (runBranches run site name start index ms p).1, r.verdict = .succeeded) :
    (runBranches run site name start index ms p).1.length = ms.length := by
  induction ms generalizing index p with
  | nil => rfl
  | cons m ms ih =>
    rcases hr : run (branchSite site name index m) { p with toMoment := start } with ⟨first, q⟩
    by_cases hv : first.verdict = .succeeded
    · rw [runBranches_cons_of_succeeded hr hv] at h ⊢
      rw [List.length_cons, List.length_cons, ih (List.forall_mem_cons.mp h).2]
    · rw [runBranches_cons_of_ne hr hv] at h
      exact absurd (h first List.mem_cons_self) hv

theorem eq_of_runBranches_eq_nil {run : Runner σ} {site : Site} {name : String} {start : Moment}
    {index : Nat} {ms : List Machine} {p q : Progress σ}
    (h : runBranches run site name start index ms p = ([], q)) : q = p := by
  cases ms with
  | nil => exact (Prod.mk.inj h).2.symm
  | cons m ms =>
    rcases hr : run (branchSite site name index m) { p with toMoment := start } with ⟨r, q'⟩
    by_cases hv : r.verdict = .succeeded
    · rw [runBranches_cons_of_succeeded hr hv] at h
      cases h
    · rw [runBranches_cons_of_ne hr hv] at h
      cases h

/-- The round ends where its last run does. -/
theorem getLast?_runBranches {run : Runner σ} (hrun : Narrows run) {site : Site} {name : String}
    {start : Moment} {index : Nat} {ms : List Machine} {p q : Progress σ} {runs : List ScopeRun}
    {r : ScopeRun} (h : runBranches run site name start index ms p = (runs, q))
    (hr : runs.getLast? = some r) :
    ∃ m p', ms[runs.length - 1]? = some m ∧ p'.left ≤ p.left ∧
      run (branchSite site name (index + (runs.length - 1)) m) p' = (r, q) := by
  induction ms generalizing index p runs with
  | nil =>
    obtain ⟨rfl, rfl⟩ := Prod.mk.inj h
    cases hr
  | cons m ms ih =>
    have hle := hrun (branchSite site name index m) { p with toMoment := start }
    rcases hfirst : run (branchSite site name index m) { p with toMoment := start }
      with ⟨first, q'⟩
    rw [hfirst] at hle
    by_cases hv : first.verdict = .succeeded
    · rcases hrest : runBranches run site name start (index + 1) ms q' with ⟨rest, q''⟩
      rw [runBranches_cons_of_succeeded hfirst hv, hrest, Prod.mk.injEq] at h
      obtain ⟨rfl, rfl⟩ := h
      rw [List.getLast?_cons, Option.some.injEq] at hr
      cases rest with
      | nil =>
        obtain rfl := eq_of_runBranches_eq_nil hrest
        obtain rfl : first = r := hr
        exact ⟨m, { p with toMoment := start }, rfl, Nat.le_refl _, hfirst⟩
      | cons second rest =>
        have hlast : (second :: rest).getLast? = some r := by
          rw [List.getLast?_cons, Option.getD_some] at hr
          rw [List.getLast?_cons, hr]
        obtain ⟨m', p', hm, hleft, hrun'⟩ := ih hrest hlast
        refine ⟨m', p', hm, Nat.le_trans hleft hle, ?_⟩
        rwa [Nat.add_right_comm, Nat.add_assoc] at hrun'
    · rw [runBranches_cons_of_ne hfirst hv, Prod.mk.injEq] at h
      obtain ⟨rfl, rfl⟩ := h
      obtain rfl : first = r := Option.some.inj hr
      exact ⟨m, { p with toMoment := start }, rfl, Nat.le_refl _, hfirst⟩

/-! ## The clock of a round -/

theorem slowest_cons (start : Nat) (r : ScopeRun) (rs : List ScopeRun) :
    slowest start (r :: rs) = slowest (max start r.final.clock) rs := rfl

theorem slowest_le_iff {start bound : Nat} {runs : List ScopeRun} :
    slowest start runs ≤ bound ↔ start ≤ bound ∧ ∀ r ∈ runs, r.final.clock ≤ bound := by
  induction runs generalizing start with
  | nil => simp [slowest]
  | cons r rs ih => rw [slowest_cons, ih, Nat.max_le, List.forall_mem_cons, and_assoc]

theorem le_slowest {start : Nat} {runs : List ScopeRun} {r : ScopeRun} (h : r ∈ runs) :
    r.final.clock ≤ slowest start runs :=
  (slowest_le_iff.mp (Nat.le_refl _)).2 r h

/-! ## An attempt at a parallel state -/

/-- What an attempt at a parallel state does with the runs of its round. -/
inductive Rounds (s : State) (settings : ParallelSettings) (runs : List ScopeRun)
    (doc : Json) : AttemptResult → Json → Prop
  | outOfTime (gathered : gather runs = .error none) :
      Rounds s settings runs doc (.settled .outOfTime) doc
  | failed {f : Failure} (gathered : gather runs = .error (some f)) :
      Rounds s settings runs doc (.failed f) doc
  | stored {outputs : List Json} {doc' : Json} (gathered : gather runs = .ok outputs)
      (stored : storeAt settings.resultPath (.array outputs) doc = (doc', none)) :
      Rounds s settings runs doc (.settled (.after s)) doc'
  | unstored {outputs : List Json} {doc' : Json} {cause : String}
      (gathered : gather runs = .ok outputs)
      (stored : storeAt settings.resultPath (.array outputs) doc = (doc', some cause)) :
      Rounds s settings runs doc (.settled (.fail (.runtime cause))) doc'

theorem rounds_attemptParallel (run : Runner σ) (site : Site) (name : String) (s : State)
    (branches : List Machine) (settings : ParallelSettings) (k : Nat) (p : Progress σ) :
    ∃ result doc,
      attemptParallel run site name s branches settings k p
        = (result, (runBranches run site name p.toMoment 0 branches p).1,
          { (runBranches run site name p.toMoment 0 branches p).2 with
            document := doc
            clock := slowest p.clock (runBranches run site name p.toMoment 0 branches p).1 }) ∧
      Rounds s settings (runBranches run site name p.toMoment 0 branches p).1 p.document
        result doc := by
  rcases hround : runBranches run site name p.toMoment 0 branches p with ⟨runs, q⟩
  rcases hgather : gather runs with (_ | f) | outputs
  · exact ⟨_, _, by simp [attemptParallel, hround, hgather], .outOfTime hgather⟩
  · exact ⟨_, _, by simp [attemptParallel, hround, hgather], .failed hgather⟩
  · rcases hstore : storeAt settings.resultPath (.array outputs) p.document with ⟨doc, _ | cause⟩
    · exact ⟨_, doc, by simp [attemptParallel, hround, hgather, hstore], .stored hgather hstore⟩
    · exact ⟨_, doc, by simp [attemptParallel, hround, hgather, hstore], .unstored hgather hstore⟩

/-- The runs of an attempt at a parallel state are those of its round. -/
theorem attemptParallel_runs (run : Runner σ) (site : Site) (name : String) (s : State)
    (branches : List Machine) (settings : ParallelSettings) (k : Nat) (p : Progress σ) :
    (attemptParallel run site name s branches settings k p).2.1
      = (runBranches run site name p.toMoment 0 branches p).1 := by
  obtain ⟨result, doc, heq, -⟩ :=
    rounds_attemptParallel run site name s branches settings k p
  rw [heq]

end Engine

end Workflow
