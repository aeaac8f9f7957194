import Workflow.Proofs.Run.Visits

/-!
# Walks without fuel

`walk` recurses on a bound for the states that may still be entered, and the runs of branches
recurse on the same bound. The bound makes the recursion structural and has no other effect: any
number that is at least `left` gives the same walk.

`Walks` tells a walk through a scope state by state, with the branches run by `runScope` itself, and
`walks_runScope` says that every run is such a walk. What a run does inside its branches follows by
induction on the number of states left to enter, which `Visits` never lets grow.
-/

namespace Workflow

namespace Engine

variable {σ : Type} (e : Engine σ)

/-! ## One round of the recursion -/

/-- The runner that a walk uses for the branches inside it. -/
def runnerOf (fuel : Nat) : Runner σ := fun inner p ↦
  (e.walk fuel inner inner.machine.startAt [] p).toRun inner p.toMoment

/-- What follows a visit in a walk. -/
def proceed (fuel : Nat) (site : Site) (step : Step) (done : List Visit) (q : Progress σ) :
    Walked σ :=
  match step with
  | .next name => e.walk fuel site name done q
  | .finish => .stop done (if e.isLate q.clock then .timedOut else .succeeded) q
  | .fail failure => .stop done (.failed failure) q
  | .outOfTime => .stop done .timedOut q

theorem walk_of_late {fuel : Nat} {site : Site} {current : String} {done : List Visit}
    {p : Progress σ} (h : e.isLate p.clock = true) :
    e.walk fuel site current done p = .stop done .timedOut p := by
  rw [walk.eq_def, if_pos h]

theorem walk_of_left_eq_zero {fuel : Nat} {site : Site} {current : String} {done : List Visit}
    {p : Progress σ} (h : e.isLate p.clock = false) (hleft : p.left = 0) :
    e.walk fuel site current done p = .stop done (.failed e.ceiling) p := by
  rw [walk.eq_def, if_neg (by simp [h]), hleft]
  cases fuel <;> rfl

/-- The visit of a name that is no state. -/
def missingVisit (current : String) (p : Progress σ) : Visit :=
  ⟨current, p.toMoment, .none, .fail (.runtime s!"state '{current}' does not exist"), p.toMoment⟩

theorem walk_of_missing {fuel left : Nat} {site : Site} {current : String} {done : List Visit}
    {p : Progress σ} (h : e.isLate p.clock = false) (hleft : p.left = left + 1)
    (hs : site.machine.state? current = none) :
    e.walk (fuel + 1) site current done p
      = .stop (missingVisit current p :: done)
        (.failed (.runtime s!"state '{current}' does not exist")) { p with left } := by
  rw [walk.eq_def, if_neg (by simp [h]), hleft]
  simp only [hs]
  rfl

theorem walk_of_state {fuel left : Nat} {site : Site} {current : String} {done : List Visit}
    {p q : Progress σ} {s : State} {step : Step} {activity : Activity}
    (h : e.isLate p.clock = false) (hleft : p.left = left + 1)
    (hs : site.machine.state? current = some s)
    (hv : e.visitState (e.runnerOf fuel) site current s { p with left } = (step, activity, q)) :
    e.walk (fuel + 1) site current done p
      = e.proceed fuel site step (⟨current, p.toMoment, activity, step, q.toMoment⟩ :: done) q := by
  rw [walk.eq_def, if_neg (by simp [h]), hleft]
  simp only [hs]
  unfold runnerOf at hv
  rw [hv]
  cases step <;> rfl

/-! ## The bound has no effect -/

theorem walk_left_le (fuel : Nat) (site : Site) (current : String) (done : List Visit)
    (p : Progress σ) : (e.walk fuel site current done p).progress.left ≤ p.left := by
  induction fuel generalizing site current done p with
  | zero =>
    rw [walk.eq_def]
    split <;> exact Nat.le_refl _
  | succ fuel ih =>
    have hrun : Narrows (e.runnerOf fuel) := fun inner p ↦ ih inner inner.machine.startAt [] p
    cases hlate : e.isLate p.clock with
    | true =>
      rw [e.walk_of_late hlate]
      exact Nat.le_refl _
    | false =>
      rcases hleft : p.left with _ | left
      · rw [e.walk_of_left_eq_zero hlate hleft]
        exact Nat.le_of_eq hleft
      · rcases hs : site.machine.state? current with _ | s
        · rw [e.walk_of_missing hlate hleft hs]
          exact Nat.le_succ left
        · have hq := (visits_visitState e (e.runnerOf fuel) site current s
            { p with left }).left_le hrun
          rcases hv : e.visitState (e.runnerOf fuel) site current s { p with left }
            with ⟨step, activity, q⟩
          rw [hv] at hq
          have hq' : q.left ≤ left + 1 := Nat.le_succ_of_le hq
          rw [e.walk_of_state hlate hleft hs hv]
          cases step with
          | next name => exact Nat.le_trans (ih _ _ _ _) hq'
          | finish | fail f | outOfTime => exact hq'

theorem narrows_runnerOf (fuel : Nat) : Narrows (e.runnerOf fuel) :=
  fun inner p ↦ e.walk_left_le fuel inner inner.machine.startAt [] p

theorem narrows_runScope : Narrows e.runScope :=
  fun inner p ↦ e.walk_left_le p.left inner inner.machine.startAt [] p

/-- Two bounds that are both large enough give the same walk. -/
theorem walk_congr {fuel fuel' : Nat} (site : Site) (current : String) (done : List Visit)
    {p : Progress σ} (h : p.left ≤ fuel) (h' : p.left ≤ fuel') :
    e.walk fuel site current done p = e.walk fuel' site current done p := by
  induction fuel generalizing fuel' site current done p with
  | zero =>
    have hleft : p.left = 0 := Nat.le_zero.mp h
    cases hlate : e.isLate p.clock with
    | true => rw [e.walk_of_late hlate, e.walk_of_late hlate]
    | false => rw [e.walk_of_left_eq_zero hlate hleft, e.walk_of_left_eq_zero hlate hleft]
  | succ fuel ih =>
    cases hlate : e.isLate p.clock with
    | true => rw [e.walk_of_late hlate, e.walk_of_late hlate]
    | false =>
      rcases hleft : p.left with _ | left
      · rw [e.walk_of_left_eq_zero hlate hleft, e.walk_of_left_eq_zero hlate hleft]
      · obtain ⟨fuel', rfl⟩ : ∃ k, fuel' = k + 1 := ⟨fuel' - 1, by omega⟩
        rcases hs : site.machine.state? current with _ | s
        · rw [e.walk_of_missing hlate hleft hs, e.walk_of_missing hlate hleft hs]
        · have hagree : AgreeTo left (e.runnerOf fuel) (e.runnerOf fuel') := by
            intro inner q hq
            simp only [runnerOf]
            rw [ih inner _ [] (show q.left ≤ fuel by omega) (show q.left ≤ fuel' by omega)]
          have hsame := e.visitState_congr hagree (e.narrows_runnerOf fuel) site current s
            (p := { p with left }) (Nat.le_refl left)
          have hq := (visits_visitState e (e.runnerOf fuel) site current s
            { p with left }).left_le (e.narrows_runnerOf fuel)
          rcases hv : e.visitState (e.runnerOf fuel) site current s { p with left }
            with ⟨step, activity, q⟩
          rw [hv] at hsame hq
          have hq' : q.left ≤ left := hq
          rw [e.walk_of_state hlate hleft hs hv, e.walk_of_state hlate hleft hs hsame.symm]
          cases step with
          | next name => exact ih site name _ (by omega) (by omega)
          | finish | fail f | outOfTime => rfl

/-! ## Walks state by state -/

/-- One state on the way: it is entered on time, it uses up one of the states left to enter, and its
visit leads from `p` to `q`. -/
structure Passes (site : Site) (current : String) (p : Progress σ) (s : State) (step : Step)
    (activity : Activity) (q : Progress σ) : Prop where
  onTime : e.isLate p.clock = false
  left_pos : 0 < p.left
  state : site.machine.state? current = some s
  visit : Visits e e.runScope site current s { p with left := p.left - 1 } step activity q

theorem Passes.left_lt {e : Engine σ} {site : Site} {current : String} {p q : Progress σ}
    {s : State} {step : Step} {activity : Activity}
    (h : e.Passes site current p s step activity q) : q.left < p.left := by
  have hle : q.left ≤ p.left - 1 := h.visit.left_le e.narrows_runScope
  have hpos := h.left_pos
  omega

/-- The bounded runner and `runScope` agree as far as a visit can tell. -/
theorem visitState_runnerOf {fuel : Nat} (site : Site) (current : String) (s : State)
    {p : Progress σ} (hfuel : p.left ≤ fuel) :
    e.visitState (e.runnerOf fuel) site current s p = e.visitState e.runScope site current s p := by
  have hagree : AgreeTo p.left (e.runnerOf fuel) e.runScope := by
    intro inner q hq
    simp only [runnerOf, runScope]
    rw [e.walk_congr inner _ [] (show q.left ≤ fuel by omega) (Nat.le_refl q.left)]
  exact e.visitState_congr hagree (e.narrows_runnerOf fuel) site current s (Nat.le_refl p.left)

/-- A state passed is where a walk goes on from. -/
theorem Passes.walk_eq {e : Engine σ} {site : Site} {current : String} {p q : Progress σ}
    {s : State} {step : Step} {activity : Activity}
    (h : e.Passes site current p s step activity q) {fuel : Nat} (hfuel : p.left ≤ fuel + 1)
    {done : List Visit} :
    e.walk (fuel + 1) site current done p
      = e.proceed fuel site step (⟨current, p.toMoment, activity, step, q.toMoment⟩ :: done) q := by
  refine e.walk_of_state h.onTime (Nat.sub_add_cancel h.left_pos).symm h.state ?_
  rw [e.visitState_runnerOf site current s (p := { p with left := p.left - 1 })
    (Nat.sub_le_of_le_add hfuel)]
  exact h.visit.visitState_eq

/-- A walk through the scope of `site` from the state `current` on: the visits in order, the
verdict, and the progress at the end. -/
inductive Walks (site : Site) :
    String → Progress σ → List Visit → Verdict → Progress σ → Prop
  | late {current : String} {p : Progress σ} (late : e.isLate p.clock = true) :
      Walks site current p [] .timedOut p
  | ceiling {current : String} {p : Progress σ} (onTime : e.isLate p.clock = false)
      (spent : p.left = 0) : Walks site current p [] (.failed e.ceiling) p
  | missing {current : String} {p : Progress σ} (onTime : e.isLate p.clock = false)
      (left_pos : 0 < p.left) (state : site.machine.state? current = none) :
      Walks site current p [missingVisit current p]
        (.failed (.runtime s!"state '{current}' does not exist")) { p with left := p.left - 1 }
  | next {current target : String} {p q r : Progress σ} {s : State} {activity : Activity}
      {visits : List Visit} {verdict : Verdict}
      (first : e.Passes site current p s (.next target) activity q)
      (rest : Walks site target q visits verdict r) :
      Walks site current p
        (⟨current, p.toMoment, activity, .next target, q.toMoment⟩ :: visits) verdict r
  | finished {current : String} {p q : Progress σ} {s : State} {activity : Activity}
      (last : e.Passes site current p s .finish activity q) :
      Walks site current p [⟨current, p.toMoment, activity, .finish, q.toMoment⟩]
        (if e.isLate q.clock then .timedOut else .succeeded) q
  | failed {current : String} {p q : Progress σ} {s : State} {activity : Activity} {f : Failure}
      (last : e.Passes site current p s (.fail f) activity q) :
      Walks site current p [⟨current, p.toMoment, activity, .fail f, q.toMoment⟩] (.failed f) q
  | outOfTime {current : String} {p q : Progress σ} {s : State} {activity : Activity}
      (last : e.Passes site current p s .outOfTime activity q) :
      Walks site current p [⟨current, p.toMoment, activity, .outOfTime, q.toMoment⟩] .timedOut q

/-- Every walk with a bound that is large enough is a walk state by state. -/
theorem walks_walk {fuel : Nat} (site : Site) (current : String) (done : List Visit)
    {p : Progress σ} (h : p.left ≤ fuel) :
    ∃ (visits : List Visit) (verdict : Verdict) (q : Progress σ),
      e.walk fuel site current done p = ⟨done.reverse ++ visits, verdict, q⟩ ∧
        e.Walks site current p visits verdict q := by
  induction fuel generalizing current done p with
  | zero =>
    have hleft : p.left = 0 := Nat.le_zero.mp h
    cases hlate : e.isLate p.clock with
    | true => exact ⟨[], _, p, by rw [e.walk_of_late hlate]; simp [Walked.stop], .late hlate⟩
    | false =>
      exact ⟨[], _, p, by rw [e.walk_of_left_eq_zero hlate hleft]; simp [Walked.stop],
        .ceiling hlate hleft⟩
  | succ fuel ih =>
    cases hlate : e.isLate p.clock with
    | true => exact ⟨[], _, p, by rw [e.walk_of_late hlate]; simp [Walked.stop], .late hlate⟩
    | false =>
      rcases hleft : p.left with _ | left
      · exact ⟨[], _, p, by rw [e.walk_of_left_eq_zero hlate hleft]; simp [Walked.stop],
          .ceiling hlate hleft⟩
      · rcases hs : site.machine.state? current with _ | s
        · exact ⟨_, _, _, by rw [e.walk_of_missing hlate hleft hs]; simp [Walked.stop, hleft],
            .missing hlate (by omega) hs⟩
        · have hvisit := visits_visitState e e.runScope site current s { p with left }
          rcases hv : e.visitState e.runScope site current s { p with left }
            with ⟨step, activity, q⟩
          rw [hv] at hvisit
          have hpass : e.Passes site current p s step activity q :=
            ⟨hlate, by omega, hs, by simpa [hleft] using hvisit⟩
          have hq := hpass.left_lt
          rw [hpass.walk_eq h]
          cases step with
          | next name =>
            obtain ⟨visits, verdict, r, hr, hrest⟩ := ih name
              (⟨current, p.toMoment, activity, .next name, q.toMoment⟩ :: done)
              (show q.left ≤ fuel by omega)
            refine ⟨⟨current, p.toMoment, activity, .next name, q.toMoment⟩ :: visits, verdict, r,
              ?_, .next hpass hrest⟩
            simp [proceed, hr]
          | finish => exact ⟨_, _, q, by simp [proceed, Walked.stop], .finished hpass⟩
          | fail f => exact ⟨_, _, q, by simp [proceed, Walked.stop], .failed hpass⟩
          | outOfTime => exact ⟨_, _, q, by simp [proceed, Walked.stop], .outOfTime hpass⟩

/-- The run of a scope is a walk from the start of its machine. -/
theorem walks_runScope (site : Site) (p : Progress σ) :
    ∃ (visits : List Visit) (verdict : Verdict) (q : Progress σ),
      e.runScope site p = (⟨site.scope, p.toMoment, visits, verdict, q.toMoment⟩, q) ∧
        e.Walks site site.machine.startAt p visits verdict q := by
  obtain ⟨visits, verdict, q, heq, hwalk⟩ :=
    e.walks_walk site site.machine.startAt [] (Nat.le_refl p.left)
  refine ⟨visits, verdict, q, ?_, hwalk⟩
  simp [runScope, Walked.toRun, heq]

variable {e : Engine σ}

/-- A walk state by state is the one that `walk` takes, with any bound that is large enough. -/
theorem Walks.walk_eq {site : Site} {current : String} {p q : Progress σ} {visits : List Visit}
    {verdict : Verdict} (h : e.Walks site current p visits verdict q) {fuel : Nat}
    (hfuel : p.left ≤ fuel) (done : List Visit) :
    e.walk fuel site current done p = ⟨done.reverse ++ visits, verdict, q⟩ := by
  induction h generalizing fuel done with
  | late late => simp [e.walk_of_late late, Walked.stop]
  | ceiling onTime spent => simp [e.walk_of_left_eq_zero onTime spent, Walked.stop]
  | @missing _ p onTime left_pos state =>
    obtain ⟨fuel, rfl⟩ : ∃ n, fuel = n + 1 := ⟨fuel - 1, by omega⟩
    simp [e.walk_of_missing onTime (Nat.sub_add_cancel left_pos).symm state, Walked.stop]
  | next first _ ih =>
    have hlt := first.left_lt
    obtain ⟨fuel, rfl⟩ : ∃ n, fuel = n + 1 := ⟨fuel - 1, by omega⟩
    rw [first.walk_eq hfuel, proceed, ih (by omega)]
    simp
  | finished last | failed last | outOfTime last =>
    have hpos := last.left_pos
    obtain ⟨fuel, rfl⟩ : ∃ n, fuel = n + 1 := ⟨fuel - 1, by omega⟩
    rw [last.walk_eq hfuel, proceed]
    simp [Walked.stop]

theorem Walks.runScope_eq {site : Site} {p q : Progress σ} {visits : List Visit}
    {verdict : Verdict} (h : e.Walks site site.machine.startAt p visits verdict q) :
    e.runScope site p = (⟨site.scope, p.toMoment, visits, verdict, q.toMoment⟩, q) := by
  rw [runScope, h.walk_eq (Nat.le_refl p.left)]
  rfl

end Engine

end Workflow
