import Workflow.Proofs.Machine.Sound
import Workflow.Proofs.Run.Accounts

/-!
# Faults that do not come up

The error name `States.Runtime` is for faults of the document and of the engine. In the run of a
document that passes validation, all states entered are sound, at any depth, so the faults that
validation is there for do not come up. What is left are failures that depend on what the tasks do
and on what the context document holds.

`FailsAtRuntime` goes back from a failure of that name to the place it comes from: either a scope
was cut short because too many states had been entered, or the last state of a scope failed for one
of the reasons in `RuntimeOrigin`, or it was a parallel state and the failure is that of its last
branch.
-/

namespace Workflow

/-! ## Where failures come from -/

/-- A value that cannot be stored, because another value is in the way on its path. -/
def Unwritable (path : Option String) (v doc : Json) : Prop :=
  ∃ text p, path = some text ∧ ContextPath.parse text = .ok p ∧
    (p.write v doc).failure.isSome = true

theorem unwritable_of_storeAt {path : Option String} {v doc doc' : Json} {cause : String}
    (hpath : ∀ text ∈ path.toList, IsPath text)
    (h : storeAt path v doc = (doc', some cause)) : Unwritable path v doc := by
  rcases path with _ | text
  · cases h
  · obtain ⟨p, hp⟩ := hpath text (by simp)
    simp only [storeAt, hp, Prod.mk.injEq] at h
    obtain ⟨f, hf, -⟩ := Option.map_eq_some_iff.mp h.2
    exact ⟨text, p, rfl, hp, by rw [hf, Option.isSome_some]⟩

namespace Engine

variable {σ : Type}

/-- The reasons for which the visit of a sound state may fail with an error named
`States.Runtime`, by the document on entry and what went on. -/
inductive RuntimeOrigin (s : State) (doc : Json) (activity : Activity) : Prop
  /-- There is no whole number of seconds at the path. -/
  | seconds {w : WaitState} {text : String} {p : ContextPath} (state : s = .wait w)
      (path : w.secondsPath = some text) (parsed : ContextPath.parse text = .ok p)
      (read : (p.read doc).bind Json.nat? = none)
  | outputs {branches : List Machine} {settings : ParallelSettings}
      {rounds : List (Attempt (List ScopeRun))} {last : Attempt (List ScopeRun)}
      {outputs : List Json} (state : s = .parallel branches settings)
      (forked : activity = .forked rounds) (mem : rounds.getLast? = some last)
      (gathered : gather last.record = .ok outputs)
      (unwritable : Unwritable settings.resultPath (.array outputs) doc)
  | caught {f : Failure} {c : Catcher} (raised : Raises s doc activity f)
      (caught : Catcher.for? s.catchers f.error = some c)
      (unwritable : Unwritable c.resultPath f.toJson doc)
  /-- The task itself used the name, or there is no task of that name here. -/
  | answered {calls : List (Attempt Call)} {last : Attempt Call} {error : TaskError}
      (called : activity = .called calls) (mem : calls.getLast? = some last)
      (answered : last.record.result = .error error) (named : error.errorName = ErrorName.runtime)
  | named {f : FailState} (state : s = .fail f) (named : f.error = some ErrorName.runtime)

/-- Where the failure of a run at a site comes from. `left` is the number of states that may still
be entered when it ends. -/
inductive FailsAtRuntime (e : Engine σ) : Site → ScopeRun → Nat → Prop
  /-- No state is left to enter. -/
  | ceiling {site : Site} {r : ScopeRun} (verdict : r.verdict = .failed e.ceiling)
      (cut : ∀ v ∈ r.visits, ∀ f, v.step ≠ .fail f) : FailsAtRuntime e site r 0
  | visit {site : Site} {r : ScopeRun} {v : Visit} {s : State} {left : Nat}
      (last : r.visits.getLast? = some v) (state : site.machine.state? v.state = some s)
      (origin : RuntimeOrigin s v.entry.document v.activity) : FailsAtRuntime e site r left
  | branch {site : Site} {r inner : ScopeRun} {v : Visit} {branches : List Machine}
      {settings : ParallelSettings} {rounds : List (Attempt (List ScopeRun))}
      {round : Attempt (List ScopeRun)} {m : Machine} {left : Nat}
      (last : r.visits.getLast? = some v)
      (state : site.machine.state? v.state = some (.parallel branches settings))
      (forked : v.activity = .forked rounds) (last_round : rounds.getLast? = some round)
      (last_run : round.record.getLast? = some inner)
      (branch : branches[round.record.length - 1]? = some m)
      (inside : FailsAtRuntime e (branchSite site v.state (round.record.length - 1) m) inner left) :
      FailsAtRuntime e site r left

/-! ## The end of a walk -/

/-- A walk that fails has come to its ceiling, or its last state has failed. -/
theorem Walks.ending_of_failed {e : Engine σ} {site : Site} {current : String} {p q : Progress σ}
    {visits : List Visit} {verdict : Verdict} {f : Failure}
    (h : e.Walks site current p visits verdict q) (hverdict : verdict = .failed f)
    (hstates : ∀ name, site.machine.Reaches name → ∃ s, site.machine.state? name = some s)
    (hreaches : site.machine.Reaches current) :
    (f = e.ceiling ∧ q.left = 0 ∧ ∀ v ∈ visits, ∀ f', v.step ≠ .fail f') ∨
      ∃ name p' s activity, p'.left ≤ p.left ∧ e.Passes site name p' s (.fail f) activity q ∧
        visits.getLast? = some ⟨name, p'.toMoment, activity, .fail f, q.toMoment⟩ := by
  induction h with
  | late _ | outOfTime _ => cases hverdict
  | ceiling _ spent => exact .inl ⟨(Verdict.failed.inj hverdict).symm, spent, by simp⟩
  | missing _ _ state =>
    obtain ⟨s, hs⟩ := hstates _ hreaches
    rw [state] at hs
    cases hs
  | @next _ target p q _ _ activity visits _ first _ ih =>
    have hlt := first.left_lt
    rcases ih hverdict (.step hreaches first.state first.visit.mem_targets) with
      ⟨hf, hleft, hvisits⟩ | ⟨name, p', s, activity', hle, hpass, hlast⟩
    · exact .inl ⟨hf, hleft, List.forall_mem_cons.mpr ⟨by simp, hvisits⟩⟩
    · exact .inr ⟨name, p', s, activity', by omega, hpass,
        by rw [List.getLast?_cons, hlast, Option.getD_some]⟩
  | finished _ =>
    split at hverdict <;> cases hverdict
  | @failed name p _ s activity _ last =>
    cases hverdict
    exact .inr ⟨name, p, s, activity, Nat.le_refl _, last, rfl⟩

/-! ## Failures of sound states -/

theorem waitSeconds_eq_error {m : Machine} {w : WaitState} {doc : Json} {cause : String}
    (hs : (State.wait w).IsSound m) (h : waitSeconds w doc = .error cause) :
    ∃ text p, w.secondsPath = some text ∧ ContextPath.parse text = .ok p ∧
      (p.read doc).bind Json.nat? = none := by
  rcases hs.duration w rfl with ⟨seconds, hseconds, -⟩ | ⟨text, hseconds, htext⟩
  · simp [waitSeconds, hseconds] at h
  · obtain ⟨p, hp⟩ := hs.paths text (by simp [State.paths, htext])
    refine ⟨text, p, htext, hp, ?_⟩
    simp only [waitSeconds, hseconds, htext, hp] at h
    split at h
    · cases h
    · assumption

/-- A choice without a match is not a fault. -/
theorem error_ne_runtime_of_chooseStep {m : Machine} {c : ChoiceState} {name : String} {doc : Json}
    {f : Failure} (hs : (State.choice c).IsSound m) (h : chooseStep name c doc = .fail f) :
    f.error ≠ ErrorName.runtime := by
  obtain ⟨target, htarget, -⟩ := hs.chooses c rfl doc
  rw [chooseStep, htarget] at h
  cases target with
  | some next => cases h
  | none =>
    cases h
    exact show ErrorName.noChoice ≠ ErrorName.runtime by decide

/-- **A sound state fails with `States.Runtime` only for a reason that validation cannot see**, or
because its last branch has failed. -/
theorem FailsBy.origin {m : Machine} {s : State} {doc : Json} {activity : Activity} {f : Failure}
    (hs : s.IsSound m) (h : FailsBy s doc activity f) (hf : f.error = ErrorName.runtime) :
    RuntimeOrigin s doc activity ∨ ∃ rounds round r f', activity = .forked rounds ∧
      rounds.getLast? = some round ∧ round.record.getLast? = some r ∧ r.verdict = .failed f' ∧
        f'.error = ErrorName.runtime := by
  cases h with
  | dangling goes after =>
    -- a sound state that goes on says where to
    rcases hs.follows goes with ⟨name, hname⟩ | hfinish
    · rw [hname] at after
      cases after
    · rw [hfinish] at after
      cases after
  | unreadable state read =>
    subst state
    obtain ⟨text, p, htext, hp, hread⟩ := waitSeconds_eq_error hs read
    exact .inl (.seconds rfl htext hp hread)
  | unchosen state chosen =>
    subst state
    exact absurd hf (error_ne_runtime_of_chooseStep hs chosen)
  | @named f state =>
    refine .inl (.named state ?_)
    rcases herror : f.error with _ | error
    · rw [herror] at hf
      exact absurd hf (show ErrorName.fail ≠ ErrorName.runtime by decide)
    · rw [herror] at hf
      exact congrArg some hf
  | @ungathered _ settings _ _ _ _ state forked mem gathered stored =>
    subst state
    have hpath : ∀ text ∈ settings.resultPath.toList, IsPath text := fun text htext ↦
      hs.paths text (List.mem_append_left _ htext)
    exact .inl (.outputs rfl forked mem gathered (unwritable_of_storeAt hpath stored))
  | uncaught raised _ =>
    cases raised with
    | answered mem answered => exact .inl (.answered rfl mem answered hf)
    | unstored _ _ _ _ =>
      exact absurd hf (show ErrorName.resultPath ≠ ErrorName.runtime by decide)
    | inside mem mem_round failed => exact .inr ⟨_, _, _, _, rfl, mem, mem_round, failed, hf⟩
  | @caught _ c _ raised caught stored =>
    have hpath : ∀ text ∈ c.resultPath.toList, IsPath text := fun text htext ↦
      hs.paths text (State.mem_paths_of_catcher (Catcher.mem_of_for? caught) htext)
    exact .inl (.caught raised caught (unwritable_of_storeAt hpath stored))

/-- **Where a failure named `States.Runtime` comes from** in a run of checked machines. -/
theorem runScope_failsAtRuntime (e : Engine σ) {site : Site} {p : Progress σ} {f : Failure}
    (hm : site.machine.Checked) (hverdict : (e.runScope site p).1.verdict = .failed f)
    (hf : f.error = ErrorName.runtime) :
    FailsAtRuntime e site (e.runScope site p).1 (e.runScope site p).2.left := by
  -- a branch has fewer states left to enter than the scope around it
  induction hn : p.left using Nat.strongRecOn generalizing site p f with
  | ind n ih =>
    obtain ⟨visits, verdict, q, heq, hwalk⟩ := e.walks_runScope site p
    rw [heq] at hverdict ⊢
    -- in a checked machine a walk does not come to a name that is no state
    rcases hwalk.ending_of_failed hverdict (fun name h ↦ h.exists_state hm) .start with
      ⟨rfl, hleft, hvisits⟩ | ⟨name, p', s, activity, hle, hpass, hlast⟩
    · rw [show q.left = 0 from hleft]
      exact .ceiling hverdict hvisits
    · rcases (hpass.visit.failsBy rfl).origin (hm.isSound hpass.state) hf with
        horigin | ⟨rounds, round, r, f', rfl, hround, hr, hfailed, hf'⟩
      · exact .visit hlast hpass.state horigin
      · have hpos := hpass.left_pos
        have hvisit := hpass.visit
        obtain ⟨branches, settings, rfl⟩ := hvisit.exists_parallel
        obtain ⟨m, p'', q', hbranch, hle', hrun, hq⟩ :=
          hvisit.exists_last_run e.narrows_runScope hround hr
        have hinside := ih p''.left (by dsimp only at hle'; omega) (hm.branch hpass.state hbranch)
          (f := f') (by rw [hrun]; exact hfailed) hf' rfl
        rw [hrun, hq] at hinside
        exact .branch hlast hpass.state rfl hround hr hbranch hinside

/-! ## Runs of documents that pass validation -/

/-- **A document that passes validation has no faults left that validation is for.** Every state
entered, at any depth, is a state of its machine and sound. So an execution that fails with
`States.Runtime` does so for one of the reasons in `FailsAtRuntime`. -/
theorem execute_faultless (e : Engine σ) (h : e.document.machine.check = .ok ()) (input : Json)
    (world : σ) :
    (∀ x ∈ e.entered input world, ∃ s, x.state? = some s ∧ s.IsSound x.site.machine) ∧
    ((e.execute input world).1.status = .failed →
      (e.execute input world).1.error = some ErrorName.runtime →
      ∃ left, left + (e.execute input world).1.trace.length = e.maxTransitions ∧
        FailsAtRuntime e e.root (e.run input world).1 left) := by
  have hm : e.root.machine.Checked := Machine.checked_of_check h
  have haccounts := e.run_accounts input world
  refine ⟨fun x hx ↦ ?_, fun hstatus herror ↦ ?_⟩
  · have hoccurs := haccounts.occurs x hx
    have hchecked := hoccurs.leads.checked hm
    obtain ⟨s, hs⟩ := hoccurs.reaches.exists_state hchecked
    exact ⟨s, hs, hchecked.isSound hs⟩
  · obtain ⟨f, hverdict, hf⟩ : ∃ f, (e.run input world).1.verdict = .failed f ∧
        f.error = ErrorName.runtime := by
      rcases hverdict : (e.run input world).1.verdict with _ | f | _
      · rw [status_of_succeeded hverdict] at hstatus
        cases hstatus
      · rw [(status_of_failed hverdict).2] at herror
        exact ⟨f, rfl, Option.some.inj herror⟩
      · rw [(status_of_timedOut hverdict).1] at hstatus
        cases hstatus
    refine ⟨_, ?_, e.runScope_failsAtRuntime hm hverdict hf⟩
    rw [trace_eq_map_entered, List.length_map]
    exact haccounts.left

/-- A branch whose task is nowhere to be found. -/
def missingTask : Engine Unit where
  document := .ofMachine {
    startAt := "Fan"
    states := [("Fan", .parallel [
      { startAt := "Work", states := [
        ("Work", .task { resource := "work", transition := { ending := some true } })] }]
      { transition := { ending := some true } })] }
  perform := fun _ s ↦ ({ result := .ok .null }, s)

theorem execute_missingTask :
    missingTask.document.machine.check = .ok () ∧
      (missingTask.execute .null ()).1.status = .failed ∧
      (missingTask.execute .null ()).1.error = some ErrorName.runtime ∧
      ∃ left, left + (missingTask.execute .null ()).1.trace.length = 10000 ∧
        FailsAtRuntime missingTask missingTask.root (missingTask.run .null ()).1 left := by
  have hcheck : missingTask.document.machine.check = .ok () := by rfl
  have hstatus : (missingTask.execute .null ()).1.status = .failed := by decide
  have herror : (missingTask.execute .null ()).1.error = some ErrorName.runtime := by decide
  exact ⟨hcheck, hstatus, herror, (execute_faultless missingTask hcheck .null ()).2 hstatus herror⟩

end Engine

end Workflow
