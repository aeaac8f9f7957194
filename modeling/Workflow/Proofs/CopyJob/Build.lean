import Mathlib.Data.String.Basic
import Workflow.CopyJob.Machine
import Workflow.Proofs.Decimal.Exact
import Workflow.Proofs.Machine.RoundTrip
import Workflow.Proofs.Machine.Sound

/-!
# The machine of a copy job

Whatever a job is built from, a document can express its machine.
-/

namespace Workflow

namespace CopyJob

/-! ## Writing -/

theorem writable_standardRetriers : ∀ r ∈ standardRetriers, r.Writable := by
  simp only [standardRetriers, List.forall_mem_cons, Retrier.Writable]
  refine ⟨rfl, rfl, rfl, rfl, ?_⟩
  exact List.forall_mem_nil _

theorem writable_taskState (h : Handler) {parameters : Option Json}
    (hparameters : ∀ p ∈ parameters, p.canonical = p ∧ p ≠ .null)
    (resultPath next onError : String) :
    (taskState h parameters resultPath next onError).Writable :=
  .task hparameters writable_standardRetriers

theorem writable_statusIs (status : String) : (statusIs status).Writable := .compare trivial

theorem writable_jobDone (maxStatusChecks : UInt32) :
    ∀ r ∈ (jobDone maxStatusChecks).choices, r.condition.Writable := by
  have hcount : isFiniteFloat maxStatusChecks.toNat.toFloat = true :=
    isFiniteFloat_ofNat (by have := maxStatusChecks.toNat_lt; omega)
  simp only [jobDone, List.forall_mem_cons]
  refine ⟨writable_statusIs _, .all ?_, writable_statusIs _, writable_statusIs _, ?_⟩
  · simp only [List.forall_mem_cons]
    exact ⟨writable_statusIs _, .compare hcount, List.forall_mem_nil _⟩
  · exact List.forall_mem_nil _

theorem writable_checkPassed : ∀ r ∈ checkPassed.choices, r.condition.Writable :=
  List.forall_mem_cons.mpr ⟨.compare trivial, List.forall_mem_nil _⟩

namespace Template

theorem ascending_build (t : Template) (comment : String) (timeoutSeconds : Option UInt64)
    (parameters : Option Json) :
    Entries.Ascending (t.build comment timeoutSeconds parameters).states := by
  -- names are compared as they stand, not through iterators over them
  simp [-String.lt_iff_ltb, Entries.Ascending, Entries.names, build]

/-- Whatever a job is built from, a document can express its machine. -/
theorem writable_build (t : Template) (comment : String) (timeoutSeconds : Option UInt64)
    {parameters : Option Json} (hparameters : ∀ p ∈ parameters, p.canonical = p ∧ p ≠ .null) :
    (t.build comment timeoutSeconds parameters).Writable := by
  have htask := fun h ↦ writable_taskState h hparameters
  refine ⟨t.ascending_build comment timeoutSeconds parameters, ?_⟩
  simp only [build, List.forall_mem_cons]
  refine ⟨.fail, htask _ _ _ _, .choice (writable_jobDone _), htask _ _ _ _, htask _ _ _ _,
    htask _ _ _ _, .choice writable_checkPassed, htask _ _ _ _, .succeed, .wait, ?_⟩
  exact List.forall_mem_nil _

end Template

/-! ## Validation -/

section

variable {h : Handler} {parameters : Option Json} {resultPath next onError : String}

theorem checkSelf_taskState (hname : isBlankText h.name = false)
    (hpath : checkPath "ResultPath" (some resultPath) = .ok ()) :
    (taskState h parameters resultPath next onError).checkSelf = .ok () := by
  rw [taskState, State.checkSelf]
  simp only [seq_eq_ok_iff, require_eq_ok]
  refine ⟨rfl, hpath, rfl, ?_, rfl, rfl⟩
  rw [hname, Bool.not_false]

/-- A task state is in order if what it leads to is there. -/
theorem checkState_taskState {m : Machine} {place : Place} {name : String}
    (hhandler : isBlankText h.name = false)
    (hpath : checkPath "ResultPath" (some resultPath) = .ok ()) (hname : isBlankText name = false)
    (hnext : m.has next = true) (hcatch : m.has onError = true) :
    checkState place m name (taskState h parameters resultPath next onError) = .ok () ∧
      checkInside place name (taskState h parameters resultPath next onError) = .ok () := by
  refine ⟨?_, rfl⟩
  rw [checkState]
  simp only [seq_eq_ok_iff, require_eq_ok, mapError_eq_ok_iff, checkTargets_eq_ok_iff]
  refine ⟨by rw [hname, Bool.not_false], checkSelf_taskState hhandler hpath, ?_⟩
  intro target htarget
  rcases List.mem_cons.mp htarget with rfl | htarget
  · exact hnext
  · rw [List.mem_singleton.mp htarget]
    exact hcatch

end

namespace Template

variable (t : Template)

theorem unreached_build (comment : String) (timeoutSeconds : Option UInt64)
    (parameters : Option Json) : (t.build comment timeoutSeconds parameters).unreached = [] := by
  simp [Machine.unreached, build, unreachedFrom, reachRound, Entries.find?_cons, Entries.names,
    taskState, State.targets, State.transition, State.catchers, failureCatchers, checkPassed,
    jobDone, waitForCopy]

/-- **The machine of a job is valid** if its handlers have names and its time limit, if any, is not
zero. -/
theorem check_build {t : Template} (hnames : ∀ e ∈ t.handlers.byState, isBlankText e.2.name = false)
    (place : Place) (comment : String) {timeoutSeconds : Option UInt64}
    (htimeout : timeoutSeconds ≠ some 0) (parameters : Option Json) :
    checkMachine place (t.build comment timeoutSeconds parameters) = .ok () := by
  simp only [Handlers.byState, List.forall_mem_cons] at hnames
  obtain ⟨hcheck, hschedule, hstatus, hfailure, hnotify, -⟩ := hnames
  have hhead : checkHead place (t.build comment timeoutSeconds parameters) = .ok () := by
    rw [checkHead]
    simp only [seq_eq_ok_iff, require_eq_ok]
    exact ⟨rfl, rfl, decide_eq_true htimeout⟩
  have hreach : checkReachable place (t.build comment timeoutSeconds parameters) = .ok () := by
    rw [checkReachable, unreached_build]
  have hstates : checkStates place (t.build comment timeoutSeconds parameters)
      (t.build comment timeoutSeconds parameters).states = .ok () := by
    refine checkStates_eq_ok ?_
    rw [build]
    simp only [List.forall_mem_cons]
    refine ⟨⟨rfl, rfl⟩, checkState_taskState hstatus rfl rfl rfl rfl, ⟨rfl, rfl⟩,
      checkState_taskState hnotify rfl rfl rfl rfl, checkState_taskState hfailure rfl rfl rfl rfl,
      checkState_taskState hcheck rfl rfl rfl rfl, ⟨rfl, rfl⟩,
      checkState_taskState hschedule rfl rfl rfl rfl, ⟨rfl, rfl⟩, ⟨rfl, rfl⟩, ?_⟩
    exact List.forall_mem_nil _
  rw [build, checkMachine]
  simp only [seq_eq_ok_iff]
  exact ⟨hhead, hstates, hreach⟩

theorem policies_build (comment : String) (timeoutSeconds : Option UInt64)
    (parameters : Option Json) :
    policiesOfMachine (t.build comment timeoutSeconds parameters) = .ok () := rfl

end Template

end CopyJob

end Workflow
