import Workflow.Machine.Document
import Workflow.Run.Choice
import Workflow.Run.Recovery
import Workflow.Task.Registry

/-!
# Running documents

A run walks through a document from its start with a context document and a clock. Waiting and the
delays before retries move the clock on and no time really passes. The branches of a parallel state
start at the same clock on the same document, one after the other, and the state ends when its
slowest branch does.

A run ends when its clock has passed the time limit of the machine, when a state ends it, or when it
has entered as many states as it may. The number of states that may still be entered is shared by
all scopes, so every state entered leaves fewer for the rest. `Engine.walk` recurses on a bound on
that number.
-/

namespace Workflow

/-- What a run needs besides its input. -/
structure Engine (σ : Type) where
  document : WorkflowDocument
  registry : Registry := {}
  perform : Performer σ
  /-- How many states a run may enter. -/
  maxTransitions : Nat := 10000
  executionId : String := ""

/-- Where a state stands. -/
structure Site where
  machine : Machine
  scope : Scope := Scope.root
  branch : BranchIndex := []

/-- The moment of a run that is going on. -/
def Progress.moment {σ : Type} (p : Progress σ) : Moment := p.toMoment

namespace Engine

variable {σ : Type} (e : Engine σ)

/-- The time limit of a run. -/
def deadline : Option UInt64 := e.document.machine.timeoutSeconds

/-- Whether a clock has passed the time limit. -/
def isLate (clock : Nat) : Bool :=
  match e.deadline with
  | some limit => limit.toNat < clock
  | none => false

/-! ## Task states -/

/-- The handler of a task state: the one the document has for it, or else the one registered under
its resource name. -/
def handlerFor? (site : Site) (name resource : String) : Option Handler :=
  (e.document.handler? site.scope name).orElse fun _ => e.registry.get? resource

/-- Calls the task of a state. A branch index is passed on only inside a branch and to a handler
that takes one. -/
def call (site : Site) (name : String) (t : TaskState) (ctx : TaskContext) (world : σ) :
    Call × σ :=
  match e.handlerFor? site name t.resource with
  | none => (⟨none, ctx, none, .error (.notFound t.resource)⟩, world)
  | some h =>
    let branch := if site.branch ≠ [] ∧ h.acceptsBranch then some site.branch else none
    let (reply, world) := h.invoke e.perform ctx branch world
    (⟨some h, ctx, branch, reply.within (t.timeoutSeconds.map UInt64.toNat)⟩, world)

/-- One attempt at a task state. A result that cannot be stored is not retried, because storing it
again would not help either. -/
def attemptTask (site : Site) (name : String) (s : State) (t : TaskState) (attempt : Nat)
    (p : Progress σ) : AttemptResult × Call × Progress σ :=
  let ctx : TaskContext := {
    executionId := e.executionId, state := name, attempt, input := p.document,
    parameters := t.parameters }
  let (call, world) := e.call site name t ctx p.world
  let p := { p with world }
  match call.result with
  | .error error => (.failed ⟨error.errorName, error.cause⟩, call, p)
  | .ok v =>
    match storeAt t.resultPath v p.document with
    | (document, none) => (.settled (.after s), call, { p with document })
    | (document, some cause) =>
      let (step, document) := handleFailure t.catchers ⟨ErrorName.resultPath, cause⟩ document
      (.settled step, call, { p with document })

/-! ## Parallel states -/

/-- Runs the branches from an index on until one does not succeed. `run` runs a machine at its site
from a moment. Gives the runs that were started. -/
def runBranches (run : Site → Progress σ → ScopeRun × Progress σ) (site : Site) (name : String)
    (start : Moment) : Nat → List Machine → Progress σ → List ScopeRun × Progress σ
  | _, [], p => ([], p)
  | index, m :: ms, p =>
    let inner : Site := {
      machine := m, scope := site.scope.branch name index, branch := site.branch ++ [index] }
    let (r, q) := run inner { p with toMoment := start }
    match r.verdict with
    | .succeeded =>
      let (rs, q) := runBranches run site name start (index + 1) ms q
      (r :: rs, q)
    | _ => ([r], q)

/-- The clock when the slowest of some runs has ended. -/
def slowest (start : Nat) (runs : List ScopeRun) : Nat :=
  runs.foldl (fun clock r => max clock r.final.clock) start

/-- What the branches of one round come to: their outputs in order, or how the first one without
success ended, which is without a failure when it ran out of time. -/
def gather : List ScopeRun → Except (Option Failure) (List Json)
  | [] => .ok []
  | r :: rs =>
    match r.verdict with
    | .succeeded => (gather rs).map (r.final.document :: ·)
    | .failed f => .error (some { f with cause := s!"{r.scope}: {f.cause}" })
    | .timedOut => .error none

/-- One attempt at a parallel state: a round of its branches. -/
def attemptParallel (run : Site → Progress σ → ScopeRun × Progress σ) (site : Site) (name : String)
    (s : State) (branches : List Machine) (settings : ParallelSettings) (_attempt : Nat)
    (p : Progress σ) : AttemptResult × List ScopeRun × Progress σ :=
  let (runs, q) := runBranches run site name p.toMoment 0 branches p
  let q := { q with document := p.document, clock := slowest p.clock runs }
  match gather runs with
  | .error none => (.settled .outOfTime, runs, q)
  | .error (some f) => (.failed f, runs, q)
  | .ok outputs =>
    match storeAt settings.resultPath (.array outputs) q.document with
    | (document, none) => (.settled (.after s), runs, { q with document })
    | (document, some cause) => (.settled (.fail (.runtime cause)), runs, { q with document })

/-! ## Wait states -/

/-- How long a wait state waits. -/
def waitSeconds (w : WaitState) (doc : Json) : Except String Nat :=
  match w.seconds, w.secondsPath with
  | some seconds, _ => .ok seconds.toNat
  | none, none => .error "Wait state has no duration"
  | none, some text =>
    let value := match ContextPath.parse text with
      | .ok p => (p.read doc).bind Json.nat?
      | .error _ => none
    match value with
    | some seconds => .ok seconds
    | none => .error s!"SecondsPath '{text}' does not hold a non-negative integer"

/-! ## States -/

/-- What a choice state decides. -/
def chooseStep (name : String) (c : ChoiceState) (doc : Json) : Step :=
  match c.choose doc with
  | .ok (some next) => .next next
  | .ok none => .fail ⟨ErrorName.noChoice, s!"no choice rule matched in '{name}'"⟩
  | .error error => .fail (.runtime s!"Validation error: {error.message}")

/-- Visits a state. -/
def visitState (run : Site → Progress σ → ScopeRun × Progress σ) (site : Site) (name : String)
    (s : State) (p : Progress σ) : Step × Activity × Progress σ :=
  match s with
  | .task t =>
    let (step, calls, p) := withRetries e.isLate t.catchers (e.attemptTask site name s t)
      (totalAttempts t.retry) (.ofRetriers t.retry) [] p
    (step, .called calls, p)
  | .parallel branches settings =>
    let (step, rounds, p) := withRetries e.isLate settings.catchers
      (attemptParallel run site name s branches settings)
      (totalAttempts settings.retry) (.ofRetriers settings.retry) [] p
    (step, .forked rounds, p)
  | .wait w =>
    match waitSeconds w p.document with
    | .ok seconds => (.after s, .waited seconds, { p with clock := advance p.clock seconds })
    | .error cause => (.fail (.runtime cause), .none, p)
  | .choice c => (chooseStep name c p.document, .none, p)
  | .succeed _ => (.finish, .none, p)
  | .fail f => (.fail ⟨f.error.getD ErrorName.fail, f.cause.getD ""⟩, .none, p)

/-! ## Scopes -/

/-- How a walk through a scope ends: its visits, its verdict, and the progress it has made. -/
structure Walked (σ : Type) where
  visits : List Visit
  verdict : Verdict
  progress : Progress σ

/-- Ends a walk. -/
def Walked.stop (done : List Visit) (verdict : Verdict) (p : Progress σ) : Walked σ :=
  ⟨done.reverse, verdict, p⟩

/-- The run of a scope, from the walk through it. -/
def Walked.toRun (site : Site) (start : Moment) (w : Walked σ) : ScopeRun × Progress σ :=
  (⟨site.scope, start, w.visits, w.verdict, w.progress.toMoment⟩, w.progress)

/-- The failure of a run that enters too many states. -/
def ceiling : Failure :=
  .runtime s!"exceeded {wholeText e.maxTransitions} state transitions"

/-- Walks through a scope from the state `current` on. `fuel` is at least as great as the number of
states that may still be entered, and `done` holds the visits so far, the last one first. -/
def walk (fuel : Nat) (site : Site) (current : String) (done : List Visit) (p : Progress σ) :
    Walked σ :=
  if e.isLate p.clock then .stop done .timedOut p
  else
    match fuel, p.left with
    | fuel + 1, left + 1 =>
      let p := { p with left }
      match site.machine.state? current with
      | none =>
        let failure := Failure.runtime s!"state '{current}' does not exist"
        .stop (⟨current, p.toMoment, .none, .fail failure, p.toMoment⟩ :: done)
          (.failed failure) p
      | some s =>
        let run (inner : Site) (p : Progress σ) : ScopeRun × Progress σ :=
          (walk fuel inner inner.machine.startAt [] p).toRun inner p.toMoment
        let (step, activity, q) := e.visitState run site current s p
        let done := ⟨current, p.toMoment, activity, step, q.toMoment⟩ :: done
        match step with
        | .next name => walk fuel site name done q
        | .finish => .stop done (if e.isLate q.clock then .timedOut else .succeeded) q
        | .fail failure => .stop done (.failed failure) q
        | .outOfTime => .stop done .timedOut q
    | _, _ => .stop done (.failed e.ceiling) p

/-- Runs a scope from its start. -/
def runScope (site : Site) (p : Progress σ) : ScopeRun × Progress σ :=
  (e.walk p.left site site.machine.startAt [] p).toRun site p.toMoment

/-- Runs the document on an input. -/
def run (input : Json) (world : σ) : ScopeRun × σ :=
  let (r, p) := e.runScope { machine := e.document.machine }
    { document := input, clock := 0, left := e.maxTransitions, world }
  (r, p.world)

end Engine

end Workflow
