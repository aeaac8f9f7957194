import Workflow.Machine.Basic
import Workflow.Machine.Path
import Workflow.Run.History
import Workflow.Run.Retry

/-!
# Storing results and recovering from errors

Results and caught errors are stored in the context document. An error goes first to the retriers of
its state and then, when no retry is granted, to its catchers. `withRetries` is the loop that task
states and parallel states share: it makes attempts until one settles what follows.
-/

namespace Workflow

/-- What changes while a run goes on. -/
structure Progress (σ : Type) extends Moment where
  /-- How many states may still be entered. -/
  left : Nat
  /-- The state of the performer of the tasks. -/
  world : σ

/-- A clock some seconds later. It stops at its limit. -/
def advance (clock seconds : Nat) : Nat := min clockLimit (clock + seconds)

theorem le_advance {clock : Nat} (seconds : Nat) (h : clock ≤ clockLimit) :
    clock ≤ advance clock seconds := by
  unfold advance
  omega

theorem advance_le (clock seconds : Nat) : advance clock seconds ≤ clockLimit := by
  unfold advance
  omega

/-! ## Storing -/

/-- Stores a value at the path of a text, by default as the whole document. Gives the document
afterwards and what went wrong. -/
def storeAt (path : Option String) (v doc : Json) : Json × Option String :=
  match path with
  | none => (v, none)
  | some text =>
    match ContextPath.parse text with
    | .error e => (doc, some e.message)
    | .ok p =>
      let w := p.write v doc
      (w.document, w.failure.map (·.message p))

/-- What follows a state that did what it had to do. -/
def Step.after (s : State) : Step :=
  match s.transition.next, s.transition.ending with
  | some name, _ => .next name
  | none, some true => .finish
  | none, _ => .fail (.runtime s!"{s.kind.name} state has neither Next nor End")

/-- The document that describes a caught error. -/
def Failure.toJson (f : Failure) : Json :=
  .object [("Cause", .string f.cause), ("Error", .string f.error)]

/-- What follows an error that is not retried, and the document with the error stored. -/
def handleFailure (catchers : List Catcher) (f : Failure) (doc : Json) : Step × Json :=
  match Catcher.for? catchers f.error with
  | none => (.fail f, doc)
  | some c =>
    match storeAt c.resultPath f.toJson doc with
    | (doc, none) => (.next c.next, doc)
    | (doc, some cause) => (.fail (.runtime cause), doc)

/-! ## Attempts -/

/-- What an attempt comes to: a decision, or an error that the policies of the state are for. -/
inductive AttemptResult where
  | settled (step : Step)
  | failed (failure : Failure)

/-- Makes attempts until one settles what follows. An attempt is told how many retries have been
granted before it. `more` bounds the retries that may still be granted, and `done` holds the
attempts made so far, the last one first. -/
def withRetries {σ ρ : Type} (isLate : Nat → Bool) (catchers : List Catcher)
    (attempt : Nat → Progress σ → AttemptResult × ρ × Progress σ) :
    Nat → RetryTracker → List (Attempt ρ) → Progress σ → Step × List (Attempt ρ) × Progress σ
  | more, tracker, done, p =>
    match attempt tracker.total p with
    | (.settled step, record, p) => (step, (⟨record, none⟩ :: done).reverse, p)
    | (.failed f, record, p) =>
      match more, tracker.grant? f.error with
      | more + 1, some (g, tracker) =>
        let done := ⟨record, some g.delay⟩ :: done
        let p := { p with clock := advance p.clock g.delay }
        if isLate p.clock then (.outOfTime, done.reverse, p)
        else withRetries isLate catchers attempt more tracker done p
      | _, _ =>
        let (step, document) := handleFailure catchers f p.document
        (step, (⟨record, none⟩ :: done).reverse, { p with document })

end Workflow
