import Workflow.Run.Recovery

/-!
# Attempts without a bound

`withRetries` recurses on a bound for the retries that may still be granted, and collects its
attempts in reverse. Neither is part of what it does: a tracker never grants more than the retriers
of its state allow, so a loop that starts with that many is never cut short.

`Retries` says what the loop does in the terms of a single attempt, the first attempt first, and
`retries_withRetries` that the loop does it.
-/

namespace Workflow

/-! ## What a tracker may still grant -/

namespace RetryTracker

/-- The retries that may still be granted. -/
def remaining (t : RetryTracker) : Nat :=
  t.foldr (fun b n ↦ (b.retrier.maxAttempts.toNat - b.granted.toNat) + n) 0

theorem remaining_cons (b : RetryBudget) (t : RetryTracker) :
    remaining (b :: t)
      = (b.retrier.maxAttempts.toNat - b.granted.toNat) + remaining t := rfl

theorem total_cons (b : RetryBudget) (t : RetryTracker) :
    total (b :: t) = b.granted.toNat + total t := rfl

theorem remaining_ofRetriers (rs : List Retrier) :
    (ofRetriers rs).remaining = totalAttempts rs := by
  induction rs with
  | nil => rfl
  | cons r rs ih =>
    have hcons : ofRetriers (r :: rs) = { retrier := r } :: ofRetriers rs := rfl
    rw [hcons, remaining_cons, ih]
    rfl

/-- The count of a budget does not wrap around, because it stays below another number of its
width. -/
theorem toNat_granted_add_one {granted limit : UInt32} (h : granted < limit) :
    (granted + 1).toNat = granted.toNat + 1 := by
  have hlt : granted.toNat < limit.toNat := UInt32.lt_iff_toNat_lt.mp h
  have hlimit := limit.toNat_lt
  rw [UInt32.toNat_add, UInt32.toNat_one, Nat.mod_eq_of_lt (by omega)]

/-- A retry that is granted is counted, and is one of those that were left. -/
theorem counts_of_grant? {error : String} {t t' : RetryTracker} {g : Grant}
    (h : t.grant? error = some (g, t')) :
    t'.total = t.total + 1 ∧ t'.remaining + 1 = t.remaining := by
  induction t generalizing t' g with
  | nil => simp [grant?] at h
  | cons b bs ih =>
    rw [grant?] at h
    split at h
    · split at h
      · rename_i hlt
        obtain ⟨-, rfl⟩ : _ ∧ _ = t' := by simpa using h
        have hnat := toNat_granted_add_one hlt
        have hlt' : b.granted.toNat < b.retrier.maxAttempts.toNat :=
          UInt32.lt_iff_toNat_lt.mp hlt
        rw [total_cons, total_cons, remaining_cons, remaining_cons]
        dsimp only
        omega
      · simp at h
    · obtain ⟨⟨g', bs'⟩, hbs, heq⟩ := Option.map_eq_some_iff.mp h
      obtain ⟨-, rfl⟩ : _ ∧ b :: bs' = t' := by simpa using heq
      have := ih hbs
      rw [total_cons, total_cons, remaining_cons, remaining_cons]
      omega

theorem remaining_of_grant? {error : String} {t t' : RetryTracker} {g : Grant}
    (h : t.grant? error = some (g, t')) : t'.remaining + 1 = t.remaining :=
  (counts_of_grant? h).2

end RetryTracker

/-! ## The loop -/

variable {σ ρ : Type}

/-- How the attempts at a state follow one another from some progress on: the step that is decided
in the end, the attempts in order, and the progress then. -/
inductive Retries (isLate : Nat → Bool) (catchers : List Catcher)
    (attempt : Nat → Progress σ → AttemptResult × ρ × Progress σ) :
    RetryTracker → Progress σ → Step → List (Attempt ρ) → Progress σ → Prop
  | settled {t : RetryTracker} {p q : Progress σ} {step : Step} {record : ρ}
      (made : attempt t.total p = (.settled step, record, q)) :
      Retries isLate catchers attempt t p step [⟨record, none⟩] q
  /-- No retry is granted, so the error goes to the catchers. -/
  | handled {t : RetryTracker} {p q : Progress σ} {f : Failure} {record : ρ}
      (made : attempt t.total p = (.failed f, record, q)) (refused : t.grant? f.error = none) :
      Retries isLate catchers attempt t p (handleFailure catchers f q.document).1
        [⟨record, none⟩] { q with document := (handleFailure catchers f q.document).2 }
  /-- A retry is granted whose delay ends past the time limit. -/
  | late {t t' : RetryTracker} {p q : Progress σ} {f : Failure} {g : Grant} {record : ρ}
      (made : attempt t.total p = (.failed f, record, q))
      (granted : t.grant? f.error = some (g, t'))
      (late : isLate (advance q.clock g.delay) = true) :
      Retries isLate catchers attempt t p .outOfTime [⟨record, some g.delay⟩]
        { q with clock := advance q.clock g.delay }
  | again {t t' : RetryTracker} {p q r : Progress σ} {f : Failure} {g : Grant} {step : Step}
      {record : ρ} {rest : List (Attempt ρ)}
      (made : attempt t.total p = (.failed f, record, q))
      (granted : t.grant? f.error = some (g, t'))
      (onTime : isLate (advance q.clock g.delay) = false)
      (more : Retries isLate catchers attempt t'
        { q with clock := advance q.clock g.delay } step rest r) :
      Retries isLate catchers attempt t p step (⟨record, some g.delay⟩ :: rest) r

/-- The loop makes the attempts that `Retries` describes, if it may make all that the tracker
allows. -/
theorem retries_withRetries (isLate : Nat → Bool) (catchers : List Catcher)
    (attempt : Nat → Progress σ → AttemptResult × ρ × Progress σ) {more : Nat} {t : RetryTracker}
    (hmore : t.remaining ≤ more) (done : List (Attempt ρ)) (p : Progress σ) :
    ∃ (step : Step) (attempts : List (Attempt ρ)) (q : Progress σ),
      withRetries isLate catchers attempt more t done p = (step, done.reverse ++ attempts, q) ∧
        Retries isLate catchers attempt t p step attempts q := by
  induction more generalizing t done p with
  | zero =>
    rcases hmade : attempt t.total p with ⟨result, record, q⟩
    cases result with
    | settled step =>
      exact ⟨step, [⟨record, none⟩], q, by simp [withRetries, hmade], .settled hmade⟩
    | failed f =>
      -- the tracker has nothing left to grant
      have hnone : t.grant? f.error = none := by
        rcases hg : t.grant? f.error with _ | ⟨g, t'⟩
        · rfl
        · have := RetryTracker.remaining_of_grant? hg
          omega
      exact ⟨_, [⟨record, none⟩], _, by simp [withRetries, hmade], .handled hmade hnone⟩
  | succ more ih =>
    rcases hmade : attempt t.total p with ⟨result, record, q⟩
    cases result with
    | settled step =>
      exact ⟨step, [⟨record, none⟩], q, by simp [withRetries, hmade], .settled hmade⟩
    | failed f =>
      rcases hg : t.grant? f.error with _ | ⟨g, t'⟩
      · exact ⟨_, [⟨record, none⟩], _, by simp [withRetries, hmade, hg], .handled hmade hg⟩
      · by_cases hlate : isLate (advance q.clock g.delay) = true
        · exact ⟨.outOfTime, [⟨record, some g.delay⟩], _,
            by simp [withRetries, hmade, hg, hlate], .late hmade hg hlate⟩
        · have hrem := RetryTracker.remaining_of_grant? hg
          obtain ⟨step, rest, r, hr, hrest⟩ := ih (t := t') (by omega)
            (⟨record, some g.delay⟩ :: done) { q with clock := advance q.clock g.delay }
          refine ⟨step, ⟨record, some g.delay⟩ :: rest, r, ?_,
            .again hmade hg (by simpa using hlate) hrest⟩
          simp [withRetries, hmade, hg, hlate, hr]

/-- There is no other way for the attempts to follow one another. -/
theorem Retries.withRetries_eq {isLate : Nat → Bool} {catchers : List Catcher}
    {attempt : Nat → Progress σ → AttemptResult × ρ × Progress σ} {t : RetryTracker}
    {p q : Progress σ} {step : Step} {attempts : List (Attempt ρ)}
    (h : Retries isLate catchers attempt t p step attempts q) {more : Nat}
    (hmore : t.remaining ≤ more) (done : List (Attempt ρ)) :
    withRetries isLate catchers attempt more t done p = (step, done.reverse ++ attempts, q) := by
  induction h generalizing more done with
  | settled made => cases more <;> simp [withRetries, made]
  | handled made refused => cases more <;> simp [withRetries, made, refused]
  | late made granted late =>
    have hremaining := RetryTracker.remaining_of_grant? granted
    obtain ⟨more, rfl⟩ : ∃ n, more = n + 1 := ⟨more - 1, by omega⟩
    simp [withRetries, made, granted, late]
  | again made granted onTime _ ih =>
    have hremaining := RetryTracker.remaining_of_grant? granted
    obtain ⟨more, rfl⟩ : ∃ n, more = n + 1 := ⟨more - 1, by omega⟩
    simp [withRetries, made, granted, onTime, ih (Nat.le_of_succ_le_succ (hremaining ▸ hmore))]

/-- What holds of single attempts, whatever the clock and the document are set to after them, and is
handed on from one attempt to those that follow, holds of the whole loop. -/
theorem Retries.chain {isLate : Nat → Bool} {catchers : List Catcher}
    {attempt : Nat → Progress σ → AttemptResult × ρ × Progress σ}
    (holds : Progress σ → List (Attempt ρ) → Progress σ → Prop)
    (single : ∀ {k p result record q} (delay : Option Nat) (moment : Moment),
      attempt k p = (result, record, q) → holds p [⟨record, delay⟩] { q with toMoment := moment })
    (follow : ∀ {p q r a rest}, holds p [a] q → holds q rest r → holds p (a :: rest) r)
    {t : RetryTracker} {p q : Progress σ} {step : Step} {attempts : List (Attempt ρ)}
    (h : Retries isLate catchers attempt t p step attempts q) : holds p attempts q := by
  induction h with
  | @settled _ _ q _ _ made => exact single none q.toMoment made
  | handled made _ => exact single none _ made
  | late made _ _ => exact single _ _ made
  | again made _ _ _ ih => exact follow (single _ _ made) ih

end Workflow
