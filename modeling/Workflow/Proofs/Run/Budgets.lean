import Workflow.CopyJob.Machine
import Workflow.Proofs.Run.Attempts

/-!
# Retry budgets

Every retrier of a state has a budget of its own. An error belongs to the first retrier that is for
it, which is its class, and nothing but this retrier is asked about it: when its budget is used up
the error is not retried, even if a later retrier would be for it too.

## The invariant

So the sequence of errors tells what every retrier has granted: as many retries as there were errors
of its class, and never more than it may. `charged` is the tracker with these counts. One more error
leads from the charged tracker to the charged tracker (`decided_answer`), whatever class it is of,
and the decisions on a whole sequence are read off by going through it.
-/

namespace Workflow

/-! ## Classes of errors -/

/-- A retrier is for the errors that it names, and with the name for all errors it is for every
error but the faults of the engine. -/
def Retrier.IsFor (r : Retrier) (error : String) : Prop :=
  error ∈ r.errorEquals ∨ (ErrorName.all ∈ r.errorEquals ∧ error ≠ ErrorName.runtime)

instance (r : Retrier) (error : String) : Decidable (r.IsFor error) :=
  inferInstanceAs (Decidable (_ ∨ _))

theorem Retrier.isFor_iff_coversError {r : Retrier} {error : String} :
    r.IsFor error ↔ coversError r.errorEquals error = true :=
  coversError_iff.symm

/-- The class of an error: the position of the first retrier that is for it. -/
def classOf? (rs : List Retrier) (error : String) : Option Nat :=
  rs.findIdx? fun r ↦ decide (r.IsFor error)

/-- How many errors of a class there are in a sequence. -/
def classCount (rs : List Retrier) (i : Nat) (errors : List String) : Nat :=
  errors.countP fun error ↦ decide (classOf? rs error = some i)

theorem classCount_concat_self {rs : List Retrier} {error : String} {i : Nat}
    (h : classOf? rs error = some i) (errors : List String) :
    classCount rs i (errors ++ [error]) = classCount rs i errors + 1 := by
  rw [classCount, List.countP_append, List.countP_singleton, if_pos (decide_eq_true h), classCount]

theorem classCount_concat_of_ne {rs : List Retrier} {error : String} {i : Nat}
    (h : classOf? rs error ≠ some i) (errors : List String) :
    classCount rs i (errors ++ [error]) = classCount rs i errors := by
  rw [classCount, List.countP_append, List.countP_singleton,
    if_neg (by rw [decide_eq_true_iff]; exact h), Nat.add_zero, classCount]

namespace RetryTracker

/-! ## Decisions -/

/-- What the tracker decides after an error, and the tracker then: a retry is charged to its
budget, and a refusal leaves all budgets as they are. -/
def answer (t : RetryTracker) (error : String) : Option Grant × RetryTracker :=
  match t.grant? error with
  | some (g, t') => (some g, t')
  | none => (none, t)

/-- The decisions on a sequence of errors, and the tracker after them. -/
def answers (t : RetryTracker) : List String → List (Option Grant) × RetryTracker
  | [] => ([], t)
  | error :: errors =>
    let (decision, t) := t.answer error
    let (decisions, t) := answers t errors
    (decision :: decisions, t)

theorem answers_cons (t : RetryTracker) (error : String) (errors : List String) :
    t.answers (error :: errors)
      = ((t.answer error).1 :: ((t.answer error).2.answers errors).1,
        ((t.answer error).2.answers errors).2) := rfl

theorem answer_of_granted {t t' : RetryTracker} {error : String} {g : Grant}
    (h : t.grant? error = some (g, t')) : t.answer error = (some g, t') := by
  rw [answer, h]

theorem answer_of_refused {t : RetryTracker} {error : String} (h : t.grant? error = none) :
    t.answer error = (none, t) := by
  rw [answer, h]

/-- A tracker asks the first retrier that is for the error, and no other. -/
theorem grant?_of_class {t : RetryTracker} {error : String} {i : Nat} {b : RetryBudget}
    (hclass : classOf? (t.map RetryBudget.retrier) error = some i) (hb : t[i]? = some b) :
    t.grant? error =
      if b.granted < b.retrier.maxAttempts then
        some (⟨b.retrier.delay b.granted, b.granted + 1⟩,
          t.set i { b with granted := b.granted + 1 })
      else none := by
  induction t generalizing i with
  | nil => cases hb
  | cons first rest ih =>
    rw [classOf?, List.map_cons, List.findIdx?_cons] at hclass
    rw [grant?]
    by_cases hfirst : first.retrier.IsFor error
    · rw [if_pos (decide_eq_true hfirst), Option.some.injEq] at hclass
      subst hclass
      obtain rfl : first = b := Option.some.inj hb
      rw [if_pos (Retrier.isFor_iff_coversError.mp hfirst)]
      rfl
    · rw [if_neg (by rw [decide_eq_true_iff]; exact hfirst)] at hclass
      obtain ⟨j, hj, rfl⟩ := Option.map_eq_some_iff.mp hclass
      rw [if_neg (by rw [← Retrier.isFor_iff_coversError]; exact hfirst), ih hj hb]
      split <;> rfl

/-- An error of no class is not retried. -/
theorem grant?_of_classless {t : RetryTracker} {error : String}
    (hclass : classOf? (t.map RetryBudget.retrier) error = none) : t.grant? error = none := by
  induction t with
  | nil => rfl
  | cons first rest ih =>
    rw [classOf?, List.map_cons, List.findIdx?_cons] at hclass
    rw [grant?]
    by_cases hfirst : first.retrier.IsFor error
    · rw [if_pos (decide_eq_true hfirst)] at hclass
      cases hclass
    · rw [if_neg (by rw [decide_eq_true_iff]; exact hfirst), Option.map_eq_none_iff] at hclass
      rw [if_neg (by rw [← Retrier.isFor_iff_coversError]; exact hfirst), ih hclass]
      rfl

/-! ## The invariant -/

/-- The tracker in which every retrier has granted as many retries as a sequence has errors of its
class, as far as it may. -/
def charged (rs : List Retrier) (errors : List String) : RetryTracker :=
  rs.mapIdx fun i r ↦ ⟨r, .ofNat (min (classCount rs i errors) r.maxAttempts.toNat)⟩

theorem getElem?_charged (rs : List Retrier) (errors : List String) (i : Nat) :
    (charged rs errors)[i]? = rs[i]?.map fun r ↦
      ⟨r, .ofNat (min (classCount rs i errors) r.maxAttempts.toNat)⟩ :=
  List.getElem?_mapIdx

theorem charged_nil (rs : List Retrier) : charged rs [] = ofRetriers rs := by
  refine List.ext_getElem? fun i ↦ ?_
  have hzero : ∀ r : Retrier, UInt32.ofNat (min (classCount rs i []) r.maxAttempts.toNat) = 0 :=
    fun r ↦ congrArg UInt32.ofNat (Nat.zero_min _)
  rw [getElem?_charged, ofRetriers, List.getElem?_map]
  simp only [hzero]

theorem retriers_charged (rs : List Retrier) (errors : List String) :
    (charged rs errors).map RetryBudget.retrier = rs := by
  refine List.ext_getElem? fun i ↦ ?_
  rw [List.getElem?_map, getElem?_charged, Option.map_map]
  exact Option.map_id'

/-- The count of a budget as a number. -/
theorem toNat_ofNat_min (count : Nat) (limit : UInt32) :
    (UInt32.ofNat (min count limit.toNat)).toNat = min count limit.toNat :=
  UInt32.toNat_ofNat_of_lt' (Nat.lt_of_le_of_lt (Nat.min_le_right _ _) limit.toNat_lt)

/-- An error of no class is charged to nobody. -/
theorem charged_concat_of_classless {rs : List Retrier} {error : String}
    (h : classOf? rs error = none) (seen : List String) :
    charged rs (seen ++ [error]) = charged rs seen := by
  refine List.ext_getElem? fun i ↦ ?_
  rw [getElem?_charged, getElem?_charged, classCount_concat_of_ne (by rw [h]; simp)]

/-- An error of a class is charged to its retrier and to no other. -/
theorem charged_concat_of_class {rs : List Retrier} {error : String} {i : Nat} {r : Retrier}
    (h : classOf? rs error = some i) (hr : rs[i]? = some r) (seen : List String) :
    charged rs (seen ++ [error]) = (charged rs seen).set i
      ⟨r, .ofNat (min (classCount rs i seen + 1) r.maxAttempts.toNat)⟩ := by
  refine List.ext_getElem? fun j ↦ ?_
  rw [getElem?_charged]
  by_cases hj : i = j
  · subst hj
    have hlt : i < (charged rs seen).length := by
      rw [charged, List.length_mapIdx]
      exact (List.getElem?_eq_some_iff.mp hr).1
    rw [hr, Option.map_some, classCount_concat_self h, List.getElem?_set_self hlt]
  · have hne : classOf? rs error ≠ some j := by
      rw [h]
      exact fun heq ↦ hj (Option.some.inj heq)
    rw [List.getElem?_set_ne hj, getElem?_charged, classCount_concat_of_ne hne]

/-- The decision on an error that comes after others, by the number `k` of errors of its class among
them. So it is the error number `k + 1` of its class. -/
inductive Decided (rs : List Retrier) (seen : List String) (error : String) : Option Grant → Prop
  | classless (classless : classOf? rs error = none) : Decided rs seen error none
  | granted {i k : Nat} {r : Retrier} {g : Grant} (charged : classOf? rs error = some i)
      (retrier : rs[i]? = some r) (count : classCount rs i seen = k)
      (allowed : k + 1 ≤ r.maxAttempts.toNat) (attempt : g.attempt.toNat = k + 1)
      (delay : g.delay = r.delay (.ofNat k)) : Decided rs seen error (some g)
  | spent {i k : Nat} {r : Retrier} (charged : classOf? rs error = some i)
      (retrier : rs[i]? = some r) (count : classCount rs i seen = k)
      (spent : r.maxAttempts.toNat < k + 1) : Decided rs seen error none

/-- **One more error.** The charged tracker decides by the count of the class, and is the charged
tracker afterwards. -/
theorem decided_answer (rs : List Retrier) (seen : List String) (error : String) :
    Decided rs seen error ((charged rs seen).answer error).1 ∧
      ((charged rs seen).answer error).2 = charged rs (seen ++ [error]) := by
  have hretriers := retriers_charged rs seen
  cases hclass : classOf? rs error with
  | none =>
    have hgrant : (charged rs seen).grant? error = none :=
      grant?_of_classless (by rw [hretriers, hclass])
    rw [answer_of_refused hgrant, charged_concat_of_classless hclass]
    exact ⟨.classless hclass, rfl⟩
  | some i =>
    have hlt : i < rs.length := (List.findIdx?_eq_some_iff_getElem.mp hclass).1
    have hr : rs[i]? = some rs[i] := List.getElem?_eq_getElem hlt
    generalize rs[i] = r at hr
    have hb := getElem?_charged rs seen i
    rw [hr, Option.map_some] at hb
    have hgrant := grant?_of_class (by rw [hretriers, hclass]) hb
    have hcount := toNat_ofNat_min (classCount rs i seen) r.maxAttempts
    rw [charged_concat_of_class hclass hr]
    by_cases hallowed : classCount rs i seen + 1 ≤ r.maxAttempts.toNat
    · rw [Nat.min_eq_left (Nat.le_of_succ_le hallowed)] at hgrant hcount
      rw [if_pos (by rw [UInt32.lt_iff_toNat_lt, hcount]; exact hallowed)] at hgrant
      have hnext : UInt32.ofNat (classCount rs i seen) + 1
          = UInt32.ofNat (classCount rs i seen + 1) := (UInt32.ofNat_add _ _).symm
      have hattempt : (UInt32.ofNat (classCount rs i seen + 1)).toNat = classCount rs i seen + 1 :=
        UInt32.toNat_ofNat_of_lt' (Nat.lt_of_le_of_lt hallowed r.maxAttempts.toNat_lt)
      rw [answer_of_granted hgrant, hnext, Nat.min_eq_left hallowed]
      exact ⟨.granted hclass hr rfl hallowed hattempt rfl, rfl⟩
    · -- the budget is used up, and writing its count once more changes nothing
      have hspent : r.maxAttempts.toNat < classCount rs i seen + 1 := Nat.lt_of_not_le hallowed
      rw [Nat.min_eq_right (Nat.le_of_lt_succ hspent)] at hgrant hcount hb
      rw [if_neg (by rw [UInt32.lt_iff_toNat_lt, hcount]; exact Nat.lt_irrefl _)] at hgrant
      rw [answer_of_refused hgrant, Nat.min_eq_right (Nat.le_of_lt hspent)]
      refine ⟨.spent hclass hr rfl hspent, ?_⟩
      obtain ⟨hi, heq⟩ := List.getElem?_eq_some_iff.mp hb
      rw [← heq, List.set_getElem_self]

/-! ## Sequences -/

/-- The decisions on a sequence that comes after other errors, and the tracker after it. -/
theorem answers_charged (rs : List Retrier) (seen errors : List String) :
    ((charged rs seen).answers errors).2 = charged rs (seen ++ errors) ∧
      ((charged rs seen).answers errors).1.length = errors.length ∧
      ∀ n error, errors[n]? = some error →
        ∃ decision, ((charged rs seen).answers errors).1[n]? = some decision ∧
          Decided rs (seen ++ errors.take n) error decision := by
  induction errors generalizing seen with
  | nil =>
    refine ⟨by rw [answers, List.append_nil], rfl, fun n error h ↦ ?_⟩
    cases h
  | cons first rest ih =>
    obtain ⟨hdecided, hnext⟩ := decided_answer rs seen first
    obtain ⟨hlast, hlength, hrest⟩ := ih (seen ++ [first])
    rw [answers_cons, hnext]
    refine ⟨by rw [hlast, List.append_assoc, List.singleton_append],
      by rw [List.length_cons, hlength, List.length_cons], fun n error h ↦ ?_⟩
    cases n with
    | zero =>
      obtain rfl : first = error := Option.some.inj h
      exact ⟨_, rfl, by rw [List.take_zero, List.append_nil]; exact hdecided⟩
    | succ n =>
      obtain ⟨decision, hn, hdecision⟩ := hrest n error h
      refine ⟨decision, hn, ?_⟩
      rwa [List.append_assoc, List.singleton_append] at hdecision

/-! ## Totals -/

theorem total_ofRetriers (rs : List Retrier) : (ofRetriers rs).total = 0 := by
  induction rs with
  | nil => rfl
  | cons r rs ih =>
    have hcons : ofRetriers (r :: rs) = { retrier := r } :: ofRetriers rs := rfl
    rw [hcons, total_cons, ih]
    rfl

/-- Every decision to retry is counted, and takes one of the retries that are left. -/
theorem total_answers (t : RetryTracker) (errors : List String) :
    (t.answers errors).2.total = t.total + (t.answers errors).1.countP Option.isSome ∧
      (t.answers errors).2.remaining + (t.answers errors).1.countP Option.isSome
        = t.remaining := by
  induction errors generalizing t with
  | nil => exact ⟨rfl, rfl⟩
  | cons error errors ih =>
    obtain ⟨htotal, hremaining⟩ := ih (t.answer error).2
    rw [answers_cons, List.countP_cons]
    dsimp only
    rw [htotal]
    cases hgrant : t.grant? error with
    | none =>
      rw [answer_of_refused hgrant] at hremaining ⊢
      exact ⟨rfl, hremaining⟩
    | some x =>
      obtain ⟨g, t'⟩ := x
      obtain ⟨h1, h2⟩ := counts_of_grant? hgrant
      rw [answer_of_granted hgrant] at hremaining ⊢
      dsimp only at hremaining ⊢
      simp only [Option.isSome_some, if_true]
      omega

/-! ## A whole visit -/

/-- The standard retriers grant no retry for a missing right or for a fault of the engine. -/
theorem Decided.eq_none_of_standardRetriers {seen : List String} {error : String}
    {decision : Option Grant} (h : Decided CopyJob.standardRetriers seen error decision)
    (herror : error = ErrorName.permissions ∨ error = ErrorName.runtime) : decision = none := by
  cases h with
  | classless _ | spent _ _ _ _ => rfl
  | granted charged retrier _ allowed _ _ =>
    rcases herror with rfl | rfl
    · have hclass : classOf? CopyJob.standardRetriers ErrorName.permissions = some 0 := by decide
      obtain rfl := Option.some.inj (hclass.symm.trans charged)
      obtain rfl := Option.some.inj retrier
      exact absurd allowed (Nat.not_succ_le_zero _)
    · have hclass : classOf? CopyJob.standardRetriers ErrorName.runtime = none := by decide
      cases hclass.symm.trans charged

/-- **Budgets are independent and exact.** A sequence of errors is put to the retriers of a state.
The error number `k` of its class is retried after the delay that its retrier has for retry `k - 1`
as long as `k` is at most the limit of this retrier, whatever errors of other classes come in
between, and is refused from then on; an error of no class is always refused. The total is the
number of retries granted, and no greater than the sum of all limits. The standard retriers never
grant a retry for a missing right or for a fault of the engine. -/
theorem answers_ofRetriers (rs : List Retrier) (errors : List String) :
    ((ofRetriers rs).answers errors).1.length = errors.length ∧
    (∀ n error, errors[n]? = some error →
      ∃ decision, ((ofRetriers rs).answers errors).1[n]? = some decision ∧
        Decided rs (errors.take n) error decision) ∧
    ((ofRetriers rs).answers errors).2.total
      = ((ofRetriers rs).answers errors).1.countP Option.isSome ∧
    ((ofRetriers rs).answers errors).2.total ≤ totalAttempts rs ∧
    ∀ n : Nat, errors[n]? = some ErrorName.permissions ∨ errors[n]? = some ErrorName.runtime →
      ((ofRetriers CopyJob.standardRetriers).answers errors).1[n]? = some none := by
  have hdecided := fun rs : List Retrier ↦ answers_charged rs [] errors
  simp only [charged_nil, List.nil_append] at hdecided
  obtain ⟨-, hlength, hdecisions⟩ := hdecided rs
  obtain ⟨htotal, hremaining⟩ := total_answers (ofRetriers rs) errors
  rw [total_ofRetriers, Nat.zero_add] at htotal
  rw [remaining_ofRetriers] at hremaining
  refine ⟨hlength, hdecisions, htotal, by omega, fun n hn ↦ ?_⟩
  obtain ⟨error, herror, hname⟩ : ∃ error, errors[n]? = some error ∧
      (error = ErrorName.permissions ∨ error = ErrorName.runtime) := by
    rcases hn with hn | hn
    · exact ⟨_, hn, .inl rfl⟩
    · exact ⟨_, hn, .inr rfl⟩
  obtain ⟨decision, hdecision, hstandard⟩ :=
    (hdecided CopyJob.standardRetriers).2.2 n error herror
  rw [hdecision, hstandard.eq_none_of_standardRetriers hname]

/-- A retrier for one error, and one for all errors behind it. -/
def overlapping : List Retrier :=
  [{ errorEquals := ["Busy"], maxAttempts := 1 },
    { errorEquals := [ErrorName.all], maxAttempts := 2 }]

/-- The second `Busy` finds the budget of its class used up. It is refused, although the retrier for
all errors has retries left and grants one to the error after it. -/
theorem answers_overlapping :
    let errors := ["Other", "Busy", "Busy", "Other", ErrorName.runtime]
    ((ofRetriers overlapping).answers errors).1.map (Option.map Grant.attempt)
        = [some 1, some 1, none, some 2, none] ∧
      (∃ decision, ((ofRetriers overlapping).answers errors).1[2]? = some decision ∧
        Decided overlapping ["Other", "Busy"] "Busy" decision) ∧
      ((ofRetriers CopyJob.standardRetriers).answers errors).1[4]? = some none := by
  intro errors
  obtain ⟨-, hdecided, -, -, hstandard⟩ := answers_ofRetriers overlapping errors
  exact ⟨by decide, hdecided 2 "Busy" rfl, hstandard 4 (.inr rfl)⟩

end RetryTracker

end Workflow
