import Workflow.Proofs.CopyJob.Endings
import Workflow.Proofs.Decimal.Exact

/-!
# How often a copy job asks

A copy job has no counter. How often it has asked for the status of the copy is told by the status
reports themselves: each reports how many checks there have been, one more than the report before
it, which the job keeps at `$.status` for the next check to see.

So the bound on the checks is a fact about the document. `Stage` is the invariant: in the loop the
document tells of as many checks as were made, because nothing but a report is ever stored at
`$.status`; the other tasks and the catchers have fields of their own, and a result that cannot be
stored leaves the document as it was. `JobDone` compares the count as a float, which is exact for
numbers of this size.
-/

namespace Workflow

namespace CopyJob

open Engine

/-! ## Reports -/

/-- The integer that a value is. -/
def integer? : Json → Option Int
  | .number (.int i) => some i.val
  | _ => none

/-- What a document tells of the status of the copy. -/
def statusSeen (doc : Json) : Option String :=
  (doc.readAt ["status", "checkout_status"]).bind Json.string?

/-- What a document tells of the number of status checks. -/
def checksSeen (doc : Json) : Option Int :=
  (doc.readAt ["status", "check_count"]).bind integer?

/-- The statuses that a copy may have. -/
def copyStatuses : List String := ["IN_PROGRESS", "SUCCESS", "FAILURE"]

/-- What is expected of a status check: it reports a status, and one check more than there were
according to the document. -/
def Reports (doc report : Json) : Prop :=
  (∃ status ∈ copyStatuses, (report.get? "checkout_status").bind Json.string? = some status) ∧
    (report.get? "check_count").bind integer? = some (1 + (checksSeen doc).getD 0)

instance (doc report : Json) : Decidable (Reports doc report) := inferInstanceAs (Decidable (_ ∧ _))

/-- The calls of a visit that have a result, each as what it was told of the context document and
its result. -/
def answers (v : Visit) : List (Json × Json) :=
  match v.activity with
  | .called calls => calls.filterMap fun a ↦
    a.record.result.toOption.map fun result ↦ (a.record.context.input, result)
  | _ => []

/-- Every status check among some visits that has a result reports as expected. -/
def Polls (visits : List Visit) : Prop :=
  ∀ v ∈ visits, v.state = "GetJobStatus" → ∀ x ∈ answers v, Reports x.1 x.2

instance (visits : List Visit) : Decidable (Polls visits) :=
  inferInstanceAs (Decidable (∀ v ∈ visits, v.state = "GetJobStatus" → ∀ x ∈ answers v, _))

/-- A document tells of `k` status checks. Before the first it has no status. -/
def Polled : Nat → Json → Prop
  | 0, doc => doc.get? "status" = none
  | k + 1, doc =>
    checksSeen doc = some ((k + 1 : Nat) : Int) ∧
      ∃ status ∈ copyStatuses, statusSeen doc = some status

theorem Polled.congr {doc doc' : Json} (h : doc'.get? "status" = doc.get? "status") {k : Nat}
    (hk : Polled k doc) : Polled k doc' := by
  cases k with
  | zero =>
    rw [Polled, h]
    exact hk
  | succ k =>
    rw [Polled, checksSeen, statusSeen, Json.readAt, Json.readAt, h]
    exact hk

theorem Polled.getD_checksSeen {doc : Json} {k : Nat} (h : Polled k doc) :
    (checksSeen doc).getD 0 = (k : Int) := by
  cases k with
  | zero =>
    rw [Polled] at h
    rw [checksSeen, Json.readAt, h]
    rfl
  | succ k => rw [h.1, Option.getD_some]

/-- A document with a report tells of one check more. -/
theorem Reports.polled {doc doc' report : Json} (h : Reports doc report) {k : Nat}
    (hk : Polled k doc) (hstatus : doc'.get? "status" = some report) : Polled (k + 1) doc' := by
  obtain ⟨⟨status, hmem, hreport⟩, hcount⟩ := h
  have hread : ∀ field, doc'.readAt ["status", field] = report.get? field := by
    intro field
    rw [Json.readAt, hstatus, Option.bind_some, Json.readAt]
    exact Option.bind_fun_some _
  refine ⟨?_, status, hmem, ?_⟩
  · rw [checksSeen, hread, hcount, hk.getD_checksSeen, Int.add_comm]
    rfl
  · rw [statusSeen, hread, hreport]

/-! ## The decision -/

variable {σ : Type} {t : Template} {e : Engine σ} {site : Site} {name : String}

theorem statusIs_holds {doc : Json} {status : String} (h : statusSeen doc = some status)
    (expected : String) :
    conditionHolds doc (statusIs expected) = .ok (decide (status = expected)) := by
  have hpath : ContextPath.parse "$.status.checkout_status"
      = .ok ⟨["status", "checkout_status"], by decide⟩ := rfl
  obtain ⟨v, hread, hv⟩ := Option.bind_eq_some_iff.mp h
  rw [statusIs, conditionHolds, hpath, Except.map, ContextPath.read]
  simp only [hread, Comparator.holds, Option.any_some, hv, Option.some.injEq]

theorem tooManyChecks_holds {doc : Json} {k : Nat} (h : checksSeen doc = some (k : Int))
    {limit : UInt32} (hk : k ≤ limit.toNat + 1) :
    conditionHolds doc (.compare "$.status.check_count"
      (.numericGreaterThan limit.toNat.toFloat)) = .ok (decide (limit.toNat < k)) := by
  have hpath : ContextPath.parse "$.status.check_count"
      = .ok ⟨["status", "check_count"], by decide⟩ := rfl
  have hlimit := limit.toNat_lt
  obtain ⟨v, hread, hv⟩ := Option.bind_eq_some_iff.mp h
  have hfloat : v.float? = some (Float.ofNat k) := by
    unfold integer? at hv
    split at hv
    · next i =>
      rw [Json.float?, Number.toFloat, Option.some.inj hv]
      rfl
    · cases hv
  have hless : limit.toNat.toFloat < Float.ofNat k ↔ limit.toNat < k :=
    float_ofNat_lt_iff (by omega) (by omega)
  rw [conditionHolds, hpath, Except.map, ContextPath.read]
  simp only [hread, Comparator.holds, Option.any_some, numberHolds, hfloat, hless]

theorem chooseAmong_cons {doc : Json} {fallback : Option String} {rule : ChoiceRule}
    {rules : List ChoiceRule} {holds : Bool} (h : rule.holds doc = .ok holds) :
    chooseAmong doc fallback (rule :: rules)
      = if holds then .ok rule.next else chooseAmong doc fallback rules := by
  rw [chooseAmong, h]
  cases holds <;> rfl

/-- Where `JobDone` leads to after `k` checks with this status. -/
def afterCheck (limit k : Nat) (status : String) : String :=
  if status = "FAILURE" then "NotifyFailure"
  else if status = "IN_PROGRESS" then if limit < k then "NotifyFailure" else "Wait"
  else "Notify"

/-- **What `JobDone` decides.** -/
theorem chooseStep_jobDone {doc : Json} {k : Nat} (hcount : checksSeen doc = some (k : Int))
    {status : String} (hmem : status ∈ copyStatuses) (hstatus : statusSeen doc = some status)
    {limit : UInt32} (hk : k ≤ limit.toNat + 1) :
    chooseStep name (jobDone limit) doc = .next (afterCheck limit.toNat k status) := by
  have holds : ∀ expected next, ChoiceRule.holds doc { condition := statusIs expected, next }
      = .ok (decide (status = expected)) := by
    intro expected next
    rw [ChoiceRule.holds]
    exact statusIs_holds hstatus expected
  have hboth : ∀ next, ChoiceRule.holds doc
      { condition := .all [{ condition := statusIs "IN_PROGRESS" },
          { condition := .compare "$.status.check_count"
              (.numericGreaterThan limit.toNat.toFloat) }], next }
        = .ok (decide (status = "IN_PROGRESS") && decide (limit.toNat < k)) := by
    intro next
    rw [ChoiceRule.holds, conditionHolds, allHold, holds, allHold, ChoiceRule.holds,
      tooManyChecks_holds hcount hk, allHold]
    cases decide (status = "IN_PROGRESS") <;> cases decide (limit.toNat < k) <;> rfl
  rw [chooseStep, ChoiceState.choose, jobDone, chooseAmong_cons (holds _ _),
    chooseAmong_cons (hboth _), chooseAmong_cons (holds _ _), chooseAmong_cons (holds _ _)]
  simp only [copyStatuses, List.mem_cons, List.not_mem_nil, or_false] at hmem
  rcases hmem with rfl | rfl | rfl
  · by_cases hlimit : limit.toNat < k <;> simp [afterCheck, hlimit]
  · simp [afterCheck]
  · simp [afterCheck]

/-! ## The invariant -/

/-- How far the polling has come when a state is entered: `asked` status checks have been entered
and `judged` of their reports have been looked at. -/
inductive Stage (limit : Nat) : String → Nat → Nat → Json → Prop
  | before {name : String} {doc : Json}
      (mem : name ∈ ["PreExecutionCheck", "PreExecutionCheckPassed", "ScheduleCopy"])
      (polled : Polled 0 doc) : Stage limit name 0 0 doc
  | asking {name : String} {k : Nat} {doc : Json} (mem : name ∈ ["Wait", "GetJobStatus"])
      (polled : Polled k doc) (le : k ≤ limit) : Stage limit name k k doc
  | judging {k : Nat} {doc : Json} (polled : Polled (k + 1) doc) (le : k ≤ limit) :
      Stage limit "JobDone" k (k + 1) doc
  /-- Those states lead to none of the others. -/
  | reporting {name : String} {judged asked : Nat} {doc : Json}
      (mem : name ∈ ["Notify", "NotifyFailure", "Succeed", "Fail"]) (le : asked ≤ limit + 1) :
      Stage limit name judged asked doc

/-- A task of the job goes on with an error stored, or with its result in its own field and the
other fields as they were. -/
theorem goesOn_of_taskState {h : Handler} {next onError target : String} (field : String)
    (hfield : IsSegment field) {run : Runner σ} {p q : Progress σ} {activity : Activity}
    (hvisit : Visits e run site name (taskState h none ("$." ++ field) next onError) p
      (.next target) activity q) :
    target = onError ∨ target = next ∧
      (∀ other, other ≠ field → q.document.get? other = p.document.get? other) ∧
      ∃ calls, activity = .called calls ∧ ∃ a ∈ calls, a.record.context.input = p.document ∧
        ∃ v, a.record.result = .ok v ∧ q.document.get? field = some v := by
  rw [taskState] at hvisit
  obtain ⟨calls, hcalls, hgoes⟩ := hvisit.goesOn
  generalize q.document = doc at hgoes
  cases hgoes with
  | @stored a v _ _ mem told answered stored after =>
    obtain ⟨hself, hothers⟩ := get?_of_storeAt hfield stored
    have htarget : target = next := (Step.next.inj after).symm
    exact .inr ⟨htarget, hothers, calls, hcalls, a, mem, told, v, answered, hself⟩
  | caught caught _ =>
    have hmem := Catcher.mem_of_for? caught
    rw [failureCatchers, List.mem_singleton] at hmem
    exact .inl (by rw [hmem])

theorem Stage.asked_le {limit judged asked : Nat} {doc : Json}
    (h : Stage limit name judged asked doc) :
    asked + (if name = "GetJobStatus" then 1 else 0) ≤ limit + 1 := by
  cases h with
  | before mem _ =>
    have hname : name ≠ "GetJobStatus" := fun heq ↦ absurd (heq ▸ mem) (by decide)
    rw [if_neg hname]
    exact Nat.zero_le _
  | asking _ _ le => split <;> omega
  | judging _ le =>
    rw [if_neg (by decide)]
    omega
  | reporting mem le =>
    have hname : name ≠ "GetJobStatus" := fun heq ↦ absurd (heq ▸ mem) (by decide)
    rw [if_neg hname]
    exact le

theorem mem_targetsOf_reporting {target : String}
    (hname : name ∈ ["Notify", "NotifyFailure", "Succeed", "Fail"])
    (h : target ∈ t.targetsOf name) : target ∈ ["Notify", "NotifyFailure", "Succeed", "Fail"] := by
  have hmem := List.mem_flatMap.mpr ⟨name, hname, h⟩
  have hall : ["Notify", "NotifyFailure", "Succeed", "Fail"].flatMap t.targetsOf
      = ["Succeed", "NotifyFailure", "Fail", "Fail"] := rfl
  have key : ∀ name ∈ ["Succeed", "NotifyFailure", "Fail", "Fail"],
      name ∈ ["Notify", "NotifyFailure", "Succeed", "Fail"] := by decide
  exact key target (hall ▸ hmem)

theorem document_of_choice {run : Runner σ} {c : ChoiceState} {p q : Progress σ} {step : Step}
    {activity : Activity} (h : Visits e run site name (.choice c) p step activity q) :
    step = chooseStep name c p.document ∧ q.document = p.document := by
  cases h with
  | chose => exact ⟨rfl, rfl⟩

/-- What may be said of the visit of `JobDone` at which the report of check `k` is looked at. -/
structure Judged (limit k : Nat) (v : Visit) : Prop where
  le : k ≤ limit + 1
  count : checksSeen v.entry.document = some (k : Int)
  status : ∃ status ∈ copyStatuses, statusSeen v.entry.document = some status
  inProgress : statusSeen v.entry.document = some "IN_PROGRESS" →
    (k ≤ limit → v.step = .next "Wait") ∧ (k = limit + 1 → v.step = .next "NotifyFailure")
  success : statusSeen v.entry.document = some "SUCCESS" → v.step = .next "Notify"
  failure : statusSeen v.entry.document = some "FAILURE" → v.step = .next "NotifyFailure"

theorem judged_of_polled {k : Nat} {p q : Progress σ} {s : State} {step : Step}
    {activity : Activity} (hm : site.machine = t.machine)
    (pass : e.Passes site "JobDone" p s step activity q) (hpolled : Polled (k + 1) p.document)
    (hle : k ≤ t.options.maxStatusChecks.toNat) :
    Judged t.options.maxStatusChecks.toNat (k + 1)
      ⟨"JobDone", p.toMoment, activity, step, q.toMoment⟩ ∧ q.document = p.document := by
  obtain ⟨hcount, status, hmem, hstatus⟩ := hpolled
  have hs : s = .choice (jobDone t.options.maxStatusChecks) :=
    Option.some.inj ((hm ▸ pass.state).symm.trans rfl)
  have hvisit := pass.visit
  rw [hs] at hvisit
  obtain ⟨hstep, hdoc⟩ := document_of_choice hvisit
  rw [chooseStep_jobDone hcount hmem hstatus (Nat.succ_le_succ hle)] at hstep
  refine ⟨⟨Nat.succ_le_succ hle, hcount, ⟨status, hmem, hstatus⟩,
    fun h ↦ ⟨fun hk ↦ ?_, fun hk ↦ ?_⟩, fun h ↦ ?_, fun h ↦ ?_⟩, hdoc⟩
  all_goals
    obtain rfl : status = _ := Option.some.inj (hstatus.symm.trans h)
    rw [hstep]
  · simp [afterCheck, Nat.not_lt.mpr hk]
  · simp [afterCheck, hk]
  · simp [afterCheck]
  · simp [afterCheck]

section

variable {run : Runner σ} {p q : Progress σ} {s : State} {target : String} {activity : Activity}

/-- Every stage may be given up, at whatever the document tells. -/
theorem Stage.givenUp {limit judged asked : Nat} {doc : Json} (h : asked ≤ limit + 1) :
    Stage limit "NotifyFailure" judged asked doc := .reporting (by decide) h

/-- Before the copy is scheduled no field gets a status. -/
theorem Stage.next_before (hs : t.machine.state? name = some s)
    (hvisit : Visits e run site name s p (.next target) activity q)
    (mem : name ∈ ["PreExecutionCheck", "PreExecutionCheckPassed", "ScheduleCopy"])
    (polled : Polled 0 p.document) :
    Stage t.options.maxStatusChecks.toNat target 0 0 q.document := by
  simp only [List.mem_cons, List.not_mem_nil, or_false] at mem
  rcases mem with rfl | rfl | rfl
  · obtain rfl := Option.some.inj hs
    rcases goesOn_of_taskState "validation" (by decide) hvisit with rfl | ⟨rfl, hrest, -⟩
    · exact .givenUp (Nat.zero_le _)
    · exact .before (by decide) (polled.congr (hrest "status" (by decide)))
  · obtain rfl := Option.some.inj hs
    have htarget : target ∈ ["ScheduleCopy", "NotifyFailure"] := hvisit.mem_targets
    obtain ⟨-, hdoc⟩ := document_of_choice hvisit
    rw [hdoc]
    simp only [List.mem_cons, List.not_mem_nil, or_false] at htarget
    rcases htarget with rfl | rfl
    · exact .before (by decide) polled
    · exact .givenUp (Nat.zero_le _)
  · obtain rfl := Option.some.inj hs
    rcases goesOn_of_taskState "schedule" (by decide) hvisit with rfl | ⟨rfl, hrest, -⟩
    · exact .givenUp (Nat.zero_le _)
    · exact .asking (by decide) (polled.congr (hrest "status" (by decide))) (Nat.zero_le _)

/-- A wait leaves the document as it is. -/
theorem Stage.next_wait {k : Nat} (hs : t.machine.state? "Wait" = some s)
    (hvisit : Visits e run site "Wait" s p (.next target) activity q)
    (polled : Polled k p.document) (hle : k ≤ t.options.maxStatusChecks.toNat) :
    Stage t.options.maxStatusChecks.toNat target k k q.document := by
  obtain rfl := Option.some.inj hs
  generalize hstep : Step.next target = step at hvisit
  cases hvisit with
  | waited _ =>
    obtain rfl := Step.next.inj hstep
    exact .asking (by decide) polled hle
  | unreadable _ => cases hstep

/-- A status check that reports as expected is the next one the document tells of. -/
theorem Stage.next_check {k : Nat} (hs : t.machine.state? "GetJobStatus" = some s)
    (hvisit : Visits e run site "GetJobStatus" s p (.next target) activity q)
    (hpolls : Polls [⟨"GetJobStatus", p.toMoment, activity, .next target, q.toMoment⟩])
    (polled : Polled k p.document) (hle : k ≤ t.options.maxStatusChecks.toNat) :
    Stage t.options.maxStatusChecks.toNat target k (k + 1) q.document := by
  obtain rfl := Option.some.inj hs
  rcases goesOn_of_taskState "status" (by decide) hvisit with
    rfl | ⟨rfl, -, calls, hcalls, a, ha, htold, report, hanswered, hreport⟩
  · exact .givenUp (Nat.succ_le_succ hle)
  · have hanswer : (p.document, report) ∈ answers
        ⟨"GetJobStatus", p.toMoment, activity, .next "JobDone", q.toMoment⟩ := by
      rw [answers, hcalls]
      refine List.mem_filterMap.mpr ⟨a, ha, ?_⟩
      rw [hanswered, htold]
      rfl
    have hreports := hpolls _ List.mem_cons_self rfl _ hanswer
    exact .judging (hreports.polled polled hreport) hle

/-- From a judged report a job that is in progress goes on to wait, as long as checks are left. -/
theorem Stage.next_judged {k : Nat}
    (hjudged : Judged t.options.maxStatusChecks.toNat (k + 1)
      ⟨"JobDone", p.toMoment, activity, .next target, q.toMoment⟩)
    (hdoc : q.document = p.document) (polled : Polled (k + 1) p.document) :
    Stage t.options.maxStatusChecks.toNat target (k + 1) (k + 1) q.document := by
  have hle := hjudged.le
  obtain ⟨status, hmem, hstatus⟩ := hjudged.status
  rw [hdoc]
  simp only [copyStatuses, List.mem_cons, List.not_mem_nil, or_false] at hmem
  rcases hmem with rfl | rfl | rfl
  · obtain ⟨hwait, hgive⟩ := hjudged.inProgress hstatus
    rcases Nat.lt_or_eq_of_le hle with hlt | heq
    · have hleft := Nat.le_of_lt_succ hlt
      obtain rfl : target = "Wait" := Step.next.inj (hwait hleft)
      exact .asking (by decide) polled hleft
    · obtain rfl : target = "NotifyFailure" := Step.next.inj (hgive heq)
      exact .givenUp hle
  · obtain rfl : target = "Notify" := Step.next.inj (hjudged.success hstatus)
    exact .reporting (by decide) hle
  · obtain rfl : target = "NotifyFailure" := Step.next.inj (hjudged.failure hstatus)
    exact .givenUp hle

end

/-- **The polling goes on.** A state that is passed leads on to a state at which the invariant
holds again. -/
theorem Stage.next (hm : site.machine = t.machine) {judged asked : Nat} {p q : Progress σ}
    {s : State} {target : String} {activity : Activity}
    (hstage : Stage t.options.maxStatusChecks.toNat name judged asked p.document)
    (pass : e.Passes site name p s (.next target) activity q)
    (hpolls : Polls [⟨name, p.toMoment, activity, .next target, q.toMoment⟩]) :
    Stage t.options.maxStatusChecks.toNat target (judged + if name = "JobDone" then 1 else 0)
      (asked + if name = "GetJobStatus" then 1 else 0) q.document := by
  have hle := hstage.asked_le
  have hs : t.machine.state? name = some s := hm ▸ pass.state
  cases hstage with
  | before mem polled =>
    have hstatus : name ≠ "GetJobStatus" := fun heq ↦ absurd (heq ▸ mem) (by decide)
    have hdone : name ≠ "JobDone" := fun heq ↦ absurd (heq ▸ mem) (by decide)
    rw [if_neg hstatus, if_neg hdone]
    exact .next_before hs pass.visit mem polled
  | asking mem polled le =>
    have hdone : name ≠ "JobDone" := fun heq ↦ absurd (heq ▸ mem) (by decide)
    rw [if_neg hdone]
    simp only [List.mem_cons, List.not_mem_nil, or_false] at mem
    rcases mem with rfl | rfl
    · exact .next_wait hs pass.visit polled le
    · exact .next_check hs pass.visit hpolls polled le
  | judging polled le =>
    obtain ⟨hjudged, hdoc⟩ := judged_of_polled hm pass polled le
    rw [if_pos rfl, if_neg (by decide)]
    exact .next_judged hjudged hdoc polled
  | reporting mem le =>
    have hmem : target ∈ t.targetsOf name := t.targetsOf_eq hs ▸ pass.visit.mem_targets
    exact .reporting (mem_targetsOf_reporting mem hmem) hle

/-! ## Runs -/

/-- What the invariant comes to over some visits. -/
structure Tally (limit judged asked : Nat) (visits : List Visit) : Prop where
  judged : ∀ k v, (visits.filter fun v ↦ v.state = "JobDone")[k]? = some v →
    Judged limit (judged + k + 1) v
  asked : asked + (visits.map Visit.state).count "GetJobStatus" ≤ limit + 1

theorem Tally.nil {limit judged asked : Nat} (h : asked ≤ limit + 1) :
    Tally limit judged asked [] :=
  ⟨fun _ _ hv ↦ absurd hv (by simp), h⟩

theorem Tally.cons {limit judged asked : Nat} {v : Visit} {visits : List Visit}
    (head : v.state = "JobDone" → Judged limit (judged + 1) v)
    (tail : Tally limit (judged + if v.state = "JobDone" then 1 else 0)
      (asked + if v.state = "GetJobStatus" then 1 else 0) visits) :
    Tally limit judged asked (v :: visits) := by
  refine ⟨fun k w hw ↦ ?_, ?_⟩
  · by_cases hv : v.state = "JobDone"
    · rw [List.filter_cons, if_pos (decide_eq_true hv)] at hw
      cases k with
      | zero =>
        obtain rfl : v = w := Option.some.inj hw
        exact head hv
      | succ k =>
        have hjudged := tail.judged k w hw
        rw [if_pos hv, Nat.add_right_comm judged 1 k] at hjudged
        exact hjudged
    · rw [List.filter_cons, if_neg (by simpa using hv)] at hw
      have hjudged := tail.judged k w hw
      rw [if_neg hv] at hjudged
      exact hjudged
  · have hasked := tail.asked
    rw [List.map_cons, List.count_cons]
    simp only [beq_iff_eq]
    omega

/-- **A walk of the job keeps count.** -/
theorem Stage.tally (hm : site.machine = t.machine) {judged asked : Nat} {p q : Progress σ}
    {visits : List Visit} {verdict : Verdict} (h : e.Walks site name p visits verdict q)
    (hstage : Stage t.options.maxStatusChecks.toNat name judged asked p.document)
    (hpolls : Polls visits) : Tally t.options.maxStatusChecks.toNat judged asked visits := by
  have hjudged : ∀ {name : String} {judged asked : Nat} {p q : Progress σ} {s : State} {step : Step}
      {activity : Activity}, e.Passes site name p s step activity q →
        Stage t.options.maxStatusChecks.toNat name judged asked p.document → name = "JobDone" →
          Judged t.options.maxStatusChecks.toNat (judged + 1)
            ⟨name, p.toMoment, activity, step, q.toMoment⟩ := by
    intro name judged asked p q s step activity pass hstage hname
    cases hstage with
    | judging polled le => exact (judged_of_polled hm pass polled le).1
    | before mem _ | asking mem _ _ | reporting mem _ => exact absurd (hname ▸ mem) (by decide)
  induction h generalizing judged asked with
  | late _ | ceiling _ _ =>
    exact .nil (Nat.le_trans (Nat.le_add_right _ _) hstage.asked_le)
  | @missing current _ _ _ state =>
    refine .cons (fun hname ↦ ?_) (.nil hstage.asked_le)
    -- `JobDone` is a state of the job
    have hcurrent : current = "JobDone" := hname
    rw [hcurrent, hm] at state
    cases state
  | next first _ ih =>
    have hhead : Polls [_] := fun v hv ↦ hpolls v (List.mem_singleton.mp hv ▸ List.mem_cons_self)
    have hrest : Polls _ := fun v hv ↦ hpolls v (List.mem_cons_of_mem _ hv)
    exact .cons (hjudged first hstage) (ih (hstage.next hm first hhead) hrest)
  | finished last | failed last | outOfTime last =>
    exact .cons (hjudged last hstage) (.nil hstage.asked_le)

/-- **Polling is bounded.** Let the input have no status, and let every status check that has a
result report one of the three statuses and one check more than its input tells of, whatever the
other tasks do. Then the `k`-th visit of `JobDone` sees the report of check `k`, goes back to `Wait`
while the copy is in progress and `k` is within the limit, and gives up with the first check beyond
it. There are never more status checks than that, whatever else may end the run. -/
theorem execute_polling (t : Template) (e : Engine σ) (h : e.document.machine = t.machine)
    (input : Json) (world : σ) (hinput : input.get? "status" = none)
    (hpolls : Polls (e.run input world).1.visits) :
    (∀ k v, ((e.run input world).1.visits.filter fun v ↦ v.state = "JobDone")[k]? = some v →
      Judged t.options.maxStatusChecks.toNat (k + 1) v) ∧
    (e.execute input world).1.visits "GetJobStatus" ≤ t.options.maxStatusChecks.toNat + 1 := by
  have htrace := trace_run h input world
  obtain ⟨visits, verdict, q, hrun, hwalk⟩ := e.walks_run input world
  have hroot : e.root.machine = t.machine := h
  have hstart : Stage t.options.maxStatusChecks.toNat e.root.machine.startAt 0 0
      (e.start input world).document := by
    rw [hroot]
    exact .before List.mem_cons_self hinput
  have hvisits : (e.run input world).1.visits = visits := by rw [hrun]
  rw [hvisits] at htrace hpolls
  obtain ⟨hjudged, hasked⟩ := hstart.tally hroot hwalk hpolls
  rw [hvisits, Execution.visits, trace_execute, htrace]
  refine ⟨fun k v hv ↦ ?_, ?_⟩
  · have hk := hjudged k v hv
    rw [Nat.zero_add] at hk
    exact hk
  · rw [Nat.zero_add] at hasked
    exact hasked

/-- A job that gives up at the second check. -/
def impatientJob : Template := { uniformJob with options := { maxStatusChecks := 1 } }

/-- The copy stays in progress, and the checks are counted as expected. -/
def unendingRun : Engine Unit where
  document := .ofMachine impatientJob.machine
  registry := Registry.register {} (.here { name := "work" })
  perform := fun i s ↦
    let checks := (WideInt.ofInt? (1 + (checksSeen i.context.input).getD 0)).getD default
    let status := if i.context.state = "PreExecutionCheck" then "PASSED" else "IN_PROGRESS"
    ({ result := .ok (.object [("check_count", .number (.int checks)),
        ("checkout_status", .string status), ("wait_time_seconds", .ofNat 60)]) }, s)

theorem execute_unendingRun :
    Polls (unendingRun.run (.object []) ()).1.visits ∧
      (unendingRun.execute (.object []) ()).1.trace
        = ["PreExecutionCheck", "PreExecutionCheckPassed", "ScheduleCopy", "Wait", "GetJobStatus",
          "JobDone", "Wait", "GetJobStatus", "JobDone", "NotifyFailure", "Fail"] ∧
      (unendingRun.execute (.object []) ()).1.visits "GetJobStatus" ≤ 2 := by
  have hpolls : Polls (unendingRun.run (.object []) ()).1.visits := by decide +kernel
  obtain ⟨-, hasked⟩ :=
    execute_polling impatientJob unendingRun rfl (.object []) () rfl hpolls
  exact ⟨hpolls, by decide +kernel, hasked⟩

end CopyJob

end Workflow
