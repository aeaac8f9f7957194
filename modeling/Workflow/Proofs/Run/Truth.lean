import Workflow.Proofs.Machine.Accepted
import Workflow.Run.Choice

/-!
# The truth of a condition

A condition is true or false of a document by the usual meaning of all, any and not, and a
comparison is true of the value that is read at its path. This says nothing of an order, of
stopping early or of errors. Evaluation does stop early, and it reports a variable that is no path
if it gets there. In a machine that passes validation all variables are paths, so evaluation always
gives an answer, and the answer is the truth (`Condition.Proper.evaluates`).

Whatever keeps the truth therefore keeps the target of a choice: another order of nested rules, the
laws of De Morgan, another document with the same values at the variables.
-/

namespace Workflow

/-! ## Comparisons -/

/-- The value is there and is a number of which something holds. -/
def IsNumber (holds : Float → Prop) (value : Option Json) : Prop :=
  ∃ n : Number, value = some (.number n) ∧ holds n.toFloat

/-- What a comparator says of the value at its path, which may be missing. -/
def Comparator.Satisfied : Comparator → Option Json → Prop
  | .isPresent expected, value => value.isSome = expected
  | .stringEquals expected, value => value = some (.string expected)
  | .booleanEquals expected, value => value = some (.bool expected)
  | .numericEquals expected, value => IsNumber (fun x ↦ (x == expected) = true) value
  | .numericGreaterThan expected, value => IsNumber (fun x ↦ expected < x) value
  | .numericGreaterThanEquals expected, value => IsNumber (fun x ↦ expected ≤ x) value
  | .numericLessThan expected, value => IsNumber (fun x ↦ x < expected) value
  | .numericLessThanEquals expected, value => IsNumber (fun x ↦ x ≤ expected) value

/-- The value has the type that the comparator is for. -/
def Comparator.IsFor : Comparator → Json → Prop
  | .isPresent _, _ => True
  | .stringEquals _, v => ∃ s, v = .string s
  | .booleanEquals _, v => ∃ b, v = .bool b
  | .numericEquals _, v | .numericGreaterThan _, v | .numericGreaterThanEquals _, v
  | .numericLessThan _, v | .numericLessThanEquals _, v => ∃ n, v = .number n

theorem any_numberHolds_iff {test : Float → Bool} {value : Option Json} :
    value.any (numberHolds test) = true ↔ IsNumber (fun x ↦ test x = true) value := by
  rcases value with _ | _ | _ | n | _ | _ | _ <;>
    simp [IsNumber, numberHolds, Json.float?]

theorem Comparator.holds_iff {comparator : Comparator} {value : Option Json} :
    comparator.holds value = true ↔ comparator.Satisfied value := by
  cases comparator with
  | isPresent expected => rw [holds, Satisfied, decide_eq_true_iff]
  | stringEquals expected =>
    rcases value with _ | _ | _ | _ | _ | _ | _ <;> simp [holds, Satisfied, Json.string?]
  | booleanEquals expected =>
    rcases value with _ | _ | _ | _ | _ | _ | _ <;> simp [holds, Satisfied, Json.bool?]
  | numericEquals expected => exact any_numberHolds_iff
  | numericGreaterThan expected | numericGreaterThanEquals expected | numericLessThan expected
  | numericLessThanEquals expected =>
    rw [holds, any_numberHolds_iff, Satisfied]
    simp only [decide_eq_true_iff]

/-- Of a missing value nothing holds but that it is not there. -/
theorem Comparator.holds_none_iff {comparator : Comparator} :
    comparator.holds none = true ↔ comparator = .isPresent false := by
  cases comparator with
  | isPresent expected => cases expected <;> simp [holds]
  | _ => simp [holds]

/-- A comparison of a value that is there holds only of the type that it is for. -/
theorem Comparator.isFor_of_holds {comparator : Comparator} {v : Json}
    (h : comparator.holds (some v) = true) : comparator.IsFor v := by
  rw [holds_iff] at h
  cases comparator with
  | isPresent expected => trivial
  | stringEquals expected => exact ⟨expected, Option.some.inj h⟩
  | booleanEquals expected => exact ⟨expected, Option.some.inj h⟩
  | numericEquals expected | numericGreaterThan expected | numericGreaterThanEquals expected
  | numericLessThan expected | numericLessThanEquals expected =>
    obtain ⟨n, hn, -⟩ := h
    exact ⟨n, Option.some.inj hn⟩

/-! ## Conditions -/

theorem sizeOf_condition_lt {rule : ChoiceRule} {rules : List ChoiceRule} (h : rule ∈ rules) :
    sizeOf rule.condition < sizeOf rules := by
  have hrule := List.sizeOf_lt_of_mem h
  obtain ⟨condition, next⟩ := rule
  rw [ChoiceRule.mk.sizeOf_spec] at hrule
  exact Nat.lt_trans (by dsimp only; omega) hrule

/-- A condition is true of a document. -/
def Condition.TrueOf (doc : Json) : Condition → Prop
  | .all rules => ∀ rule, (_ : rule ∈ rules) → rule.condition.TrueOf doc
  | .any rules => ∃ (rule : ChoiceRule) (_ : rule ∈ rules), rule.condition.TrueOf doc
  | .negate rule => ¬rule.condition.TrueOf doc
  | .compare path comparator =>
    ∃ p, ContextPath.parse path = .ok p ∧ comparator.Satisfied (p.read doc)
termination_by condition => sizeOf condition
decreasing_by
  · have := sizeOf_condition_lt ‹rule ∈ rules›
    rw [Condition.all.sizeOf_spec]
    omega
  · have := sizeOf_condition_lt ‹rule ∈ rules›
    rw [Condition.any.sizeOf_spec]
    omega
  · obtain ⟨condition, next⟩ := rule
    rw [Condition.negate.sizeOf_spec, ChoiceRule.mk.sizeOf_spec]
    dsimp only
    omega

section

variable {doc : Json} {rules : List ChoiceRule} {rule : ChoiceRule}

theorem trueOf_all_iff :
    (Condition.all rules).TrueOf doc ↔ ∀ rule ∈ rules, rule.condition.TrueOf doc := by
  rw [Condition.TrueOf]

theorem trueOf_any_iff :
    (Condition.any rules).TrueOf doc ↔ ∃ rule ∈ rules, rule.condition.TrueOf doc := by
  simp only [Condition.TrueOf, exists_prop]

theorem trueOf_negate_iff :
    (Condition.negate rule).TrueOf doc ↔ ¬rule.condition.TrueOf doc := by
  rw [Condition.TrueOf]

theorem trueOf_compare_iff {path : String} {comparator : Comparator} :
    (Condition.compare path comparator).TrueOf doc ↔
      ∃ p, ContextPath.parse path = .ok p ∧ comparator.Satisfied (p.read doc) := by
  rw [Condition.TrueOf]

theorem proper_all_iff :
    (Condition.all rules).Proper ↔
      rules ≠ [] ∧ ∀ rule ∈ rules, rule.next = none ∧ rule.condition.Proper := by
  constructor
  · intro h
    cases h with
    | all nonempty next proper =>
      exact ⟨nonempty, fun rule hrule ↦ ⟨next rule hrule, proper rule hrule⟩⟩
  · rintro ⟨nonempty, each⟩
    exact .all nonempty (fun rule hrule ↦ (each rule hrule).1) fun rule hrule ↦ (each rule hrule).2

theorem proper_any_iff :
    (Condition.any rules).Proper ↔
      rules ≠ [] ∧ ∀ rule ∈ rules, rule.next = none ∧ rule.condition.Proper := by
  constructor
  · intro h
    cases h with
    | any nonempty next proper =>
      exact ⟨nonempty, fun rule hrule ↦ ⟨next rule hrule, proper rule hrule⟩⟩
  · rintro ⟨nonempty, each⟩
    exact .any nonempty (fun rule hrule ↦ (each rule hrule).1) fun rule hrule ↦ (each rule hrule).2

theorem proper_negate_iff :
    (Condition.negate rule).Proper ↔ rule.next = none ∧ rule.condition.Proper := by
  constructor
  · intro h
    cases h with
    | negate next proper => exact ⟨next, proper⟩
  · rintro ⟨next, proper⟩
    exact .negate next proper

end

/-! ## Evaluation -/

/-- An evaluation comes to an answer, and the answer is whether the statement holds. -/
def Evaluates (answer : Except PathError Bool) (statement : Prop) : Prop :=
  (statement ∧ answer = .ok true) ∨ (¬statement ∧ answer = .ok false)

theorem Evaluates.eq_of_iff {x y : Except PathError Bool} {p q : Prop} (hx : Evaluates x p)
    (hy : Evaluates y q) (hpq : p ↔ q) : x = y := by
  rcases hx with ⟨hp, rfl⟩ | ⟨hp, rfl⟩ <;> rcases hy with ⟨hq, rfl⟩ | ⟨hq, rfl⟩
  · rfl
  · exact absurd (hpq.mp hp) hq
  · exact absurd (hpq.mpr hq) hp
  · rfl

theorem ChoiceRule.holds_eq (doc : Json) (rule : ChoiceRule) :
    rule.holds doc = conditionHolds doc rule.condition := by
  obtain ⟨condition, next⟩ := rule
  rw [ChoiceRule.holds]

theorem evaluates_allHold {doc : Json} {rules : List ChoiceRule}
    (h : ∀ rule ∈ rules, Evaluates (rule.holds doc) (rule.condition.TrueOf doc)) :
    Evaluates (allHold doc rules) (∀ rule ∈ rules, rule.condition.TrueOf doc) := by
  induction rules with
  | nil => exact .inl ⟨List.forall_mem_nil _, rfl⟩
  | cons rule rules ih =>
    obtain ⟨hrule, hrest⟩ := List.forall_mem_cons.mp h
    rw [allHold, List.forall_mem_cons]
    rcases hrule with ⟨htrue, heval⟩ | ⟨hfalse, heval⟩
    · rw [heval, and_iff_right htrue]
      exact ih hrest
    · rw [heval]
      exact .inr ⟨fun hall ↦ hfalse hall.1, rfl⟩

theorem evaluates_anyHolds {doc : Json} {rules : List ChoiceRule}
    (h : ∀ rule ∈ rules, Evaluates (rule.holds doc) (rule.condition.TrueOf doc)) :
    Evaluates (anyHolds doc rules) (∃ rule ∈ rules, rule.condition.TrueOf doc) := by
  induction rules with
  | nil => exact .inr ⟨fun ⟨_, hmem, _⟩ ↦ List.not_mem_nil hmem, rfl⟩
  | cons rule rules ih =>
    obtain ⟨hrule, hrest⟩ := List.forall_mem_cons.mp h
    rw [anyHolds, List.exists_mem_cons_iff]
    rcases hrule with ⟨htrue, heval⟩ | ⟨hfalse, heval⟩
    · rw [heval]
      exact .inl ⟨.inl htrue, rfl⟩
    · rw [heval, or_iff_right hfalse]
      exact ih hrest

/-- **Evaluation tells the truth** of a condition that compares values at paths only. -/
theorem Condition.Proper.evaluates {condition : Condition} (h : condition.Proper) (doc : Json) :
    Evaluates (conditionHolds doc condition) (condition.TrueOf doc) := by
  induction h with
  | all _ _ _ ih =>
    rw [conditionHolds, trueOf_all_iff]
    exact evaluates_allHold fun rule hrule ↦ by
      rw [rule.holds_eq]
      exact ih rule hrule
  | any _ _ _ ih =>
    rw [conditionHolds, trueOf_any_iff]
    exact evaluates_anyHolds fun rule hrule ↦ by
      rw [rule.holds_eq]
      exact ih rule hrule
  | @negate rule _ _ ih =>
    rw [conditionHolds, trueOf_negate_iff, rule.holds_eq]
    rcases ih with ⟨htrue, heval⟩ | ⟨hfalse, heval⟩
    · exact .inr ⟨not_not_intro htrue, by rw [heval]; rfl⟩
    · exact .inl ⟨hfalse, by rw [heval]; rfl⟩
  | @compare path comparator hpath =>
    obtain ⟨p, hp⟩ := hpath
    rw [conditionHolds, trueOf_compare_iff, hp]
    by_cases hholds : comparator.holds (p.read doc) = true
    · exact .inl ⟨⟨p, rfl, Comparator.holds_iff.mp hholds⟩, congrArg Except.ok hholds⟩
    · refine .inr ⟨?_, congrArg Except.ok (Bool.eq_false_iff.mpr hholds)⟩
      rintro ⟨q, hq, hsatisfied⟩
      rw [← Except.ok.inj hq] at hsatisfied
      exact hholds (Comparator.holds_iff.mpr hsatisfied)

/-! ## Rewriting -/

/-- The rule, nested, that holds when this one does not. -/
def ChoiceRule.negation (rule : ChoiceRule) : ChoiceRule := { condition := .negate rule }

/-- One condition comes from another by changing the order of nested rules and by the laws of De
Morgan and of double negation, at any depth and in both directions. -/
inductive Condition.Rewrites : Condition → Condition → Prop
  | refl (c : Condition) : c.Rewrites c
  | symm {c d : Condition} (h : c.Rewrites d) : d.Rewrites c
  | trans {c d e : Condition} (first : c.Rewrites d) (second : d.Rewrites e) : c.Rewrites e
  | permAll {rules rules' : List ChoiceRule} (perm : rules.Perm rules') :
    Condition.Rewrites (.all rules) (.all rules')
  | permAny {rules rules' : List ChoiceRule} (perm : rules.Perm rules') :
    Condition.Rewrites (.any rules) (.any rules')
  | notAll (rules : List ChoiceRule) :
    Condition.Rewrites (.negate { condition := .all rules }) (.any (rules.map .negation))
  | notAny (rules : List ChoiceRule) :
    Condition.Rewrites (.negate { condition := .any rules }) (.all (rules.map .negation))
  | notNot (c : Condition) :
    Condition.Rewrites (.negate { condition := .negate { condition := c } }) c
  | insideAll {before after : List ChoiceRule} {rule : ChoiceRule} {c : Condition}
    (h : rule.condition.Rewrites c) :
    Condition.Rewrites (.all (before ++ rule :: after))
      (.all (before ++ { rule with condition := c } :: after))
  | insideAny {before after : List ChoiceRule} {rule : ChoiceRule} {c : Condition}
    (h : rule.condition.Rewrites c) :
    Condition.Rewrites (.any (before ++ rule :: after))
      (.any (before ++ { rule with condition := c } :: after))
  | insideNot {rule : ChoiceRule} {c : Condition} (h : rule.condition.Rewrites c) :
    Condition.Rewrites (.negate rule) (.negate { rule with condition := c })

namespace Condition.Rewrites

variable {c d : Condition}

theorem trueOf_iff (h : c.Rewrites d) (doc : Json) : c.TrueOf doc ↔ d.TrueOf doc := by
  induction h with
  | refl => exact Iff.rfl
  | symm _ ih => exact ih.symm
  | trans _ _ ih₁ ih₂ => exact ih₁.trans ih₂
  | permAll perm => simp only [trueOf_all_iff, perm.mem_iff]
  | permAny perm => simp only [trueOf_any_iff, perm.mem_iff]
  | notAll rules =>
    simp only [trueOf_negate_iff, trueOf_all_iff, trueOf_any_iff, List.mem_map,
      exists_exists_and_eq_and, ChoiceRule.negation, Classical.not_forall, exists_prop]
  | notAny rules =>
    simp only [trueOf_negate_iff, trueOf_all_iff, trueOf_any_iff, List.forall_mem_map,
      ChoiceRule.negation, not_exists, not_and]
  | notNot c => simp only [trueOf_negate_iff, Classical.not_not]
  | insideAll _ ih =>
    simp only [trueOf_all_iff, List.forall_mem_append, List.forall_mem_cons, ih]
  | insideAny _ ih =>
    simp only [trueOf_any_iff, List.mem_append, List.mem_cons, or_and_right, exists_or,
      exists_eq_left, ih]
  | insideNot _ ih => simp only [trueOf_negate_iff, ih]

/-- Rewriting keeps what validation asks of conditions. -/
theorem proper_iff (h : c.Rewrites d) : c.Proper ↔ d.Proper := by
  induction h with
  | refl => exact Iff.rfl
  | symm _ ih => exact ih.symm
  | trans _ _ ih₁ ih₂ => exact ih₁.trans ih₂
  | permAll perm =>
    simp only [proper_all_iff, perm.mem_iff, ne_eq, ← List.length_eq_zero_iff, perm.length_eq]
  | permAny perm =>
    simp only [proper_any_iff, perm.mem_iff, ne_eq, ← List.length_eq_zero_iff, perm.length_eq]
  | notAll rules =>
    simp only [proper_negate_iff, proper_all_iff, proper_any_iff, List.forall_mem_map,
      ChoiceRule.negation, ne_eq, List.map_eq_nil_iff, true_and]
  | notAny rules =>
    simp only [proper_negate_iff, proper_all_iff, proper_any_iff, List.forall_mem_map,
      ChoiceRule.negation, ne_eq, List.map_eq_nil_iff, true_and]
  | notNot c => simp only [proper_negate_iff, true_and]
  | insideAll _ ih =>
    simp only [proper_all_iff, List.forall_mem_append, List.forall_mem_cons, ih, ne_eq,
      List.append_eq_nil_iff, List.cons_ne_nil, and_false]
  | insideAny _ ih =>
    simp only [proper_any_iff, List.forall_mem_append, List.forall_mem_cons, ih, ne_eq,
      List.append_eq_nil_iff, List.cons_ne_nil, and_false]
  | insideNot _ ih => simp only [proper_negate_iff, ih]

end Condition.Rewrites

/-- The top-level rules are the same ones in the same order, with rewritten conditions. -/
structure ChoiceState.Rewrites (c d : ChoiceState) : Prop where
  fallback : d.fallback = c.fallback
  choices : List.Forall₂ (fun rule rule' : ChoiceRule ↦
    rule'.next = rule.next ∧ rule.condition.Rewrites rule'.condition) c.choices d.choices

/-! ## Variables -/

theorem mem_rulesVariables_iff {rules : List ChoiceRule} {path : String} :
    path ∈ rulesVariables rules ↔ ∃ rule ∈ rules, path ∈ conditionVariables rule.condition := by
  induction rules with
  | nil => simp [rulesVariables]
  | cons rule rules ih =>
    obtain ⟨condition, next⟩ := rule
    rw [rulesVariables, ChoiceRule.variables, List.mem_append, ih, List.exists_mem_cons_iff]

/-- Two documents have the same values, or none, at some paths. -/
def AgreeAt (paths : List String) (doc doc' : Json) : Prop :=
  ∀ path ∈ paths, ∀ p, ContextPath.parse path = .ok p → p.read doc = p.read doc'

/-- The truth of a condition is in the values at its variables. -/
theorem trueOf_congr {doc doc' : Json} {condition : Condition} (hproper : condition.Proper)
    (h : AgreeAt (conditionVariables condition) doc doc') :
    condition.TrueOf doc ↔ condition.TrueOf doc' := by
  have hinside : ∀ {rules : List ChoiceRule}, AgreeAt (rulesVariables rules) doc doc' →
      ∀ rule ∈ rules, AgreeAt (conditionVariables rule.condition) doc doc' :=
    fun h rule hrule path hpath ↦ h path (mem_rulesVariables_iff.mpr ⟨rule, hrule, hpath⟩)
  induction hproper with
  | all _ _ _ ih =>
    rw [trueOf_all_iff, trueOf_all_iff]
    exact forall₂_congr fun rule hrule ↦ ih rule hrule (hinside h rule hrule)
  | any _ _ _ ih =>
    rw [trueOf_any_iff, trueOf_any_iff]
    exact exists_congr fun rule ↦ and_congr_right fun hrule ↦
      ih rule hrule (hinside h rule hrule)
  | @negate rule _ _ ih =>
    rw [trueOf_negate_iff, trueOf_negate_iff]
    obtain ⟨condition, next⟩ := rule
    exact not_congr (ih h)
  | @compare path comparator _ =>
    rw [trueOf_compare_iff, trueOf_compare_iff]
    refine exists_congr fun p ↦ and_congr_right fun hp ↦ ?_
    rw [h path (List.mem_singleton_self path) p hp]

/-! ## Choosing -/

/-- The target of the first rule that is true of the document, or the fallback if none is. -/
inductive Selects (doc : Json) (fallback : Option String) (rules : List ChoiceRule) :
    Option String → Prop
  | rule {before after : List ChoiceRule} {rule : ChoiceRule} {name : String}
    (split : rules = before ++ rule :: after)
    (earlier : ∀ other ∈ before, ¬other.condition.TrueOf doc) (holds : rule.condition.TrueOf doc)
    (next : rule.next = some name) : Selects doc fallback rules (some name)
  | fallback (none : ∀ rule ∈ rules, ¬rule.condition.TrueOf doc) :
    Selects doc fallback rules fallback

theorem exists_selects {doc : Json} {fallback : Option String} {rules : List ChoiceRule}
    (hnext : ∀ rule ∈ rules, rule.next ≠ none)
    (h : ∀ rule ∈ rules, Evaluates (rule.holds doc) (rule.condition.TrueOf doc)) :
    ∃ target, chooseAmong doc fallback rules = .ok target ∧
      Selects doc fallback rules target := by
  induction rules with
  | nil => exact ⟨fallback, rfl, .fallback (List.forall_mem_nil _)⟩
  | cons rule rules ih =>
    obtain ⟨hfirst, hrest⟩ := List.forall_mem_cons.mp h
    obtain ⟨hfirstNext, hrestNext⟩ := List.forall_mem_cons.mp hnext
    rw [chooseAmong]
    rcases hfirst with ⟨htrue, heval⟩ | ⟨hfalse, heval⟩
    · obtain ⟨name, hname⟩ := Option.ne_none_iff_exists'.mp hfirstNext
      rw [heval]
      refine ⟨rule.next, rfl, ?_⟩
      rw [hname]
      have hsplit : rule :: rules = [] ++ rule :: rules := rfl
      exact .rule hsplit (List.forall_mem_nil _) htrue hname
    · obtain ⟨target, htarget, hselects⟩ := ih hrestNext hrest
      rw [heval]
      refine ⟨target, htarget, ?_⟩
      cases hselects with
      | @rule before after other name hsplit hearlier hholds hname =>
        have hlonger : rule :: rules = (rule :: before) ++ other :: after :=
          congrArg (rule :: ·) hsplit
        exact .rule hlonger (List.forall_mem_cons.mpr ⟨hfalse, hearlier⟩) hholds hname
      | fallback hnone => exact .fallback (List.forall_mem_cons.mpr ⟨hfalse, hnone⟩)

/-- Rules that lead to the same targets and have the same answers come to the same. -/
theorem chooseAmong_congr {doc doc' : Json} {fallback : Option String}
    {rules rules' : List ChoiceRule} (h : List.Forall₂ (fun rule rule' : ChoiceRule ↦
      rule'.next = rule.next ∧ rule'.holds doc' = rule.holds doc) rules rules') :
    chooseAmong doc' fallback rules' = chooseAmong doc fallback rules := by
  induction h with
  | nil => rfl
  | cons hrule _ ih => rw [chooseAmong, chooseAmong, hrule.1, hrule.2, ih]

/-- **Choosing is plain logic.** A choice of a valid machine always selects a target: that of the
first rule that is true of the document, or the fallback if none is. Every rule is evaluated to
whether it is true, never to an error. Of a missing value only the comparison holds that it is not
there, and of a value that is there none holds that is for another type. The target stays the same
when the conditions are rewritten, and for two documents that agree at all variables. -/
theorem ChoiceState.choose_selects {m : Machine} (hm : m.check = .ok ()) {c : ChoiceState}
    (hc : m.Contains (.choice c)) :
    (∀ doc, ∃ target, c.choose doc = .ok target ∧ Selects doc c.fallback c.choices target) ∧
      (∀ doc, ∀ rule ∈ c.choices, Evaluates (rule.holds doc) (rule.condition.TrueOf doc)) ∧
      (∀ comparator : Comparator,
        (comparator.holds none = true ↔ comparator = .isPresent false) ∧
        ∀ v, comparator.holds (some v) = true → comparator.IsFor v) ∧
      (∀ d : ChoiceState, c.Rewrites d → ∀ doc, d.choose doc = c.choose doc) ∧
      ∀ doc doc', AgreeAt (rulesVariables c.choices) doc doc' → c.choose doc = c.choose doc' := by
  have hvalid : m.Valid := (Machine.check_eq_ok_iff m).mp hm
  obtain ⟨hnext, hproper⟩ : (∀ rule ∈ c.choices, rule.next ≠ none) ∧
      ∀ rule ∈ c.choices, rule.condition.Proper := by
    cases hvalid.proper_of_contains hc with
    | choice _ hnext hproper => exact ⟨hnext, hproper⟩
  have hevaluates : ∀ doc, ∀ rule ∈ c.choices,
      Evaluates (rule.holds doc) (rule.condition.TrueOf doc) := fun doc rule hrule ↦ by
    rw [rule.holds_eq]
    exact (hproper rule hrule).evaluates doc
  refine ⟨fun doc ↦ exists_selects hnext (hevaluates doc), hevaluates,
    fun comparator ↦ ⟨comparator.holds_none_iff, fun v ↦ comparator.isFor_of_holds⟩, ?_, ?_⟩
  · intro d hd doc
    rw [choose, choose, hd.fallback]
    refine chooseAmong_congr (((List.forall₂_and_left _ _).mpr ⟨hproper, hd.choices⟩).imp ?_)
    rintro rule rule' ⟨hrule, hsame, hrewrites⟩
    refine ⟨hsame, ?_⟩
    rw [rule.holds_eq, rule'.holds_eq]
    exact ((hrewrites.proper_iff.mp hrule).evaluates doc).eq_of_iff (hrule.evaluates doc)
      (hrewrites.trueOf_iff doc).symm
  · intro doc doc' hagree
    refine chooseAmong_congr (List.forall₂_same.mpr fun rule hrule ↦ ⟨rfl, ?_⟩)
    have hvariables : AgreeAt (conditionVariables rule.condition) doc doc' := fun path hpath ↦
      hagree path (mem_rulesVariables_iff.mpr ⟨rule, hrule, hpath⟩)
    exact (hevaluates doc rule hrule).eq_of_iff (hevaluates doc' rule hrule)
      (trueOf_congr (hproper rule hrule) hvariables)

/-! ## A choice in a branch -/

/-- Shut unless `n` is below three and `s` is there. -/
def gate : ChoiceState where
  choices := [{
    condition := .negate { condition := .all [
      { condition := .compare "$.n" (.numericLessThan 3) },
      { condition := .compare "$.s" (.isPresent true) }] }
    next := some "Shut" }]
  fallback := some "Open"

/-- The same, told the other way round. -/
def gateApart : ChoiceState where
  choices := [{
    condition := .any [
      { condition := .negate { condition := .compare "$.s" (.isPresent true) } },
      { condition := .negate { condition := .compare "$.n" (.numericLessThan 3) } }]
    next := some "Shut" }]
  fallback := some "Open"

def gateBranch : Machine where
  startAt := "Gate"
  states := [("Gate", .choice gate), ("Open", .succeed none), ("Shut", .succeed none)]

/-- A machine with the gate in its only branch. -/
def gatedFork : Machine where
  startAt := "Fork"
  states := [("Fork", .parallel [gateBranch] { transition := { ending := some true } })]

theorem gate_rewrites : gate.Rewrites gateApart where
  fallback := rfl
  choices := .cons ⟨rfl, (Condition.Rewrites.notAll _).trans (.permAny (.swap _ _ []))⟩ .nil

theorem ChoiceState.choose_selects_gate :
    gatedFork.check = .ok () ∧ gatedFork.Contains (.choice gate) ∧
      (∃ target, gate.choose (.object [("n", .ofNat 2)]) = .ok target ∧
        Selects (.object [("n", .ofNat 2)]) (some "Open") gate.choices target) ∧
      gateApart.choose (.object [("n", .ofNat 2)]) = .ok (some "Shut") ∧
      (∀ doc, gateApart.choose doc = gate.choose doc) ∧
      gate.choose (.object [("n", .ofNat 2), ("s", .null)])
        = gate.choose (.object [("m", .null), ("n", .ofNat 2), ("s", .null)]) := by
  have hcheck : gatedFork.check = .ok () := by rfl
  have hcontains : gatedFork.Contains (.choice gate) :=
    .inside (.head _) (.head _) (.here (.head _))
  obtain ⟨hselects, -, -, hrewrites, hagree⟩ := choose_selects hcheck hcontains
  refine ⟨hcheck, hcontains, hselects _, by rfl, hrewrites gateApart gate_rewrites, ?_⟩
  refine hagree _ _ fun path hpath p hp ↦ ?_
  have hpaths : path = "$.n" ∨ path = "$.s" := by
    simpa [gate, rulesVariables, ChoiceRule.variables, conditionVariables] using hpath
  rcases hpaths with rfl | rfl
  · cases hp
    rfl
  · cases hp
    rfl

end Workflow
