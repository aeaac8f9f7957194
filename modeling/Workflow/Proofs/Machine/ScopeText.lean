import Mathlib.Data.List.Induction
import Workflow.Machine.Scope

/-!
# Scopes as texts

A scope is written as one text, and the names in it may be any text. Two chains of branches can
therefore have the same scope: a parallel state named `A[0]/B` stands in for a parallel state `B`
inside the first branch of `A`.

Names without a slash rule that out. The text then falls apart at its last slash into the scope
around it and the innermost step, and a step falls apart at its last opening bracket, because an
index has digits only. So brackets in names do no harm.
-/

namespace Workflow

/-! ## Last separators -/

/-- A list is cut in one way only at the last occurrence of a separator. -/
theorem append_cons_inj_of_notMem_right {α : Type} {x : α} {p q s t : List α} (hs : x ∉ s)
    (ht : x ∉ t) (h : p ++ x :: s = q ++ x :: t) : p = q ∧ s = t := by
  induction p generalizing q with
  | nil =>
    cases q with
    | nil => exact ⟨rfl, by simpa using h⟩
    | cons y q =>
      rw [List.nil_append, List.cons_append, List.cons.injEq] at h
      exact absurd (h.2 ▸ List.mem_append_right q List.mem_cons_self) hs
  | cons z p ih =>
    cases q with
    | nil =>
      rw [List.nil_append, List.cons_append, List.cons.injEq] at h
      exact absurd (h.2 ▸ List.mem_append_right p List.mem_cons_self) ht
    | cons y q =>
      rw [List.cons_append, List.cons_append, List.cons.injEq] at h
      obtain ⟨hp, hst⟩ := ih h.2
      exact ⟨by rw [h.1, hp], hst⟩

theorem wholeDigits_inj {m n : Nat} : wholeDigits m = wholeDigits n ↔ m = n := by
  refine ⟨fun h ↦ ?_, fun h ↦ by rw [h]⟩
  rw [← Nat.ofDigitChars_ten_toDigits (n := m), ← Nat.ofDigitChars_ten_toDigits (n := n)]
  exact congrArg (Nat.ofDigitChars 10 · 0) h

theorem isDigit_of_mem_wholeDigits {c : Char} {n : Nat} (h : c ∈ wholeDigits n) :
    c.isDigit = true :=
  Nat.isDigit_of_mem_toDigits (b := 10) (by decide) (by decide) h

namespace Scope

/-! ## What is inside a scope -/

/-- The text of something inside a scope: it stands behind a slash, except in the root. -/
def inside (scope : Scope) (last : List Char) : List Char :=
  if scope = root then last else scope.toList ++ '/' :: last

theorem inside_ne_nil {last : List Char} (h : last ≠ []) (scope : Scope) :
    inside scope last ≠ [] := by
  rw [inside]
  split
  · exact h
  · exact List.append_ne_nil_of_right_ne_nil _ (List.cons_ne_nil _ _)

/-- The text of something inside a scope, itself without a slash, determines both. -/
theorem inside_inj {scope scope' : Scope} {last last' : List Char} (h : '/' ∉ last)
    (h' : '/' ∉ last') :
    inside scope last = inside scope' last' ↔ scope = scope' ∧ last = last' := by
  refine ⟨fun htext ↦ ?_, fun ⟨hscope, hlast⟩ ↦ by rw [hscope, hlast]⟩
  rw [inside, inside] at htext
  -- what is in the root has no slash, and anything else has one
  split at htext <;> split at htext
  · next hroot hroot' => exact ⟨hroot.trans hroot'.symm, htext⟩
  · exact absurd (htext ▸ List.mem_append_right _ List.mem_cons_self) h
  · exact absurd (htext ▸ List.mem_append_right _ List.mem_cons_self) h'
  · obtain ⟨hscope, hlast⟩ := append_cons_inj_of_notMem_right h h' htext
    exact ⟨String.toList_inj.mp hscope, hlast⟩

theorem toList_position (scope : Scope) (state : String) :
    (position scope state).toList = inside scope state.toList := by
  rw [position, inside]
  split <;> simp [toString]

/-! ## Steps -/

/-- What a branch adds to the scope around it. -/
def stepText (state : String) (index : Nat) : List Char :=
  state.toList ++ '[' :: (wholeDigits index ++ [']'])

theorem toList_branch (parent : Scope) (state : String) (index : Nat) :
    (branch parent state index).toList = inside parent (stepText state index) := by
  rw [branch, inside]
  split <;> simp [stepText, toString]

theorem branch_ne_root (parent : Scope) (state : String) (index : Nat) :
    branch parent state index ≠ root := by
  intro h
  have hnil : (branch parent state index).toList = [] := by
    rw [h]
    rfl
  rw [toList_branch] at hnil
  refine inside_ne_nil ?_ parent hnil
  rw [stepText]
  exact List.append_ne_nil_of_right_ne_nil _ (List.cons_ne_nil _ _)

theorem stepText_inj {state state' : String} {index index' : Nat} :
    stepText state index = stepText state' index' ↔ state = state' ∧ index = index' := by
  refine ⟨fun h ↦ ?_, fun ⟨hs, hi⟩ ↦ by rw [hs, hi]⟩
  have hdigits : ∀ n, '[' ∉ wholeDigits n ++ [']'] := by
    intro n hmem
    rcases List.mem_append.mp hmem with hmem | hmem
    · exact absurd (isDigit_of_mem_wholeDigits hmem) (by decide)
    · simp at hmem
  obtain ⟨hstate, hindex⟩ := append_cons_inj_of_notMem_right (hdigits _) (hdigits _) h
  exact ⟨String.toList_inj.mp hstate, wholeDigits_inj.mp (List.append_cancel_right hindex)⟩

theorem slash_notMem_stepText {state : String} (h : '/' ∉ state.toList) (index : Nat) :
    '/' ∉ stepText state index := by
  intro hmem
  rcases List.mem_append.mp hmem with hmem | hmem
  · exact h hmem
  · have hdigit : '/' ∈ wholeDigits index := by simpa using hmem
    exact absurd (isDigit_of_mem_wholeDigits hdigit) (by decide)

/-! ## Chains -/

/-- No name on a chain has a slash. -/
def Unslashed (chain : List (String × Nat)) : Prop := ∀ link ∈ chain, '/' ∉ link.1.toList

theorem Unslashed.of_append {chain rest : List (String × Nat)} (h : Unslashed (chain ++ rest)) :
    Unslashed chain ∧ Unslashed rest :=
  ⟨fun link hlink ↦ h link (List.mem_append_left _ hlink),
    fun link hlink ↦ h link (List.mem_append_right _ hlink)⟩

theorem ofChain_eq_root_iff {chain : List (String × Nat)} : ofChain chain = root ↔ chain = [] := by
  induction chain using List.reverseRecOn with
  | nil => simp
  | append_singleton chain link _ =>
    rw [ofChain_append]
    simp [branch_ne_root]

/-- The text of a scope and one more step without a slash determines both. -/
private theorem branch_inj {parent parent' : Scope} {state state' : String} {index index' : Nat}
    (hs : '/' ∉ state.toList) (hs' : '/' ∉ state'.toList)
    (h : branch parent state index = branch parent' state' index') :
    parent = parent' ∧ state = state' ∧ index = index' := by
  rw [← String.toList_inj, toList_branch, toList_branch,
    inside_inj (slash_notMem_stepText hs index) (slash_notMem_stepText hs' index'),
    stepText_inj] at h
  exact h

/-- **Scopes of names without slashes.** The text of a scope tells the chain it belongs to. -/
theorem ofChain_inj {chain chain' : List (String × Nat)} (h : Unslashed chain)
    (h' : Unslashed chain') : ofChain chain = ofChain chain' ↔ chain = chain' := by
  refine ⟨fun heq ↦ ?_, fun heq ↦ by rw [heq]⟩
  -- the last step is taken off both chains
  induction chain using List.reverseRecOn generalizing chain' with
  | nil => exact (ofChain_eq_root_iff.mp heq.symm).symm
  | append_singleton chain link ih =>
    obtain ⟨state, index⟩ := link
    rcases List.eq_nil_or_concat chain' with rfl | ⟨chain', ⟨state', index'⟩, rfl⟩
    · exact ofChain_eq_root_iff.mp heq
    · rw [List.concat_eq_append] at h' heq ⊢
      rw [ofChain_append, ofChain_append] at heq
      obtain ⟨hparent, rfl, rfl⟩ := branch_inj (h.of_append.2 _ List.mem_cons_self)
        (h'.of_append.2 _ List.mem_cons_self) heq
      rw [ih h.of_append.1 h'.of_append.1 hparent]

end Scope

end Workflow
