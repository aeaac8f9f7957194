import Workflow.Text.Substitute

/-!
# What occurs after a replacement

A replacement puts values into a text. What has no character in common with the value lies between
two of them when it occurs in the result, and there the text is as it was: it occurred before
(`infix_of_infix_substituteAll`). The pattern itself, when it has nothing of the value either, is
gone, since at each character that was kept it was looked for (`not_infix_substituteFrom`).

Both rest on what can stand at the front of the result (`prefix_of_prefix_substituteFrom`): from
there on a character that is not of the value is the character of the text at the same place.
-/

namespace Workflow

theorem Text.toList_substitute (token value s : String) :
    (substitute token value s).toList = substituteAll token.toList value.toList s.toList :=
  String.toList_ofList

variable {pattern value token : List Char}

/-- Two texts without a common character. -/
def Apart (token value : List Char) : Prop := ∀ x ∈ token, x ∉ value

theorem isSome_afterPattern?_iff {cs : List Char} :
    (afterPattern? pattern cs).isSome = true ↔ pattern <+: cs := by
  rw [Option.isSome_iff_exists]
  constructor
  · rintro ⟨rest, hrest⟩
    rw [afterPattern?_eq_some_iff.mp hrest]
    exact List.prefix_append pattern rest
  · rintro ⟨rest, rfl⟩
    exact ⟨rest, afterPattern?_eq_some_iff.mpr rfl⟩

/-! ## Steps of a replacement -/

/-- What is passed over is not looked at. -/
theorem substituteFrom_skip (pattern value cs : List Char) (skip : Nat) :
    substituteFrom pattern value skip cs = substituteFrom pattern value 0 (cs.drop skip) := by
  induction cs generalizing skip with
  | nil => rw [List.drop_nil]; rfl
  | cons c cs ih =>
    cases skip with
    | zero => rw [List.drop_zero]
    | succ skip => rw [substituteFrom, List.drop_succ_cons, ih]

theorem substituteFrom_pattern_append (hne : pattern ≠ []) (value cs : List Char) :
    substituteFrom pattern value 0 (pattern ++ cs)
      = value ++ substituteFrom pattern value 0 cs := by
  obtain ⟨c, rest, rfl⟩ := List.exists_cons_of_ne_nil hne
  have hprefix : (afterPattern? (c :: rest) (c :: (rest ++ cs))).isSome = true :=
    isSome_afterPattern?_iff.mpr (List.prefix_append (c :: rest) cs)
  rw [List.cons_append, substituteFrom, if_pos hprefix, substituteFrom_skip, List.length_cons,
    Nat.add_sub_cancel, List.drop_left]

theorem substituteFrom_cons_kept {c : Char} {cs : List Char}
    (h : ¬pattern <+: c :: cs) (value : List Char) :
    substituteFrom pattern value 0 (c :: cs) = c :: substituteFrom pattern value 0 cs := by
  rw [substituteFrom, if_neg (mt isSome_afterPattern?_iff.mp h)]

/-- Either the front of the text is replaced, or its first character is kept and the pattern does
not stand there. -/
theorem substituteFrom_cons (pattern value : List Char) (c : Char) (cs : List Char) :
    substituteFrom pattern value 0 (c :: cs)
        = value ++ substituteFrom pattern value (pattern.length - 1) cs ∨
      ¬pattern <+: c :: cs ∧
        substituteFrom pattern value 0 (c :: cs) = c :: substituteFrom pattern value 0 cs := by
  by_cases h : pattern <+: c :: cs
  · rw [substituteFrom, if_pos (isSome_afterPattern?_iff.mpr h)]
    exact .inl rfl
  · exact .inr ⟨h, substituteFrom_cons_kept h value⟩

/-! ## Behind a value -/

/-- Nothing apart from a value stands where the value stands. -/
theorem eq_nil_of_prefix_append {cs : List Char} (hapart : Apart token value) (hvalue : value ≠ [])
    (h : token <+: value ++ cs) : token = [] := by
  rcases token with _ | ⟨x, token⟩
  · rfl
  · obtain ⟨v, value, rfl⟩ := List.exists_cons_of_ne_nil hvalue
    rw [List.cons_append, List.cons_prefix_cons] at h
    have hmem : x ∈ v :: value := by
      rw [h.1]
      exact List.mem_cons_self
    exact absurd hmem (hapart x List.mem_cons_self)

/-- What occurs in a text with a value in front, and is apart from the value, occurs behind it. -/
theorem infix_of_infix_append {cs : List Char} (hapart : Apart token value) (hne : token ≠ [])
    (h : token <:+: value ++ cs) : token <:+: cs := by
  induction value with
  | nil => exact h
  | cons v value ih =>
    rcases List.infix_cons_iff.mp h with hprefix | hinfix
    · exact absurd (eq_nil_of_prefix_append hapart (List.cons_ne_nil v value) hprefix) hne
    · exact ih (fun x hx hmem ↦ hapart x hx (List.mem_cons_of_mem v hmem)) hinfix

/-! ## The front of the result -/

theorem prefix_of_prefix_substituteFrom {cs : List Char} (hapart : Apart token value)
    (hvalue : value ≠ []) (h : token <+: substituteFrom pattern value 0 cs) : token <+: cs := by
  induction token generalizing cs with
  | nil => exact List.nil_prefix
  | cons x token ih =>
    rcases cs with _ | ⟨c, cs⟩
    · exact h
    · rw [substituteFrom] at h
      split at h
      · exact absurd (eq_nil_of_prefix_append hapart hvalue h) (List.cons_ne_nil x token)
      · obtain ⟨rfl, hrest⟩ := List.cons_prefix_cons.mp h
        have hapart' : Apart token value := fun y hy ↦ hapart y (List.mem_cons_of_mem x hy)
        exact List.cons_prefix_cons.mpr ⟨rfl, ih hapart' hrest⟩

/-- What stands at the front of the result and is apart from the value stood there before. -/
theorem prefix_of_prefix_substituteAll {cs : List Char} (hapart : Apart token value)
    (hvalue : value ≠ []) (h : token <+: substituteAll pattern value cs) : token <+: cs := by
  rw [substituteAll] at h
  split at h
  · rw [eq_nil_of_prefix_append hapart hvalue h]
    exact List.nil_prefix
  · exact prefix_of_prefix_substituteFrom hapart hvalue h

/-! ## Occurrences in the result -/

theorem infix_of_infix_substituteFrom {cs : List Char} {skip : Nat} (hapart : Apart token value)
    (hvalue : value ≠ []) (hne : token ≠ []) (h : token <:+: substituteFrom pattern value skip cs) :
    token <:+: cs := by
  induction cs generalizing skip with
  | nil => exact h
  | cons c cs ih =>
    rcases skip with _ | skip
    · rcases substituteFrom_cons pattern value c cs with heq | ⟨-, heq⟩
      · rw [heq] at h
        exact List.infix_cons (ih (infix_of_infix_append hapart hne h))
      · have hsplit := h
        rw [heq] at hsplit
        rcases List.infix_cons_iff.mp hsplit with hprefix | hinfix
        · rw [← heq] at hprefix
          exact (prefix_of_prefix_substituteFrom hapart hvalue hprefix).isInfix
        · exact List.infix_cons (ih hinfix)
    · rw [substituteFrom] at h
      exact List.infix_cons (ih h)

theorem infix_of_infix_flatMap {cs : List Char} (hapart : Apart token value) (hvalue : value ≠ [])
    (hne : token ≠ []) (h : token <:+: cs.flatMap fun c ↦ c :: value) : token <:+: cs := by
  induction cs with
  | nil => exact h
  | cons c cs ih =>
    rw [List.flatMap_cons, List.cons_append] at h
    rcases List.infix_cons_iff.mp h with hprefix | hinfix
    · obtain ⟨x, token, rfl⟩ := List.exists_cons_of_ne_nil hne
      obtain ⟨rfl, hrest⟩ := List.cons_prefix_cons.mp hprefix
      have hapart' : Apart token value := fun y hy ↦ hapart y (List.mem_cons_of_mem x hy)
      -- a value follows at once, so there is nothing behind the one character
      rw [eq_nil_of_prefix_append hapart' hvalue hrest]
      exact (List.prefix_append [x] cs).isInfix
    · exact List.infix_cons (ih (infix_of_infix_append hapart hne hinfix))

/-- **What occurs after a replacement** and is apart from the value occurred before. -/
theorem infix_of_infix_substituteAll {cs : List Char} (hapart : Apart token value)
    (hvalue : value ≠ []) (hne : token ≠ []) (h : token <:+: substituteAll pattern value cs) :
    token <:+: cs := by
  rw [substituteAll] at h
  split at h
  · exact infix_of_infix_flatMap hapart hvalue hne (infix_of_infix_append hapart hne h)
  · exact infix_of_infix_substituteFrom hapart hvalue hne h

/-- **What was replaced** is gone, if it is apart from the value. -/
theorem not_infix_substituteFrom {cs : List Char} {skip : Nat} (hapart : Apart pattern value)
    (hvalue : value ≠ []) (hne : pattern ≠ []) :
    ¬pattern <:+: substituteFrom pattern value skip cs := by
  induction cs generalizing skip with
  | nil =>
    intro h
    exact hne (List.eq_nil_of_infix_nil h)
  | cons c cs ih =>
    intro h
    rcases skip with _ | skip
    · rcases substituteFrom_cons pattern value c cs with heq | ⟨hnone, heq⟩
      · rw [heq] at h
        exact ih (infix_of_infix_append hapart hne h)
      · rw [heq] at h
        rcases List.infix_cons_iff.mp h with hprefix | hinfix
        · rw [← heq] at hprefix
          exact hnone (prefix_of_prefix_substituteFrom hapart hvalue hprefix)
        · exact ih hinfix
    · rw [substituteFrom] at h
      exact ih h

theorem not_infix_substituteAll {cs : List Char} (hapart : Apart pattern value)
    (hvalue : value ≠ []) (hne : pattern ≠ []) : ¬pattern <:+: substituteAll pattern value cs := by
  rw [substituteAll, if_neg hne]
  exact not_infix_substituteFrom hapart hvalue hne

end Workflow
