import Workflow.Entries

/-!
# Mappings with distinct names

When no name occurs twice, the order of a mapping does not matter to what is in it: an entry is
found under its name wherever it stands, and a new entry may be thought of as the first one.
-/

namespace Workflow

namespace Entries

universe u v

variable {α : Type u} {β : Type v}

theorem mem_of_find? {name : String} {a : α} {es : Entries α} (h : find? name es = some a) :
    (name, a) ∈ es := by
  induction es with
  | nil => simp at h
  | cons e es ih =>
    obtain ⟨n, b⟩ := e
    rw [find?_cons] at h
    split at h
    · rename_i hn
      rw [hn, Option.some.inj h]
      exact List.mem_cons_self
    · exact List.mem_cons_of_mem _ (ih h)

theorem mem_names_of_mem {name : String} {a : α} {es : Entries α} (h : (name, a) ∈ es) :
    name ∈ names es :=
  List.mem_map.mpr ⟨_, h, rfl⟩

theorem sizeOf_snd_lt_of_mem [SizeOf α] {e : String × α} {es : Entries α} (h : e ∈ es) :
    sizeOf e.2 < sizeOf es := by
  have hentry : sizeOf e = 1 + sizeOf e.1 + sizeOf e.2 := rfl
  have hmem := List.sizeOf_lt_of_mem h
  omega

theorem find?_eq_none_of_notMem {name : String} {es : Entries α} (h : name ∉ names es) :
    find? name es = none := by
  rw [← has_iff, has, Bool.not_eq_true, Option.isSome_eq_false_iff, Option.isNone_iff_eq_none] at h
  exact h

theorem find?_eq_some_iff {es : Entries α} (hes : (names es).Nodup) {name : String} {a : α} :
    find? name es = some a ↔ (name, a) ∈ es := by
  refine ⟨mem_of_find?, fun h ↦ ?_⟩
  induction es with
  | nil => simp at h
  | cons e es ih =>
    obtain ⟨n, b⟩ := e
    obtain ⟨hnotMem, hes⟩ := List.nodup_cons.mp hes
    rw [find?_cons]
    rcases List.mem_cons.mp h with h | h
    · obtain ⟨rfl, rfl⟩ := Prod.mk.inj h
      rw [if_pos rfl]
    · rw [if_neg fun (hn : n = name) ↦ hnotMem (hn ▸ mem_names_of_mem h), ih hes h]

/-! ## The last of several -/

/-- Of what is put into a table one after the other, looking up a key finds the last that has it. -/
theorem lookup_foldl {τ κ α β : Type} [DecidableEq κ] (lookup : τ → κ → Option β)
    {put : τ → α → τ} {key : α → κ} {value : α → β}
    (hself : ∀ t a, lookup (put t a) (key a) = some (value a))
    (hne : ∀ t a k, k ≠ key a → lookup (put t a) k = lookup t k) (xs : List α) (t : τ) (k : κ) :
    lookup (xs.foldl put t) k
      = ((xs.reverse.find? fun a ↦ key a = k).map value).or (lookup t k) := by
  induction xs generalizing t with
  | nil => rfl
  | cons a xs ih =>
    rw [List.foldl_cons, ih, List.reverse_cons, List.find?_append, Option.map_or, Option.or_assoc]
    congr 1
    by_cases h : key a = k
    · rw [← h, hself]
      simp
    · rw [hne t a k (Ne.symm h)]
      simp [h]

/-! ## Insertion -/

theorem has_of_find? {name : String} {a : α} {es : Entries α} (h : find? name es = some a) :
    has name es = true := by
  rw [has, h, Option.isSome_some]

/-- Putting an entry where it already stands changes nothing. -/
theorem insert_of_find? {name : String} {a : α} {es : Entries α} (h : find? name es = some a) :
    insert name a es = es := by
  have hreplace : replace name a es = es := by
    induction es with
    | nil => rfl
    | cons e es ih =>
      obtain ⟨n, b⟩ := e
      rw [find?_cons] at h
      rw [replace]
      split at h
      · rename_i hn
        rw [if_pos hn, Option.some.inj h]
      · rename_i hn
        rw [if_neg hn, ih h]
  rw [insert, has_of_find? h, if_pos rfl, hreplace]

theorem replace_replace (name : String) (a b : α) (es : Entries α) :
    replace name b (replace name a es) = replace name b es := by
  induction es with
  | nil => rfl
  | cons e es ih =>
    obtain ⟨n, c⟩ := e
    by_cases hn : n = name
    · simp only [replace, if_pos hn]
    · simp only [replace, if_neg hn, ih]

theorem replace_place {name : String} {es : Entries α} (h : has name es = false) (a b : α) :
    replace name b (place name a es) = place name b es := by
  induction es with
  | nil => rw [place, place, replace, if_pos rfl]
  | cons e es ih =>
    obtain ⟨n, c⟩ := e
    have hn : n ≠ name := by
      rintro rfl
      rw [has, find?_cons, if_pos rfl] at h
      cases h
    have hes : has name es = false := by
      rw [has, find?_cons, if_neg hn] at h
      exact h
    by_cases hlt : name < n
    · rw [place, if_pos hlt, place, if_pos hlt, replace, if_pos rfl]
    · rw [place, if_neg hlt, place, if_neg hlt, replace, if_neg hn, ih hes]

/-- Of two entries put under one name the second counts. -/
theorem insert_insert (name : String) (a b : α) (es : Entries α) :
    insert name b (insert name a es) = insert name b es := by
  rw [insert, has_of_find? (find?_insert_self name a es), if_pos rfl, insert, insert]
  cases h : has name es with
  | true => exact replace_replace name a b es
  | false => exact replace_place h a b

theorem perm_place (name : String) (a : α) (es : Entries α) :
    (place name a es).Perm ((name, a) :: es) := by
  induction es with
  | nil => exact .refl _
  | cons e es ih =>
    obtain ⟨n, b⟩ := e
    rw [place]
    split
    · exact .refl _
    · exact (ih.cons _).trans (.swap _ _ _)

theorem perm_insert {name : String} {es : Entries α} (h : has name es = false) (a : α) :
    (insert name a es).Perm ((name, a) :: es) := by
  rw [insert, h]
  exact perm_place name a es

theorem nodup_names_insert {name : String} {es : Entries α} (hes : (names es).Nodup)
    (h : has name es = false) (a : α) : (names (insert name a es)).Nodup := by
  have hnotMem : name ∉ names es := by
    rw [← has_iff, h]
    decide
  have hperm : (names (insert name a es)).Perm (name :: names es) := (perm_insert h a).map Prod.fst
  exact hperm.nodup_iff.mpr (List.nodup_cons.mpr ⟨hnotMem, hes⟩)

theorem mem_names_insert {n name : String} {a : α} {es : Entries α} :
    n ∈ names (insert name a es) ↔ n = name ∨ n ∈ names es := by
  by_cases hn : n = name
  · rw [← has_iff, has, hn, find?_insert_self]
    simp
  · rw [← has_iff, ← has_iff, has, has, find?_insert_of_ne a es hn]
    simp [hn]

/-- `added` inserted into `done`, one entry after the other. Into nothing, it is collected. -/
def enter (added done : Entries α) : Entries α :=
  added.foldl (fun acc e ↦ insert e.1 e.2 acc) done

theorem enter_cons (e : String × α) (added done : Entries α) :
    enter (e :: added) done = enter added (insert e.1 e.2 done) := rfl

theorem mem_of_mem_replace {e : String × α} {name : String} {a : α} {es : Entries α}
    (h : e ∈ replace name a es) : e = (name, a) ∨ e ∈ es := by
  induction es with
  | nil => exact .inr h
  | cons f es ih =>
    obtain ⟨n, b⟩ := f
    rw [replace] at h
    split at h
    · next hn =>
      rw [hn] at h
      exact (List.mem_cons.mp h).imp_right (List.mem_cons_of_mem _)
    · rcases List.mem_cons.mp h with rfl | hmem
      · exact .inr List.mem_cons_self
      · exact (ih hmem).imp_right (List.mem_cons_of_mem _)

theorem mem_of_mem_insert {e : String × α} {name : String} {a : α} {es : Entries α}
    (h : e ∈ insert name a es) : e = (name, a) ∨ e ∈ es := by
  rw [insert] at h
  split at h
  · exact mem_of_mem_replace h
  · exact List.mem_cons.mp ((perm_place name a es).mem_iff.mp h)

theorem mem_of_mem_enter {e : String × α} {added done : Entries α} (h : e ∈ enter added done) :
    e ∈ added ∨ e ∈ done := by
  induction added generalizing done with
  | nil => exact .inr h
  | cons f added ih =>
    rw [enter_cons] at h
    rcases ih h with hadded | hinsert
    · exact .inl (List.mem_cons_of_mem f hadded)
    · rcases mem_of_mem_insert hinsert with rfl | hdone
      · exact .inl List.mem_cons_self
      · exact .inr hdone

/-- Nothing is collected that was not among the entries. -/
theorem mem_of_mem_collect {e : String × α} {es : Entries α} (h : e ∈ collect es) : e ∈ es := by
  have hmem : e ∈ enter es [] := h
  exact (mem_of_mem_enter hmem).resolve_right List.not_mem_nil

/-- Entries that have new and distinct names are all there afterwards, and nothing is lost. -/
theorem perm_enter {added done : Entries α} (hnodup : (names added).Nodup)
    (hnew : ∀ n ∈ names added, n ∉ names done) : (enter added done).Perm (added ++ done) := by
  induction added generalizing done with
  | nil => exact .refl _
  | cons e added ih =>
    obtain ⟨hfirst, hnodup⟩ := List.nodup_cons.mp hnodup
    obtain ⟨hfresh, hnew⟩ := List.forall_mem_cons.mp hnew
    have hhas : has e.1 done = false := by
      rw [← Bool.not_eq_true, has_iff]
      exact hfresh
    have hapart : ∀ n ∈ names added, n ∉ names (insert e.1 e.2 done) := by
      intro n hn hmem
      rcases mem_names_insert.mp hmem with rfl | hmem
      · exact hfirst hn
      · exact hnew n hn hmem
    rw [enter_cons, List.cons_append]
    refine (ih hnodup hapart).trans (.trans ?_ List.perm_middle)
    exact (perm_insert hhas e.2).append_left added

theorem perm_collect {es : Entries α} (h : (names es).Nodup) : (collect es).Perm es := by
  have hperm : (enter es []).Perm (es ++ []) := perm_enter h (by simp [names])
  rw [List.append_nil] at hperm
  exact hperm

/-- Collecting entries with distinct names changes their order only. -/
theorem find?_collect {es : Entries α} (hes : (names es).Nodup) (name : String) :
    find? name (collect es) = find? name es := by
  -- an entry that is collected later stands in front of one collected before
  have key : ∀ acc : Entries α, find? name (es.foldl (fun acc e ↦ insert e.1 e.2 acc) acc)
      = (find? name es).or (find? name acc) := by
    induction es with
    | nil => exact fun _ ↦ rfl
    | cons e es ih =>
      obtain ⟨n, a⟩ := e
      obtain ⟨hnotMem, hes⟩ := List.nodup_cons.mp hes
      intro acc
      rw [List.foldl_cons, ih hes, find?_cons]
      by_cases hn : n = name
      · rw [← hn, find?_eq_none_of_notMem hnotMem, find?_insert_self, if_pos rfl]
        rfl
      · rw [find?_insert_of_ne _ _ (Ne.symm hn), if_neg hn]
  rw [collect, key, find?_nil, Option.or_none]

end Entries

end Workflow
