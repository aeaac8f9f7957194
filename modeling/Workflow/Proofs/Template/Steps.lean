import Mathlib.Data.List.Forall2
import Workflow.Proofs.Template.Distinct

/-!
# What each kind of node becomes

For each kind of node one statement says exactly when it has an expansion in a place with given
bindings, and which one, in terms of what the nodes inside it become. Later proofs go along
`Annotated.rec'` and use these statements; none of them has to follow the recursion through lists.

The entries of a mapping are collected under their new names. When these are distinct it does not
matter that they are checked and put in one after the other.
-/

namespace Workflow

/-! ## Lists item by item -/

/-- There is a list of images exactly if every item has an image. -/
theorem exists_forall₂_iff {α β : Type} {R : α → β → Prop} {xs : List α} :
    (∃ ys, List.Forall₂ R xs ys) ↔ ∀ x ∈ xs, ∃ y, R x y := by
  induction xs with
  | nil => simp
  | cons x xs ih =>
    rw [List.forall_mem_cons, ← ih]
    constructor
    · rintro ⟨_, hall⟩
      obtain ⟨y, ys, hy, hys, -⟩ := List.forall₂_cons_left_iff.mp hall
      exact ⟨⟨y, hy⟩, ys, hys⟩
    · rintro ⟨⟨y, hy⟩, ys, hys⟩
      exact ⟨y :: ys, .cons hy hys⟩

theorem exists_mem_of_forall₂ {α β : Type} {R : α → β → Prop} {xs : List α} {ys : List β}
    (h : List.Forall₂ R xs ys) {y : β} (hy : y ∈ ys) : ∃ x ∈ xs, R x y := by
  induction h with
  | nil => cases hy
  | cons hfirst _ ih =>
    rcases List.mem_cons.mp hy with rfl | hy
    · exact ⟨_, List.mem_cons_self, hfirst⟩
    · obtain ⟨x, hx, hrelated⟩ := ih hy
      exact ⟨x, List.mem_cons_of_mem _ hx, hrelated⟩

theorem mapM_eq_ok_iff_forall₂ {α β ε : Type} {f : α → Except ε β} {xs : List α} {ys : List β} :
    xs.mapM f = .ok ys ↔ List.Forall₂ (fun x y ↦ f x = .ok y) xs ys := by
  rw [mapM_eq_ok_iff, ← List.forall₂_eq_eq_eq, List.forall₂_map_left_iff,
    List.forall₂_map_right_iff]

namespace Annotated

/-- Induction over a definition, with the hypothesis for every node directly inside. -/
@[elab_as_elim]
theorem rec' {motive : Annotated → Prop}
    (mapping : ∀ entries, (∀ e ∈ entries, motive e.2) → motive (.mapping entries))
    (sequence : ∀ items, (∀ node ∈ items, motive node) → motive (.sequence items))
    (text : ∀ s, motive (.text s))
    (handler : ∀ h, motive (.handler h))
    (replicate : ∀ token pool node, motive node → motive (.replicate token pool node))
    (scalar : ∀ s, motive (.scalar s)) : ∀ node, motive node
  | .mapping entries => mapping entries fun e he ↦
    have : sizeOf e.2 < sizeOf entries := Entries.sizeOf_snd_lt_of_mem he
    rec' mapping sequence text handler replicate scalar e.2
  | .sequence items => sequence items fun node _ ↦
    rec' mapping sequence text handler replicate scalar node
  | .text s => text s
  | .handler h => handler h
  | .replicate token pool node => replicate token pool node
    (rec' mapping sequence text handler replicate scalar node)
  | .scalar s => scalar s

/-! ## Mappings -/

/-- An entry and what it becomes: the name is rewritten and the node expanded. -/
def Becomes (b : Bindings) (e : String × Annotated) (e' : String × Concrete) : Prop :=
  e'.1 = b.apply e.1 ∧ expandIn b e.2 = .ok e'.2

theorem names_of_becomes {b : Bindings} {entries : List (String × Annotated)}
    {added : Entries Concrete} (h : List.Forall₂ (Becomes b) entries added) :
    Entries.names added = (Entries.names entries).map b.apply := by
  induction h with
  | nil => rfl
  | cons hfirst _ ih =>
    rw [Entries.names, List.map_cons, ← Entries.names, ih, hfirst.1]
    rfl

theorem expandEntries_eq_ok_iff {entries : List (String × Annotated)} {b : Bindings}
    {done es : Entries Concrete} :
    expandEntries entries b done = .ok es ↔
      ∃ added, List.Forall₂ (Becomes b) entries added ∧ (Entries.names added).Nodup ∧
        (∀ n ∈ Entries.names added, n ∉ Entries.names done) ∧ es = Entries.enter added done := by
  induction entries generalizing done with
  | nil =>
    rw [expandEntries, Except.ok.injEq]
    constructor
    · rintro rfl
      exact ⟨[], .nil, .nil, by simp [Entries.names], rfl⟩
    · rintro ⟨_, hall, -, -, rfl⟩
      rw [List.forall₂_nil_left_iff.mp hall]
      rfl
  | cons e entries ih =>
    obtain ⟨name, node⟩ := e
    constructor
    · intro h
      obtain ⟨r, hr, hnew, hrest⟩ := expandEntries_cons_eq_ok h
      obtain ⟨added, hall, hnodup, hdisjoint, rfl⟩ := ih.mp hrest
      -- the names that are still to come are neither the new one nor one of those before it
      have hapart : ∀ n ∈ Entries.names added, n ≠ b.apply name ∧ n ∉ Entries.names done :=
        fun n hn ↦ not_or.mp (mt Entries.mem_names_insert.mpr (hdisjoint n hn))
      have hfirst : b.apply name ∉ Entries.names done := by
        rw [← Entries.has_iff, hnew]
        exact Bool.false_ne_true
      refine ⟨(b.apply name, r.node) :: added, .cons ⟨rfl, map_eq_ok_iff.mpr ⟨r, hr, rfl⟩⟩ hall,
        List.nodup_cons.mpr ⟨fun hmem ↦ (hapart _ hmem).1 rfl, hnodup⟩, ?_, rfl⟩
      exact List.forall_mem_cons.mpr ⟨hfirst, fun n hn ↦ (hapart n hn).2⟩
    · rintro ⟨_, hall, hnodup, hdisjoint, rfl⟩
      obtain ⟨⟨key, c⟩, added, ⟨hkey, hc⟩, hrest, rfl⟩ := List.forall₂_cons_left_iff.mp hall
      obtain rfl : key = b.apply name := hkey
      obtain ⟨r, hr, rfl⟩ := map_eq_ok_iff.mp hc
      obtain ⟨hfirst, hnodup⟩ := List.nodup_cons.mp hnodup
      obtain ⟨hnew, hdisjoint⟩ := List.forall_mem_cons.mp hdisjoint
      rw [expandEntries, hr]
      dsimp only
      rw [if_neg (mt (Entries.has_iff _ _).mp hnew), ih]
      refine ⟨added, hrest, hnodup, fun n hn hmem ↦ ?_, rfl⟩
      rcases Entries.mem_names_insert.mp hmem with rfl | hmem
      · exact hfirst hn
      · exact hdisjoint n hn hmem

/-- **Mappings.** A mapping becomes the collection of what its entries become, if their new names
are distinct. -/
theorem expanded_mapping_eq_ok_iff {entries : List (String × Annotated)} {b : Bindings}
    {r : Expanded} :
    expanded (.mapping entries) b = .ok r ↔
      ∃ added, List.Forall₂ (Becomes b) entries added ∧ (Entries.names added).Nodup ∧
        r = .one (.mapping (Entries.collect added)) := by
  rw [expanded, map_eq_ok_iff]
  constructor
  · rintro ⟨es, hes, rfl⟩
    obtain ⟨added, hall, hnodup, -, rfl⟩ := expandEntries_eq_ok_iff.mp hes
    exact ⟨added, hall, hnodup, rfl⟩
  · rintro ⟨added, hall, hnodup, rfl⟩
    exact ⟨_, expandEntries_eq_ok_iff.mpr ⟨added, hall, hnodup, by simp [Entries.names], rfl⟩, rfl⟩

/-! ## Sequences -/

theorem expandItems_eq_ok_iff {nodes : List Annotated} {b : Bindings} {cs : List Concrete} :
    expandItems nodes b = .ok cs ↔
      ∃ rs, List.Forall₂ (fun node r ↦ expanded node b = .ok r) nodes rs ∧
        cs = rs.flatMap Expanded.items := by
  induction nodes generalizing cs with
  | nil => simp [expandItems, eq_comm]
  | cons node nodes ih =>
    constructor
    · intro h
      obtain ⟨r, rest, hr, hrest, rfl⟩ := expandItems_cons_eq_ok h
      obtain ⟨rs, hall, rfl⟩ := ih.mp hrest
      exact ⟨r :: rs, .cons hr hall, rfl⟩
    · rintro ⟨_, hall, rfl⟩
      obtain ⟨r, rs, hr, hrest, rfl⟩ := List.forall₂_cons_left_iff.mp hall
      rw [expandItems, hr]
      exact map_eq_ok_iff.mpr ⟨_, ih.mpr ⟨rs, hrest, rfl⟩, rfl⟩

/-- **Sequences.** A sequence becomes the sequence of the items that its nodes become. -/
theorem expanded_sequence_eq_ok_iff {items : List Annotated} {b : Bindings} {r : Expanded} :
    expanded (.sequence items) b = .ok r ↔
      ∃ rs, List.Forall₂ (fun node r ↦ expanded node b = .ok r) items rs ∧
        r = .one (.sequence (rs.flatMap Expanded.items)) := by
  rw [expanded, map_eq_ok_iff]
  constructor
  · rintro ⟨cs, hcs, rfl⟩
    obtain ⟨rs, hall, rfl⟩ := expandItems_eq_ok_iff.mp hcs
    exact ⟨rs, hall, rfl⟩
  · rintro ⟨rs, hall, rfl⟩
    exact ⟨_, expandItems_eq_ok_iff.mpr ⟨rs, hall, rfl⟩, rfl⟩

/-! ## Handlers -/

theorem expanded_handler_eq_ok_iff {h : Handler} {b : Bindings} {r : Expanded} :
    expanded (.handler h) b = .ok r ↔
      (h.acceptsBranch = true ∨ b = []) ∧
        r = .one (.handler (if b.isEmpty then h else .bound h b.branchIndex)) := by
  rw [expanded, map_eq_ok_iff]
  constructor
  · rintro ⟨c, hc, rfl⟩
    refine ⟨?_, by rw [bindHandler_eq_ok hc]⟩
    unfold bindHandler at hc
    split at hc
    · next hempty => exact .inr (List.isEmpty_iff.mp hempty)
    · split at hc
      · next haccepts => exact .inl haccepts
      · cases hc
  · rintro ⟨hfits, rfl⟩
    refine ⟨_, ?_, rfl⟩
    rw [bindHandler]
    by_cases hempty : b.isEmpty = true
    · rw [if_pos hempty, if_pos hempty]
    · have haccepts := hfits.resolve_right (mt List.isEmpty_iff.mpr hempty)
      rw [if_neg hempty, if_neg hempty, if_pos haccepts]

/-! ## Replications -/

theorem checkReplication_eq_ok_iff {token : String} {pool : Int64} {b : Bindings} :
    checkReplication token pool b = .ok () ↔
      token ≠ "" ∧ 0 ≤ pool.toInt ∧ token ∉ b.map Prod.fst := by
  rw [checkReplication, ← Bindings.binds_iff]
  by_cases htoken : token = ""
  · simp [htoken]
  by_cases hpool : pool.toInt < 0
  · simp [htoken, hpool, Int.not_le.mpr hpool]
  · by_cases hbinds : b.binds token = true
    · simp [htoken, hpool, hbinds]
    · simp [htoken, hpool, hbinds, Int.not_lt.mp hpool]

/-- **Replications.** A replication that has its place becomes one copy for each index below its
size. -/
theorem expanded_replicate_eq_ok_iff {token : String} {pool : Int64} {node : Annotated}
    {b : Bindings} {r : Expanded} :
    expanded (.replicate token pool node) b = .ok r ↔
      (token ≠ "" ∧ 0 ≤ pool.toInt ∧ token ∉ b.map Prod.fst) ∧
        ∃ cs, List.Forall₂ (fun i c ↦ expandIn (b.extended token i) node = .ok c)
          (List.range pool.toInt.toNat) cs ∧ r = .copies cs := by
  rw [expanded, ← checkReplication_eq_ok_iff]
  split
  · next e he => simp [he]
  · next hcheck =>
    rw [map_eq_ok_iff]
    simp only [hcheck, true_and, mapM_eq_ok_iff_forall₂]
    constructor
    · rintro ⟨cs, hcs, rfl⟩
      exact ⟨cs, hcs, rfl⟩
    · rintro ⟨cs, hcs, rfl⟩
      exact ⟨cs, hcs, rfl⟩

end Annotated

end Workflow
