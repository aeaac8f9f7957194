import Workflow.Proofs.Entries
import Workflow.Template.Expansion

/-!
# Expansions have distinct names

Rewritten names are checked against the names that are there already, and so no mapping of an
expansion has a name twice. A reader that looks an entry up by its name and one that goes through
all the entries see the same tree.
-/

namespace Workflow

/-! ## Results -/

theorem bind_eq_ok_iff {α β ε : Type} {x : Except ε α} {f : α → Except ε β} {b : β} :
    (x >>= f) = .ok b ↔ ∃ a, x = .ok a ∧ f a = .ok b := by
  cases x <;> simp [bind, Except.bind]

theorem map_eq_ok_iff {α β ε : Type} {x : Except ε α} {f : α → β} {b : β} :
    x.map f = .ok b ↔ ∃ a, x = .ok a ∧ f a = b := by
  cases x <;> simp [Except.map]

/-- A list of results without an error, item by item. -/
theorem mapM_eq_ok_iff {α β ε : Type} {f : α → Except ε β} {xs : List α} {ys : List β} :
    xs.mapM f = .ok ys ↔ xs.map f = ys.map .ok := by
  induction xs generalizing ys with
  | nil => cases ys <;> simp [pure, Except.pure]
  | cons x xs ih =>
    simp only [List.mapM_cons, bind_eq_ok_iff, ih, pure, Except.pure, Except.ok.injEq]
    constructor
    · rintro ⟨y, hy, zs, hzs, rfl⟩
      rw [List.map_cons, List.map_cons, hy, hzs]
    · intro h
      cases ys with
      | nil => simp at h
      | cons y ys =>
        obtain ⟨hy, hys⟩ := List.cons.inj h
        exact ⟨y, hy, ys, hys, rfl⟩

/-! ## Expansion step by step -/

theorem bindHandler_eq_ok {h : Handler} {b : Bindings} {c : Concrete}
    (hok : bindHandler h b = .ok c) :
    c = .handler (if b.isEmpty then h else .bound h b.branchIndex) := by
  unfold bindHandler at hok
  split at hok
  · rename_i hempty
    rw [if_pos hempty]
    exact (Except.ok.inj hok).symm
  · rename_i hempty
    split at hok
    · rw [if_neg hempty]
      exact (Except.ok.inj hok).symm
    · cases hok

namespace Annotated

theorem expanded_replicate_eq_ok {token : String} {pool : Int64} {node : Annotated} {b : Bindings}
    {r : Expanded} (h : expanded (.replicate token pool node) b = .ok r) :
    ∃ cs, r = .copies cs ∧ cs.length = pool.toInt.toNat ∧
      ∀ i c, cs[i]? = some c → expandIn (b.extended token i) node = .ok c := by
  rw [expanded] at h
  split at h
  · cases h
  · obtain ⟨cs, hcs, rfl⟩ := map_eq_ok_iff.mp h
    rw [mapM_eq_ok_iff] at hcs
    have hlen : cs.length = pool.toInt.toNat := by
      simpa using (congrArg List.length hcs).symm
    refine ⟨cs, rfl, hlen, fun i c hi ↦ ?_⟩
    have hlt : i < cs.length := (List.getElem?_eq_some_iff.mp hi).1
    have hcopy := congrArg (·[i]?) hcs
    simp only [List.getElem?_map, hi, List.getElem?_range (hlen ▸ hlt)] at hcopy
    exact Option.some.inj hcopy

theorem expandItems_cons_eq_bind (node : Annotated) (items : List Annotated) (b : Bindings) :
    expandItems (node :: items) b
      = expanded node b >>= fun r ↦ (expandItems items b).map (r.items ++ ·) := by
  rw [expandItems]
  cases expanded node b <;> rfl

theorem expandItems_cons_eq_ok {node : Annotated} {nodes : List Annotated} {b : Bindings}
    {cs : List Concrete} (h : expandItems (node :: nodes) b = .ok cs) :
    ∃ r rest, expanded node b = .ok r ∧ expandItems nodes b = .ok rest ∧ cs = r.items ++ rest := by
  rw [expandItems_cons_eq_bind] at h
  obtain ⟨r, hr, h⟩ := bind_eq_ok_iff.mp h
  obtain ⟨rest, hrest, rfl⟩ := map_eq_ok_iff.mp h
  exact ⟨r, rest, hr, hrest, rfl⟩

theorem expandEntries_cons_eq_bind (name : String) (node : Annotated)
    (entries : List (String × Annotated)) (b : Bindings) (done : Entries Concrete) :
    expandEntries ((name, node) :: entries) b done = expanded node b >>= fun r ↦
      if Entries.has (b.apply name) done then .error (.duplicateKey (b.apply name))
      else expandEntries entries b (Entries.insert (b.apply name) r.node done) := by
  rw [expandEntries]
  cases expanded node b <;> rfl

theorem expandEntries_cons_eq_ok {name : String} {node : Annotated}
    {entries : List (String × Annotated)} {b : Bindings} {done es : Entries Concrete}
    (h : expandEntries ((name, node) :: entries) b done = .ok es) :
    ∃ r, expanded node b = .ok r ∧ Entries.has (b.apply name) done = false ∧
      expandEntries entries b (Entries.insert (b.apply name) r.node done) = .ok es := by
  rw [expandEntries_cons_eq_bind] at h
  obtain ⟨r, hr, h⟩ := bind_eq_ok_iff.mp h
  split at h
  · cases h
  · next hnew => exact ⟨r, hr, Bool.eq_false_iff.mpr hnew, h⟩

end Annotated

/-! ## Distinct names -/

/-- No mapping of the tree has a name twice. -/
inductive Concrete.Distinct : Concrete → Prop
  | mapping {entries : List (String × Concrete)} (names : (Entries.names entries).Nodup)
      (values : ∀ e ∈ entries, Distinct e.2) : Distinct (.mapping entries)
  | sequence {items : List Concrete} (each : ∀ c ∈ items, Distinct c) : Distinct (.sequence items)
  | text {s : String} : Distinct (.text s)
  | handler {h : Handler} : Distinct (.handler h)
  | scalar {s : Scalar} : Distinct (.scalar s)

namespace Concrete

@[simp] theorem distinct_mapping_iff {entries : List (String × Concrete)} :
    (mapping entries).Distinct ↔
      (Entries.names entries).Nodup ∧ ∀ e ∈ entries, e.2.Distinct := by
  refine ⟨fun h ↦ ?_, fun h ↦ .mapping h.1 h.2⟩
  cases h with
  | mapping names values => exact ⟨names, values⟩

@[simp] theorem distinct_sequence_iff {items : List Concrete} :
    (sequence items).Distinct ↔ ∀ c ∈ items, c.Distinct := by
  refine ⟨fun h ↦ ?_, .sequence⟩
  cases h with
  | sequence each => exact each

@[simp] theorem distinct_text (s : String) : (text s).Distinct := .text

@[simp] theorem distinct_handler (h : Handler) : (handler h).Distinct := .handler

@[simp] theorem distinct_scalar (s : Scalar) : (scalar s).Distinct := .scalar

end Concrete

theorem Expanded.distinct_node {r : Expanded} (h : ∀ c ∈ r.items, c.Distinct) :
    r.node.Distinct := by
  cases r with
  | one c => exact h c List.mem_cons_self
  | copies cs => exact .sequence h

namespace Annotated

mutual

private theorem distinct_expanded : ∀ (node : Annotated) {b : Bindings} {r : Expanded},
    expanded node b = .ok r → ∀ c ∈ r.items, c.Distinct
  | .mapping entries, b, r, h => by
    rw [expanded] at h
    obtain ⟨es, hes, rfl⟩ := map_eq_ok_iff.mp h
    have ⟨hnames, hvalues⟩ := distinct_expandEntries entries hes .nil (by simp)
    exact List.forall_mem_singleton.mpr (.mapping hnames hvalues)
  | .sequence items, b, r, h => by
    rw [expanded] at h
    obtain ⟨cs, hcs, rfl⟩ := map_eq_ok_iff.mp h
    exact List.forall_mem_singleton.mpr (.sequence (distinct_expandItems items hcs))
  | .text s, b, r, h => by
    rw [expanded] at h
    cases h
    exact List.forall_mem_singleton.mpr .text
  | .handler h, b, r, hr => by
    rw [expanded] at hr
    obtain ⟨c, hc, rfl⟩ := map_eq_ok_iff.mp hr
    rw [bindHandler_eq_ok hc]
    exact List.forall_mem_singleton.mpr .handler
  | .replicate token pool node, b, r, h => by
    obtain ⟨cs, rfl, -, hcopies⟩ := expanded_replicate_eq_ok h
    intro c hc
    obtain ⟨i, hi⟩ := List.getElem?_of_mem hc
    obtain ⟨r, hr, rfl⟩ := map_eq_ok_iff.mp (hcopies i c hi)
    exact Expanded.distinct_node (distinct_expanded node hr)
  | .scalar s, b, r, h => by
    rw [expanded] at h
    cases h
    exact List.forall_mem_singleton.mpr .scalar

private theorem distinct_expandItems : ∀ (nodes : List Annotated) {b : Bindings}
    {cs : List Concrete}, expandItems nodes b = .ok cs → ∀ c ∈ cs, c.Distinct
  | [], b, cs, h => by
    rw [expandItems] at h
    cases h
    simp
  | node :: nodes, b, cs, h => by
    obtain ⟨r, rest, hr, hrest, rfl⟩ := expandItems_cons_eq_ok h
    intro c hc
    rcases List.mem_append.mp hc with hc | hc
    · exact distinct_expanded node hr c hc
    · exact distinct_expandItems nodes hrest c hc

private theorem distinct_expandEntries : ∀ (entries : List (String × Annotated)) {b : Bindings}
    {done es : Entries Concrete}, expandEntries entries b done = .ok es →
      (Entries.names done).Nodup → (∀ e ∈ done, e.2.Distinct) →
        (Entries.names es).Nodup ∧ ∀ e ∈ es, e.2.Distinct
  | [], b, done, es, h, hnames, hvalues => by
    rw [expandEntries] at h
    cases h
    exact ⟨hnames, hvalues⟩
  | (name, node) :: entries, b, done, es, h, hnames, hvalues => by
    obtain ⟨r, hr, hnew, hrest⟩ := expandEntries_cons_eq_ok h
    -- the name is new, so it may be added to distinct names
    refine distinct_expandEntries entries hrest (Entries.nodup_names_insert hnames hnew _) ?_
    intro e he
    rcases List.mem_cons.mp ((Entries.perm_insert hnew _).mem_iff.mp he) with rfl | he
    · exact Expanded.distinct_node (distinct_expanded node hr)
    · exact hvalues e he

end

/-- **Names of an expansion.** No mapping of an expansion has a name twice. -/
theorem distinct_of_expandIn {b : Bindings} {node : Annotated} {c : Concrete}
    (h : expandIn b node = .ok c) : c.Distinct := by
  obtain ⟨r, hr, rfl⟩ := map_eq_ok_iff.mp h
  exact Expanded.distinct_node (distinct_expanded node hr)

end Annotated

end Workflow
