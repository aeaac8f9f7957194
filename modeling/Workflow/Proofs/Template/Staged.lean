import Mathlib.Data.List.Perm.Basic
import Workflow.Proofs.Json.Canonical
import Workflow.Proofs.Machine.Ways
import Workflow.Proofs.Template.Expandable

/-!
# Expansion in stages

Bindings may be applied to the texts and names of a definition first, and the definition that comes
out be expanded under the bindings that remain. The document is the same as under all bindings at
once (`expandIn_rewritten`).

The two expansions meet the entries of a mapping in a different order, since the first bindings have
changed the names. What is collected in the end does not depend on that. Fewer bindings are checked
against tokens and handlers in the second expansion, so nothing is refused that was accepted before.

The body of a replication of size zero is never expanded, and the first bindings may make two names
in it equal (`names_may_collide_below_nothing`).
-/

namespace Workflow

/-- Each item keeps what it becomes, up to `S`, when it becomes something in another way. -/
theorem exists_forall₂_of_forall₂ {α β γ : Type} {R : α → β → Prop} {R' : α → γ → Prop}
    {S : β → γ → Prop} {xs : List α} {ys : List β} (h : List.Forall₂ R xs ys)
    (step : ∀ x ∈ xs, ∀ y, R x y → ∃ z, R' x z ∧ S y z) :
    ∃ zs, List.Forall₂ R' xs zs ∧ List.Forall₂ S ys zs := by
  induction h with
  | nil => exact ⟨[], .nil, .nil⟩
  | cons hfirst _ ih =>
    obtain ⟨hhead, htail⟩ := List.forall_mem_cons.mp step
    obtain ⟨z, hz, hsame⟩ := hhead _ hfirst
    obtain ⟨zs, hzs, hall⟩ := ih htail
    exact ⟨z :: zs, .cons hz hzs, .cons hsame hall⟩

/-- Two lists that agree item by item after a map have the same image. -/
theorem map_eq_map_of_forall₂ {α β γ : Type} {f : α → γ} {g : β → γ} {xs : List α} {ys : List β}
    (h : List.Forall₂ (fun x y ↦ g y = f x) xs ys) : ys.map g = xs.map f := by
  induction h with
  | nil => rfl
  | cons hfirst _ ih => rw [List.map_cons, List.map_cons, hfirst, ih]

theorem Concrete.toJsonFields_collect (added : Entries Concrete) :
    toJsonFields (Entries.collect added) = Entries.collect (toJsonFields added) := by
  have key : ∀ done : Entries Concrete, toJsonFields (Entries.enter added done)
      = Entries.enter (toJsonFields added) (toJsonFields done) := by
    induction added with
    | nil => exact fun _ ↦ rfl
    | cons e added ih =>
      intro done
      rw [Entries.enter_cons, ih, toJsonFields_insert]
      rfl
  exact key []

/-- The same as JSON, as one node and as items of a sequence. -/
structure Expanded.SameJson (r r' : Expanded) : Prop where
  node : r'.node.toJson = r.node.toJson
  items : r'.items.map Concrete.toJson = r.items.map Concrete.toJson

namespace Expanded.SameJson

theorem one {c c' : Concrete} (h : c'.toJson = c.toJson) : SameJson (.one c) (.one c') where
  node := h
  items := congrArg (fun v ↦ [v]) h

theorem copies {cs cs' : List Concrete} (h : cs'.map Concrete.toJson = cs.map Concrete.toJson) :
    SameJson (.copies cs) (.copies cs') where
  node := by
    rw [Expanded.node, Expanded.node, Concrete.toJson, Concrete.toJson,
      Concrete.toJsonItems_eq_map, Concrete.toJsonItems_eq_map, h]
  items := h

theorem flatMap_items {rs rs' : List Expanded} (h : List.Forall₂ SameJson rs rs') :
    (rs'.flatMap Expanded.items).map Concrete.toJson
      = (rs.flatMap Expanded.items).map Concrete.toJson := by
  induction h with
  | nil => rfl
  | cons hfirst _ ih =>
    rw [List.flatMap_cons, List.flatMap_cons, List.map_append, List.map_append, hfirst.items, ih]

end Expanded.SameJson

namespace Annotated

/-! ## Rewriting a definition -/

mutual

/-- The definition with bindings applied to every text and every name of a mapping. -/
def rewritten (b : Bindings) : Annotated → Annotated
  | .mapping entries => .mapping (Entries.collect (rewrittenEntries b entries))
  | .sequence items => .sequence (rewrittenItems b items)
  | .text s => .text (b.apply s)
  | .handler h => .handler h
  | .replicate token pool node => .replicate token pool (rewritten b node)
  | .scalar s => .scalar s

def rewrittenItems (b : Bindings) : List Annotated → List Annotated
  | [] => []
  | node :: nodes => rewritten b node :: rewrittenItems b nodes

def rewrittenEntries (b : Bindings) : List (String × Annotated) → List (String × Annotated)
  | [] => []
  | (name, node) :: entries => (b.apply name, rewritten b node) :: rewrittenEntries b entries

end

theorem rewrittenItems_eq_map (b : Bindings) (items : List Annotated) :
    rewrittenItems b items = items.map (rewritten b) := by
  induction items with
  | nil => rfl
  | cons node items ih => rw [rewrittenItems, ih, List.map_cons]

theorem rewrittenEntries_eq_map (b : Bindings) (entries : List (String × Annotated)) :
    rewrittenEntries b entries = entries.map fun e ↦ (b.apply e.1, e.2.rewritten b) := by
  induction entries with
  | nil => rfl
  | cons e entries ih => rw [rewrittenEntries, ih, List.map_cons]

theorem names_rewrittenEntries (b : Bindings) (entries : List (String × Annotated)) :
    Entries.names (rewrittenEntries b entries) = (Entries.names entries).map b.apply := by
  rw [rewrittenEntries_eq_map, Entries.names, Entries.names, List.map_map, List.map_map]
  rfl

/-- Names that are distinct under more bindings are distinct under the first of them. -/
theorem nodup_of_nodup_append {b₁ b₂ : Bindings} {names : List String}
    (h : (names.map (b₁ ++ b₂).apply).Nodup) : (names.map b₁.apply).Nodup := by
  have hcomp : names.map (b₁ ++ b₂).apply = (names.map b₁.apply).map b₂.apply := by
    rw [List.map_map]
    exact List.map_congr_left fun name _ ↦ Bindings.apply_append b₁ b₂ name
  rw [hcomp] at h
  exact .of_map _ h

/-! ## Expanding what was rewritten -/

/-- What becomes of an entry under all bindings becomes of the rewritten one under the rest. -/
theorem becomes_rewritten {b₁ b₂ : Bindings} {e : String × Annotated} {e' : String × Concrete}
    (h : Becomes (b₁ ++ b₂) e e')
    (ih : ∀ r, expanded e.2 (b₁ ++ b₂) = .ok r →
      ∃ r', expanded (e.2.rewritten b₁) b₂ = .ok r' ∧ r.SameJson r') :
    ∃ e'', Becomes b₂ (b₁.apply e.1, e.2.rewritten b₁) e'' ∧
      (e''.1, e''.2.toJson) = (e'.1, e'.2.toJson) := by
  obtain ⟨hname, hnode⟩ := h
  obtain ⟨r, hr, hc⟩ := map_eq_ok_iff.mp hnode
  obtain ⟨r', hr', hsame⟩ := ih r hr
  refine ⟨(e'.1, r'.node), ⟨?_, map_eq_ok_iff.mpr ⟨r', hr', rfl⟩⟩, ?_⟩
  · rw [hname, Bindings.apply_append]
  · rw [hsame.node, hc]

/-- The order of its entries does not matter to what a mapping becomes. -/
theorem expanded_mapping_collect {b : Bindings} {entries : List (String × Annotated)}
    {added : Entries Concrete} (hentries : (Entries.names entries).Nodup)
    (hall : List.Forall₂ (Becomes b) entries added) (hadded : (Entries.names added).Nodup) :
    expanded (.mapping (Entries.collect entries)) b
      = .ok (.one (.mapping (Entries.collect added))) := by
  obtain ⟨sorted, hsorted, hperm⟩ :=
    List.perm_comp_forall₂ (Entries.perm_collect hentries) hall
  rw [expanded_mapping_eq_ok_iff]
  refine ⟨sorted, hsorted, (hperm.map Prod.fst).nodup_iff.mpr hadded, ?_⟩
  rw [Entries.collect_eq_of_perm hadded hperm.symm]

/-- What a definition becomes under all bindings, the rewritten one becomes under the rest. -/
theorem expanded_rewritten {b₁ b₂ : Bindings} {node : Annotated} {r : Expanded}
    (h : expanded node (b₁ ++ b₂) = .ok r) :
    ∃ r', expanded (node.rewritten b₁) b₂ = .ok r' ∧ r.SameJson r' := by
  induction node using rec' generalizing b₂ r with
  | mapping entries ih =>
    obtain ⟨added, hall, hnodup, rfl⟩ := expanded_mapping_eq_ok_iff.mp h
    obtain ⟨others, hothers, hsame⟩ := exists_forall₂_of_forall₂ hall
      fun e he e' hbecomes ↦ becomes_rewritten hbecomes fun r ↦ ih e he
    have hfields : Concrete.toJsonFields others = Concrete.toJsonFields added := by
      rw [Concrete.toJsonFields_eq_map, Concrete.toJsonFields_eq_map]
      exact map_eq_map_of_forall₂ hsame
    have hnodup' : (Entries.names others).Nodup := by
      rw [← Concrete.names_toJsonFields, hfields, Concrete.names_toJsonFields]
      exact hnodup
    have hrewritten : (Entries.names (rewrittenEntries b₁ entries)).Nodup := by
      rw [names_of_becomes hall] at hnodup
      rw [names_rewrittenEntries]
      exact nodup_of_nodup_append hnodup
    have hlist : List.Forall₂ (Becomes b₂) (rewrittenEntries b₁ entries) others := by
      rw [rewrittenEntries_eq_map]
      exact List.forall₂_map_left_iff.mpr hothers
    refine ⟨_, expanded_mapping_collect hrewritten hlist hnodup', .one ?_⟩
    rw [Concrete.toJson, Concrete.toJson, Concrete.toJsonFields_collect,
      Concrete.toJsonFields_collect, hfields]
  | sequence items ih =>
    obtain ⟨rs, hall, rfl⟩ := expanded_sequence_eq_ok_iff.mp h
    obtain ⟨rs', hall', hsame⟩ := exists_forall₂_of_forall₂ hall fun node hnode r ↦ ih node hnode
    have hlist : List.Forall₂ (fun node r ↦ expanded node b₂ = .ok r)
        (rewrittenItems b₁ items) rs' := by
      rw [rewrittenItems_eq_map]
      exact List.forall₂_map_left_iff.mpr hall'
    refine ⟨_, expanded_sequence_eq_ok_iff.mpr ⟨rs', hlist, rfl⟩, .one ?_⟩
    rw [Concrete.toJson, Concrete.toJson, Concrete.toJsonItems_eq_map,
      Concrete.toJsonItems_eq_map, Expanded.SameJson.flatMap_items hsame]
  | text s =>
    rw [expanded, Bindings.apply_append] at h
    obtain rfl := Except.ok.inj h
    exact ⟨_, rfl, .one rfl⟩
  | handler written =>
    obtain ⟨hfits, rfl⟩ := expanded_handler_eq_ok_iff.mp h
    have hrest : written.acceptsBranch = true ∨ b₂ = [] :=
      hfits.imp_right fun hnil ↦ (List.append_eq_nil_iff.mp hnil).2
    refine ⟨_, expanded_handler_eq_ok_iff.mpr ⟨hrest, rfl⟩, .one ?_⟩
    -- a bound handler has the name of the one inside
    have hname : ∀ b : Bindings,
        (Handler.name (if b.isEmpty then written else .bound written b.branchIndex))
          = written.name := by
      intro b
      split <;> rfl
    rw [Concrete.toJson, Concrete.toJson, hname, hname]
  | replicate token pool node ih =>
    obtain ⟨⟨htoken, hpool, hfresh⟩, cs, hcs, rfl⟩ := expanded_replicate_eq_ok_iff.mp h
    have hcopies : ∀ i ∈ List.range pool.toInt.toNat, ∀ c,
        expandIn ((b₁ ++ b₂).extended token i) node = .ok c →
          ∃ c', expandIn (b₂.extended token i) (node.rewritten b₁) = .ok c' ∧
            c'.toJson = c.toJson := by
      intro i _ c hc
      rw [Bindings.extended, List.append_assoc] at hc
      obtain ⟨r, hr, rfl⟩ := map_eq_ok_iff.mp hc
      obtain ⟨r', hr', hsame⟩ := ih hr
      exact ⟨r'.node, map_eq_ok_iff.mpr ⟨r', hr', rfl⟩, hsame.node⟩
    obtain ⟨cs', hcs', hsame⟩ := exists_forall₂_of_forall₂ hcs hcopies
    have hfresh' : token ∉ b₂.map Prod.fst := by
      rw [List.map_append, List.mem_append, not_or] at hfresh
      exact hfresh.2
    exact ⟨_, expanded_replicate_eq_ok_iff.mpr ⟨⟨htoken, hpool, hfresh'⟩, cs', hcs', rfl⟩,
      .copies (map_eq_map_of_forall₂ hsame)⟩
  | scalar s =>
    rw [expanded] at h
    obtain rfl := Except.ok.inj h
    exact ⟨_, rfl, .one rfl⟩

/-! ## Names -/

/-- The first indices are indices of replications that have copies at all. -/
theorem exists_indexes {around : List (String × Nat)} (h : ∀ r ∈ around, 0 < r.2) :
    ∃ indices, Indexes indices around := by
  induction around with
  | nil => exact ⟨[], .nil⟩
  | cons r around ih =>
    obtain ⟨hfirst, hrest⟩ := List.forall_mem_cons.mp h
    obtain ⟨indices, hindices⟩ := ih hrest
    exact ⟨0 :: indices, .cons hfirst hindices⟩

/-- **Bindings may be applied in stages.** If a definition has an expansion under the bindings `b₁`
and then `b₂`, then `b₁` leaves the names of every mapping distinct that is below no replication of
size zero, the rewritten definition has an expansion under `b₂`, and both expansions are the same as
JSON. -/
theorem expandIn_rewritten {b₁ b₂ : Bindings} {node : Annotated} {c : Concrete}
    (h : expandIn (b₁ ++ b₂) node = .ok c) :
    (∀ around entries, node.Holds around (.mapping entries) → (∀ r ∈ around, 0 < r.2) →
      ((Entries.names entries).map b₁.apply).Nodup) ∧
    ∃ c', expandIn b₂ (node.rewritten b₁) = .ok c' ∧ c'.toJson = c.toJson := by
  obtain ⟨r, hr, rfl⟩ := map_eq_ok_iff.mp h
  constructor
  · intro around entries hholds hcopies
    obtain ⟨indices, hindices⟩ := exists_indexes hcopies
    have hinside := Expands.of_holds ⟨r, hr⟩ hholds hindices
    have hnodup := (expands_mapping_iff.mp hinside).1
    rw [bindingsBelow, List.append_assoc] at hnodup
    exact nodup_of_nodup_append hnodup
  · obtain ⟨r', hr', hsame⟩ := expanded_rewritten hr
    exact ⟨r'.node, map_eq_ok_iff.mpr ⟨r', hr', rfl⟩, hsame.node⟩

/-- An outer token inside an inner one, and a token that is a digit. -/
def overlapping : Annotated :=
  .sequence [.replicate "NN" 2 (.mapping [("aNN", .text "NNN"), ("b", .text "N0N")])]

theorem expandIn_rewritten_overlapping :
    ∃ c, expandIn [("0", 7)] (overlapping.rewritten [("N", 0)]) = .ok c ∧
      c.toJson = .array [.object [("a77", .string "777"), ("b", .string "777")],
        .object [("a77", .string "777"), ("b", .string "777")]] := by
  have hexpanded : expandIn ([("N", 0)] ++ [("0", 7)]) overlapping = .ok _ := rfl
  exact (expandIn_rewritten hexpanded).2

/-- Two names that a binding makes equal, where no copy is ever made of them. -/
def neverCopied : Annotated :=
  .replicate "x" 0 (.mapping [("#", .scalar .null), ("0", .scalar .null)])

theorem names_may_collide_below_nothing :
    ¬∀ (b₁ b₂ : Bindings) (node : Annotated) (c : Concrete), expandIn (b₁ ++ b₂) node = .ok c →
      (∀ around entries, node.Holds around (.mapping entries) →
        ((Entries.names entries).map b₁.apply).Nodup) ∧
      ∃ c', expandIn b₂ (node.rewritten b₁) = .ok c' ∧ c'.toJson = c.toJson := by
  intro h
  have hexpanded : expandIn ([("#", 0)] ++ []) neverCopied = .ok (.sequence []) := rfl
  have hholds : neverCopied.Holds [("x", 0)]
      (.mapping [("#", .scalar .null), ("0", .scalar .null)]) := .copy .here
  have hnames := (h [("#", 0)] [] neverCopied _ hexpanded).1 _ _ hholds
  revert hnames
  decide

end Annotated

end Workflow
