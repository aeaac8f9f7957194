import Workflow.Proofs.Template.Distinct
import Workflow.Proofs.Template.Parts

/-!
# Every part once for every choice of copies

Expanding a definition gives a tree whose parts are the parts of the definition, each once for every
tuple of indices of the replications around it, and nothing else.

The proof goes along the recursion of the expansion. The order of the parts changes at two points:
a mapping puts its entries in the order of their new names, and a replication lists all the parts of
one copy before those of the next.
-/

namespace Workflow

namespace Annotated

/-! ## Instances -/

/-- A part of a definition in a place with the bindings `b`, at every position it gets. -/
def instancesOf (b : Bindings) (p : Route × Part) : List (List Concrete.Edge × Part) :=
  (indexTuples (Route.pools p.1)).map fun indices ↦
    (Route.position b p.1 indices, p.2.under (Route.bindings b p.1 indices))

/-- Parts of a definition in a place with the bindings `b`, each at every position it gets. -/
def instances (b : Bindings) (parts : List (Route × Part)) : List (List Concrete.Edge × Part) :=
  parts.flatMap (instancesOf b)

theorem instancesOf_nil (b : Bindings) (part : Part) :
    instancesOf b ([], part) = [([], part.under b)] := by
  simp [instancesOf, indexTuples, Route.pools, Route.position, Route.bindings, Route.tokens]

theorem instancesOf_entry (b : Bindings) (name : String) (route : Route) (part : Part) :
    instancesOf b (.entry name :: route, part)
      = below (.entry (b.apply name)) (instancesOf b (route, part)) := by
  rw [below, instancesOf, instancesOf, List.map_map]
  rfl

theorem instancesOf_item (b : Bindings) (index : Nat) (route : Route) (part : Part) :
    instancesOf b (.item index :: route, part)
      = below (.item index) (instancesOf b (route, part)) := by
  rw [below, instancesOf, instancesOf, List.map_map]
  rfl

/-- The first index of a tuple chooses the copy, and the others go on in it. -/
theorem instancesOf_copy (b : Bindings) (token : String) (pool start : Nat) (route : Route)
    (part : Part) :
    instancesOf b (.copy token pool start :: route, part)
      = (List.range pool).flatMap fun i ↦
        below (.item (start + i)) (instancesOf (b.extended token i) (route, part)) := by
  rw [instancesOf, Route.pools, indexTuples, List.map_flatMap]
  congr 1
  funext i
  rw [below, instancesOf, List.map_map, List.map_map]
  refine List.map_congr_left fun indices _ ↦ ?_
  simp only [Function.comp_apply, Route.position, Route.bindings, Route.tokens,
    List.zip_cons_cons, Bindings.extended, List.append_assoc, List.cons_append, List.nil_append]

theorem instances_cons_nil (b : Bindings) (part : Part) (parts : List (Route × Part)) :
    instances b (([], part) :: parts) = ([], part.under b) :: instances b parts := by
  rw [instances, List.flatMap_cons, instancesOf_nil]
  rfl

theorem instances_leaf (b : Bindings) (part : Part) :
    instances b [([], part)] = [([], part.under b)] :=
  instances_cons_nil b part []

theorem instances_append (b : Bindings) (parts others : List (Route × Part)) :
    instances b (parts ++ others) = instances b parts ++ instances b others :=
  List.flatMap_append

theorem instances_below_entry (b : Bindings) (name : String) (parts : List (Route × Part)) :
    instances b (below (.entry name) parts)
      = below (.entry (b.apply name)) (instances b parts) := by
  simp only [instances, below, List.flatMap_map, List.map_flatMap, instancesOf_entry]

theorem instances_below_item (b : Bindings) (index : Nat) (parts : List (Route × Part)) :
    instances b (below (.item index) parts) = below (.item index) (instances b parts) := by
  simp only [instances, below, List.flatMap_map, List.map_flatMap, instancesOf_item]

/-- The order of two enumerations may be exchanged. -/
theorem flatMap_comm_perm {α β γ : Type} (xs : List α) (ys : List β) (f : α → β → List γ) :
    (xs.flatMap fun x ↦ ys.flatMap (f x)).Perm (ys.flatMap fun y ↦ xs.flatMap fun x ↦ f x y) := by
  induction xs with
  | nil => simp
  | cons x xs ih =>
    simp only [List.flatMap_cons]
    exact (ih.append_left _).trans (List.flatMap_append_perm ys (f x) _)

theorem instances_below_copy (b : Bindings) (token : String) (pool start : Nat)
    (parts : List (Route × Part)) :
    (instances b (below (.copy token pool start) parts)).Perm
      ((List.range pool).flatMap fun i ↦
        below (.item (start + i)) (instances (b.extended token i) parts)) := by
  have hleft : instances b (below (.copy token pool start) parts)
      = parts.flatMap fun p ↦ (List.range pool).flatMap fun i ↦
        below (.item (start + i)) (instancesOf (b.extended token i) p) := by
    simp only [instances, below, List.flatMap_map, instancesOf_copy]
  have hright : ∀ i, below (.item (start + i)) (instances (b.extended token i) parts)
      = parts.flatMap fun p ↦ below (.item (start + i)) (instancesOf (b.extended token i) p) := by
    intro i
    simp only [instances, below, List.map_flatMap]
  -- all copies of one part after another, against all parts of one copy after another
  simp only [hleft, hright]
  exact flatMap_comm_perm parts (List.range pool) _

end Annotated

/-! ## Concrete sequences and mappings -/

namespace Concrete

theorem partsOfItems_append (start : Nat) (cs ds : List Concrete) :
    partsOfItems start (cs ++ ds)
      = partsOfItems start cs ++ partsOfItems (start + cs.length) ds := by
  induction cs generalizing start with
  | nil => rfl
  | cons c cs ih =>
    rw [List.cons_append, partsOfItems, partsOfItems, ih, List.append_assoc, List.length_cons,
      Nat.add_assoc, Nat.add_comm 1]

/-- Items that are copies have the parts of the copies, one copy after the other. -/
theorem partsOfItems_perm {cs : List Concrete} (copy : Nat → List (List Edge × Part))
    (h : ∀ i c, cs[i]? = some c → (parts c).Perm (copy i)) (start : Nat) :
    (partsOfItems start cs).Perm
      ((List.range cs.length).flatMap fun i ↦ below (.item (start + i)) (copy i)) := by
  induction cs generalizing start copy with
  | nil => exact .refl _
  | cons c cs ih =>
    have hfirst : (parts c).Perm (copy 0) := h 0 c rfl
    have hrest := ih (fun i ↦ copy (i + 1)) (fun i c hc ↦ h (i + 1) c hc) (start + 1)
    simp only [Nat.add_right_comm start 1] at hrest
    rw [partsOfItems, List.length_cons, List.range_succ_eq_map, List.flatMap_cons, List.flatMap_map]
    exact (hfirst.map _).append hrest

theorem partsOfEntries_eq_flatMap (entries : List (String × Concrete)) :
    partsOfEntries entries = entries.flatMap fun e ↦ below (.entry e.1) (parts e.2) := by
  induction entries with
  | nil => rfl
  | cons e entries ih => rw [partsOfEntries, ih, List.flatMap_cons]

theorem partsOfEntries_insert {name : String} {c : Concrete} {entries : Entries Concrete}
    (h : Entries.has name entries = false) :
    (partsOfEntries (Entries.insert name c entries)).Perm
      (below (.entry name) (parts c) ++ partsOfEntries entries) := by
  rw [partsOfEntries_eq_flatMap, partsOfEntries_eq_flatMap]
  exact (Entries.perm_insert h c).flatMap_right _

end Concrete

/-! ## The recursion of the expansion -/

namespace Annotated

/-- What a node has become, as one node and as items of a sequence, has the parts of the node. -/
structure Fits (b : Bindings) (node : Annotated) (r : Expanded) : Prop where
  whole : r.node.parts.Perm (instances b node.parts)
  items : ∀ start, (Concrete.partsOfItems start r.items).Perm (instances b (partsAt start node))
  width : r.items.length = width node

theorem Fits.of_one {b : Bindings} {node : Annotated} {c : Concrete}
    (hat : ∀ start, partsAt start node = below (.item start) node.parts) (hwidth : node.width = 1)
    (hparts : c.parts.Perm (instances b node.parts)) : Fits b node (.one c) where
  whole := hparts
  items start := by
    rw [hat, instances_below_item, Expanded.items, Concrete.partsOfItems, Concrete.partsOfItems,
      List.append_nil]
    exact hparts.map _
  width := hwidth.symm

/-- The copies of a node fit if every one of them has the parts of the node under its index. -/
theorem Fits.of_copies {b : Bindings} {token : String} {pool : Int64} {node : Annotated}
    {cs : List Concrete} (hlen : cs.length = pool.toInt.toNat)
    (hcopies : ∀ (i : Nat) (c : Concrete), cs[i]? = some c →
      c.parts.Perm (instances (b.extended token i) node.parts)) :
    Fits b (.replicate token pool node) (.copies cs) := by
  have hitems : ∀ start, (Concrete.partsOfItems start cs).Perm
      (instances b (below (.copy token pool.toInt.toNat start) node.parts)) := by
    intro start
    refine (Concrete.partsOfItems_perm _ hcopies start).trans ?_
    rw [hlen]
    exact (instances_below_copy b token _ start node.parts).symm
  refine ⟨?_, hitems, hlen⟩
  rw [Expanded.node, Concrete.parts, parts, instances_cons_nil]
  exact (hitems 0).cons _

mutual

theorem fits_expanded : ∀ (node : Annotated) {b : Bindings} {r : Expanded},
    expanded node b = .ok r → Fits b node r
  | .mapping entries, b, r, h => by
    rw [expanded] at h
    obtain ⟨es, hes, rfl⟩ := map_eq_ok_iff.mp h
    refine .of_one (fun _ ↦ rfl) rfl ?_
    rw [Concrete.parts, parts, instances_cons_nil]
    have hparts := parts_expandEntries entries hes
    rw [Concrete.partsOfEntries, List.append_nil] at hparts
    exact hparts.cons _
  | .sequence items, b, r, h => by
    rw [expanded] at h
    obtain ⟨cs, hcs, rfl⟩ := map_eq_ok_iff.mp h
    refine .of_one (fun _ ↦ rfl) rfl ?_
    rw [Concrete.parts, parts, instances_cons_nil]
    exact (parts_expandItems items hcs 0).cons _
  | .text s, b, r, h => by
    rw [expanded] at h
    cases h
    refine .of_one (fun _ ↦ rfl) rfl ?_
    rw [Concrete.parts, parts, instances_leaf]
    exact .refl _
  | .handler h, b, r, hr => by
    rw [expanded] at hr
    obtain ⟨c, hc, rfl⟩ := map_eq_ok_iff.mp hr
    refine .of_one (fun _ ↦ rfl) rfl ?_
    rw [bindHandler_eq_ok hc, Concrete.parts, parts, instances_leaf]
    exact .refl _
  | .replicate token pool node, b, r, h => by
    obtain ⟨cs, rfl, hlen, hcopies⟩ := expanded_replicate_eq_ok h
    refine .of_copies hlen fun i c hi ↦ ?_
    obtain ⟨r, hr, rfl⟩ := map_eq_ok_iff.mp (hcopies i c hi)
    exact (fits_expanded node hr).whole
  | .scalar s, b, r, h => by
    rw [expanded] at h
    cases h
    refine .of_one (fun _ ↦ rfl) rfl ?_
    rw [Concrete.parts, parts, instances_leaf]
    exact .refl _

private theorem parts_expandItems : ∀ (nodes : List Annotated) {b : Bindings} {cs : List Concrete},
    expandItems nodes b = .ok cs → ∀ start,
      (Concrete.partsOfItems start cs).Perm (instances b (partsOfItems start nodes))
  | [], b, cs, h, start => by
    rw [expandItems] at h
    cases h
    exact .refl _
  | node :: nodes, b, cs, h, start => by
    obtain ⟨r, rest, hr, hrest, rfl⟩ := expandItems_cons_eq_ok h
    have hfits := fits_expanded node hr
    rw [Concrete.partsOfItems_append, partsOfItems_cons, instances_append, hfits.width]
    exact (hfits.items start).append (parts_expandItems nodes hrest _)

private theorem parts_expandEntries : ∀ (entries : List (String × Annotated)) {b : Bindings}
    {done es : Entries Concrete}, expandEntries entries b done = .ok es →
      (Concrete.partsOfEntries es).Perm
        (instances b (partsOfEntries entries) ++ Concrete.partsOfEntries done)
  | [], b, done, es, h => by
    rw [expandEntries] at h
    cases h
    exact .refl _
  | (name, node) :: entries, b, done, es, h => by
    obtain ⟨r, hr, hnew, hrest⟩ := expandEntries_cons_eq_ok h
    -- the new entry is put in the order of the names, and its parts are moved to the front
    refine (parts_expandEntries entries hrest).trans ?_
    refine ((Concrete.partsOfEntries_insert hnew).append_left _).trans ?_
    rw [partsOfEntries, instances_append, instances_below_entry, ← List.append_assoc]
    refine List.Perm.append_right _ (List.perm_append_comm.trans ?_)
    exact ((fits_expanded node hr).whole.map _).append_right _

end

/-! ## Every part once -/

theorem length_of_mem_indexTuples {sizes indices : List Nat} (h : indices ∈ indexTuples sizes) :
    indices.length = sizes.length :=
  (mem_indexTuples_iff.mp h).length_eq

theorem Route.length_tokens (route : Route) : (tokens route).length = (pools route).length := by
  induction route with
  | nil => rfl
  | cons edge route ih => cases edge <;> simp [tokens, pools, ih]

theorem Route.branchIndex_bindings {b : Bindings} {route : Route} {indices : List Nat}
    (h : indices ∈ indexTuples (pools route)) :
    (bindings b route indices).branchIndex = b.branchIndex ++ indices := by
  have hlen : indices.length = (tokens route).length := by
    rw [length_tokens, length_of_mem_indexTuples h]
  rw [bindings, Bindings.branchIndex, List.map_append, List.map_snd_zip (Nat.le_of_eq hlen)]
  rfl

theorem Route.bindings_eq_nil_iff {b : Bindings} {route : Route} {indices : List Nat}
    (h : indices ∈ indexTuples (pools route)) :
    bindings b route indices = [] ↔ b = [] ∧ pools route = [] := by
  have htokens : tokens route = [] ↔ pools route = [] := by
    rw [← List.length_eq_zero_iff, length_tokens, List.length_eq_zero_iff]
  have hindices : indices = [] ↔ pools route = [] := by
    rw [← List.length_eq_zero_iff, length_of_mem_indexTuples h, List.length_eq_zero_iff]
  rw [bindings, List.append_eq_nil_iff, List.zip_eq_nil_iff, htokens, hindices, or_self]

/-- **Expansion makes every part once for every choice of copies.** The parts of the result, with
their positions, are the parts of the definition, each once for every tuple of indices below the
sizes of the replications on its route: copy `i` of a replication is the item `i` places behind
its start, names and texts have been rewritten by the bindings of the context and then by those of
the replications from the outermost to the innermost, and scalars are unchanged. A handler outside
all replications is itself; any other one calls the handler of the definition with the indices of
the context and then those of its copy, whatever it is called with. -/
theorem parts_of_expandIn {b : Bindings} {node : Annotated} {c : Concrete}
    (h : expandIn b node = .ok c) :
    c.parts.Perm (node.parts.flatMap fun p ↦ (indexTuples (Route.pools p.1)).map fun indices ↦
      (Route.position b p.1 indices, p.2.under (Route.bindings b p.1 indices))) ∧
    ∀ route handler, (route, Part.handler handler) ∈ node.parts →
      ∀ indices ∈ indexTuples (Route.pools route),
        ∃ copied, (Part.handler handler).under (Route.bindings b route indices) = .handler copied ∧
          (b = [] ∧ Route.pools route = [] → copied = handler) ∧
          (b ≠ [] ∨ Route.pools route ≠ [] →
            ∀ (σ : Type) (perform : Performer σ) (ctx : TaskContext)
              (branch : Option BranchIndex) (s : σ),
              copied.invoke perform ctx branch s
                = handler.invoke perform ctx (some (b.branchIndex ++ indices)) s) := by
  obtain ⟨r, hr, rfl⟩ := map_eq_ok_iff.mp h
  refine ⟨(fits_expanded node hr).whole, fun route handler _ indices hindices ↦ ?_⟩
  have hempty := Route.bindings_eq_nil_iff (b := b) hindices
  refine ⟨_, rfl, fun hroot ↦ if_pos ?_, fun hinside σ perform ctx branch s ↦ ?_⟩
  · rw [List.isEmpty_iff]
    exact hempty.mpr hroot
  · rw [if_neg, Handler.invoke, Route.branchIndex_bindings hindices]
    rw [List.isEmpty_iff, hempty, not_and_or]
    exact hinside

/-- Copies of a text and a handler between two other items. -/
def copying : Annotated :=
  .sequence [.text "first", .replicate "#" 2 (.mapping [("at #", .handler (.elsewhere "copy"))]),
    .text "last"]

theorem parts_of_expandIn_copying :
    ∃ c, expandIn [] copying = .ok c ∧ c.parts.Perm
      [([], .sequence), ([.item 0], .text "first"), ([.item 1], .mapping), ([.item 2], .mapping),
        ([.item 1, .entry "at 0"], .handler (.bound (.elsewhere "copy") [0])),
        ([.item 2, .entry "at 1"], .handler (.bound (.elsewhere "copy") [1])),
        ([.item 3], .text "last")] := by
  have hparts := (parts_of_expandIn (show expandIn [] copying = .ok _ from rfl)).1
  exact ⟨_, rfl, hparts⟩

end Annotated

end Workflow
