import Workflow.Proofs.Template.Plain
import Workflow.Proofs.Template.Steps
import Workflow.Proofs.Template.Tokens
import Workflow.Template.Reading

/-!
# Reading an expansion as a definition

An expansion has no annotations left. It is read as the definition that stands for it as a plain
value, whatever the handlers are, and expanding that gives it back (`expandsToItself_of_expand`).

That no annotation is left has two reasons. A mapping that was read with a single name does not have
the name of an annotation, for then it would have been read as one. And replacing tokens does not
make such a name: what is put in starts with a digit, and so a dollar sign at the front of a name
was there before.
-/

namespace Workflow

/-! ## Names of annotations -/

theorem isAnnotationKey_iff {name : String} :
    isAnnotationKey name = true ↔ "$".toList <+: name.toList := by
  have hdollar : "$".toList = ['$'] := rfl
  rw [isAnnotationKey, decide_eq_true_iff, hdollar]
  rcases name.toList with _ | ⟨c, cs⟩
  · simp
  · simp [List.cons_prefix_cons, eq_comm]

/-- Replacing tokens does not make the name of an annotation. -/
theorem isAnnotationKey_of_apply {b : Bindings} {name : String}
    (h : isAnnotationKey (b.apply name) = true) : isAnnotationKey name = true := by
  induction b generalizing name with
  | nil => exact h
  | cons binding b ih =>
    obtain ⟨token, index⟩ := binding
    rw [Bindings.apply_cons] at h
    have hfirst := isAnnotationKey_iff.mp (ih h)
    have hdollar : Text.Digitless "$" := by decide
    rw [Text.toList_substitute] at hfirst
    exact isAnnotationKey_iff.mpr (prefix_of_prefix_substituteAll (hdollar.apart index)
      (toList_wholeText_ne_nil index) hfirst)

/-- Nowhere in the value is there an object with a single name, that of an annotation. -/
inductive Json.Unannotated : Json → Prop
  | null : Unannotated .null
  | bool {b : Bool} : Unannotated (.bool b)
  | number {n : Number} : Unannotated (.number n)
  | string {s : String} : Unannotated (.string s)
  | array {items : List Json} (each : ∀ v ∈ items, Unannotated v) : Unannotated (.array items)
  | object {fields : List (String × Json)}
      (alone : ∀ name v, fields = [(name, v)] → isAnnotationKey name = false)
      (values : ∀ e ∈ fields, Unannotated e.2) : Unannotated (.object fields)

/-- A value that is read as it stands: its names are in order and nothing in it is an annotation. -/
structure Json.Bare (v : Json) : Prop where
  ascending : v.Ascending
  unannotated : v.Unannotated

namespace Annotated

/-- No mapping of the definition would be written like an annotation. -/
inductive Unambiguous : Annotated → Prop
  | mapping {entries : List (String × Annotated)}
      (alone : ∀ name node, entries = [(name, node)] → isAnnotationKey name = false)
      (values : ∀ e ∈ entries, Unambiguous e.2) : Unambiguous (.mapping entries)
  | sequence {items : List Annotated} (each : ∀ node ∈ items, Unambiguous node) :
      Unambiguous (.sequence items)
  | text {s : String} : Unambiguous (.text s)
  | handler {h : Handler} : Unambiguous (.handler h)
  | replicate {token : String} {pool : Int64} {node : Annotated} (inside : Unambiguous node) :
      Unambiguous (.replicate token pool node)
  | scalar {s : Scalar} : Unambiguous (.scalar s)

/-! ## What a value is read as -/

section Reading

variable {resolve : Resolver}

theorem readItems_eq_mapM (items : List Json) :
    readItems resolve items = items.mapM (read resolve) := by
  induction items with
  | nil => rfl
  | cons v items ih =>
    rw [readItems, ih, List.mapM_cons]
    cases read resolve v <;> rfl

theorem readItems_eq_ok_iff {items : List Json} {nodes : List Annotated} :
    readItems resolve items = .ok nodes ↔
      List.Forall₂ (fun v node ↦ read resolve v = .ok node) items nodes := by
  rw [readItems_eq_mapM, mapM_eq_ok_iff_forall₂]

theorem readFields_eq_mapM (fields : List (String × Json)) :
    readFields resolve fields = fields.mapM fun f ↦ (read resolve f.2).map (f.1, ·) := by
  induction fields with
  | nil => rfl
  | cons f fields ih =>
    obtain ⟨name, v⟩ := f
    rw [readFields, ih, List.mapM_cons]
    cases read resolve v <;> rfl

theorem readFields_eq_ok_iff {fields : List (String × Json)}
    {entries : List (String × Annotated)} :
    readFields resolve fields = .ok entries ↔
      List.Forall₂ (fun f e ↦ e.1 = f.1 ∧ read resolve f.2 = .ok e.2) fields entries := by
  have hfield : ∀ (f : String × Json) (e : String × Annotated),
      (read resolve f.2).map (f.1, ·) = .ok e ↔ e.1 = f.1 ∧ read resolve f.2 = .ok e.2 := by
    intro f e
    rw [map_eq_ok_iff]
    constructor
    · rintro ⟨node, hnode, rfl⟩
      exact ⟨rfl, hnode⟩
    · rintro ⟨hname, hnode⟩
      exact ⟨e.2, hnode, by rw [← hname]⟩
  simp only [readFields_eq_mapM, mapM_eq_ok_iff_forall₂, hfield]

/-- The node of a replication is looked up. -/
theorem readNode_eq_find? (fields : List (String × Json)) :
    readNode resolve fields = match Entries.find? "node" fields with
      | some v => read resolve v
      | none => .error (.malformed replicateKey "missing field 'node'") := by
  induction fields with
  | nil => rfl
  | cons f fields ih =>
    obtain ⟨name, v⟩ := f
    rw [readNode, Entries.find?_cons, ih]
    by_cases hname : name = "node"
    · rw [if_pos hname, if_pos hname]
    · rw [if_neg hname, if_neg hname]

theorem exists_field_of_readNode {fields : List (String × Json)} {node : Annotated}
    (h : readNode resolve fields = .ok node) :
    ∃ v, ("node", v) ∈ fields ∧ read resolve v = .ok node := by
  rw [readNode_eq_find?] at h
  split at h
  · next v hv => exact ⟨v, Entries.mem_of_find? hv, h⟩
  · cases h

/-- An object is a mapping unless it has a single name, that of an annotation. -/
theorem read_object {fields : List (String × Json)}
    (h : ∀ name v, fields = [(name, v)] → isAnnotationKey name = false) :
    read resolve (.object fields) = (readFields resolve fields).map .mapping := by
  rcases fields with _ | ⟨⟨name, body⟩, _ | ⟨f, fields⟩⟩
  · rw [read]
    exact fun _ _ hfields ↦ by cases hfields
  · have hplain := h name body rfl
    have hhandler : name ≠ handlerKey := by
      rintro rfl
      cases hplain
    have hreplicate : name ≠ replicateKey := by
      rintro rfl
      cases hplain
    rw [read.eq_def]
    dsimp only
    rw [if_neg hhandler, if_neg hreplicate, hplain, if_neg Bool.false_ne_true, readFields]
    cases read resolve body <;> rfl
  · rw [read]
    exact fun _ _ hfields ↦ by cases hfields

/-- An annotation is read as a handler or as a replication. -/
theorem read_annotation_eq_ok {name : String} {body : Json} {node : Annotated}
    (hname : isAnnotationKey name = true) (h : read resolve (.object [(name, body)]) = .ok node) :
    (∃ written, node = .handler written) ∨
      ∃ token pool inner fields v, node = .replicate token pool inner ∧ body = .object fields ∧
        ("node", v) ∈ fields ∧ read resolve v = .ok inner := by
  rw [read.eq_def] at h
  dsimp only at h
  split at h
  · unfold handlerOf at h
    split at h
    · cases h
    · split at h
      · cases h
      · next written _ => exact .inl ⟨written, (Except.ok.inj h).symm⟩
  · split at h
    · split at h
      · next fields =>
        split at h
        · cases h
        · next token pool _ =>
          obtain ⟨inner, hinner, rfl⟩ := map_eq_ok_iff.mp h
          obtain ⟨v, hv, hread⟩ := exists_field_of_readNode hinner
          exact .inr ⟨token, pool, inner, fields, v, rfl, rfl, hv, hread⟩
      · cases h
    · cases h

/-- What is read would not be written like an annotation where it is none. -/
theorem unambiguous_of_read {v : Json} {node : Annotated} (h : read resolve v = .ok node) :
    node.Unambiguous := by
  match v with
  | .null | .bool _ | .number _ =>
    rw [← Except.ok.inj h]
    exact .scalar
  | .string _ =>
    rw [← Except.ok.inj h]
    exact .text
  | .array items =>
    obtain ⟨nodes, hnodes, rfl⟩ := map_eq_ok_iff.mp h
    refine .sequence fun node hnode ↦ ?_
    obtain ⟨v, hv, hread⟩ := exists_mem_of_forall₂ (readItems_eq_ok_iff.mp hnodes) hnode
    exact unambiguous_of_read hread
  | .object fields =>
    by_cases halone : ∃ name body, fields = [(name, body)] ∧ isAnnotationKey name = true
    · obtain ⟨name, body, hfields, hname⟩ := halone
      rcases read_annotation_eq_ok hname (hfields ▸ h) with
        ⟨written, rfl⟩ | ⟨token, pool, inner, others, v, rfl, hbody, hv, hread⟩
      · exact .handler
      · -- the node of a replication stands two objects further in
        have houtside : sizeOf body < sizeOf fields :=
          Entries.sizeOf_snd_lt_of_mem (hfields ▸ List.mem_singleton_self (name, body))
        have hinside : sizeOf v < sizeOf body := by
          rw [hbody, Json.object.sizeOf_spec]
          exact Nat.lt_add_left 1 (Entries.sizeOf_snd_lt_of_mem hv)
        exact .replicate (unambiguous_of_read hread)
    · have hplain : ∀ name v, fields = [(name, v)] → isAnnotationKey name = false :=
        fun name v hfields ↦ Bool.eq_false_iff.mpr fun hname ↦ halone ⟨name, v, hfields, hname⟩
      rw [read_object hplain] at h
      obtain ⟨entries, hentries, rfl⟩ := map_eq_ok_iff.mp h
      have hall := readFields_eq_ok_iff.mp hentries
      refine .mapping ?_ fun e he ↦ ?_
      · rintro _ _ rfl
        obtain ⟨f, _, ⟨rfl, -⟩, hrest, rfl⟩ := List.forall₂_cons_right_iff.mp hall
        exact hplain f.1 f.2 (by rw [List.forall₂_nil_right_iff.mp hrest])
      · obtain ⟨f, hf, -, hread⟩ := exists_mem_of_forall₂ hall he
        have hsize := Entries.sizeOf_snd_lt_of_mem hf
        exact unambiguous_of_read hread
termination_by sizeOf v

end Reading

end Annotated

/-! ## What a definition is expanded to -/

namespace Concrete

theorem bare_mapping {added : Entries Concrete}
    (halone : ∀ name c, added = [(name, c)] → isAnnotationKey name = false)
    (hnodup : (Entries.names added).Nodup) (hvalues : ∀ e ∈ added, e.2.toJson.Bare) :
    (mapping (Entries.collect added)).toJson.Bare := by
  have hperm := Entries.perm_collect hnodup
  have hfields : ∀ f ∈ toJsonFields (Entries.collect added), f.2.Bare := by
    intro f hf
    rw [toJsonFields_eq_map] at hf
    obtain ⟨e, he, rfl⟩ := List.mem_map.mp hf
    exact hvalues e (hperm.mem_iff.mp he)
  constructor
  · refine .object ?_ fun f hf ↦ (hfields f hf).ascending
    rw [Entries.Ascending, names_toJsonFields]
    exact Entries.ascending_collect added
  · refine .object (fun name v h ↦ ?_) fun f hf ↦ (hfields f hf).unannotated
    rw [toJsonFields_eq_map] at h
    obtain ⟨e, hcollect, he⟩ := List.map_eq_singleton_iff.mp h
    rw [hcollect] at hperm
    obtain ⟨rfl, -⟩ := Prod.mk.inj he
    exact halone e.1 e.2 (List.perm_singleton.mp hperm.symm)

theorem bare_sequence {cs : List Concrete} (h : ∀ c ∈ cs, c.toJson.Bare) :
    (sequence cs).toJson.Bare := by
  have hitems : ∀ v ∈ toJsonItems cs, v.Bare := by
    rw [toJsonItems_eq_map]
    exact List.forall_mem_map.mpr h
  exact ⟨.array fun v hv ↦ (hitems v hv).ascending, .array fun v hv ↦ (hitems v hv).unannotated⟩

end Concrete

theorem Expanded.bare_node {r : Expanded} (h : ∀ c ∈ r.items, c.toJson.Bare) :
    r.node.toJson.Bare := by
  cases r with
  | one c => exact h c List.mem_cons_self
  | copies cs => exact Concrete.bare_sequence h

namespace Annotated

/-- No annotation comes out of a definition in which no mapping looks like one. -/
theorem bare_of_expanded {node : Annotated} {b : Bindings} {r : Expanded}
    (hnode : node.Unambiguous) (h : expanded node b = .ok r) : ∀ c ∈ r.items, c.toJson.Bare := by
  induction hnode generalizing b r with
  | @mapping entries alone _ ih =>
    obtain ⟨added, hadded, hnodup, rfl⟩ := expanded_mapping_eq_ok_iff.mp h
    refine List.forall_mem_singleton.mpr (Concrete.bare_mapping ?_ hnodup fun e he ↦ ?_)
    · -- an entry that is alone afterwards was alone before, under a name that is no annotation
      rintro _ _ rfl
      obtain ⟨source, _, ⟨rfl, -⟩, hrest, rfl⟩ := List.forall₂_cons_right_iff.mp hadded
      have hsource := alone source.1 source.2 (by rw [List.forall₂_nil_right_iff.mp hrest])
      exact Bool.eq_false_iff.mpr (mt isAnnotationKey_of_apply (Bool.eq_false_iff.mp hsource))
    · obtain ⟨source, hsource, -, hexpand⟩ := exists_mem_of_forall₂ hadded he
      obtain ⟨r, hr, hnode⟩ := map_eq_ok_iff.mp hexpand
      rw [← hnode]
      exact Expanded.bare_node (ih source hsource hr)
  | @sequence items _ ih =>
    obtain ⟨rs, hrs, rfl⟩ := expanded_sequence_eq_ok_iff.mp h
    refine List.forall_mem_singleton.mpr (Concrete.bare_sequence fun c hc ↦ ?_)
    obtain ⟨r, hr, hc⟩ := List.mem_flatMap.mp hc
    obtain ⟨node, hnode, hexpanded⟩ := exists_mem_of_forall₂ hrs hr
    exact ih node hnode hexpanded c hc
  | text =>
    rw [← Except.ok.inj h]
    exact List.forall_mem_singleton.mpr ⟨.string, .string⟩
  | handler =>
    obtain ⟨-, rfl⟩ := expanded_handler_eq_ok_iff.mp h
    exact List.forall_mem_singleton.mpr ⟨.string, .string⟩
  | @replicate token pool node _ ih =>
    obtain ⟨-, cs, hcs, rfl⟩ := expanded_replicate_eq_ok_iff.mp h
    intro c hc
    obtain ⟨i, -, hexpand⟩ := exists_mem_of_forall₂ hcs hc
    obtain ⟨r, hr, rfl⟩ := map_eq_ok_iff.mp hexpand
    exact Expanded.bare_node (ih hr)
  | @scalar s =>
    rw [← Except.ok.inj h]
    refine List.forall_mem_singleton.mpr ?_
    rcases s with _ | b | n
    · exact ⟨.null, .null⟩
    · exact ⟨.bool, .bool⟩
    · exact ⟨.number, .number⟩

/-! ## Reading again -/

theorem ofPlainItems_eq_map (items : List Json) : ofPlainItems items = items.map ofPlain := by
  induction items with
  | nil => rfl
  | cons v items ih => rw [ofPlainItems, ih, List.map_cons]

theorem ofPlainFields_eq_map (fields : List (String × Json)) :
    ofPlainFields fields = fields.map fun f ↦ (f.1, ofPlain f.2) := by
  induction fields with
  | nil => rfl
  | cons f fields ih => rw [ofPlainFields, ih, List.map_cons]

/-- A value without annotations is read as it stands; no handler is looked up. -/
theorem read_of_unannotated (resolve : Resolver) {v : Json} (h : v.Unannotated) :
    read resolve v = .ok (ofPlain v) := by
  induction h with
  | null | bool | number | string => rfl
  | @array items _ ih =>
    have hitems : readItems resolve items = .ok (ofPlainItems items) := by
      rw [ofPlainItems_eq_map, readItems_eq_ok_iff, List.forall₂_map_right_iff]
      exact List.forall₂_same.mpr ih
    rw [read, hitems]
    rfl
  | @object fields alone _ ih =>
    have hfields : readFields resolve fields = .ok (ofPlainFields fields) := by
      rw [ofPlainFields_eq_map, readFields_eq_ok_iff, List.forall₂_map_right_iff]
      exact List.forall₂_same.mpr fun f hf ↦ ⟨rfl, ih f hf⟩
    rw [read_object alone, hfields]
    rfl

/-- A value in order is expanded to itself. -/
theorem expand_ofPlain {v : Json} (h : v.Ascending) :
    (ofPlain v).expand = .ok (Concrete.ofPlain v) := by
  have hnode : ofPlain v = ofConcrete (Concrete.ofPlain v) := by
    rw [← ofPlain_toJson _ (Concrete.handlers_ofPlain v), Concrete.toJson_ofPlain]
  have hfixed : FixesTexts [] (fun _ ↦ False) (ofConcrete (Concrete.ofPlain v)).parts :=
    fun _ s _ _ ↦ Bindings.apply_nil s
  rw [hnode, expand, expandIn_ofConcrete,
    hfixed.under_eq (fun _ ↦ id) (Concrete.handlers_ofPlain v)]
  · rw [Concrete.toJson_ofPlain]
    exact h
  · exact fun _ _ name _ ↦ Bindings.apply_nil name
  · exact fun _ _ ↦ .inl rfl

end Annotated

/-- Whatever the handlers are, the value is read as it stands, and expanding that gives it back. -/
def Json.ExpandsToItself (v : Json) : Prop :=
  ∀ resolve, Annotated.read resolve v = .ok (.ofPlain v) ∧
    ∃ c, (Annotated.ofPlain v).expand = .ok c ∧ c.toJson = v

theorem Json.Bare.expandsToItself {v : Json} (h : v.Bare) : v.ExpandsToItself := fun resolve ↦
  ⟨Annotated.read_of_unannotated resolve h.unannotated, .ofPlain v,
    Annotated.expand_ofPlain h.ascending, Concrete.toJson_ofPlain v⟩

namespace Annotated

/-- **Expanding twice is expanding once.** When a value is read and expanded, no object with a
single name that starts with a dollar sign is left, and the result is read as it stands and expanded
to itself. So is every other value without such an object, as long as its names are in order. -/
theorem expandsToItself_of_expand :
    (∀ resolve v node c, read resolve v = .ok node → node.expand = .ok c →
      c.toJson.Unannotated ∧ c.toJson.ExpandsToItself) ∧
    ∀ v : Json, v.Ascending → v.Unannotated → v.ExpandsToItself := by
  constructor
  · intro resolve v node c hread hexpand
    obtain ⟨r, hr, rfl⟩ := map_eq_ok_iff.mp hexpand
    have hbare := Expanded.bare_node (bare_of_expanded (unambiguous_of_read hread) hr)
    exact ⟨hbare.unannotated, hbare.expandsToItself⟩
  · exact fun v hascending hunannotated ↦
      Json.Bare.expandsToItself ⟨hascending, hunannotated⟩

/-- Copies of a mapping with a single name, in which the token stands before a dollar sign. -/
def copiedNames : Json :=
  .object [("a", .object [("$replicate", .object [("node", .object [("x$", .string "$x")]),
    ("pool_size", .number (.int (.ofInt64 2))), ("template_string", .string "x")])])]

theorem expandsToItself_of_expand_copiedNames :
    (∃ node c, read Resolver.remote copiedNames = .ok node ∧ node.expand = .ok c ∧
      c.toJson = .object [("a",
        .array [.object [("0$", .string "$0")], .object [("1$", .string "$1")]])] ∧
      c.toJson.Unannotated ∧ c.toJson.ExpandsToItself) ∧
    (Json.object [("$a", .null), ("$b", .null)]).ExpandsToItself := by
  constructor
  · have hread : read Resolver.remote copiedNames
        = .ok (.mapping [("a", .replicate "x" 2 (.mapping [("x$", .text "$x")]))]) := rfl
    exact ⟨_, _, hread, rfl, rfl, expandsToItself_of_expand.1 _ _ _ _ hread rfl⟩
  · refine expandsToItself_of_expand.2 _ (.object (by unfold Entries.Ascending; decide) ?_)
      (.object (fun _ _ h ↦ by cases h) ?_)
    · simp [Json.Ascending.null]
    · simp [Json.Unannotated.null]

end Annotated

end Workflow
