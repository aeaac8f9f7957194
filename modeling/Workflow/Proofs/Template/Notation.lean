import Workflow.Proofs.Template.Rereading
import Workflow.Proofs.Template.Staged

/-!
# The notation of definitions

`Annotated.read` takes the notation apart that `Annotated.written` puts together, and nothing else.
A value is read exactly if at every place of a node there is something that the notation has a
meaning for, and the node that it is read as is written as that value again. Only what a replication
does not look at is lost, and a handler is written as its name.

Nodes stand at the value itself, in arrays, in the fields of objects that are no annotations, and in
the body of a replication. What else there is in an annotation is not read as a node.
-/

namespace Workflow

namespace Json

/-! ## Where nodes stand -/

/-- No annotation: not an object with a single name that starts with a dollar sign. -/
def Plain (fields : List (String × Json)) : Prop :=
  ∀ name v, fields = [(name, v)] → isAnnotationKey name = false

/-- `w` stands at a place of a node of the first value. -/
inductive HasNode : Json → Json → Prop
  | self (v : Json) : HasNode v v
  | item {items : List Json} {v w : Json} (mem : v ∈ items) (inside : HasNode v w) :
    HasNode (.array items) w
  | field {fields : List (String × Json)} {e : String × Json} {w : Json} (plain : Plain fields)
      (mem : e ∈ fields) (inside : HasNode e.2 w) : HasNode (.object fields) w
  | copied {fields : List (String × Json)} {v w : Json}
      (node : Entries.find? "node" fields = some v) (inside : HasNode v w) :
    HasNode (.object [(replicateKey, .object fields)]) w

/-- The value has a meaning at the place of a node: it is no annotation, or names a handler that
there is, or is a replication with a token, an integer for the number of copies, and a node. -/
inductive Legible (resolve : Resolver) : Json → Prop
  | plain {v : Json} (plain : ∀ fields, v = .object fields → Plain fields) : Legible resolve v
  | handler {name : String} {h : Handler} (resolves : resolve name = some h) :
    Legible resolve (.object [(handlerKey, .string name)])
  | replicate {fields : List (String × Json)} {token : String} {pool : Int64} {node : Json}
      (token : Entries.find? "template_string" fields = some (.string token))
      (pool : Entries.find? "pool_size" fields = some (.ofInt64 pool))
      (node : Entries.find? "node" fields = some node) :
    Legible resolve (.object [(replicateKey, .object fields)])

/-- Induction over a value along the places of its nodes. -/
@[elab_as_elim]
theorem nodeRec {motive : Json → Prop} (null : motive .null) (bool : ∀ b, motive (.bool b))
    (number : ∀ n, motive (.number n)) (string : ∀ s, motive (.string s))
    (array : ∀ items, (∀ v ∈ items, motive v) → motive (.array items))
    (object : ∀ fields, Plain fields → (∀ e ∈ fields, motive e.2) → motive (.object fields))
    (marked : ∀ name body, isAnnotationKey name = true →
      (∀ fields v, body = .object fields → Entries.find? "node" fields = some v → motive v) →
        motive (.object [(name, body)])) (v : Json) : motive v := by
  -- a node may stand one level deeper than the values directly inside
  have key : motive v ∧ ∀ fields u, v = .object fields → Entries.find? "node" fields = some u →
      motive u := by
    induction v using Json.rec' with
    | null => exact ⟨null, fun _ _ heq ↦ by cases heq⟩
    | bool b => exact ⟨bool b, fun _ _ heq ↦ by cases heq⟩
    | number n => exact ⟨number n, fun _ _ heq ↦ by cases heq⟩
    | string s => exact ⟨string s, fun _ _ heq ↦ by cases heq⟩
    | array items ih => exact ⟨array items fun v hv ↦ (ih v hv).1, fun _ _ heq ↦ by cases heq⟩
    | object fields ih =>
      refine ⟨?_, fun _ u heq hu ↦ ?_⟩
      · by_cases hplain : Plain fields
        · exact object fields hplain fun e he ↦ (ih e he).1
        · obtain ⟨name, body, rfl, hname⟩ : ∃ name body, fields = [(name, body)] ∧
              isAnnotationKey name = true := by
            simpa [Plain] using hplain
          exact marked name body hname (ih _ (List.mem_singleton_self (name, body))).2
      · cases heq
        exact (ih _ (Entries.mem_of_find? hu)).1
  exact key.1

theorem int64?_eq_some_iff {v : Json} {n : Int64} : v.int64? = some n ↔ v = .ofInt64 n := by
  have hlower : ∀ i : WideInt, -2 ^ 63 ≤ i.val := fun i ↦ i.lower
  constructor
  · intro h
    match v with
    | .number (.int i) =>
      rw [int64?, Number.int64?] at h
      split at h
      · next hupper =>
        have hval : i.val = n.toInt := by
          rw [← Option.some.inj h, Int64.toInt_ofInt_of_le (hlower i) hupper]
        obtain ⟨val, _, _⟩ := i
        subst hval
        rfl
      · cases h
  · rintro rfl
    have hupper : (WideInt.ofInt64 n).val < 0x8000000000000000 := n.toInt_lt
    rw [ofInt64, int64?, Number.int64?, if_pos hupper]
    exact congrArg some (Int64.ofInt_toInt n)

end Json

namespace Annotated

variable {resolve : Resolver}

/-! ## What an annotation is read as -/

/-- What an annotation of some name and body is read as. -/
inductive ReadsNote (resolve : Resolver) : String → Json → Annotated → Prop
  | handler {name : String} {h : Handler} (resolves : resolve name = some h) :
    ReadsNote resolve handlerKey (.string name) (.handler h)
  | replicate {fields : List (String × Json)} {token : String} {pool : Int64} {v : Json}
      {inner : Annotated} (hasToken : Entries.find? "template_string" fields = some (.string token))
      (hasPool : Entries.find? "pool_size" fields = some (.ofInt64 pool))
      (hasNode : Entries.find? "node" fields = some v) (reads : read resolve v = .ok inner) :
    ReadsNote resolve replicateKey (.object fields) (.replicate token pool inner)

theorem handlerOf_eq_ok_iff {body : Json} {node : Annotated} :
    handlerOf resolve body = .ok node ↔
      ∃ name h, body = .string name ∧ resolve name = some h ∧ node = .handler h := by
  rw [handlerOf]
  constructor
  · intro h
    split at h
    · cases h
    · next name hname =>
      split at h
      · cases h
      · next written hwritten =>
        exact ⟨name, written, string?_eq_some hname, hwritten, (Except.ok.inj h).symm⟩
  · rintro ⟨name, h, rfl, hresolve, rfl⟩
    rw [Json.string?]
    dsimp only
    rw [hresolve]

theorem replicationHead_eq_ok_iff {fields : List (String × Json)} {token : String} {pool : Int64} :
    replicationHead fields = .ok (token, pool) ↔
      Entries.find? "template_string" fields = some (.string token) ∧
        Entries.find? "pool_size" fields = some (.ofInt64 pool) := by
  rw [replicationHead]
  constructor
  · intro h
    split at h
    · cases h
    · next token' htoken =>
      split at h
      · cases h
      · next pool' hpool =>
        obtain ⟨rfl, rfl⟩ := Prod.mk.inj (Except.ok.inj h)
        obtain ⟨v, hv, hstring⟩ := Option.bind_eq_some_iff.mp htoken
        obtain ⟨w, hw, hint⟩ := Option.bind_eq_some_iff.mp hpool
        exact ⟨string?_eq_some hstring ▸ hv, Json.int64?_eq_some_iff.mp hint ▸ hw⟩
  · rintro ⟨htoken, hpool⟩
    rw [htoken, hpool, Option.bind_some, Option.bind_some, Json.string?,
      Json.int64?_eq_some_iff.mpr rfl]

theorem readNode_eq_ok_iff {fields : List (String × Json)} {node : Annotated} :
    readNode resolve fields = .ok node ↔
      ∃ v, Entries.find? "node" fields = some v ∧ read resolve v = .ok node := by
  rw [readNode_eq_find?]
  cases Entries.find? "node" fields with
  | none => exact iff_of_false nofun fun ⟨_, h, _⟩ ↦ nomatch h
  | some v => simp only [Option.some.injEq, exists_eq_left']

theorem read_annotation_eq_ok_iff {name : String} {body : Json} {node : Annotated}
    (hname : isAnnotationKey name = true) :
    read resolve (.object [(name, body)]) = .ok node ↔ ReadsNote resolve name body node := by
  rw [read.eq_def]
  dsimp only
  by_cases hhandler : name = handlerKey
  · rw [if_pos hhandler, handlerOf_eq_ok_iff]
    constructor
    · rintro ⟨written, h, rfl, hresolve, rfl⟩
      exact hhandler ▸ .handler hresolve
    · intro h
      cases h with
      | handler hresolve => exact ⟨_, _, rfl, hresolve, rfl⟩
      | replicate => exact absurd hhandler (by decide)
  · rw [if_neg hhandler]
    by_cases hreplicate : name = replicateKey
    · rw [if_pos hreplicate]
      constructor
      · intro h
        split at h
        · next fields =>
          split at h
          · cases h
          · next token pool hhead =>
            obtain ⟨inner, hinner, rfl⟩ := map_eq_ok_iff.mp h
            obtain ⟨v, hv, hread⟩ := readNode_eq_ok_iff.mp hinner
            obtain ⟨htoken, hpool⟩ := replicationHead_eq_ok_iff.mp hhead
            exact hreplicate ▸ .replicate htoken hpool hv hread
        · cases h
      · intro h
        cases h with
        | handler => exact absurd rfl hhandler
        | replicate htoken hpool hv hread =>
          dsimp only
          rw [replicationHead_eq_ok_iff.mpr ⟨htoken, hpool⟩]
          exact map_eq_ok_iff.mpr ⟨_, readNode_eq_ok_iff.mpr ⟨_, hv, hread⟩, rfl⟩
    · rw [if_neg hreplicate, if_pos hname]
      refine iff_of_false (fun h ↦ by cases h) fun h ↦ ?_
      cases h with
      | handler => exact hhandler rfl
      | replicate => exact hreplicate rfl

/-! ## Which values are read -/

/-- Where nodes stand in a value that is read, everything has a meaning. -/
theorem legible_of_read {v w : Json} (hnode : v.HasNode w) {node : Annotated}
    (h : read resolve v = .ok node) : w.Legible resolve := by
  induction hnode generalizing node with
  | self v =>
    by_cases hplain : ∀ fields, v = .object fields → Json.Plain fields
    · exact .plain hplain
    · obtain ⟨fields, rfl, name, body, rfl, hname⟩ : ∃ fields, v = .object fields ∧
          ∃ name body, fields = [(name, body)] ∧ isAnnotationKey name = true := by
        simpa [Json.Plain] using hplain
      cases (read_annotation_eq_ok_iff hname).mp h with
      | handler hresolve => exact .handler hresolve
      | replicate htoken hpool hv _ => exact .replicate htoken hpool hv
  | @item items v w hmem _ ih =>
    obtain ⟨nodes, hnodes, -⟩ := map_eq_ok_iff.mp h
    obtain ⟨node, hnode⟩ := exists_forall₂_iff.mp ⟨nodes, readItems_eq_ok_iff.mp hnodes⟩ v hmem
    exact ih hnode
  | @field fields e w hplain hmem _ ih =>
    rw [read_object hplain] at h
    obtain ⟨entries, hentries, -⟩ := map_eq_ok_iff.mp h
    obtain ⟨entry, -, hread⟩ :=
      exists_forall₂_iff.mp ⟨entries, readFields_eq_ok_iff.mp hentries⟩ e hmem
    exact ih hread
  | @copied fields v w hv _ ih =>
    have hnote := (read_annotation_eq_ok_iff rfl).mp h
    -- the two names are known to be different, but not by their form
    generalize replicateKey = name at hnote
    cases hnote with
    | replicate _ _ hv' hread =>
      rw [hv] at hv'
      exact ih (Option.some.inj hv' ▸ hread)

/-- A value is read when everything has a meaning where nodes stand in it. -/
theorem exists_read {v : Json} (h : ∀ w, v.HasNode w → w.Legible resolve) :
    ∃ node, read resolve v = .ok node := by
  induction v using Json.nodeRec with
  | null => exact ⟨_, rfl⟩
  | bool b => exact ⟨_, rfl⟩
  | number n => exact ⟨_, rfl⟩
  | string s => exact ⟨_, rfl⟩
  | array items ih =>
    obtain ⟨nodes, hnodes⟩ := exists_forall₂_iff.mpr fun v hv ↦
      ih v hv fun w hw ↦ h w (.item hv hw)
    exact ⟨_, map_eq_ok_iff.mpr ⟨nodes, readItems_eq_ok_iff.mpr hnodes, rfl⟩⟩
  | object fields hplain ih =>
    have hvalues : ∀ f ∈ fields, ∃ e : String × Annotated,
        e.1 = f.1 ∧ read resolve f.2 = .ok e.2 := by
      intro f hf
      obtain ⟨node, hnode⟩ := ih f hf fun w hw ↦ h w (.field hplain hf hw)
      exact ⟨(f.1, node), rfl, hnode⟩
    obtain ⟨entries, hentries⟩ := exists_forall₂_iff.mpr hvalues
    rw [read_object hplain]
    exact ⟨_, map_eq_ok_iff.mpr ⟨entries, readFields_eq_ok_iff.mpr hentries, rfl⟩⟩
  | marked name body hname ih =>
    cases h _ (.self _) with
    | plain hplain => exact absurd (hplain _ rfl name body rfl) (by rw [hname]; decide)
    | handler hresolve => exact ⟨_, (read_annotation_eq_ok_iff hname).mpr (.handler hresolve)⟩
    | replicate htoken hpool hv =>
      obtain ⟨inner, hread⟩ := ih _ _ rfl hv fun w hw ↦ h w (.copied hv hw)
      exact ⟨_, (read_annotation_eq_ok_iff hname).mpr (.replicate htoken hpool hv hread)⟩

/-! ## Writing and reading -/

mutual

/-- The definition with every handler replaced by its name, as a task carried out elsewhere. -/
def remoted : Annotated → Annotated
  | .mapping entries => .mapping (remotedEntries entries)
  | .sequence items => .sequence (remotedItems items)
  | .text s => .text s
  | .handler h => .handler (.elsewhere h.name)
  | .replicate token pool node => .replicate token pool (remoted node)
  | .scalar s => .scalar s

def remotedItems : List Annotated → List Annotated
  | [] => []
  | node :: nodes => remoted node :: remotedItems nodes

def remotedEntries : List (String × Annotated) → List (String × Annotated)
  | [] => []
  | (name, node) :: entries => (name, remoted node) :: remotedEntries entries

end

theorem remotedItems_eq_map (items : List Annotated) : remotedItems items = items.map remoted := by
  induction items with
  | nil => rfl
  | cons node items ih => rw [remotedItems, ih, List.map_cons]

theorem remotedEntries_eq_map (entries : List (String × Annotated)) :
    remotedEntries entries = entries.map fun e ↦ (e.1, remoted e.2) := by
  induction entries with
  | nil => rfl
  | cons e entries ih => rw [remotedEntries, ih, List.map_cons]

theorem writtenItems_eq_map (items : List Annotated) : writtenItems items = items.map written := by
  induction items with
  | nil => rfl
  | cons node items ih => rw [writtenItems, ih, List.map_cons]

theorem writtenEntries_eq_map (entries : List (String × Annotated)) :
    writtenEntries entries = entries.map fun e ↦ (e.1, written e.2) := by
  induction entries with
  | nil => rfl
  | cons e entries ih => rw [writtenEntries, ih, List.map_cons]

/-- What was written is read as the same definition, with the handlers known by name. -/
theorem read_written {node : Annotated} (h : node.Unambiguous) :
    read .remote node.written = .ok node.remoted := by
  induction h with
  | @mapping entries alone _ ih =>
    have hplain : Json.Plain (writtenEntries entries) := by
      intro name v hsingle
      rw [writtenEntries_eq_map] at hsingle
      obtain ⟨e, rfl, he⟩ := List.map_eq_singleton_iff.mp hsingle
      obtain ⟨rfl, -⟩ := Prod.mk.inj he
      exact alone e.1 e.2 rfl
    have hfields : readFields .remote (writtenEntries entries) = .ok (remotedEntries entries) := by
      rw [writtenEntries_eq_map, remotedEntries_eq_map, readFields_eq_ok_iff,
        List.forall₂_map_left_iff, List.forall₂_map_right_iff]
      exact List.forall₂_same.mpr fun e he ↦ ⟨rfl, ih e he⟩
    rw [written, remoted, read_object hplain, hfields]
    rfl
  | @sequence items _ ih =>
    have hitems : readItems .remote (writtenItems items) = .ok (remotedItems items) := by
      rw [writtenItems_eq_map, remotedItems_eq_map, readItems_eq_ok_iff,
        List.forall₂_map_left_iff, List.forall₂_map_right_iff]
      exact List.forall₂_same.mpr ih
    rw [written, remoted, read, hitems]
    rfl
  | text => rfl
  | @handler h =>
    rw [written, remoted]
    exact (read_annotation_eq_ok_iff rfl).mpr (.handler rfl)
  | @replicate token pool node _ ih =>
    rw [written, remoted]
    exact (read_annotation_eq_ok_iff rfl).mpr (.replicate rfl rfl rfl ih)
  | @scalar s =>
    cases s with
    | null => rfl
    | bool b => rfl
    | number n => rfl

end Annotated

/-! ## Reading and writing -/

/-- Of entries in order, those under some of the names are known when each of them is. -/
theorem Entries.Ascending.filter_names {α : Type} {es kept : Entries α} (hes : Ascending es)
    (hkept : Ascending kept) (h : ∀ e ∈ kept, find? e.1 es = some e.2) :
    es.filter (fun e ↦ e.1 ∈ names kept) = kept := by
  have hfilter : Ascending (es.filter fun e ↦ e.1 ∈ names kept) :=
    List.Pairwise.sublist (List.filter_sublist.map Prod.fst) hes
  refine hfilter.eq_of_perm hkept ?_
  refine (List.perm_ext_iff_of_nodup (.of_map _ hfilter.nodup) (.of_map _ hkept.nodup)).mpr ?_
  intro e
  rw [List.mem_filter, decide_eq_true_iff]
  constructor
  · rintro ⟨hmem, hname⟩
    obtain ⟨e', he', hsame⟩ := List.mem_map.mp hname
    have hfind := h e' he'
    rw [hsame, (find?_eq_some_iff hes.nodup).mpr hmem] at hfind
    rwa [Prod.ext hsame.symm (Option.some.inj hfind)]
  · intro hmem
    exact ⟨(find?_eq_some_iff hes.nodup).mp (h e hmem), List.mem_map_of_mem hmem⟩

/-- What is read of the body of a replication. -/
def replicateFields : List String := ["node", "pool_size", "template_string"]

namespace Json

mutual

/-- The value without what the bodies of its replications have besides. -/
def trimmed : Json → Json
  | .array items => .array (trimmedItems items)
  | .object [(name, body)] =>
    if name = replicateKey then
      match body with
      | .object fields => .object [(name, .object (trimmedBody fields))]
      | other => .object [(name, other)]
    else .object [(name, trimmed body)]
  | .object fields => .object (trimmedFields fields)
  | .null => .null
  | .bool b => .bool b
  | .number n => .number n
  | .string s => .string s

def trimmedItems : List Json → List Json
  | [] => []
  | v :: vs => trimmed v :: trimmedItems vs

def trimmedFields : List (String × Json) → List (String × Json)
  | [] => []
  | (name, v) :: fields => (name, trimmed v) :: trimmedFields fields

/-- The fields of the body of a replication. -/
def trimmedBody : List (String × Json) → List (String × Json)
  | [] => []
  | (name, v) :: fields =>
    if name = "node" then (name, trimmed v) :: trimmedBody fields
    else if name ∈ replicateFields then (name, v) :: trimmedBody fields
    else trimmedBody fields

end

theorem trimmedItems_eq_map (items : List Json) : trimmedItems items = items.map trimmed := by
  induction items with
  | nil => rfl
  | cons v items ih => rw [trimmedItems, ih, List.map_cons]

theorem trimmedFields_eq_map (fields : List (String × Json)) :
    trimmedFields fields = fields.map fun f ↦ (f.1, trimmed f.2) := by
  induction fields with
  | nil => rfl
  | cons f fields ih => rw [trimmedFields, ih, List.map_cons]

theorem trimmed_object {fields : List (String × Json)} (h : Plain fields) :
    (object fields).trimmed = .object (trimmedFields fields) := by
  rcases fields with _ | ⟨⟨name, body⟩, _ | ⟨f, fields⟩⟩
  · rw [trimmed]
    exact fun _ _ hfields ↦ by cases hfields
  · have hname : name ≠ replicateKey := by
      rintro rfl
      cases h _ _ rfl
    rw [trimmed.eq_def]
    exact if_neg hname
  · rw [trimmed]
    exact fun _ _ hfields ↦ by cases hfields

theorem trimmedBody_eq_map (fields : List (String × Json)) :
    trimmedBody fields = (fields.filter fun f ↦ f.1 ∈ replicateFields).map fun f ↦
      if f.1 = "node" then (f.1, f.2.trimmed) else f := by
  induction fields with
  | nil => rfl
  | cons f fields ih =>
    obtain ⟨name, v⟩ := f
    rw [trimmedBody, ih]
    by_cases hnode : name = "node"
    · have hmem : name ∈ replicateFields := by
        rw [hnode]
        exact List.mem_cons_self
      rw [if_pos hnode, List.filter_cons_of_pos (by simpa using hmem), List.map_cons, if_pos hnode]
    · rw [if_neg hnode]
      by_cases hmem : name ∈ replicateFields
      · rw [if_pos hmem, List.filter_cons_of_pos (by simpa using hmem), List.map_cons,
          if_neg hnode]
      · rw [if_neg hmem, List.filter_cons_of_neg (by simpa using hmem)]

/-- Three fields are left of the body of a replication. -/
theorem trimmedBody_eq {fields : List (String × Json)} (hfields : Entries.Ascending fields)
    {node pool token : Json} (hnode : Entries.find? "node" fields = some node)
    (hpool : Entries.find? "pool_size" fields = some pool)
    (htoken : Entries.find? "template_string" fields = some token) :
    trimmedBody fields
      = [("node", node.trimmed), ("pool_size", pool), ("template_string", token)] := by
  have hkept : Entries.Ascending
      [("node", node), ("pool_size", pool), ("template_string", token)] := by
    unfold Entries.Ascending
    exact (by decide : List.Pairwise (· < ·) replicateFields)
  have hfilter := hfields.filter_names hkept (by simp [hnode, hpool, htoken])
  rw [trimmedBody_eq_map]
  exact congrArg (List.map _) hfilter

end Json

namespace Annotated

/-- What is read is written as it was, without what the bodies of replications have besides. -/
theorem written_of_read (hresolve : ∀ name h, resolve name = some h → h.name = name) {v : Json}
    (hv : v.Ascending) {node : Annotated} (h : read resolve v = .ok node) :
    node.written = v.trimmed := by
  induction v using Json.nodeRec generalizing node with
  | null | bool _ | number _ | string _ =>
    rw [← Except.ok.inj h]
    rfl
  | array items ih =>
    cases hv with
    | array hitems =>
      obtain ⟨nodes, hnodes, rfl⟩ := map_eq_ok_iff.mp h
      have hall := readItems_eq_ok_iff.mp hnodes
      rw [written, Json.trimmed, writtenItems_eq_map, Json.trimmedItems_eq_map]
      have hinside : ∀ v ∈ items, ∀ node, read resolve v = .ok node → node.written = v.trimmed :=
        fun v hv _ hread ↦ ih v hv (hitems v hv) hread
      exact congrArg Json.array (map_eq_map_of_forall₂
        (((List.forall₂_and_left _ _).mpr ⟨hinside, hall⟩).imp fun _ node h ↦ h.1 node h.2))
  | object fields hplain ih =>
    cases hv with
    | object hnames hvalues =>
      rw [read_object hplain] at h
      obtain ⟨entries, hentries, rfl⟩ := map_eq_ok_iff.mp h
      have hall := readFields_eq_ok_iff.mp hentries
      rw [written, Json.trimmed_object hplain, writtenEntries_eq_map, Json.trimmedFields_eq_map]
      have hinside : ∀ f ∈ fields, ∀ node, read resolve f.2 = .ok node →
          node.written = f.2.trimmed := fun f hf _ hread ↦ ih f hf (hvalues f hf) hread
      refine congrArg Json.object (map_eq_map_of_forall₂
        (((List.forall₂_and_left _ _).mpr ⟨hinside, hall⟩).imp fun f e h ↦ ?_))
      exact Prod.ext h.2.1 (h.1 e.2 h.2.2)
  | marked name body hname ih =>
    cases (read_annotation_eq_ok_iff hname).mp h with
    | handler hfound =>
      rw [written, hresolve _ _ hfound]
      rfl
    | @replicate fields token pool v inner htoken hpool hnode hread =>
      cases hv with
      | object _ hvalues =>
        cases hvalues _ (List.mem_singleton_self _) with
        | object hfields hinside =>
          have hv : v.Ascending := hinside _ (Entries.mem_of_find? hnode)
          have hbody : (Json.object [(replicateKey, .object fields)]).trimmed
              = .object [(replicateKey, .object (Json.trimmedBody fields))] := rfl
          rw [hbody, Json.trimmedBody_eq hfields hnode hpool htoken, ← ih _ _ rfl hnode hv hread]
          rfl

/-- **Reading takes the notation apart and accepts nothing else.** -/
theorem read_exact :
    (∀ node : Annotated, node.Unambiguous → read .remote node.written = .ok node.remoted) ∧
    ∀ (resolve : Resolver) (v : Json),
      ((∃ node, read resolve v = .ok node) ↔ ∀ w, v.HasNode w → w.Legible resolve) ∧
        ((∀ name h, resolve name = some h → h.name = name) → v.Ascending →
          ∀ node, read resolve v = .ok node → node.written = v.trimmed) :=
  ⟨fun _ h ↦ read_written h, fun _ _ ↦ ⟨⟨fun ⟨_, h⟩ _ hw ↦ legible_of_read hw h, exists_read⟩,
    fun hresolve hv _ h ↦ written_of_read hresolve hv h⟩⟩

/-- A replication whose body has a field of its own, in an object with a dollar sign among its
names. -/
def crowdedCopies : Json :=
  .object [("$note", .string "x"), ("Branches", .array [.object [("$replicate", .object
    [("node", .object [("$handler", .string "copy")]), ("note", .object [("$loop", .null)]),
      ("pool_size", .ofInt64 (-1)), ("template_string", .string "#")])]])]

/-- What `crowdedCopies` is read as, with a task that is carried out here. -/
def crowdedNode : Annotated :=
  .mapping [("$note", .text "x"),
    ("Branches", .sequence [.replicate "#" (-1) (.handler (.here { name := "copy" }))])]

theorem read_exact_crowded :
    read .remote crowdedNode.written = .ok crowdedNode.remoted ∧
    (∀ w, crowdedCopies.HasNode w → w.Legible .remote) ∧
    crowdedNode.remoted.written = crowdedCopies.trimmed ∧
    crowdedCopies.trimmed
      = .object [("$note", .string "x"), ("Branches", .array [.object [("$replicate", .object
        [("node", .object [("$handler", .string "copy")]), ("pool_size", .ofInt64 (-1)),
          ("template_string", .string "#")])]])] ∧
    ¬∃ node, read .remote (.array [crowdedCopies, .object [("$loop", .null)]]) = .ok node := by
  have hread : read .remote crowdedCopies = .ok crowdedNode.remoted := rfl
  refine ⟨read_exact.1 crowdedNode ?_, ((read_exact.2 .remote crowdedCopies).1).mp ⟨_, hread⟩,
    (read_exact.2 .remote crowdedCopies).2 ?_ ?_ _ hread, rfl, fun hsome ↦ ?_⟩
  · refine .mapping (fun _ _ h ↦ by cases h) ?_
    simp [Unambiguous.text, Unambiguous.handler, Unambiguous.sequence, Unambiguous.replicate]
  · rintro name h ⟨⟩
    rfl
  · have hcanonical : crowdedCopies.canonical = crowdedCopies := rfl
    rw [← hcanonical]
    exact Json.ascending_canonical crowdedCopies
  · have hlegible := (read_exact.2 .remote _).1.mp hsome _
      (.item (List.mem_cons_of_mem _ List.mem_cons_self) (.self _))
    generalize hkey : "$loop" = key at hlegible
    cases hlegible with
    | plain hplain =>
      have hnot := hplain _ rfl _ _ rfl
      rw [← hkey] at hnot
      cases hnot

end Annotated

end Workflow
