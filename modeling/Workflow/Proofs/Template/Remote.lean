import Workflow.Proofs.Template.Notation

/-!
# Handlers that are here and handlers that are elsewhere

A definition can be read and expanded where its handlers are not known. Every name is then taken for
a task that is carried out elsewhere, and what comes out is the document that comes out where the
handlers are (`expand_remote`). Where they are known a definition may be refused that is accepted
elsewhere: a name may be missing, and a handler may take no branch index. These are the only
reasons.

The two ways are two runs of the reader and the expansion with different handlers. `Stricter` says
how such runs compare. It passes through sequences of steps, so that the handlers are looked at in
two places only: where a name is resolved and where a handler is bound.
-/

namespace Workflow

/-! ## Two runs -/

/-- The second run is stricter than the first: it comes to the same, up to `R`, or to the same
error, unless it stops earlier for a reason of its own. -/
inductive Stricter {ε α β : Type} (Reason : ε → Prop) (R : α → β → Prop) :
    Except ε α → Except ε β → Prop
  | ok {a : α} {b : β} (related : R a b) : Stricter Reason R (.ok a) (.ok b)
  | error {e : ε} : Stricter Reason R (.error e) (.error e)
  | refused {x : Except ε α} {e : ε} (reason : Reason e) : Stricter Reason R x (.error e)

namespace Stricter

variable {ε α β γ δ ι : Type} {Reason : ε → Prop} {R : α → β → Prop} {S : γ → δ → Prop}
  {x : Except ε α} {y : Except ε β}

theorem bind {f : α → Except ε γ} {g : β → Except ε δ} (h : Stricter Reason R x y)
    (hrest : ∀ a b, R a b → Stricter Reason S (f a) (g b)) :
    Stricter Reason S (x >>= f) (y >>= g) := by
  cases h with
  | ok hrelated => exact hrest _ _ hrelated
  | error => exact .error
  | refused hreason => exact .refused hreason

theorem map {f : α → γ} {g : β → δ} (h : Stricter Reason R x y)
    (hrelated : ∀ a b, R a b → S (f a) (g b)) : Stricter Reason S (x.map f) (y.map g) := by
  cases h with
  | ok h => exact .ok (hrelated _ _ h)
  | error => exact .error
  | refused hreason => exact .refused hreason

/-- Runs over a list, item by item. -/
theorem mapM {f : ι → Except ε α} {g : ι → Except ε β} {items : List ι}
    (h : ∀ i ∈ items, Stricter Reason R (f i) (g i)) :
    Stricter Reason (List.Forall₂ R) (items.mapM f) (items.mapM g) := by
  induction items with
  | nil => exact .ok .nil
  | cons i items ih =>
    obtain ⟨hfirst, hrest⟩ := List.forall_mem_cons.mp h
    rw [List.mapM_cons, List.mapM_cons]
    refine hfirst.bind fun a b hrelated ↦ ?_
    exact (ih hrest).bind fun as bs hall ↦ .ok (.cons hrelated hall)

/-- What the stricter run comes to, the other one comes to as well. -/
theorem exists_of_ok {b : β} (h : Stricter Reason R x (.ok b)) : ∃ a, x = .ok a ∧ R a b := by
  cases h with
  | ok hrelated => exact ⟨_, rfl, hrelated⟩

/-- The stricter run of one that has a result has one, too, or stops for its own reason. -/
theorem ok_or_refused {a : α} (h : Stricter Reason R (.ok a) y) :
    (∃ b, y = .ok b ∧ R a b) ∨ ∃ e, y = .error e ∧ Reason e := by
  cases h with
  | ok hrelated => exact .inl ⟨_, rfl, hrelated⟩
  | refused hreason => exact .inr ⟨_, rfl, hreason⟩

end Stricter

/-! ## Registered handlers -/

/-- The handler that stands last under a name. -/
def lastNamed? (name : String) (handlers : List Handler) : Option Handler :=
  handlers.reverse.find? fun h ↦ h.name = name

theorem name_of_lastNamed? {name : String} {handlers : List Handler} {h : Handler}
    (hlast : lastNamed? name handlers = some h) : h.name = name := by
  simpa using List.find?_some hlast

theorem lastNamed?_eq_none_iff {name : String} {handlers : List Handler} :
    lastNamed? name handlers = none ↔ name ∉ handlers.map Handler.name := by
  simp [lastNamed?]

namespace Registry

/-- The registry with handlers added one after the other. -/
def ofHandlers (handlers : List Handler) : Registry := handlers.foldl register {}

/-- **A name stands for the last handler** that was registered under it. -/
theorem resolver_ofHandlers (handlers : List Handler) (name : String) :
    (ofHandlers handlers).resolver name = lastNamed? name handlers := by
  have hfold := Entries.lookup_foldl get? get?_register_self
    (fun r h name hname ↦ get?_register_of_ne r h hname) handlers {} name
  have hempty : get? {} name = none := rfl
  rw [hempty, Option.or_none, Option.map_id'] at hfold
  exact hfold

end Registry

namespace Resolver

variable (resolve : Resolver)

/-- A name that is not known. -/
inductive Missing : ExpansionError → Prop
  | intro {name : String} (missing : resolve name = none) : Missing (.unknownHandler name)

/-- A handler that is known under its name and takes no branch index. -/
inductive Unbindable : ExpansionError → Prop
  | intro {h : Handler} (known : resolve h.name = some h) (unbindable : h.acceptsBranch = false) :
    Unbindable (.handlerArity h.name)

end Resolver

namespace Annotated

/-! ## Reading -/

/-- The first definition is the second one, whose handlers are known under their names, with tasks
carried out elsewhere in their places. -/
structure Relayed (resolve : Resolver) (node' node : Annotated) : Prop where
  eq_remoted : node' = node.remoted
  known : ∀ around h, node.Holds around (.handler h) → resolve h.name = some h

namespace Relayed

variable {resolve : Resolver}

theorem text (s : String) : Relayed resolve (.text s) (.text s) := ⟨rfl, by rintro _ _ ⟨⟩⟩

theorem scalar (s : Scalar) : Relayed resolve (.scalar s) (.scalar s) := ⟨rfl, by rintro _ _ ⟨⟩⟩

theorem handler {h : Handler} (known : resolve h.name = some h) :
    Relayed resolve (.handler (.elsewhere h.name)) (.handler h) where
  eq_remoted := rfl
  known := by
    rintro _ _ ⟨⟩
    exact known

theorem replicate {token : String} {pool : Int64} {node' node : Annotated}
    (inside : Relayed resolve node' node) :
    Relayed resolve (.replicate token pool node') (.replicate token pool node) where
  eq_remoted := by rw [inside.eq_remoted, remoted]
  known := by
    rintro _ h (_ | _ | _ | hinside)
    exact inside.known _ h hinside

theorem sequence {items' items : List Annotated}
    (each : List.Forall₂ (Relayed resolve) items' items) :
    Relayed resolve (.sequence items') (.sequence items) where
  eq_remoted := by
    have hitems : items.map remoted = items'.map id :=
      map_eq_map_of_forall₂ (each.imp fun _ _ h ↦ h.eq_remoted.symm)
    rw [remoted, remotedItems_eq_map, hitems, List.map_id]
  known := by
    rintro around h (_ | _ | ⟨hmem, hinside⟩)
    obtain ⟨_, _, hrelayed⟩ := exists_mem_of_forall₂ each hmem
    exact hrelayed.known around h hinside

theorem mapping {entries' entries : List (String × Annotated)}
    (values : List.Forall₂ (fun e' e ↦ e'.1 = e.1 ∧ Relayed resolve e'.2 e.2) entries' entries) :
    Relayed resolve (.mapping entries') (.mapping entries) where
  eq_remoted := by
    have hentries : entries.map (fun e ↦ (e.1, e.2.remoted)) = entries'.map id :=
      map_eq_map_of_forall₂ (values.imp fun _ _ h ↦ Prod.ext h.1.symm h.2.eq_remoted.symm)
    rw [remoted, remotedEntries_eq_map, hentries, List.map_id]
  known := by
    rintro around h (_ | ⟨hmem, hinside⟩)
    obtain ⟨_, _, -, hrelayed⟩ := exists_mem_of_forall₂ values hmem
    exact hrelayed.known around h hinside

end Relayed

section Reading

variable {resolve : Resolver}

/-- The body of a handler annotation is a name, and the name may be missing. -/
theorem stricter_handlerOf (hnames : ∀ name h, resolve name = some h → h.name = name)
    (body : Json) :
    Stricter resolve.Missing (Relayed resolve) (handlerOf .remote body)
      (handlerOf resolve body) := by
  rw [handlerOf, handlerOf]
  cases body.string? with
  | none => exact .error
  | some name =>
    dsimp only [Resolver.remote]
    cases hfound : resolve name with
    | none => exact .refused (.intro hfound)
    | some h =>
      obtain rfl := hnames name h hfound
      exact .ok (.handler hfound)

theorem stricter_readNode {fields : List (String × Json)}
    (h : ∀ v, Entries.find? "node" fields = some v →
      Stricter resolve.Missing (Relayed resolve) (read .remote v) (read resolve v)) :
    Stricter resolve.Missing (Relayed resolve) (readNode .remote fields)
      (readNode resolve fields) := by
  rw [readNode_eq_find?, readNode_eq_find?]
  cases hfield : Entries.find? "node" fields with
  | none => exact .error
  | some v => exact h v hfield

/-- **Reading looks at the handlers by name only.** A definition that is read where the handlers are
is read elsewhere, with their names in their places; and it is read in the same way with the
handlers unless a name is missing. -/
theorem stricter_read (hnames : ∀ name h, resolve name = some h → h.name = name) (v : Json) :
    Stricter resolve.Missing (Relayed resolve) (read .remote v) (read resolve v) := by
  induction v using Json.nodeRec with
  | null => exact .ok (.scalar .null)
  | bool b => exact .ok (.scalar (.bool b))
  | number n => exact .ok (.scalar (.number n))
  | string s => exact .ok (.text s)
  | array items ih =>
    rw [read, read, readItems_eq_mapM, readItems_eq_mapM]
    exact (Stricter.mapM ih).map fun _ _ hall ↦ .sequence hall
  | object fields hplain ih =>
    rw [read_object hplain, read_object hplain, readFields_eq_mapM, readFields_eq_mapM]
    have hfields : ∀ f ∈ fields, Stricter resolve.Missing
        (fun e' e : String × Annotated ↦ e'.1 = e.1 ∧ Relayed resolve e'.2 e.2)
        ((read .remote f.2).map (f.1, ·)) ((read resolve f.2).map (f.1, ·)) :=
      fun f hf ↦ (ih f hf).map fun _ _ hrelayed ↦ ⟨rfl, hrelayed⟩
    exact (Stricter.mapM hfields).map fun _ _ hall ↦ .mapping hall
  | marked name body hname ih =>
    rw [read.eq_def, read.eq_def]
    dsimp only
    by_cases hhandler : name = handlerKey
    · rw [if_pos hhandler, if_pos hhandler]
      exact stricter_handlerOf hnames body
    · rw [if_neg hhandler, if_neg hhandler]
      by_cases hreplicate : name = replicateKey
      · rw [if_pos hreplicate, if_pos hreplicate]
        cases body with
        | object fields =>
          dsimp only
          cases replicationHead fields with
          | error e => exact .error
          | ok head =>
            have hnode := stricter_readNode fun v hv ↦ ih fields v rfl hv
            exact hnode.map fun _ _ hrelayed ↦ .replicate hrelayed
        | _ => exact .error
      · rw [if_neg hreplicate, if_neg hreplicate, if_pos hname, if_pos hname]
        exact .error

end Reading

/-! ## Expanding -/

section Expanding

variable {Reason : ExpansionError → Prop} {b : Bindings}

theorem stricter_expandItems {b' : Bindings} {items' items : List Annotated}
    (h : List.Forall₂ (fun node' node ↦ Stricter Reason Expanded.SameJson (expanded node' b')
      (expanded node b)) items' items) :
    Stricter Reason (fun cs' cs ↦ cs'.map Concrete.toJson = cs.map Concrete.toJson)
      (expandItems items' b') (expandItems items b) := by
  induction h with
  | nil => exact .ok rfl
  | cons hfirst _ ih =>
    rw [expandItems_cons_eq_bind, expandItems_cons_eq_bind]
    refine hfirst.bind fun r' r hsame ↦ ?_
    refine ih.map fun cs' cs hall ↦ ?_
    rw [List.map_append, List.map_append, hall, hsame.items]

theorem stricter_expandEntries {b' : Bindings} {entries' entries : List (String × Annotated)}
    {done' done : Entries Concrete}
    (h : List.Forall₂ (fun e' e ↦ b'.apply e'.1 = b.apply e.1 ∧
      Stricter Reason Expanded.SameJson (expanded e'.2 b') (expanded e.2 b)) entries' entries)
    (hdone : Concrete.toJsonFields done' = Concrete.toJsonFields done) :
    Stricter Reason (fun es' es ↦ Concrete.toJsonFields es' = Concrete.toJsonFields es)
      (expandEntries entries' b' done') (expandEntries entries b done) := by
  induction h generalizing done' done with
  | nil => exact .ok hdone
  | @cons e' e _ _ hfirst _ ih =>
    obtain ⟨name', node'⟩ := e'
    obtain ⟨name, node⟩ := e
    obtain ⟨hname, hnode⟩ : b'.apply name' = b.apply name ∧ _ := hfirst
    rw [expandEntries_cons_eq_bind, expandEntries_cons_eq_bind, hname]
    refine hnode.bind fun r' r hsame ↦ ?_
    have hhas : Entries.has (b.apply name) done' = Entries.has (b.apply name) done := by
      rw [← Concrete.has_toJsonFields, hdone, Concrete.has_toJsonFields]
    rw [hhas]
    split
    · exact .error
    · refine ih ?_
      rw [Concrete.toJsonFields_insert, Concrete.toJsonFields_insert, hdone, hsame.node]

theorem stricter_mapping {b' : Bindings} {entries' entries : List (String × Annotated)}
    (h : List.Forall₂ (fun e' e ↦ b'.apply e'.1 = b.apply e.1 ∧
      Stricter Reason Expanded.SameJson (expanded e'.2 b') (expanded e.2 b)) entries' entries) :
    Stricter Reason Expanded.SameJson (expanded (.mapping entries') b')
      (expanded (.mapping entries) b) := by
  rw [expanded, expanded]
  refine (stricter_expandEntries h rfl).map fun es' es hsame ↦ .one ?_
  rw [Concrete.toJson, Concrete.toJson, hsame]

theorem stricter_sequence {b' : Bindings} {items' items : List Annotated}
    (h : List.Forall₂ (fun node' node ↦ Stricter Reason Expanded.SameJson (expanded node' b')
      (expanded node b)) items' items) :
    Stricter Reason Expanded.SameJson (expanded (.sequence items') b')
      (expanded (.sequence items) b) := by
  rw [expanded, expanded]
  refine (stricter_expandItems h).map fun cs' cs hsame ↦ .one ?_
  rw [Concrete.toJson, Concrete.toJson, Concrete.toJsonItems_eq_map,
    Concrete.toJsonItems_eq_map, hsame]

theorem stricter_replicate {b' : Bindings} {token : String} {pool : Int64} {node' node : Annotated}
    (hcheck : checkReplication token pool b' = checkReplication token pool b)
    (h : ∀ i, Stricter Reason Expanded.SameJson (expanded node' (b'.extended token i))
      (expanded node (b.extended token i))) :
    Stricter Reason Expanded.SameJson (expanded (.replicate token pool node') b')
      (expanded (.replicate token pool node) b) := by
  have hcopies : ∀ i ∈ List.range pool.toInt.toNat, Stricter Reason
      (fun c' c : Concrete ↦ c.toJson = c'.toJson)
      ((expanded node' (b'.extended token i)).map Expanded.node)
      ((expanded node (b.extended token i)).map Expanded.node) :=
    fun i _ ↦ (h i).map fun _ _ hsame ↦ hsame.node
  rw [expanded, expanded, hcheck]
  cases checkReplication token pool b with
  | error e => exact .error
  | ok => exact (Stricter.mapM hcopies).map fun _ _ hall ↦ .copies (map_eq_map_of_forall₂ hall)

/-- **Expanding looks at the handlers where it binds them.** -/
theorem stricter_expanded {resolve : Resolver} {node : Annotated}
    (hknown : ∀ around h, node.Holds around (.handler h) → resolve h.name = some h) :
    Stricter resolve.Unbindable Expanded.SameJson (expanded node.remoted b) (expanded node b) := by
  induction node using rec' generalizing b with
  | mapping entries ih =>
    rw [remoted, remotedEntries_eq_map]
    refine stricter_mapping (List.forall₂_map_left_iff.mpr (List.forall₂_same.mpr ?_))
    intro e he
    exact ⟨rfl, ih e he fun around h hinside ↦ hknown around h (.entry he hinside)⟩
  | sequence items ih =>
    rw [remoted, remotedItems_eq_map]
    refine stricter_sequence (List.forall₂_map_left_iff.mpr (List.forall₂_same.mpr ?_))
    intro node hnode
    exact ih node hnode fun around h hinside ↦ hknown around h (.item hnode hinside)
  | text s => exact .ok (.one rfl)
  | handler h =>
    rw [remoted, expanded, expanded, bindHandler, bindHandler]
    by_cases hempty : b.isEmpty = true
    · rw [if_pos hempty, if_pos hempty]
      exact .ok (.one rfl)
    · have hremote : (Handler.elsewhere h.name).acceptsBranch = true := rfl
      rw [if_neg hempty, if_neg hempty, if_pos hremote]
      by_cases haccepts : h.acceptsBranch = true
      · rw [if_pos haccepts]
        exact .ok (.one rfl)
      · rw [if_neg haccepts]
        exact .refused (.intro (hknown _ h .here) (Bool.not_eq_true _ ▸ haccepts))
  | replicate token pool node ih =>
    exact stricter_replicate rfl fun i ↦
      ih fun around h hinside ↦ hknown _ h (.copy hinside)
  | scalar s => exact .ok (.one rfl)

theorem stricter_expand {resolve : Resolver} {node' node : Annotated}
    (h : Relayed resolve node' node) :
    Stricter resolve.Unbindable (fun c' c ↦ c'.toJson = c.toJson) node'.expand node.expand := by
  rw [h.eq_remoted]
  exact (stricter_expanded h.known).map fun _ _ hsame ↦ hsame.node.symm

end Expanding

/-! ## The same document -/

/-- **A definition gives the same document elsewhere.** Take handlers that are registered one after
the other. If a definition can be read and expanded with them, then also with every name taken for a
task carried out elsewhere, and both documents are the same as JSON. If it can be read and expanded
in this second way, then with the handlers, too, unless it names one that is not registered, or has
one inside a replication that takes no branch index. It is the handler registered last that counts
under a name. -/
theorem expand_remote (handlers : List Handler) (v : Json) :
    (∀ node c, read (Registry.ofHandlers handlers).resolver v = .ok node → node.expand = .ok c →
      ∃ node' c', read .remote v = .ok node' ∧ node'.expand = .ok c' ∧ c'.toJson = c.toJson) ∧
    ∀ node' c', read .remote v = .ok node' → node'.expand = .ok c' →
      (∃ name, read (Registry.ofHandlers handlers).resolver v = .error (.unknownHandler name) ∧
        name ∉ handlers.map Handler.name) ∨
      ∃ node, read (Registry.ofHandlers handlers).resolver v = .ok node ∧
        ((∃ c, node.expand = .ok c ∧ c'.toJson = c.toJson) ∨
          ∃ h, node.expand = .error (.handlerArity h.name) ∧
            lastNamed? h.name handlers = some h ∧ h.acceptsBranch = false) := by
  have hlast := Registry.resolver_ofHandlers handlers
  have hnames : ∀ name h, (Registry.ofHandlers handlers).resolver name = some h → h.name = name :=
    fun name h hfound ↦ name_of_lastNamed? (hlast name ▸ hfound)
  have hread := stricter_read hnames v
  constructor
  · intro node c hnode hc
    rw [hnode] at hread
    obtain ⟨node', hnode', hrelayed⟩ := hread.exists_of_ok
    have hexpand := stricter_expand hrelayed
    rw [hc] at hexpand
    obtain ⟨c', hc', hsame⟩ := hexpand.exists_of_ok
    exact ⟨node', c', hnode', hc', hsame⟩
  · intro node' c' hnode' hc'
    rw [hnode'] at hread
    obtain ⟨node, hnode, hrelayed⟩ | ⟨_, herror, @⟨name, hmissing⟩⟩ := hread.ok_or_refused
    · have hexpand := stricter_expand hrelayed
      rw [hc'] at hexpand
      refine .inr ⟨node, hnode, ?_⟩
      obtain hok | ⟨_, herror, @⟨h, hknown, hrefuses⟩⟩ := hexpand.ok_or_refused
      · exact .inl hok
      · exact .inr ⟨h, herror, hlast h.name ▸ hknown, hrefuses⟩
    · exact .inl ⟨name, herror, lastNamed?_eq_none_iff.mp (hlast name ▸ hmissing)⟩

/-- A task with a copy for each of two workers. -/
def sharedTask : Json :=
  .array [.object [("$replicate", .object [("node", .object [("$handler", .string "copy")]),
    ("pool_size", .ofInt64 2), ("template_string", .string "#")])]]

/-- A handler for it. -/
def worker : Handler := .here { name := "copy" }

/-- A handler of the same name that cannot be told which worker it works for. -/
def loner : Handler := .here { name := "copy", acceptsBranch := false }

theorem expand_remote_sharedTask :
    (∃ node' c', read .remote sharedTask = .ok node' ∧ node'.expand = .ok c' ∧
      c'.toJson = .array [.string "copy", .string "copy"]) ∧
    (∃ node h, read (Registry.ofHandlers [worker, loner]).resolver sharedTask = .ok node ∧
      node.expand = .error (.handlerArity h.name) ∧
      lastNamed? h.name [worker, loner] = some h ∧ h.acceptsBranch = false) ∧
    ∃ name, read (Registry.ofHandlers []).resolver sharedTask = .error (.unknownHandler name) ∧
      name ∉ [] := by
  have hread : read (Registry.ofHandlers [loner, worker]).resolver sharedTask
      = .ok (.sequence [.replicate "#" 2 (.handler worker)]) := rfl
  have hremote : read .remote sharedTask
      = .ok (.sequence [.replicate "#" 2 (.handler (.elsewhere "copy"))]) := rfl
  refine ⟨(expand_remote [loner, worker] sharedTask).1 _ _ hread rfl, ?_, ?_⟩
  · obtain ⟨_, herror, _⟩ | ⟨node, hnode, ⟨_, hc, _⟩ | ⟨h, herror, hlast, hrefuses⟩⟩ :=
      (expand_remote [worker, loner] sharedTask).2 _ _ hremote rfl
    · cases herror
    · obtain rfl := Except.ok.inj hnode
      cases hc
    · exact ⟨node, h, hnode, herror, hlast, hrefuses⟩
  · obtain hmissing | ⟨_, hnode, _⟩ := (expand_remote [] sharedTask).2 _ _ hremote rfl
    · exact hmissing
    · cases hnode

end Annotated

end Workflow
