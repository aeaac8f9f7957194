import Workflow.Machine.Document
import Workflow.Proofs.Template.Distinct

/-!
# Ways to a task

A task state inside a document is told by a chain of branches and its name. The same way can be gone
in the typed machine and in the tree that the machine was read from, and it leads to the state and
to the resource that the state was read from.

The way through the tree has two forms. A record may be written as a list of its fields, and reading
a machine goes through such lists (`Concrete.field?`); it may also be restricted to mappings
(`Concrete.get?`).
-/

namespace Workflow

/-! ## In the machine -/

namespace Machine

/-- The machine at the end of a chain of branches. -/
def branchAt? : List (String × Nat) → Machine → Option Machine
  | [], m => some m
  | (name, index) :: chain, m =>
    match m.state? name with
    | some (.parallel branches _) => (branches[index]?).bind (branchAt? chain)
    | _ => none

theorem branchAt?_append {m inner branch : Machine} {chain : List (String × Nat)} {name : String}
    {branches : List Machine} {settings : ParallelSettings} {index : Nat}
    (hchain : m.branchAt? chain = some inner)
    (hs : inner.state? name = some (.parallel branches settings))
    (hbranch : branches[index]? = some branch) :
    m.branchAt? (chain ++ [(name, index)]) = some branch := by
  induction chain generalizing m with
  | nil =>
    obtain rfl : m = inner := Option.some.inj hchain
    rw [List.nil_append, branchAt?, hs]
    simp only [hbranch, Option.bind_some, branchAt?]
  | cons link chain ih =>
    obtain ⟨state, i⟩ := link
    rw [List.cons_append, branchAt?]
    rw [branchAt?] at hchain
    split at hchain
    · rename_i others settings' hstate
      obtain ⟨next, hnext, hrest⟩ := Option.bind_eq_some_iff.mp hchain
      simp only [hnext, Option.bind_some]
      exact ih hrest
    · cases hchain

/-- The task state at the end of a way. -/
def taskAt? (chain : List (String × Nat)) (name : String) (m : Machine) : Option TaskState :=
  match (m.branchAt? chain).bind (state? · name) with
  | some (.task t) => some t
  | _ => none

theorem taskAt?_of_state? {m inner : Machine} {chain : List (String × Nat)} {name : String}
    {t : TaskState} (hchain : m.branchAt? chain = some inner)
    (hs : inner.state? name = some (.task t)) : m.taskAt? chain name = some t := by
  rw [taskAt?, hchain, Option.bind_some, hs]

theorem exists_machine_of_taskAt? {m : Machine} {chain : List (String × Nat)} {name : String}
    {t : TaskState} (h : m.taskAt? chain name = some t) :
    ∃ inner, m.branchAt? chain = some inner ∧ inner.state? name = some (.task t) := by
  unfold taskAt? at h
  split at h
  · rename_i t' hs
    obtain rfl : t' = t := Option.some.inj h
    exact Option.bind_eq_some_iff.mp hs
  · cases h

end Machine

/-! ## In the tree -/

namespace Concrete

/-- Where a record that is given as a list has its field. -/
def fieldIndex (name : String) : Nat := if name = "States" then 3 else 1

/-- The field of a machine or a state, given as a mapping or as a list. -/
def field? (name : String) : Concrete → Option Concrete
  | .mapping entries => Entries.find? name entries
  | .sequence items => items[fieldIndex name]?
  | _ => none

/-- The state of a machine. -/
def stateVia (look : String → Concrete → Option Concrete) (name : String) (c : Concrete) :
    Option Concrete :=
  (look "States" c).bind (get? name)

/-- The branch of a state. -/
def branchVia (look : String → Concrete → Option Concrete) (index : Nat) (c : Concrete) :
    Option Concrete :=
  ((look "Branches" c).bind items?).bind (·[index]?)

/-- The machine at the end of a chain of branches. -/
def machineVia (look : String → Concrete → Option Concrete) :
    List (String × Nat) → Concrete → Option Concrete
  | [], c => some c
  | (name, index) :: chain, c =>
    ((stateVia look name c).bind (branchVia look index)).bind (machineVia look chain)

/-- The resource at the end of a way. -/
def resourceVia (look : String → Concrete → Option Concrete) (chain : List (String × Nat))
    (name : String) (c : Concrete) : Option Concrete :=
  ((machineVia look chain c).bind (stateVia look name)).bind (look "Resource")

theorem field?_of_get? {name : String} {c x : Concrete} (h : get? name c = some x) :
    field? name c = some x := by
  cases c with
  | mapping entries => exact h
  | _ => cases h

/-- A way through mappings is a way. -/
theorem machineVia_of_get? {chain : List (String × Nat)} {c x : Concrete}
    (h : machineVia get? chain c = some x) : machineVia field? chain c = some x := by
  induction chain generalizing c with
  | nil => exact h
  | cons link chain ih =>
    obtain ⟨inner, hinner, hrest⟩ := Option.bind_eq_some_iff.mp h
    obtain ⟨state, hvia, hbranch⟩ := Option.bind_eq_some_iff.mp hinner
    obtain ⟨states, hstates, hs⟩ := Option.bind_eq_some_iff.mp hvia
    obtain ⟨items, hitems, hindex⟩ := Option.bind_eq_some_iff.mp hbranch
    obtain ⟨branches, hbranches, hitems⟩ := Option.bind_eq_some_iff.mp hitems
    rw [machineVia, stateVia, field?_of_get? hstates, Option.bind_some, hs, Option.bind_some,
      branchVia, field?_of_get? hbranches, Option.bind_some, hitems, Option.bind_some, hindex,
      Option.bind_some]
    exact ih hrest

theorem resourceVia_of_get? {chain : List (String × Nat)} {name : String} {c x : Concrete}
    (h : resourceVia get? chain name c = some x) : resourceVia field? chain name c = some x := by
  obtain ⟨state, hvia, hresource⟩ := Option.bind_eq_some_iff.mp h
  obtain ⟨m, hmachine, hvia⟩ := Option.bind_eq_some_iff.mp hvia
  obtain ⟨states, hstates, hs⟩ := Option.bind_eq_some_iff.mp hvia
  rw [resourceVia, machineVia_of_get? hmachine, Option.bind_some, stateVia,
    field?_of_get? hstates, Option.bind_some, hs, Option.bind_some]
  exact field?_of_get? hresource

/-! ## The value of a tree -/

theorem toJson_eq_object {c : Concrete} {fields : List (String × Json)}
    (h : c.toJson = .object fields) :
    ∃ entries, c = .mapping entries ∧ fields = toJsonFields entries := by
  cases c with
  | mapping entries => exact ⟨entries, rfl, (Json.object.inj h).symm⟩
  | scalar s => cases s <;> cases h
  | _ => cases h

theorem toJson_eq_array {c : Concrete} {items : List Json} (h : c.toJson = .array items) :
    ∃ cs, c = .sequence cs ∧ items = toJsonItems cs := by
  cases c with
  | sequence cs => exact ⟨cs, rfl, (Json.array.inj h).symm⟩
  | scalar s => cases s <;> cases h
  | _ => cases h

theorem toJsonItems_eq_map (cs : List Concrete) : toJsonItems cs = cs.map toJson := by
  induction cs with
  | nil => rfl
  | cons c cs ih => rw [toJsonItems, ih, List.map_cons]

theorem toJsonFields_eq_map (entries : List (String × Concrete)) :
    toJsonFields entries = entries.map fun e ↦ (e.1, e.2.toJson) := by
  induction entries with
  | nil => rfl
  | cons e entries ih => rw [toJsonFields, ih, List.map_cons]

theorem names_toJsonFields (entries : List (String × Concrete)) :
    Entries.names (toJsonFields entries) = Entries.names entries := by
  induction entries with
  | nil => rfl
  | cons e entries ih => exact congrArg (e.1 :: ·) ih

theorem find?_toJsonFields (name : String) (entries : List (String × Concrete)) :
    Entries.find? name (toJsonFields entries) = (Entries.find? name entries).map toJson := by
  induction entries with
  | nil => rfl
  | cons e entries ih =>
    rw [toJsonFields, Entries.find?_cons, Entries.find?_cons, ih]
    split <;> rfl

theorem has_toJsonFields (name : String) (entries : List (String × Concrete)) :
    Entries.has name (toJsonFields entries) = Entries.has name entries := by
  rw [Entries.has, find?_toJsonFields, Option.isSome_map, ← Entries.has]

theorem toJsonFields_replace (name : String) (c : Concrete) (entries : List (String × Concrete)) :
    toJsonFields (Entries.replace name c entries)
      = Entries.replace name c.toJson (toJsonFields entries) := by
  induction entries with
  | nil => rfl
  | cons e entries ih =>
    rw [Entries.replace, toJsonFields, Entries.replace]
    split
    · rfl
    · rw [toJsonFields, ih]

theorem toJsonFields_place (name : String) (c : Concrete) (entries : List (String × Concrete)) :
    toJsonFields (Entries.place name c entries)
      = Entries.place name c.toJson (toJsonFields entries) := by
  induction entries with
  | nil => rfl
  | cons e entries ih =>
    rw [Entries.place, toJsonFields, Entries.place]
    split
    · rfl
    · rw [toJsonFields, ih]

theorem toJsonFields_insert (name : String) (c : Concrete) (entries : List (String × Concrete)) :
    toJsonFields (Entries.insert name c entries)
      = Entries.insert name c.toJson (toJsonFields entries) := by
  rw [Entries.insert, Entries.insert, has_toJsonFields]
  split
  · exact toJsonFields_replace name c entries
  · exact toJsonFields_place name c entries

end Concrete

/-! ## What reading has seen -/

theorem find?_of_statesAmong? {inBranch : Bool} {fields : List (String × Json)}
    {states : Entries State} (h : statesAmong? inBranch fields = some states) :
    ∃ v, Entries.find? "States" fields = some v ∧ statesOf? inBranch v = some states := by
  induction fields with
  | nil =>
    rw [statesAmong?] at h
    cases h
  | cons e fields ih =>
    rw [statesAmong?] at h
    rw [Entries.find?_cons]
    split at h
    · rename_i hname
      exact ⟨e.2, if_pos hname, h⟩
    · rename_i hname
      rw [if_neg hname]
      exact ih h

theorem find?_of_branchesAmong? {fields : List (String × Json)} {branches : List Machine}
    (h : branchesAmong? fields = some branches) :
    ∃ v, Entries.find? "Branches" fields = some v ∧ branchesOf? v = some branches := by
  induction fields with
  | nil =>
    rw [branchesAmong?] at h
    cases h
  | cons e fields ih =>
    rw [branchesAmong?] at h
    rw [Entries.find?_cons]
    split at h
    · rename_i hname
      exact ⟨e.2, if_pos hname, h⟩
    · rename_i hname
      rw [if_neg hname]
      exact ih h

theorem find?_of_stateFields? {inBranch : Bool} {fields : List (String × Json)}
    {states : List (String × State)} (h : stateFields? inBranch fields = some states) :
    Entries.names states = Entries.names fields ∧
      ∀ name s, Entries.find? name states = some s →
        ∃ v, Entries.find? name fields = some v ∧ stateOf? inBranch v = some s := by
  induction fields generalizing states with
  | nil =>
    rw [stateFields?] at h
    cases h
    exact ⟨rfl, fun name s hs ↦ by cases hs⟩
  | cons e fields ih =>
    obtain ⟨n, v⟩ := e
    rw [stateFields?] at h
    split at h
    · cases h
    · rename_i s hs
      obtain ⟨rest, hrest, rfl⟩ := Option.map_eq_some_iff.mp h
      obtain ⟨hnames, hfind⟩ := ih hrest
      refine ⟨congrArg (n :: ·) hnames, fun name s' hs' ↦ ?_⟩
      rw [Entries.find?_cons] at hs' ⊢
      split at hs'
      · rename_i hname
        exact ⟨v, if_pos hname, hs.trans hs'⟩
      · rename_i hname
        rw [if_neg hname]
        exact hfind name s' hs'

theorem getElem?_of_branchItems? {items : List Json} {branches : List Machine}
    (h : branchItems? items = some branches) {index : Nat} {m : Machine}
    (hm : branches[index]? = some m) :
    ∃ v, items[index]? = some v ∧ machineOf? true v = some m := by
  induction items generalizing branches index with
  | nil =>
    rw [branchItems?] at h
    cases h
    simp at hm
  | cons v items ih =>
    rw [branchItems?] at h
    split at h
    · cases h
    · rename_i first hfirst
      obtain ⟨rest, hrest, rfl⟩ := Option.map_eq_some_iff.mp h
      cases index with
      | zero => exact ⟨v, rfl, hfirst.trans hm⟩
      | succ index => exact ih hrest hm

theorem string?_eq_some {v : Json} {s : String} (h : v.string? = some s) : v = .string s := by
  cases v with
  | string t => exact congrArg Json.string (Option.some.inj h)
  | _ => cases h

/-- A task state takes its resource from the field, or from the first item of a list. -/
theorem TaskState.resource_of_ofJson? {v : Json} {t : TaskState} (h : ofJson? v = some t) :
    (∃ fields, v = .object fields ∧
      Entries.find? "Resource" fields = some (.string t.resource)) ∨
    ∃ rest, v = .array (.string t.resource :: rest) := by
  obtain ⟨fields, hfields, hresource⟩ : ∃ fields, v.record? ["Resource", "Parameters", "ResultPath",
      "TimeoutSeconds", "Next", "End", "Retry", "Catch", "Comment"] = some fields ∧
        Entries.find? "Resource" fields = some (.string t.resource) := by
    simp only [ofJson?, Option.bind_eq_bind, Option.bind_eq_some_iff] at h
    obtain ⟨fields, hfields, resource, hresource, h⟩ := h
    obtain ⟨value, hvalue, hstring⟩ := Option.bind_eq_some_iff.mp hresource
    refine ⟨fields, hfields, ?_⟩
    obtain ⟨_, _, _, _, _, _, _, _, _, _, _, _, _, _, h⟩ := h
    rw [hvalue, string?_eq_some hstring, ← Option.some.inj h]
  cases v with
  | object given =>
    rw [Json.record?] at hfields
    split at hfields
    · rw [← Option.some.inj hfields] at hresource
      exact .inl ⟨given, rfl, hresource⟩
    · cases hfields
  | array items =>
    rw [Json.record?] at hfields
    split at hfields
    · cases hfields
      cases items with
      | nil => cases hresource
      | cons value rest => exact .inr ⟨rest, by rw [Option.some.inj hresource]⟩
    · cases hfields
  | _ => cases hfields

theorem State.ofBody?_eq_task {kind : StateKind} {branches : Option (List Machine)} {body : Json}
    {t : TaskState} (h : ofBody? kind branches body = some (.task t)) :
    TaskState.ofJson? body = some t := by
  cases kind <;> simp only [ofBody?, Option.bind_eq_bind, Option.bind_eq_some_iff,
    Option.map_eq_some_iff] at h
  case task =>
    obtain ⟨read, hread, heq⟩ := h
    cases heq
    exact hread
  case succeed =>
    obtain ⟨_, _, _, _, heq⟩ := h
    cases heq
  case parallel =>
    obtain ⟨_, _, _, _, heq⟩ := h
    cases heq
  all_goals
    obtain ⟨_, _, heq⟩ := h
    cases heq

theorem State.ofBody?_eq_parallel {kind : StateKind} {branches? : Option (List Machine)}
    {body : Json} {branches : List Machine} {settings : ParallelSettings}
    (h : ofBody? kind branches? body = some (.parallel branches settings)) :
    branches? = some branches := by
  cases kind <;> simp only [ofBody?, Option.bind_eq_bind, Option.bind_eq_some_iff,
    Option.map_eq_some_iff] at h
  case parallel =>
    obtain ⟨_, _, read, hread, heq⟩ := h
    cases heq
    exact hread
  case succeed =>
    obtain ⟨_, _, _, _, heq⟩ := h
    cases heq
  all_goals
    obtain ⟨_, _, heq⟩ := h
    cases heq

/-- A state is read from its fields, or from the items behind its tag. -/
theorem ofBody?_of_stateOf? {inBranch : Bool} {v : Json} {s : State}
    (h : stateOf? inBranch v = some s) :
    (∃ kind fields, v = .object fields ∧
      State.ofBody? kind (branchesAmong? fields) (.object fields) = some s) ∨
    ∃ kind tag items, v = .array (tag :: items) ∧
      State.ofBody? kind (firstBranches? items) (.array items) = some s := by
  unfold stateOf? at h
  split at h
  · split at h
    · cases h
    · exact .inl ⟨_, _, rfl, h⟩
  · split at h
    · cases h
    · exact .inr ⟨_, _, _, rfl, h⟩
  · cases h

theorem Machine.states_of_ofFields? {states : Entries State} {fields : Entries Json} {m : Machine}
    (h : ofFields? states fields = some m) : m.states = states := by
  simp only [ofFields?, Option.bind_eq_bind, Option.bind_eq_some_iff] at h
  obtain ⟨_, _, _, _, _, _, h⟩ := h
  rw [← Option.some.inj h]

/-! ## Both at once -/

namespace Concrete

theorem Distinct.field? {c x : Concrete} {name : String} (hc : c.Distinct)
    (hx : c.field? name = some x) : x.Distinct := by
  cases hc with
  | mapping _ values => exact values _ (Entries.mem_of_find? hx)
  | sequence each => exact each _ (List.mem_of_getElem? hx)
  | _ => cases hx

theorem field?_of_machineOf? {inBranch : Bool} {c : Concrete} {m : Machine}
    (hm : machineOf? inBranch c.toJson = some m) :
    ∃ x, c.field? "States" = some x ∧ statesOf? inBranch x.toJson = some m.states := by
  unfold machineOf? at hm
  split at hm
  · rename_i fields hfields
    obtain ⟨entries, rfl, rfl⟩ := toJson_eq_object hfields
    split at hm
    · rename_i states _ hstates
      obtain ⟨v, hv, hread⟩ := find?_of_statesAmong? hstates
      rw [find?_toJsonFields] at hv
      obtain ⟨x, hx, rfl⟩ := Option.map_eq_some_iff.mp hv
      rw [Machine.states_of_ofFields? hm]
      exact ⟨x, hx, hread⟩
    · cases hm
  · -- the states are the last item of the list
    rename_i states hitems
    obtain ⟨cs, rfl, hcs⟩ := toJson_eq_array hitems
    split at hm
    · rename_i read hread
      rw [toJsonItems_eq_map] at hcs
      have hlast := congrArg (·[3]?) hcs
      simp only [List.getElem?_map] at hlast
      obtain ⟨x, hx, rfl⟩ := Option.map_eq_some_iff.mp hlast.symm
      rw [Machine.states_of_ofFields? hm]
      exact ⟨x, hx, hread⟩
    · cases hm
  · cases hm

theorem stateVia_of_machineOf? {inBranch : Bool} {c : Concrete} {m : Machine} (hc : c.Distinct)
    (hm : machineOf? inBranch c.toJson = some m) {name : String} {s : State}
    (hs : m.state? name = some s) :
    ∃ x, stateVia field? name c = some x ∧ stateOf? inBranch x.toJson = some s ∧ x.Distinct := by
  obtain ⟨states, hstates, hread⟩ := field?_of_machineOf? hm
  unfold statesOf? at hread
  split at hread
  · rename_i fields hfields
    obtain ⟨entries, rfl, rfl⟩ := toJson_eq_object hfields
    obtain ⟨read, hread, hcollect⟩ := Option.map_eq_some_iff.mp hread
    obtain ⟨hnames, hfind⟩ := find?_of_stateFields? hread
    cases hc.field? hstates with
    | mapping names values =>
      rw [Machine.state?, ← hcollect, Entries.find?_collect] at hs
      · obtain ⟨v, hv, hstate⟩ := hfind name s hs
        rw [find?_toJsonFields] at hv
        obtain ⟨x, hx, rfl⟩ := Option.map_eq_some_iff.mp hv
        refine ⟨x, ?_, hstate, values _ (Entries.mem_of_find? hx)⟩
        rw [stateVia, hstates]
        exact hx
      · rw [hnames, names_toJsonFields]
        exact names
  · cases hread

theorem resource_of_stateOf? {inBranch : Bool} {c : Concrete} {t : TaskState}
    (h : stateOf? inBranch c.toJson = some (.task t)) :
    ∃ x, c.field? "Resource" = some x ∧ x.toJson = .string t.resource := by
  rcases ofBody?_of_stateOf? h with ⟨kind, fields, hv, hbody⟩ | ⟨kind, tag, items, hv, hbody⟩
  · obtain ⟨entries, rfl, rfl⟩ := toJson_eq_object hv
    rcases TaskState.resource_of_ofJson? (State.ofBody?_eq_task hbody)
      with ⟨fields, hfields, hfind⟩ | ⟨rest, hrest⟩
    · rw [← Json.object.inj hfields, find?_toJsonFields] at hfind
      exact Option.map_eq_some_iff.mp hfind
    · cases hrest
  · obtain ⟨cs, rfl, hcs⟩ := toJson_eq_array hv
    rcases TaskState.resource_of_ofJson? (State.ofBody?_eq_task hbody)
      with ⟨fields, hfields, -⟩ | ⟨rest, hrest⟩
    · cases hfields
    · -- the resource comes after the tag
      have hsecond := congrArg (·[1]?) hcs
      rw [Json.array.inj hrest, toJsonItems_eq_map] at hsecond
      simp only [List.getElem?_map] at hsecond
      exact Option.map_eq_some_iff.mp hsecond.symm

theorem branchVia_of_branchesOf? {c x : Concrete} {branches : List Machine} (hc : c.Distinct)
    (hx : c.field? "Branches" = some x) (h : branchesOf? x.toJson = some branches) {index : Nat}
    {m : Machine} (hm : branches[index]? = some m) :
    ∃ x, branchVia field? index c = some x ∧ machineOf? true x.toJson = some m ∧ x.Distinct := by
  unfold branchesOf? at h
  split at h
  · rename_i items hitems
    obtain ⟨cs, rfl, rfl⟩ := toJson_eq_array hitems
    obtain ⟨v, hv, hread⟩ := getElem?_of_branchItems? h hm
    rw [toJsonItems_eq_map, List.getElem?_map] at hv
    obtain ⟨branch, hbranch, rfl⟩ := Option.map_eq_some_iff.mp hv
    cases hc.field? hx with
    | sequence each =>
      refine ⟨branch, ?_, hread, each _ (List.mem_of_getElem? hbranch)⟩
      rw [branchVia, hx]
      exact hbranch
  · cases h

theorem branchVia_of_stateOf? {inBranch : Bool} {c : Concrete} {branches : List Machine}
    {settings : ParallelSettings} (hc : c.Distinct)
    (h : stateOf? inBranch c.toJson = some (.parallel branches settings)) {index : Nat}
    {m : Machine} (hm : branches[index]? = some m) :
    ∃ x, branchVia field? index c = some x ∧ machineOf? true x.toJson = some m ∧ x.Distinct := by
  rcases ofBody?_of_stateOf? h with ⟨kind, fields, hv, hbody⟩ | ⟨kind, tag, items, hv, hbody⟩
  · obtain ⟨entries, rfl, rfl⟩ := toJson_eq_object hv
    obtain ⟨v, hv, hread⟩ := find?_of_branchesAmong? (State.ofBody?_eq_parallel hbody)
    rw [find?_toJsonFields] at hv
    obtain ⟨x, hx, rfl⟩ := Option.map_eq_some_iff.mp hv
    exact branchVia_of_branchesOf? hc hx hread hm
  · obtain ⟨cs, rfl, hcs⟩ := toJson_eq_array hv
    have hread := State.ofBody?_eq_parallel hbody
    cases items with
    | nil =>
      rw [firstBranches?] at hread
      cases hread
    | cons first rest =>
      rw [firstBranches?] at hread
      have hsecond := congrArg (·[1]?) hcs
      rw [toJsonItems_eq_map] at hsecond
      simp only [List.getElem?_map] at hsecond
      obtain ⟨x, hx, rfl⟩ := Option.map_eq_some_iff.mp hsecond.symm
      exact branchVia_of_branchesOf? hc hx hread hm

theorem machineVia_of_branchAt? {inBranch : Bool} {c : Concrete} {m inner : Machine}
    (hc : c.Distinct) (hm : machineOf? inBranch c.toJson = some m) {chain : List (String × Nat)}
    (hinner : m.branchAt? chain = some inner) :
    ∃ x inBranch, machineVia field? chain c = some x ∧
      machineOf? inBranch x.toJson = some inner ∧ x.Distinct := by
  -- the machines further in are branches, whatever the first one is
  induction chain generalizing inBranch c m with
  | nil =>
    cases hinner
    exact ⟨c, inBranch, rfl, hm, hc⟩
  | cons link chain ih =>
    obtain ⟨name, index⟩ := link
    rw [Machine.branchAt?] at hinner
    split at hinner
    · rename_i branches settings hs
      obtain ⟨branch, hbranch, hinner⟩ := Option.bind_eq_some_iff.mp hinner
      obtain ⟨state, hvia, hread, hstate⟩ := stateVia_of_machineOf? hc hm hs
      obtain ⟨next, hnext, hmachine, hdistinct⟩ := branchVia_of_stateOf? hstate hread hbranch
      obtain ⟨x, inBranch, hx, hrest⟩ := ih hdistinct hmachine hinner
      refine ⟨x, inBranch, ?_, hrest⟩
      rw [machineVia, hvia, Option.bind_some, hnext, Option.bind_some, hx]
    · cases hinner

/-- **The way through the tree.** The resource of every task state of a machine is found in the
tree that the machine was read from, at the end of the same way. -/
theorem resourceVia_of_taskAt? {inBranch : Bool} {c : Concrete} {m : Machine} (hc : c.Distinct)
    (hm : machineOf? inBranch c.toJson = some m) {chain : List (String × Nat)} {name : String}
    {t : TaskState} (ht : m.taskAt? chain name = some t) :
    ∃ x, resourceVia field? chain name c = some x ∧ x.toJson = .string t.resource := by
  unfold Machine.taskAt? at ht
  split at ht
  · rename_i task htask
    rw [Option.some.inj ht] at htask
    obtain ⟨inner, hinner, hs⟩ := Option.bind_eq_some_iff.mp htask
    obtain ⟨y, inBranch, hy, hread, hdistinct⟩ := machineVia_of_branchAt? hc hm hinner
    obtain ⟨state, hstate, hread, -⟩ := stateVia_of_machineOf? hdistinct hread hs
    obtain ⟨x, hx, hresource⟩ := resource_of_stateOf? hread
    refine ⟨x, ?_, hresource⟩
    rw [resourceVia, hy, Option.bind_some, hstate, Option.bind_some, hx]
  · cases ht

end Concrete

end Workflow
