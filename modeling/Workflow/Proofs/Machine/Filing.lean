import Mathlib.Data.List.Nodup
import Workflow.Proofs.Machine.Ways

/-!
# What is filed

Filing goes through the tree once and looks at mappings only. `filings` lists what it finds, in the
order of the document, with the chain of branches that leads there; `mem_filings_iff` says that
these are the handlers that are found at the end of a way when no list is taken for a record.

The table is made of this list entry by entry, and chains are written as texts on the way. What was
filed last under a text is what the table has, so an entry that shares its text with a later one is
gone.
-/

namespace Workflow

/-- A handler, with the way to the state it belongs to. -/
structure Filing where
  chain : List (String × Nat)
  state : String
  handler : Handler

namespace Filing

/-- What the handler is filed under. -/
def label (f : Filing) : Scope × String := (Scope.ofChain f.chain, f.state)

end Filing

namespace Concrete

/-! ## The list -/

/-- The states of a machine that is a mapping. -/
def stateEntries (c : Concrete) : List (String × Concrete) :=
  match c.get? "States" with
  | some (.mapping states) => states
  | _ => []

/-- The branches of a state that is a mapping. -/
def branchItems (c : Concrete) : List Concrete :=
  match c.get? "Branches" with
  | some (.sequence items) => items
  | _ => []

theorem sizeOf_le_of_get? {name : String} {c x : Concrete} (h : c.get? name = some x) :
    sizeOf x ≤ sizeOf c := by
  cases c with
  | mapping entries =>
    have hentry := List.sizeOf_lt_of_mem (Entries.mem_of_find? h)
    simp only [Prod.mk.sizeOf_spec, mapping.sizeOf_spec] at hentry ⊢
    omega
  | _ => cases h

theorem one_le_sizeOf (c : Concrete) : 1 ≤ sizeOf c := by
  cases c <;> simp only [mapping.sizeOf_spec, sequence.sizeOf_spec, text.sizeOf_spec,
    handler.sizeOf_spec, scalar.sizeOf_spec] <;> omega

theorem sizeOf_stateEntries_le (c : Concrete) : sizeOf c.stateEntries ≤ sizeOf c := by
  unfold stateEntries
  split
  · rename_i states h
    have := sizeOf_le_of_get? h
    simp only [mapping.sizeOf_spec] at this
    omega
  · exact one_le_sizeOf c

theorem sizeOf_branchItems_le (c : Concrete) : sizeOf c.branchItems ≤ sizeOf c := by
  unfold branchItems
  split
  · rename_i items h
    have := sizeOf_le_of_get? h
    simp only [sequence.sizeOf_spec] at this
    omega
  · exact one_le_sizeOf c

mutual

/-- The handlers of a machine and its branches. -/
def filings (chain : List (String × Nat)) (c : Concrete) : List Filing :=
  filingsOfStates chain c.stateEntries
termination_by 2 * sizeOf c + 1
decreasing_by
  have := sizeOf_stateEntries_le c
  omega

/-- The handler of a state comes before those of its branches. -/
def filingsOfStates (chain : List (String × Nat)) : List (String × Concrete) → List Filing
  | [] => []
  | (name, c) :: states =>
    ((c.get? "Resource").bind handler?).toList.map (fun h ↦ ⟨chain, name, h⟩)
      ++ filingsOfBranches chain name 0 c.branchItems ++ filingsOfStates chain states
termination_by states => 2 * sizeOf states
decreasing_by
  · have := sizeOf_branchItems_le c
    simp only [List.cons.sizeOf_spec, Prod.mk.sizeOf_spec]
    omega
  · simp only [List.cons.sizeOf_spec]
    omega

def filingsOfBranches (chain : List (String × Nat)) (name : String) (index : Nat) :
    List Concrete → List Filing
  | [] => []
  | c :: cs =>
    filings (chain ++ [(name, index)]) c ++ filingsOfBranches chain name (index + 1) cs
termination_by cs => 2 * sizeOf cs
decreasing_by
  · simp only [List.cons.sizeOf_spec]
    omega
  · simp only [List.cons.sizeOf_spec]
    omega

end

/-! ## Every handler at the end of a way -/

theorem stateVia_get? {name : String} {c s : Concrete} :
    stateVia get? name c = some s ↔ Entries.find? name c.stateEntries = some s := by
  rw [stateVia, stateEntries]
  cases c.get? "States" with
  | none => simp
  | some states => cases states <;> simp [get?]

theorem branchVia_get? {index : Nat} {c b : Concrete} :
    branchVia get? index c = some b ↔ c.branchItems[index]? = some b := by
  rw [branchVia, branchItems]
  cases c.get? "Branches" with
  | none => simp
  | some branches => cases branches <;> simp [items?]

theorem handler?_eq_some {c : Concrete} {h : Handler} (hc : c.handler? = some h) :
    c = .handler h := by
  cases c with
  | handler h' => rw [Option.some.inj hc]
  | _ => cases hc

theorem Distinct.stateEntries {c : Concrete} (hc : c.Distinct) :
    (Entries.names c.stateEntries).Nodup ∧ ∀ e ∈ c.stateEntries, e.2.Distinct := by
  unfold Concrete.stateEntries
  split
  · rename_i states hstates
    cases hc.field? (field?_of_get? hstates) with
    | mapping names values => exact ⟨names, values⟩
  · exact ⟨.nil, by simp⟩

theorem Distinct.branchItems {c : Concrete} (hc : c.Distinct) :
    ∀ b ∈ c.branchItems, b.Distinct := by
  unfold Concrete.branchItems
  split
  · rename_i items hitems
    cases hc.field? (field?_of_get? hitems) with
    | sequence each => exact each
  · simp

/-- The entry is found at the end of a way through mappings, from a machine at the end of
`chain`. -/
def Reaches (chain : List (String × Nat)) (c : Concrete) (f : Filing) : Prop :=
  ∃ rest, f.chain = chain ++ rest ∧ resourceVia get? rest f.state c = some (.handler f.handler)

theorem reaches_iff {chain : List (String × Nat)} {c : Concrete} {f : Filing} :
    Reaches chain c f ↔ ∃ name s, stateVia get? name c = some s ∧
      ((f.chain = chain ∧ f.state = name ∧ s.get? "Resource" = some (.handler f.handler)) ∨
        ∃ (index : Nat) (b : Concrete), s.branchItems[index]? = some b ∧
          Reaches (chain ++ [(name, index)]) b f) := by
  constructor
  · rintro ⟨rest, hchain, hway⟩
    obtain ⟨s, hstate, hresource⟩ := Option.bind_eq_some_iff.mp hway
    cases rest with
    | nil =>
      rw [List.append_nil] at hchain
      exact ⟨f.state, s, hstate, .inl ⟨hchain, rfl, hresource⟩⟩
    | cons link rest =>
      obtain ⟨name, index⟩ := link
      obtain ⟨inner, hmachine, hs⟩ := Option.bind_eq_some_iff.mp hstate
      obtain ⟨b, hbranch, hinner⟩ := Option.bind_eq_some_iff.mp hmachine
      obtain ⟨outer, houter, hb⟩ := Option.bind_eq_some_iff.mp hbranch
      refine ⟨name, outer, houter, .inr ⟨index, b, branchVia_get?.mp hb, rest, ?_, ?_⟩⟩
      · rw [hchain, List.append_assoc]
        rfl
      · rw [resourceVia, hinner, Option.bind_some, hs, Option.bind_some, hresource]
  · rintro ⟨name, s, hs, ⟨hchain, hname, hresource⟩ | ⟨index, b, hb, rest, hchain, hresource⟩⟩
    · refine ⟨[], by rw [List.append_nil, hchain], ?_⟩
      rw [resourceVia, machineVia, Option.bind_some, hname, hs, Option.bind_some, hresource]
    · refine ⟨(name, index) :: rest, by rw [hchain, List.append_assoc]; rfl, ?_⟩
      rw [resourceVia, machineVia, hs, Option.bind_some, branchVia_get?.mpr hb, Option.bind_some]
      exact hresource

mutual

/-- **What is listed** are the handlers that are found at the end of a way through mappings. -/
theorem mem_filings_iff {c : Concrete} (hc : c.Distinct) {chain : List (String × Nat)}
    {f : Filing} : f ∈ c.filings chain ↔ Reaches chain c f := by
  obtain ⟨hnames, hvalues⟩ := hc.stateEntries
  rw [filings, mem_filingsOfStates_iff hvalues, reaches_iff, Prod.exists]
  refine exists_congr fun name ↦ exists_congr fun s ↦ and_congr_left fun _ ↦ ?_
  rw [stateVia_get?, Entries.find?_eq_some_iff hnames]
termination_by 2 * sizeOf c + 1
decreasing_by
  have := sizeOf_stateEntries_le c
  omega

private theorem mem_filingsOfStates_iff {chain : List (String × Nat)} {f : Filing} :
    ∀ {states : List (String × Concrete)}, (∀ e ∈ states, e.2.Distinct) →
      (f ∈ filingsOfStates chain states ↔ ∃ e ∈ states,
        (f.chain = chain ∧ f.state = e.1 ∧ e.2.get? "Resource" = some (.handler f.handler)) ∨
          ∃ (index : Nat) (b : Concrete), e.2.branchItems[index]? = some b ∧
            Reaches (chain ++ [(e.1, index)]) b f)
  | [], _ => by simp [filingsOfStates]
  | (name, c) :: states, hvalues => by
    obtain ⟨hc, hstates⟩ := List.forall_mem_cons.mp hvalues
    have hown : f ∈ ((c.get? "Resource").bind handler?).toList.map (fun h ↦ ⟨chain, name, h⟩) ↔
        f.chain = chain ∧ f.state = name ∧ c.get? "Resource" = some (.handler f.handler) := by
      constructor
      · intro hmem
        obtain ⟨h, hh, rfl⟩ := List.mem_map.mp hmem
        obtain ⟨x, hx, hhandler⟩ := Option.bind_eq_some_iff.mp (Option.mem_toList.mp hh)
        exact ⟨rfl, rfl, by rw [hx, handler?_eq_some hhandler]⟩
      · rintro ⟨rfl, rfl, h⟩
        simp [h, handler?]
    rw [filingsOfStates, List.mem_append, List.mem_append, hown,
      mem_filingsOfBranches_iff hc.branchItems, mem_filingsOfStates_iff hstates]
    simp only [List.mem_cons, exists_eq_or_imp, Nat.zero_add]
termination_by states => 2 * sizeOf states
decreasing_by
  · have := sizeOf_branchItems_le c
    simp only [List.cons.sizeOf_spec, Prod.mk.sizeOf_spec]
    omega
  · simp only [List.cons.sizeOf_spec]
    omega

private theorem mem_filingsOfBranches_iff {chain : List (String × Nat)} {name : String}
    {f : Filing} :
    ∀ {start : Nat} {cs : List Concrete}, (∀ c ∈ cs, c.Distinct) →
      (f ∈ filingsOfBranches chain name start cs ↔
        ∃ (index : Nat) (b : Concrete), cs[index]? = some b ∧
          Reaches (chain ++ [(name, start + index)]) b f)
  | _, [], _ => by simp [filingsOfBranches]
  | start, c :: cs, hcs => by
    obtain ⟨hc, hcs⟩ := List.forall_mem_cons.mp hcs
    rw [filingsOfBranches, List.mem_append, mem_filings_iff hc, mem_filingsOfBranches_iff hcs]
    constructor
    · rintro (h | ⟨index, b, hb, h⟩)
      · exact ⟨0, c, rfl, h⟩
      · rw [Nat.add_right_comm] at h
        exact ⟨index + 1, b, hb, h⟩
    · rintro ⟨index, b, hb, h⟩
      cases index with
      | zero =>
        rw [← Option.some.inj hb] at h
        exact .inl h
      | succ index =>
        rw [← Nat.add_assoc, ← Nat.add_right_comm] at h
        exact .inr ⟨index, b, hb, h⟩
termination_by _ cs => 2 * sizeOf cs
decreasing_by
  · simp only [List.cons.sizeOf_spec]
    omega
  · simp only [List.cons.sizeOf_spec]
    omega

end

/-- Branches that are made from their indices. -/
theorem filingsOfBranches_map (chain : List (String × Nat)) (name : String) (f : Nat → Concrete)
    (n start : Nat) :
    filingsOfBranches chain name start ((List.range' start n).map f)
      = (List.range' start n).flatMap fun i ↦ (f i).filings (chain ++ [(name, i)]) := by
  induction n generalizing start with
  | zero => rw [List.range'_zero, List.map_nil, filingsOfBranches, List.flatMap_nil]
  | succ n ih =>
    rw [List.range'_succ, List.map_cons, filingsOfBranches, ih, List.flatMap_cons]

end Concrete

/-! ## The table -/

namespace HandlerTable

/-- Files an entry of the list. -/
def file (t : HandlerTable) (f : Filing) : HandlerTable := t.insert f.label.1 f.label.2 f.handler

end HandlerTable

/-- What was filed last under a label. -/
def lastFiled? (label : Scope × String) (filings : List Filing) : Option Handler :=
  (filings.reverse.find? fun f ↦ f.label = label).map Filing.handler

theorem get?_foldl_file (filings : List Filing) (t : HandlerTable) (scope : Scope)
    (state : String) :
    (filings.foldl HandlerTable.file t).get? scope state
      = (lastFiled? (scope, state) filings).or (t.get? scope state) := by
  have hself : ∀ (t : HandlerTable) (f : Filing),
      (t.file f).get? f.label.1 f.label.2 = some f.handler :=
    fun t f ↦ HandlerTable.get?_insert_self t _ _ _
  have hne : ∀ (t : HandlerTable) (f : Filing) (label : Scope × String), label ≠ f.label →
      (t.file f).get? label.1 label.2 = t.get? label.1 label.2 :=
    fun t f _ h ↦ HandlerTable.get?_insert_of_ne t f.handler h
  exact Entries.lookup_foldl (fun t label ↦ t.get? label.1 label.2) hself hne filings t
    (scope, state)

theorem lastFiled?_eq_none_iff {label : Scope × String} {filings : List Filing} :
    lastFiled? label filings = none ↔ ∀ f ∈ filings, f.label ≠ label := by
  simp [lastFiled?]

/-- What a label brings back was filed under it. -/
theorem mem_of_lastFiled? {label : Scope × String} {filings : List Filing} {h : Handler}
    (hlast : lastFiled? label filings = some h) :
    ∃ f ∈ filings, f.label = label ∧ f.handler = h := by
  obtain ⟨f, hf, hhandler⟩ := Option.map_eq_some_iff.mp hlast
  refine ⟨f, List.mem_reverse.mp (List.mem_of_find?_eq_some hf), ?_, hhandler⟩
  simpa using List.find?_some hf

/-- What is filed under a label of its own is what the label brings back. -/
theorem lastFiled?_of_nodup {filings : List Filing} (h : (filings.map Filing.label).Nodup)
    {f : Filing} (hf : f ∈ filings) : lastFiled? f.label filings = some f.handler := by
  cases hlast : lastFiled? f.label filings with
  | none => exact absurd rfl (lastFiled?_eq_none_iff.mp hlast f hf)
  | some found =>
    obtain ⟨g, hg, hlabel, rfl⟩ := mem_of_lastFiled? hlast
    rw [List.inj_on_of_nodup_map h hg hf hlabel]

theorem HandlerTable.file_entries {t : HandlerTable} {f : Filing}
    (h : f.label ∉ t.entries.map Prod.fst) :
    (t.file f).entries = (f.label, f.handler) :: t.entries := by
  have hkeep : t.entries.filter (fun e ↦ e.1 ≠ f.label) = t.entries := by
    refine List.filter_eq_self.mpr fun e he ↦ decide_eq_true fun heq ↦ h ?_
    exact heq ▸ List.mem_map_of_mem he
  exact congrArg ((f.label, f.handler) :: ·) hkeep

/-- Entries with labels of their own are all kept. -/
theorem HandlerTable.size_foldl_file {filings : List Filing} {t : HandlerTable}
    (h : (t.entries.map Prod.fst ++ filings.map Filing.label).Nodup) :
    (filings.foldl file t).size = t.size + filings.length := by
  induction filings generalizing t with
  | nil => rfl
  | cons f filings ih =>
    have hnew : f.label ∉ t.entries.map Prod.fst := fun hmem ↦
      List.disjoint_of_nodup_append h hmem List.mem_cons_self
    -- the new entry stands in front of the table
    have hrest : ((t.file f).entries.map Prod.fst ++ filings.map Filing.label).Nodup := by
      rw [file_entries hnew]
      exact (List.perm_middle.nodup_iff).mp h
    rw [List.foldl_cons, ih hrest, size, size, file_entries hnew, List.length_cons,
      List.length_cons, Nat.add_right_comm, Nat.add_assoc]

/-- A machine looks for its states in one place. -/
theorem fileMachine_eq (scope : Scope) (c : Concrete) (t : HandlerTable) :
    fileMachine scope c t = fileStateEntries scope c.stateEntries t := by
  have key : ∀ fields, fileMachineFields scope fields t
      = fileStateEntries scope (Concrete.mapping fields).stateEntries t := by
    intro fields
    induction fields with
    | nil => rfl
    | cons e fields ih =>
      obtain ⟨name, x⟩ := e
      rw [fileMachineFields]
      by_cases hname : name = "States"
      · cases x <;> simp [hname, Concrete.stateEntries, Concrete.get?, Entries.find?_cons,
          fileStates, fileStateEntries]
      · rw [if_neg hname, ih]
        simp [Concrete.stateEntries, Concrete.get?, Entries.find?_cons, hname]
  cases c with
  | mapping fields =>
    rw [fileMachine]
    exact key fields
  | _ => simp [fileMachine, Concrete.stateEntries, Concrete.get?, fileStateEntries]

/-- A state looks for its branches in one place. -/
theorem fileState_eq (scope : Scope) (name : String) (c : Concrete) (t : HandlerTable) :
    fileState scope name c t = fileBranchItems scope name 0 c.branchItems t := by
  have key : ∀ fields, fileStateFields scope name fields t
      = fileBranchItems scope name 0 (Concrete.mapping fields).branchItems t := by
    intro fields
    induction fields with
    | nil => rfl
    | cons e fields ih =>
      obtain ⟨field, x⟩ := e
      rw [fileStateFields]
      by_cases hfield : field = "Branches"
      · cases x <;> simp [hfield, Concrete.branchItems, Concrete.get?, Entries.find?_cons,
          fileBranches, fileBranchItems]
      · rw [if_neg hfield, ih]
        simp [Concrete.branchItems, Concrete.get?, Entries.find?_cons, hfield]
  cases c with
  | mapping fields =>
    rw [fileState]
    exact key fields
  | _ => simp [fileState, Concrete.branchItems, Concrete.get?, fileBranchItems]

mutual

/-- **Filing a machine** is filing its list, entry by entry. -/
theorem fileMachine_ofChain (chain : List (String × Nat)) (c : Concrete) (t : HandlerTable) :
    fileMachine (Scope.ofChain chain) c t = (c.filings chain).foldl HandlerTable.file t := by
  rw [fileMachine_eq, Concrete.filings, fileStateEntries_ofChain]
termination_by 2 * sizeOf c + 1
decreasing_by
  have := Concrete.sizeOf_stateEntries_le c
  omega

private theorem fileStateEntries_ofChain (chain : List (String × Nat)) :
    ∀ (states : List (String × Concrete)) (t : HandlerTable),
      fileStateEntries (Scope.ofChain chain) states t
        = (Concrete.filingsOfStates chain states).foldl HandlerTable.file t
  | [], t => by rw [fileStateEntries, Concrete.filingsOfStates, List.foldl_nil]
  | (name, c) :: states, t => by
    rw [fileStateEntries, Concrete.filingsOfStates, List.foldl_append, List.foldl_append,
      fileStateEntries_ofChain chain states, fileState_eq, fileBranchItems_ofChain]
    cases (c.get? "Resource").bind Concrete.handler? <;> rfl
termination_by states => 2 * sizeOf states
decreasing_by
  · simp only [List.cons.sizeOf_spec]
    omega
  · have := Concrete.sizeOf_branchItems_le c
    simp only [List.cons.sizeOf_spec, Prod.mk.sizeOf_spec]
    omega

private theorem fileBranchItems_ofChain (chain : List (String × Nat)) (name : String) :
    ∀ (index : Nat) (cs : List Concrete) (t : HandlerTable),
      fileBranchItems (Scope.ofChain chain) name index cs t
        = (Concrete.filingsOfBranches chain name index cs).foldl HandlerTable.file t
  | _, [], t => by rw [fileBranchItems, Concrete.filingsOfBranches, List.foldl_nil]
  | index, c :: cs, t => by
    rw [fileBranchItems, Concrete.filingsOfBranches, List.foldl_append, ← Scope.ofChain_append,
      fileMachine_ofChain, fileBranchItems_ofChain chain name (index + 1) cs]
termination_by _ cs => 2 * sizeOf cs
decreasing_by
  · simp only [List.cons.sizeOf_spec]
    omega
  · simp only [List.cons.sizeOf_spec]
    omega

end

end Workflow
