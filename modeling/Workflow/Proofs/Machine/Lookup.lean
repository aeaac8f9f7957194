import Workflow.Machine.Check
import Workflow.Proofs.Machine.Filing
import Workflow.Proofs.Machine.ScopeText

/-!
# Looking up the handler of a task

A run asks the table of its document for the handler of a task state, by the text of the scope and
the name of the state. The answer ought to be the handler that stands at the resource of the state,
if one stands there.

Two things are in the way. Filing sees mappings only, and a machine may be read from lists. And the
text of a scope does not always tell the way to it, so that a handler filed later may be in the
place of the own one. `finds_iff_of_taskAt?` says what is found in every case, and that everything
is in order when the way goes through mappings and no other way has the same text; names without a
slash are enough for the latter. The names in a mapping are distinct, as they are in every expansion
(`Annotated.distinct_of_expandIn`).
-/

namespace Workflow

namespace WorkflowDocument

/-- The table answers for a state with the handler that is its resource, and with nothing if its
resource is no handler. -/
def Finds (d : WorkflowDocument) (chain : List (String × Nat)) (name : String)
    (resource : Concrete) : Prop :=
  ∀ h, d.handler? (Scope.ofChain chain) name = some h ↔ resource = .handler h

theorem finds_iff {d : WorkflowDocument} {chain : List (String × Nat)} {name : String}
    {x : Concrete} :
    d.Finds chain name x ↔ d.handler? (Scope.ofChain chain) name = x.handler? := by
  have hx : ∀ h, x = .handler h ↔ x.handler? = some h := by
    intro h
    refine ⟨fun hx ↦ by rw [hx]; rfl, Concrete.handler?_eq_some⟩
  constructor
  · intro hfinds
    refine Option.ext fun h ↦ ?_
    rw [hfinds h, hx]
  · intro heq h
    rw [heq, hx]

theorem handler?_eq_lastFiled? {c : Concrete} {d : WorkflowDocument} (hd : ofConcrete? c = some d)
    (chain : List (String × Nat)) (name : String) :
    d.handler? (Scope.ofChain chain) name
      = lastFiled? (Scope.ofChain chain, name) (c.filings []) := by
  obtain ⟨machine, -, rfl⟩ := Option.map_eq_some_iff.mp hd
  rw [handler?, ← Scope.ofChain_nil, fileMachine_ofChain, get?_foldl_file]
  exact Option.or_none

/-- A label that belongs to one way only brings back what stands there. -/
theorem lastFiled?_of_unique {c x : Concrete} (hc : c.Distinct) {chain : List (String × Nat)}
    {name : String} (hx : Concrete.resourceVia Concrete.get? chain name c = some x)
    (hunique : ∀ other h, Concrete.resourceVia Concrete.get? other name c = some (.handler h) →
      Scope.ofChain other = Scope.ofChain chain → other = chain) :
    lastFiled? (Scope.ofChain chain, name) (c.filings []) = x.handler? := by
  cases hlast : lastFiled? (Scope.ofChain chain, name) (c.filings []) with
  | none =>
    cases hhandler : x.handler? with
    | none => rfl
    | some h =>
      -- a handler at the end of a way through mappings has been filed
      rw [Concrete.handler?_eq_some hhandler] at hx
      have hfiled : ⟨chain, name, h⟩ ∈ c.filings [] :=
        (Concrete.mem_filings_iff hc).mpr ⟨chain, rfl, hx⟩
      exact absurd rfl (lastFiled?_eq_none_iff.mp hlast _ hfiled)
  | some h =>
    obtain ⟨f, hfiled, hlabel, rfl⟩ := mem_of_lastFiled? hlast
    obtain ⟨other, hother, hway⟩ := (Concrete.mem_filings_iff hc).mp hfiled
    obtain ⟨hscope, hname⟩ := Prod.mk.inj hlabel
    rw [hname] at hway
    rw [hother, List.nil_append] at hscope
    rw [hunique other f.handler hway hscope, hx] at hway
    rw [Option.some.inj hway]
    rfl

/-- **What a lookup finds.** The resource of every task state of a document stands in the tree at
the end of the way to the state. The table answers with it exactly if it is what was filed last
under the text of the way, or if it is no handler and nothing was filed there. This is so when the
way goes through mappings and no handler at the end of another way has the same text; and it is so
when, besides, no name on the ways has a slash. -/
theorem finds_iff_of_taskAt? {c : Concrete} {d : WorkflowDocument} (hc : c.Distinct)
    (hd : ofConcrete? c = some d) {chain : List (String × Nat)} {name : String} {t : TaskState}
    (ht : d.machine.taskAt? chain name = some t) :
    ∃ x, Concrete.resourceVia Concrete.field? chain name c = some x ∧
      x.toJson = .string t.resource ∧
      (d.Finds chain name x ↔
        lastFiled? (Scope.ofChain chain, name) (c.filings []) = x.handler?) ∧
      (Concrete.resourceVia Concrete.get? chain name c = some x →
        (∀ other h, Concrete.resourceVia Concrete.get? other name c = some (.handler h) →
          Scope.ofChain other = Scope.ofChain chain → other = chain) →
        d.Finds chain name x) ∧
      (Concrete.resourceVia Concrete.get? chain name c = some x → Scope.Unslashed chain →
        (∀ other h, Concrete.resourceVia Concrete.get? other name c = some (.handler h) →
          Scope.Unslashed other) →
        d.Finds chain name x) := by
  have hread : machineOf? false c.toJson = some d.machine := by
    obtain ⟨machine, hmachine, rfl⟩ := Option.map_eq_some_iff.mp hd
    exact hmachine
  obtain ⟨x, hx, hresource⟩ := Concrete.resourceVia_of_taskAt? hc hread ht
  have hiff : d.Finds chain name x ↔
      lastFiled? (Scope.ofChain chain, name) (c.filings []) = x.handler? := by
    rw [finds_iff, handler?_eq_lastFiled? hd]
  refine ⟨x, hx, hresource, hiff, fun hkeyed hunique ↦ ?_, fun hkeyed hchain hchains ↦ ?_⟩
  · exact hiff.mpr (lastFiled?_of_unique hc hkeyed hunique)
  · refine hiff.mpr (lastFiled?_of_unique hc hkeyed fun other h hway hscope ↦ ?_)
    exact (Scope.ofChain_inj (hchains other h hway) hchain).mp hscope

/-- What the table has is what stands at the end of a way through mappings. -/
theorem exists_filed_of_handler? {c : Concrete} {d : WorkflowDocument} (hc : c.Distinct)
    (hd : ofConcrete? c = some d) {chain : List (String × Nat)} {name : String} {h : Handler}
    (hh : d.handler? (Scope.ofChain chain) name = some h) :
    ∃ other, Scope.ofChain other = Scope.ofChain chain ∧
      Concrete.resourceVia Concrete.get? other name c = some (.handler h) := by
  rw [handler?_eq_lastFiled? hd] at hh
  obtain ⟨f, hlast, rfl⟩ := Option.map_eq_some_iff.mp hh
  have hfiled : f ∈ c.filings [] := List.mem_reverse.mp (List.mem_of_find?_eq_some hlast)
  have hlabel : f.label = (Scope.ofChain chain, name) := by simpa using List.find?_some hlast
  obtain ⟨hscope, rfl⟩ := Prod.mk.inj hlabel
  obtain ⟨other, hother, hway⟩ := (Concrete.mem_filings_iff hc).mp hfiled
  rw [hother, List.nil_append] at hscope
  exact ⟨other, hscope, hway⟩

end WorkflowDocument

/-- No state of the machine or of a branch inside it has a slash in its name. -/
inductive Machine.Unslashed : Machine → Prop
  | intro {m : Machine} (names : ∀ name s, m.state? name = some s → '/' ∉ name.toList)
      (inside : ∀ name branches settings, m.state? name = some (.parallel branches settings) →
        ∀ branch ∈ branches, Unslashed branch) : Unslashed m

theorem Machine.Unslashed.of_states {m : Machine} (names : ∀ e ∈ m.states, '/' ∉ e.1.toList)
    (inside : ∀ e ∈ m.states, ∀ branches settings, e.2 = .parallel branches settings →
      ∀ branch ∈ branches, branch.Unslashed) : m.Unslashed :=
  ⟨fun _ _ hs ↦ names _ (Entries.mem_of_find? hs),
    fun _ branches settings hs ↦ inside _ (Entries.mem_of_find? hs) branches settings rfl⟩

theorem Machine.Unslashed.chain {m inner : Machine} (h : m.Unslashed)
    {chain : List (String × Nat)} (hchain : m.branchAt? chain = some inner) :
    Scope.Unslashed chain := by
  induction chain generalizing m with
  | nil =>
    intro link hlink
    cases hlink
  | cons link chain ih =>
    obtain ⟨name, index⟩ := link
    obtain ⟨names, inside⟩ := h
    rw [branchAt?] at hchain
    split at hchain
    · rename_i branches settings hs
      obtain ⟨branch, hbranch, hrest⟩ := Option.bind_eq_some_iff.mp hchain
      have hmore := ih (inside _ _ _ hs _ (List.mem_of_getElem? hbranch)) hrest
      exact List.forall_mem_cons.mpr ⟨names _ _ hs, hmore⟩
    · cases hchain

namespace WorkflowDocument

/-! ## Two ways with one text -/

/-- A machine with one state. -/
private def single (name : String) (state : Concrete) : Concrete :=
  .mapping [("StartAt", .text name), ("States", .mapping [(name, state)])]

private def copying (resource : String) : Concrete :=
  .mapping [("End", .scalar (.bool true)), ("Resource", .handler (.here { name := resource })),
    ("Type", .text "Task")]

private def forking (branch : Concrete) : Concrete :=
  .mapping [("Branches", .sequence [branch]), ("End", .scalar (.bool true)),
    ("Type", .text "Parallel")]

/-- A task in a branch of `B` in a branch of `A`, and one in a branch of `A[0]/B`. -/
def crossing : Concrete :=
  .mapping [("StartAt", .text "A"),
    ("States", .mapping [
      ("A", .mapping [
        ("Branches", .sequence [single "B" (forking (single "T" (copying "first")))]),
        ("Next", .text "A[0]/B"), ("Type", .text "Parallel")]),
      ("A[0]/B", forking (single "T" (copying "second")))])]

theorem distinct_crossing : crossing.Distinct := by
  simp [crossing, single, forking, copying, Entries.names]

/-- The first task is given the handler of the second one. -/
theorem finds_crossing :
    ∃ d, ofConcrete? crossing = some d ∧ d.machine.check = .ok () ∧
      Concrete.resourceVia Concrete.field? [("A", 0), ("B", 0)] "T" crossing
        = some (.handler (.here { name := "first" })) ∧
      d.handler? (Scope.ofChain [("A", 0), ("B", 0)]) "T" = some (.here { name := "second" }) ∧
      ¬d.Finds [("A", 0), ("B", 0)] "T" (.handler (.here { name := "first" })) := by
  refine ⟨_, rfl, by rfl, by rfl, by rfl, fun hfinds ↦ ?_⟩
  obtain ⟨x, hx, -, hiff, -⟩ := finds_iff_of_taskAt? distinct_crossing rfl
    (show Machine.taskAt? [("A", 0), ("B", 0)] "T" _ = some _ from rfl)
  have hfirst : x = .handler (.here { name := "first" }) := (Option.some.inj hx).symm
  rw [hfirst] at hiff
  have hlast := hiff.mp hfinds
  rw [← handler?_eq_lastFiled? rfl] at hlast
  exact absurd hlast (by decide)

end WorkflowDocument

end Workflow
