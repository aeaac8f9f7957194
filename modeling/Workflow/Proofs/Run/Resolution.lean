import Workflow.Proofs.Machine.Lookup
import Workflow.Proofs.Run.Alike
import Workflow.Proofs.Run.Positions
import Workflow.Proofs.Template.Binding

/-!
# Bound handlers and registered ones

The handlers of an expanded document are found in its table, bound to the copies they belong to. The
machine alone has no table: its resource names are looked up in a registry, and the branch index is
the one that the run has gathered on its way. `execute_bare` says that this makes no difference,
under conditions on the definition that keep the two indices together.

That no name has a slash keeps the table in order. That branches are made by replications, and by
one each, makes the index of a copy the index of the branch.
-/

namespace Workflow

namespace Engine

variable {σ : Type}

/-! ## Calls by way of a registry -/

/-- The engine with the bare machine of its document, whose handlers are looked up in a registry. -/
def bare (e : Engine σ) (registry : Registry) : Engine σ :=
  { e with document := .ofMachine e.document.machine, registry }

theorem call_of_handlerFor? {e : Engine σ} {site : Site} {name : String} {t : TaskState}
    {h : Handler} (hh : e.handlerFor? site name t.resource = some h) {branch : Option BranchIndex}
    (hbranch : (if site.branch ≠ [] ∧ h.acceptsBranch then some site.branch else none) = branch)
    (ctx : TaskContext) (world : σ) :
    e.call site name t ctx world =
      (⟨some h, ctx, branch, (h.invoke e.perform ctx branch world).1.within
        (t.timeoutSeconds.map UInt64.toNat)⟩, (h.invoke e.perform ctx branch world).2) := by
  rw [call]
  simp only [hh, hbranch]

theorem call_eq_of_handlerFor?_eq {e e' : Engine σ} (hperform : e'.perform = e.perform)
    {site : Site} {name : String} {t : TaskState}
    (hh : e'.handlerFor? site name t.resource = e.handlerFor? site name t.resource)
    (ctx : TaskContext) (world : σ) :
    e'.call site name t ctx world = e.call site name t ctx world := by
  rw [call, call, hh, hperform]

/-- A handler bound to the branch of its site and the handler by itself get the same call. -/
theorem call_bound {e e' : Engine σ} (hperform : e'.perform = e.perform) {site : Site}
    {name : String} {t : TaskState} {written : Handler} (hbranch : site.branch ≠ [])
    (haccepts : written.acceptsBranch = true)
    (hbound : e.handlerFor? site name t.resource = some (.bound written site.branch))
    (hwritten : e'.handlerFor? site name t.resource = some written) (ctx : TaskContext)
    (world : σ) :
    (e'.call site name t ctx world).1.direct = (e.call site name t ctx world).1.direct ∧
      (e'.call site name t ctx world).2 = (e.call site name t ctx world).2 := by
  have hcall := call_of_handlerFor? hbound (if_pos ⟨hbranch, haccepts⟩) ctx world
  have hcall' := call_of_handlerFor? hwritten (if_pos ⟨hbranch, haccepts⟩) ctx world
  rw [hcall, hcall', hperform]
  exact ⟨rfl, rfl⟩

end Engine

/-! ## Documents whose handlers are registered -/

/-- A definition, what it expands to and the document read from that, with a registry that knows the
handlers of the definition by their names. -/
structure Registered (node : Annotated) (c : Concrete) (d : WorkflowDocument)
    (registry : Registry) : Prop where
  expand : node.expand = .ok c
  read : WorkflowDocument.ofConcrete? c = some d
  /-- Branches around a handler are made by replications, and by one each. -/
  forked : ∀ route h, (route, Part.handler h) ∈ node.parts → Annotated.Route.Forked route
  /-- A handler stands only where the resource of a task is. -/
  resource : ∀ chain name h, Concrete.resourceVia Concrete.get? chain name c = some (.handler h) →
    ∃ t, d.machine.taskAt? chain name = some t
  unslashed : d.machine.Unslashed
  known : ∀ route h, (route, Part.handler h) ∈ node.parts → registry.get? h.name = some h

namespace Registered

variable {node : Annotated} {c : Concrete} {d : WorkflowDocument} {registry : Registry}

/-- The handler that the table has for a task is known by the resource name of the task. It is known
as it is in the table, or it is bound there to the branches on the way. -/
theorem get?_of_handler? (hreg : Registered node c d registry) {chain : List (String × Nat)}
    {name : String} {t : TaskState} (ht : d.machine.taskAt? chain name = some t) {h : Handler}
    (hh : d.handler? (Scope.ofChain chain) name = some h) :
    registry.get? t.resource = some h ∨
      ∃ written, chain ≠ [] ∧ written.acceptsBranch = true ∧
        h = .bound written (chain.map Prod.snd) ∧ registry.get? t.resource = some written := by
  have hc : c.Distinct := Annotated.distinct_of_expandIn hreg.expand
  have hread : machineOf? false c.toJson = some d.machine := by
    obtain ⟨machine, hmachine, rfl⟩ := Option.map_eq_some_iff.mp hreg.read
    exact hmachine
  obtain ⟨other, hscope, hway⟩ := WorkflowDocument.exists_filed_of_handler? hc hreg.read hh
  -- both ways lead to tasks, so no name on them has a slash
  obtain ⟨t', ht'⟩ := hreg.resource other name h hway
  obtain ⟨inner, hinner, -⟩ := Machine.exists_machine_of_taskAt? ht
  obtain ⟨inner', hinner', -⟩ := Machine.exists_machine_of_taskAt? ht'
  obtain rfl : other = chain :=
    (Scope.ofChain_inj (hreg.unslashed.chain hinner') (hreg.unslashed.chain hinner)).mp hscope
  obtain ⟨x, hx, hresource⟩ := Concrete.resourceVia_of_taskAt? hc hread ht
  obtain rfl : x = .handler h :=
    Option.some.inj (hx.symm.trans (Concrete.resourceVia_of_get? hway))
  have hname : t.resource = h.name := (Json.string.inj hresource).symm
  obtain ⟨route, written, hpart, ⟨-, rfl⟩ | ⟨hchain, haccepts, rfl⟩⟩ :=
    Annotated.bound_of_resourceVia hreg.expand hreg.forked hway
  · exact .inl (hname ▸ hreg.known route h hpart)
  · exact .inr ⟨written, hchain, haccepts, rfl, hname ▸ hreg.known route written hpart⟩

/-- The calls of the document and those of its bare machine come to the same. -/
theorem alike {σ : Type} {e : Engine σ} (hreg : Registered node c e.document registry)
    (hown : ∀ chain name t, e.document.machine.taskAt? chain name = some t →
      e.document.handler? (Scope.ofChain chain) name = none →
        e.registry.get? t.resource = registry.get? t.resource) :
    e.Alike (e.bare registry) e.root where
  isLate := rfl
  executionId := rfl
  maxTransitions := rfl
  call {site name t} hsite hs ctx world := by
    obtain ⟨chain, hmachine, hscope, hbranch⟩ := hsite.exists_chain
    have ht := Machine.taskAt?_of_state? hmachine hs
    have hperform : (e.bare registry).perform = e.perform := rfl
    have hbare : (e.bare registry).handlerFor? site name t.resource = registry.get? t.resource :=
      rfl
    cases hh : e.document.handler? site.scope name with
    | none =>
      have hlookup : e.handlerFor? site name t.resource = e.registry.get? t.resource := by
        rw [Engine.handlerFor?, hh, Option.orElse_none]
      have hsame : (e.bare registry).handlerFor? site name t.resource
          = e.handlerFor? site name t.resource := by
        rw [hbare, hlookup, hown chain name t ht (hscope ▸ hh)]
      rw [Engine.call_eq_of_handlerFor?_eq hperform hsame ctx world]
      exact ⟨rfl, rfl⟩
    | some h =>
      have hlookup : e.handlerFor? site name t.resource = some h := by
        rw [Engine.handlerFor?, hh, Option.orElse_some]
      rw [hscope] at hh
      rcases hreg.get?_of_handler? ht hh with hknown | ⟨written, hchain, haccepts, rfl, hknown⟩
      · have hsame : (e.bare registry).handlerFor? site name t.resource
            = e.handlerFor? site name t.resource := by rw [hbare, hlookup, hknown]
        rw [Engine.call_eq_of_handlerFor?_eq hperform hsame ctx world]
        exact ⟨rfl, rfl⟩
      · rw [← hbranch] at hlookup
        have hinside : site.branch ≠ [] := by
          rw [hbranch]
          simpa using hchain
        exact Engine.call_bound hperform hinside haccepts hlookup (hbare.trans hknown) ctx world

end Registered

namespace Engine

variable {σ : Type}

/-- **Bound handlers and registered ones.** A document whose handlers are registered under their
names runs in the same way with its table of handlers and, as a bare machine, with the registry. The
outcome is the same, with its trace, output and time; the performer, whatever it does and keeps in
mind, is left in the same state; and the tasks get the same calls in the same order, each in the
same position, with the same context and the same branch index. Where the table has nothing for a
task, both engines must find the same in their registries, as they do with one registry for both or
with a handler at every task. -/
theorem execute_bare {e : Engine σ} {node : Annotated} {c : Concrete} {registry : Registry}
    (hreg : Registered node c e.document registry)
    (hown : ∀ chain name t, e.document.machine.taskAt? chain name = some t →
      e.document.handler? (Scope.ofChain chain) name = none →
        e.registry.get? t.resource = registry.get? t.resource) (input : Json) (world : σ) :
    (e.bare registry).execute input world = e.execute input world ∧
      ((e.bare registry).entered input world).map Entered.noticed
        = (e.entered input world).map Entered.noticed :=
  (hreg.alike hown).execute rfl input world

end Engine

/-! ## Copies in copies -/

namespace Registered

/-- A task that notes which copy it works for. -/
def noting : LocalTask := { name := "note" }

/-- Two copies with two copies each inside, of a task whose name has the indices of both. -/
def nested : Annotated :=
  fork "Outer" (.replicate "#" 2 (fork "Inner" (.sequence [.replicate "%" 2
    (.mapping [("StartAt", .text "Copy #%"), ("States", .mapping [("Copy #%", .mapping [
      ("End", .scalar (.bool true)), ("Resource", .handler (.here noting)),
      ("Type", .text "Task")])])])])))
where
  fork (name : String) (branches : Annotated) : Annotated :=
    .mapping [("StartAt", .text name), ("States", .mapping [(name, .mapping [
      ("Branches", branches), ("End", .scalar (.bool true)), ("Type", .text "Parallel")])])]

/-- What it expands to. -/
def copies : Concrete :=
  fork "Outer" [fork "Inner" [copy 0 0, copy 0 1], fork "Inner" [copy 1 0, copy 1 1]]
where
  fork (name : String) (branches : List Concrete) : Concrete :=
    .mapping [("StartAt", .text name), ("States", .mapping [(name, .mapping [
      ("Branches", .sequence branches), ("End", .scalar (.bool true)),
      ("Type", .text "Parallel")])])]
  copy (i j : Nat) : Concrete :=
    let name := "Copy " ++ wholeText i ++ wholeText j
    .mapping [("StartAt", .text name), ("States", .mapping [(name, .mapping [
      ("End", .scalar (.bool true)), ("Resource", .handler (.bound (.here noting) [i, j])),
      ("Type", .text "Task")])])]

/-- The machine in it. -/
def machine : Machine :=
  fork "Outer" [fork "Inner" [copy 0 0, copy 0 1], fork "Inner" [copy 1 0, copy 1 1]]
where
  fork (name : String) (branches : List Machine) : Machine :=
    { startAt := name
      states := [(name, .parallel branches { transition := { ending := some true } })] }
  copy (i j : Nat) : Machine :=
    let name := "Copy " ++ wholeText i ++ wholeText j
    { startAt := name
      states := [(name, .task { resource := "note", transition := { ending := some true } })] }

private theorem read_copies : WorkflowDocument.ofConcrete? copies
    = some ⟨machine, fileMachine Scope.root copies {}⟩ := by rfl

private theorem expand_nested : nested.expand = .ok copies := by rfl

private theorem handler_of_nested {route : Annotated.Route} {h : Handler}
    (hmem : (route, Part.handler h) ∈ nested.parts) :
    h = .here noting ∧ route = [.entry "States", .entry "Outer", .entry "Branches", .copy "#" 2 0,
      .entry "States", .entry "Inner", .entry "Branches", .copy "%" 2 0, .entry "States",
      .entry "Copy #%", .entry "Resource"] := by
  simp [nested, nested.fork, Annotated.parts, Annotated.partsOfEntries, Annotated.partsOfItems,
    below] at hmem
  exact ⟨hmem.2, hmem.1⟩

private theorem wayTo_of_copies {pos : List Concrete.Edge} {h : Handler}
    (hmem : (pos, Part.handler h) ∈ copies.parts) :
    ∃ i < 2, ∃ j < 2, pos = Concrete.wayTo [("Outer", i), ("Inner", j)]
      ("Copy " ++ wholeText i ++ wholeText j) := by
  simp [copies, copies.fork, copies.copy, Concrete.parts, Concrete.partsOfEntries,
    Concrete.partsOfItems, below] at hmem
  rcases hmem with ⟨rfl, -⟩ | ⟨rfl, -⟩ | ⟨rfl, -⟩ | ⟨rfl, -⟩
  · exact ⟨0, by decide, 0, by decide, rfl⟩
  · exact ⟨0, by decide, 1, by decide, rfl⟩
  · exact ⟨1, by decide, 0, by decide, rfl⟩
  · exact ⟨1, by decide, 1, by decide, rfl⟩

private theorem unslashed_machine : machine.Unslashed := by
  have hdigits : ∀ n, '/' ∉ wholeDigits n := fun n hmem ↦
    absurd (isDigit_of_mem_wholeDigits hmem) (by decide)
  have hcopy : ∀ i j, (machine.copy i j).Unslashed := by
    intro i j
    refine .of_states ?_ ?_
    · simp [machine.copy, hdigits]
    · intro e he branches settings heq
      rw [List.mem_singleton.mp he] at heq
      cases heq
  have hfork : ∀ name branches, '/' ∉ name.toList → (∀ b ∈ branches, b.Unslashed) →
      (machine.fork name branches).Unslashed := by
    intro name branches hname hbranches
    refine .of_states (by simpa [machine.fork] using hname) ?_
    intro e he branches' settings heq
    rw [List.mem_singleton.mp he] at heq
    cases heq
    exact hbranches
  have hinner : ∀ i, (machine.fork "Inner" [machine.copy i 0, machine.copy i 1]).Unslashed :=
    fun i ↦ hfork _ _ (by decide) (by simp [hcopy])
  exact hfork _ _ (by decide) (by simp [hinner])

private theorem registered_nested : Registered nested copies
    ⟨machine, fileMachine Scope.root copies {}⟩ (Registry.register {} (.here noting)) where
  expand := expand_nested
  read := read_copies
  forked route h hmem := by
    rw [(handler_of_nested hmem).2]
    simp [Annotated.Route.Forked]
  resource chain name h hway := by
    obtain ⟨i, hi, j, hj, hpos⟩ := wayTo_of_copies (Concrete.mem_parts_of_resourceVia hway)
    obtain ⟨rfl, rfl⟩ := Concrete.wayTo_inj.mp hpos
    obtain rfl | rfl : i = 0 ∨ i = 1 := by omega
    all_goals
      obtain rfl | rfl : j = 0 ∨ j = 1 := by omega
      all_goals exact ⟨_, rfl⟩
  unslashed := unslashed_machine
  known route h hmem := by
    rw [(handler_of_nested hmem).1]
    rfl

/-- An engine that notes the branch index of each call. -/
def noter : Engine (List (Option BranchIndex)) where
  document := ⟨machine, fileMachine Scope.root copies {}⟩
  registry := Registry.register {} (.here noting)
  perform i noted := ({ result := .ok .null }, noted ++ [i.branch])
  maxTransitions := 20

end Registered

open Registered in
theorem Engine.execute_bare_nested : ∃ c, nested.expand = .ok c ∧
    WorkflowDocument.ofConcrete? c = some noter.document ∧
    ((noter.bare noter.registry).execute .null []).2
      = [some [0, 0], some [0, 1], some [1, 0], some [1, 1]] ∧
    ((noter.bare noter.registry).entered .null []).map Entered.noticed
      = (noter.entered .null []).map Entered.noticed := by
  have hsame := execute_bare (e := noter) registered_nested (fun _ _ _ _ _ ↦ rfl) .null []
  have hnoted : (noter.execute .null []).2 = [some [0, 0], some [0, 1], some [1, 0], some [1, 1]] :=
    rfl
  exact ⟨copies, expand_nested, read_copies, (congrArg Prod.snd hsame.1).trans hnoted, hsame.2⟩

end Workflow
