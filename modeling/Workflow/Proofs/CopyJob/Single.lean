import Workflow.Proofs.CopyJob.Tree
import Workflow.Proofs.Machine.Rules

/-!
# The definition of a single job

There are two ways to the machine of a job: it is built, or it is read from the definition, which
has the handlers themselves in the places of the resource names. The definition is written, expanded
and read again on this way, and at the end there is the machine that was built. The handlers do not
get lost: they are in the table of the document, under the task states they were put into, and there
is nothing else in the table.

A definition of a single job has no replications, so expanding it changes nothing and binds no
handler (`Annotated.expand_ofConcrete`).
-/

namespace Workflow

/-! ## Trees without a place -/

namespace Concrete

mutual

/-- Outside all replications a tree stays as it is. -/
theorem under_nil : ∀ c : Concrete, c.under [] = c
  | .mapping entries => by rw [under, underEntries_nil entries]
  | .sequence items => by rw [under, underItems_nil items]
  | .text _ => rfl
  | .handler _ => rfl
  | .scalar _ => rfl

private theorem underItems_nil : ∀ items : List Concrete, underItems [] items = items
  | [] => rfl
  | c :: cs => by rw [underItems, under_nil c, underItems_nil cs]

private theorem underEntries_nil :
    ∀ entries : List (String × Concrete), underEntries [] entries = entries
  | [] => rfl
  | (name, c) :: entries => by rw [underEntries, under_nil c, underEntries_nil entries]

end

end Concrete

/-- A tree is expanded to itself. -/
theorem Annotated.expand_ofConcrete {c : Concrete} (h : c.toJson.Ascending) :
    (ofConcrete c).expand = .ok c := by
  rw [expand, expandIn_ofConcrete h, Concrete.under_nil]
  · exact fun _ _ name _ ↦ Bindings.apply_nil name
  · exact fun _ _ ↦ .inl rfl

namespace CopyJob

namespace Template

open Json

/-! ## The tree and its table -/

/-- The tree of a single job with its handlers. -/
def jobTree (t : Template) : Concrete :=
  t.tree .handler t.options.comment t.options.timeoutSeconds none

theorem definition_eq (t : Template) : t.definition = .ok (.ofConcrete t.jobTree) :=
  t.annotate_plainTree _ _ _

theorem toJson_jobTree (t : Template) : t.jobTree.toJson = t.machine.toJson.canonical :=
  t.toJson_tree (fun _ ↦ rfl) _ _ _

theorem expand_jobTree (t : Template) :
    (Annotated.ofConcrete t.jobTree).expand = .ok t.jobTree := by
  refine Annotated.expand_ofConcrete ?_
  rw [toJson_jobTree]
  exact ascending_canonical _

/-- The handlers of a job, under the names of their states. -/
def jobFilings (t : Template) : List Filing := t.handlers.inOrder.map fun e ↦ ⟨[], e.1, e.2⟩

theorem filings_jobTree (t : Template) : t.jobTree.filings [] = t.jobFilings :=
  t.filings_tree id _ _ _ _

/-- The handlers of a job, in a table. -/
def jobTable (t : Template) : HandlerTable := t.jobFilings.foldl HandlerTable.file {}

theorem nodup_jobFilings (t : Template) : (t.jobFilings.map Filing.label).Nodup := by
  refine List.Nodup.of_map Prod.snd ?_
  simp [jobFilings, Handlers.inOrder, Filing.label]

theorem size_jobTable (t : Template) : t.jobTable.size = 5 := by
  have hnodup : ((({} : HandlerTable).entries.map Prod.fst)
      ++ t.jobFilings.map Filing.label).Nodup := t.nodup_jobFilings
  rw [jobTable, HandlerTable.size_foldl_file hnodup]
  rfl

/-- The table has the handlers of the template and no others. -/
theorem get?_jobTable_iff {t : Template} {scope : Scope} {state : String} {h : Handler} :
    t.jobTable.get? scope state = some h ↔ scope = .root ∧ (state, h) ∈ t.handlers.byState := by
  have hempty : ({} : HandlerTable).get? scope state = none := rfl
  rw [jobTable, get?_foldl_file, hempty, Option.or_none]
  constructor
  · intro hlast
    obtain ⟨f, hf, hlabel, rfl⟩ := mem_of_lastFiled? hlast
    obtain ⟨e, he, rfl⟩ := List.mem_map.mp hf
    obtain ⟨rfl, rfl⟩ := Prod.mk.inj hlabel
    exact ⟨Scope.ofChain_nil, Handlers.mem_inOrder_iff.mp he⟩
  · rintro ⟨rfl, hmem⟩
    have hfiled : ⟨[], state, h⟩ ∈ t.jobFilings :=
      List.mem_map.mpr ⟨(state, h), Handlers.mem_inOrder_iff.mpr hmem, rfl⟩
    exact lastFiled?_of_nodup t.nodup_jobFilings hfiled

/-- **The expanded definition is read** as the machine that is built, with the handlers. -/
theorem ofConcrete?_jobTree (t : Template) :
    WorkflowDocument.ofConcrete? t.jobTree
      = some { machine := t.machine, handlers := t.jobTable } := by
  have hwritable : t.machine.Writable := t.writable_build _ _ nofun
  rw [WorkflowDocument.ofConcrete?, toJson_jobTree, Machine.ofJson?_toJson hwritable,
    Option.map_some, ← Scope.ofChain_nil, fileMachine_ofChain, filings_jobTree, jobTable]

/-! ## The checks -/

/-- Every task state of a job is made with its handler. -/
theorem exists_taskState {t : Template} {e : String × Handler} (he : e ∈ t.handlers.byState)
    (comment : String) (timeoutSeconds : Option UInt64) (parameters : Option Json) :
    ∃ resultPath next onError, (e.1, taskState e.2 parameters resultPath next onError) ∈
      (t.build comment timeoutSeconds parameters).states := by
  simp only [Handlers.byState, List.mem_cons, List.not_mem_nil, or_false] at he
  rcases he with rfl | rfl | rfl | rfl | rfl
  · exact ⟨_, _, _, List.mem_of_getElem? (i := 5) rfl⟩
  · exact ⟨_, _, _, List.mem_of_getElem? (i := 7) rfl⟩
  · exact ⟨_, _, _, List.mem_of_getElem? (i := 1) rfl⟩
  · exact ⟨_, _, _, List.mem_of_getElem? (i := 4) rfl⟩
  · exact ⟨_, _, _, List.mem_of_getElem? (i := 3) rfl⟩

/-- **The machine of a job is valid** exactly if its time limit, if any, is not zero and its
handlers have names. -/
theorem check_machine_iff {t : Template} :
    t.machine.check = .ok () ↔ t.options.timeoutSeconds ≠ some 0 ∧
      ∀ e ∈ t.handlers.byState, isBlankText e.2.name = false := by
  constructor
  · intro h
    cases (Machine.check_eq_ok_iff _).mp h with
    | intro _ _ htimeout _ hproper =>
      refine ⟨fun hzero ↦ absurd (htimeout 0 hzero) (by decide), fun e he ↦ ?_⟩
      obtain ⟨_, _, _, hmem⟩ :=
        exists_taskState he t.options.comment t.options.timeoutSeconds none
      cases hproper _ hmem with
      | task _ _ _ hresource _ => rwa [inked_iff, Bool.not_eq_true'] at hresource
  · rintro ⟨htimeout, hnames⟩
    exact check_build hnames .root t.options.comment htimeout none

/-- **The definition of a single job gives back its machine.** Whatever a job is built from, its
definition is there and is expanded to a document, whose machine is the one that is built. The
document has a handler for the five task states of the machine and for nothing else, each the
handler of the template as it is, bound to no branch. The machine has both policies on every task,
and it is valid exactly if its time limit, if any, is not zero and no handler has a blank name. -/
theorem definition_machine (t : Template) :
    ∃ node c d, t.definition = .ok node ∧ node.expand = .ok c ∧
      WorkflowDocument.ofConcrete? c = some d ∧ d.machine = t.machine ∧
      (∀ scope state h, d.handler? scope state = some h ↔
        scope = .root ∧ (state, h) ∈ t.handlers.byState) ∧
      t.machine.taskNames.Perm (t.handlers.byState.map Prod.fst) ∧ d.handlers.size = 5 ∧
      t.machine.checkPolicies = .ok () ∧
      (t.machine.check = .ok () ↔ t.options.timeoutSeconds ≠ some 0 ∧
        ∀ e ∈ t.handlers.byState, isBlankText e.2.name = false) := by
  refine ⟨_, _, _, t.definition_eq, t.expand_jobTree, t.ofConcrete?_jobTree, rfl,
    fun scope state h ↦ get?_jobTable_iff, ?_, t.size_jobTable, t.policies_build _ _ _,
    check_machine_iff⟩
  have hmachine : t.machine.taskNames
      = ["GetJobStatus", "Notify", "NotifyFailure", "PreExecutionCheck", "ScheduleCopy"] := rfl
  have htemplate : t.handlers.byState.map Prod.fst
      = ["PreExecutionCheck", "ScheduleCopy", "GetJobStatus", "NotifyFailure", "Notify"] := rfl
  rw [hmachine, htemplate]
  decide

end Template

end CopyJob

end Workflow
