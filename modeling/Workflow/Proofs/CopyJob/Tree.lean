import Workflow.CopyJob.Definition
import Workflow.Proofs.CopyJob.Build
import Workflow.Proofs.Machine.Filing
import Workflow.Proofs.Template.Plain

/-!
# The tree of a copy job

A definition is made from a machine in three steps: the machine is written, its value is taken for a
tree, and handlers are put in the places of the resource names. `Template.tree` is what comes out,
written down at once with anything in the places of the resources: names (`toJson_tree`), the
handlers of the template (`annotate_plainTree`), or handlers bound to a copy.

The tree of a worker holds two things that are told to the worker. Where bindings leave everything
else alone, the tree of a copy is the tree of a worker that is told something else (`under_tree`).
-/

namespace Workflow

namespace CopyJob

open Json

/-! ## The tree -/

def ofRetriers (retriers : List Retrier) : Json := .array (retriers.map Retrier.toJson)

def ofCatchers (catchers : List Catcher) : Json := .array (catchers.map Catcher.toJson)

/-- A task state with something in the place of its resource. -/
def taskTree (resource : Concrete) (parameters : Option Json) (resultPath next onError : String) :
    Concrete :=
  .mapping ([("Catch", .ofPlain (ofCatchers (failureCatchers onError)).canonical),
    ("Next", .text next)]
    ++ (parameters.map fun p ↦ ("Parameters", Concrete.ofPlain p.canonical)).toList
    ++ [("Resource", resource), ("ResultPath", .text resultPath),
      ("Retry", .ofPlain (ofRetriers standardRetriers).canonical), ("Type", .text "Task")])

/-- A state without a resource. -/
def plainState (s : State) : Concrete := .ofPlain s.toJson.canonical

/-- A resource is as good as the name it stands for. -/
theorem toJson_taskTree {resource : Concrete} {h : Handler}
    (hresource : resource.toJson = .string h.name) (parameters : Option Json)
    (resultPath next onError : String) :
    (taskTree resource parameters resultPath next onError).toJson
      = (taskState h parameters resultPath next onError).toJson.canonical := by
  have hretry : listField "Retry" Retrier.toJson standardRetriers
      = [("Retry", ofRetriers standardRetriers)] := rfl
  have hcatch : listField "Catch" Catcher.toJson (failureCatchers onError)
      = [("Catch", ofCatchers (failureCatchers onError))] := rfl
  cases parameters <;>
    simp [-String.lt_iff_ltb, taskTree, taskState, Concrete.toJson, Concrete.toJsonFields,
      State.toJson, State.kind, StateKind.name, stateFields, TaskState.toFields,
      Transition.toFields, fieldOf, hretry, hcatch, canonical, canonicalFields, addEarlier,
      Entries.has, Entries.find?_cons, Entries.place, hresource]

namespace Template

/-- The states of the job, with something in the places of their resources. -/
def stateTrees (t : Template) (resource : Handler → Concrete) (parameters : Option Json) :
    List (String × Concrete) :=
  [("Fail", plainState (.fail jobFailed)),
    ("GetJobStatus",
      taskTree (resource t.handlers.getJobStatus) parameters "$.status" "JobDone" "NotifyFailure"),
    ("JobDone", plainState (.choice (jobDone t.options.maxStatusChecks))),
    ("Notify",
      taskTree (resource t.handlers.notify) parameters "$.notification" "Succeed" "NotifyFailure"),
    ("NotifyFailure",
      taskTree (resource t.handlers.notifyFailure) parameters "$.notification" "Fail" "Fail"),
    ("PreExecutionCheck",
      taskTree (resource t.handlers.preExecutionCheck) parameters "$.validation"
        "PreExecutionCheckPassed" "NotifyFailure"),
    ("PreExecutionCheckPassed", plainState (.choice checkPassed)),
    ("ScheduleCopy",
      taskTree (resource t.handlers.scheduleCopy) parameters "$.schedule" "Wait" "NotifyFailure"),
    ("Succeed", plainState (.succeed none)),
    ("Wait", plainState (.wait waitForCopy))]

/-- The tree of the machine of a job. -/
def tree (t : Template) (resource : Handler → Concrete) (comment : String)
    (timeoutSeconds : Option UInt64) (parameters : Option Json) : Concrete :=
  .mapping ([("Comment", .text comment), ("StartAt", .text "PreExecutionCheck"),
    ("States", .mapping (t.stateTrees resource parameters))]
    ++ (timeoutSeconds.map fun n ↦ ("TimeoutSeconds", Concrete.ofPlain (ofUInt64 n))).toList)

theorem toJson_stateTrees (t : Template) {resource : Handler → Concrete}
    (hresource : ∀ h, (resource h).toJson = .string h.name) (comment : String)
    (timeoutSeconds : Option UInt64) (parameters : Option Json) :
    Concrete.toJsonFields (t.stateTrees resource parameters)
      = canonicalFields (statesToJson (t.build comment timeoutSeconds parameters).states) := by
  have hsorted : Entries.Ascending
      (statesToJson (t.build comment timeoutSeconds parameters).states) := by
    rw [Entries.Ascending, names_statesToJson]
    exact t.ascending_build comment timeoutSeconds parameters
  rw [canonicalFields_of_ascending hsorted, statesToJson_eq_map]
  simp [stateTrees, build, Concrete.toJsonFields, plainState, toJson_taskTree (hresource _)]

/-- The tree of a job stands for the value that is written for its machine. -/
theorem toJson_tree (t : Template) {resource : Handler → Concrete}
    (hresource : ∀ h, (resource h).toJson = .string h.name) (comment : String)
    (timeoutSeconds : Option UInt64) (parameters : Option Json) :
    (t.tree resource comment timeoutSeconds parameters).toJson
      = (t.build comment timeoutSeconds parameters).toJson.canonical := by
  have hstates := t.toJson_stateTrees hresource comment timeoutSeconds parameters
  have hfields : (t.build comment timeoutSeconds parameters).toFields
      = [("Comment", .string comment), ("StartAt", .string "PreExecutionCheck")]
        ++ fieldOf "TimeoutSeconds" ofUInt64 timeoutSeconds ++ [("States",
          .object (statesToJson (t.build comment timeoutSeconds parameters).states))] := rfl
  rw [Machine.toJson_eq, hfields, tree]
  -- the order of the fields does not depend on the states
  generalize statesToJson (t.build comment timeoutSeconds parameters).states = states at hstates ⊢
  cases timeoutSeconds <;>
    simp [-String.lt_iff_ltb, Concrete.toJson, Concrete.toJsonFields, fieldOf, canonical, ofUInt64,
      canonicalFields, addEarlier, Entries.has, Entries.find?_cons, Entries.place, hstates]

/-! ## Handlers in the places of resources -/

/-- The handlers of the template take the places of their own names. -/
theorem annotate_plainTree (t : Template) (comment : String) (timeoutSeconds : Option UInt64)
    (parameters : Option Json) :
    annotate t.handlers.byState (plainTree (t.build comment timeoutSeconds parameters))
      = .ok (.ofConcrete (t.tree .handler comment timeoutSeconds parameters)) := by
  have hplain : plainTree (t.build comment timeoutSeconds parameters)
      = .ofConcrete (t.tree (fun h ↦ .text h.name) comment timeoutSeconds parameters) := by
    have htext : ∀ h : Handler, (Concrete.text h.name).toJson = .string h.name := fun _ ↦ rfl
    rw [plainTree, ← t.toJson_tree htext, Annotated.ofPlain_toJson]
    cases timeoutSeconds <;> cases parameters <;>
      simp [tree, stateTrees, taskTree, plainState, Concrete.handlers, Concrete.handlersOfEntries]
  rw [hplain]
  cases parameters <;>
    simp [Handlers.byState, annotate, insertIntoState?, Annotated.changeAt?, Annotated.insert?,
      tree, stateTrees, taskTree, Annotated.ofConcrete, Annotated.ofConcreteEntries,
      Entries.find?_cons, Entries.replace, Entries.insert, Entries.has]

end Template

/-! ## Copies -/

section

open Annotated

variable {b : Bindings} {except : Route → Prop}

/-- What a worker is told, as a tree. -/
def parametersTree (pool : Int64) (token : String) : Concrete :=
  .mapping [("pool_size", .ofPlain (ofInt64 pool)), ("shard", .text token)]

theorem canonical_workerParameters (pool : Int64) (token : String) :
    (Template.workerParameters pool token).canonical = Template.workerParameters pool token := by
  simp [-String.lt_iff_ltb, Template.workerParameters, ofInt64, canonical, canonicalFields,
    addEarlier, Entries.has, Entries.find?_cons, Entries.place]

theorem ofPlain_workerParameters (pool : Int64) (token : String) :
    Concrete.ofPlain (Template.workerParameters pool token).canonical
      = parametersTree pool token := by
  rw [canonical_workerParameters]
  rfl

/-- A task state of a worker where only the index is not left alone. -/
theorem under_taskTree {resource : Concrete} {pool : Int64}
    {token resultPath next onError : String}
    (h : FixesTexts b except (ofConcrete (taskTree resource
      (some (Template.workerParameters pool token)) resultPath next onError)).parts)
    (hexcept : ∀ route, except route → route = [.entry "Parameters", .entry "shard"]) :
    (taskTree resource (some (Template.workerParameters pool token)) resultPath next
      onError).under b
      = taskTree (resource.under b) (some (Template.workerParameters pool (b.apply token)))
        resultPath next onError := by
  have hother : ∀ name, name ≠ "Parameters" → ∀ route, ¬except (.entry name :: route) := by
    intro name hname route hroute
    exact hname (Edge.entry.inj (List.cons.inj (hexcept _ hroute)).1)
  have hcatch := h.under_entry (.head _) (hother "Catch" (by decide)) (Concrete.handlers_ofPlain _)
  have hretry := h.under_entry (by simp) (hother "Retry" (by decide))
    (Concrete.handlers_ofPlain (ofRetriers standardRetriers).canonical)
  have hnext : b.apply next = next := h.apply_entry (by simp) (hother "Next" (by decide))
  have hpath : b.apply resultPath = resultPath :=
    h.apply_entry (by simp) (hother "ResultPath" (by decide))
  have htype : b.apply "Task" = "Task" := h.apply_entry (by simp) (hother "Type" (by decide))
  have hparameters : (parametersTree pool token).under b
      = parametersTree pool (b.apply token) := rfl
  simp only [taskTree, Option.map_some, Option.toList_some, ofPlain_workerParameters,
    List.cons_append, List.nil_append, Concrete.under, Concrete.underEntries, hcatch, hnext, hpath,
    htype, hretry, hparameters]

namespace Template

/-- The routes to the texts of a worker that are not the same for all workers: its comment, and the
parameter that tells each of its tasks the index. -/
def Told (t : Template) (route : Route) : Prop :=
  route = [.entry "Comment"] ∨ ∃ e ∈ t.handlers.byState,
    route = [.entry "States", .entry e.1, .entry "Parameters", .entry "shard"]

instance (t : Template) : DecidablePred t.Told := fun _ ↦ inferInstanceAs (Decidable (_ ∨ _))

/-- Inside a state, only the index of a task is told. -/
theorem told_state_iff {t : Template} {name : String} {route : Route} :
    t.Told (.entry "States" :: .entry name :: route) ↔
      name ∈ t.handlers.byState.map Prod.fst ∧ route = [.entry "Parameters", .entry "shard"] := by
  simp only [Told, List.cons.injEq, Edge.entry.injEq, String.reduceEq, false_and, false_or,
    true_and, List.mem_map]
  constructor
  · rintro ⟨e, he, rfl, rfl⟩
    exact ⟨⟨e, he, rfl⟩, rfl⟩
  · rintro ⟨⟨e, he, rfl⟩, rfl⟩
    exact ⟨e, he, rfl, rfl⟩

theorem under_stateTrees (t : Template) {resource : Handler → Concrete} {pool : Int64}
    {token : String}
    (h : FixesTexts b (fun route ↦ t.Told (.entry "States" :: route))
      (ofConcrete (.mapping (t.stateTrees resource (some (workerParameters pool token))))).parts) :
    Concrete.underEntries b (t.stateTrees resource (some (workerParameters pool token)))
      = t.stateTrees (fun h ↦ (resource h).under b)
        (some (workerParameters pool (b.apply token))) := by
  have hplain (name : String) (s : State)
      (hmem : (name, plainState s) ∈ t.stateTrees resource (some (workerParameters pool token)))
      (hname : name ∉ t.handlers.byState.map Prod.fst) : (plainState s).under b = plainState s :=
    h.under_entry hmem (fun route hroute ↦ hname (told_state_iff.mp hroute).1)
      (Concrete.handlers_ofPlain _)
  have htask (name : String) (handler : Handler) (resultPath next onError : String)
      (hmem : (name, taskTree (resource handler) (some (workerParameters pool token)) resultPath
        next onError) ∈ t.stateTrees resource (some (workerParameters pool token))) :=
    under_taskTree (h.entry hmem) fun route hroute ↦ (told_state_iff.mp hroute).2
  simp only [stateTrees, Concrete.underEntries]
  rw [hplain "Fail", hplain "JobDone", hplain "PreExecutionCheckPassed", hplain "Succeed",
    hplain "Wait", htask "GetJobStatus", htask "Notify", htask "NotifyFailure",
    htask "PreExecutionCheck", htask "ScheduleCopy"]
  all_goals simp [stateTrees, Handlers.byState]

/-- **The tree of a copy.** Where nothing but what a worker is told is not left alone, the tree in
its place is that of a worker that is told what the bindings make of it. -/
theorem under_tree (t : Template) {resource : Handler → Concrete} {comment : String} {pool : Int64}
    {token : String}
    (h : FixesTexts b t.Told
      (ofConcrete (t.tree resource comment none (some (workerParameters pool token)))).parts) :
    (t.tree resource comment none (some (workerParameters pool token))).under b
      = t.tree (fun h ↦ (resource h).under b) (b.apply comment) none
        (some (workerParameters pool (b.apply token))) := by
  have hstart : b.apply "PreExecutionCheck" = "PreExecutionCheck" :=
    h.apply_entry (.tail _ (.head _)) (fun route hroute ↦ by simp [Told] at hroute)
  have hstates := t.under_stateTrees (h.entry (.tail _ (.tail _ (.head _))))
  simp only [tree, Option.map_none, Option.toList_none, List.append_nil, Concrete.under,
    Concrete.underEntries, hstart, hstates]

end Template

end

/-! ## Filing -/

/-- A state has the fields of its kind only. -/
theorem get?_plainState {s : State} {name : String} (h : name ∉ "Type" :: s.kind.fields) :
    (plainState s).get? name = none := by
  obtain ⟨fields, hcanonical, hfields⟩ := s.exists_carries
  have hnone : Entries.find? name fields = none := by
    refine Entries.find?_eq_none_of_notMem fun hmem ↦ h ?_
    have hdeclared := (declared_stateFields s).cons "Type" (.string s.kind.name)
    exact List.Sublist.subset hdeclared (hfields.names name hmem)
  rw [plainState, hcanonical, Concrete.ofPlain, Concrete.get?, Concrete.find?_ofPlainFields, hnone]
  rfl

/-- Nothing is filed for a state without a resource and branches. -/
theorem filingsOfStates_plainState {chain : List (String × Nat)} {name : String} {s : State}
    (hresource : "Resource" ∉ "Type" :: s.kind.fields)
    (hbranches : "Branches" ∉ "Type" :: s.kind.fields) (states : List (String × Concrete)) :
    Concrete.filingsOfStates chain ((name, plainState s) :: states)
      = Concrete.filingsOfStates chain states := by
  rw [Concrete.filingsOfStates, get?_plainState hresource, Concrete.branchItems,
    get?_plainState hbranches, Concrete.filingsOfBranches]
  rfl

theorem filingsOfStates_taskTree (chain : List (String × Nat)) (name : String) (h : Handler)
    (parameters : Option Json) (resultPath next onError : String)
    (states : List (String × Concrete)) :
    Concrete.filingsOfStates chain
        ((name, taskTree (.handler h) parameters resultPath next onError) :: states)
      = ⟨chain, name, h⟩ :: Concrete.filingsOfStates chain states := by
  have hresource : (taskTree (.handler h) parameters resultPath next onError).get? "Resource"
      = some (.handler h) := by
    cases parameters <;> simp [taskTree, Concrete.get?, Entries.find?_cons]
  have hbranches : (taskTree (.handler h) parameters resultPath next onError).get? "Branches"
      = none := by
    cases parameters <;> simp [taskTree, Concrete.get?, Entries.find?_cons]
  rw [Concrete.filingsOfStates, hresource, Concrete.branchItems, hbranches,
    Concrete.filingsOfBranches]
  rfl

/-- The tasks in the order of their names. -/
def Handlers.inOrder (h : Handlers) : List (String × Handler) :=
  [("GetJobStatus", h.getJobStatus), ("Notify", h.notify), ("NotifyFailure", h.notifyFailure),
    ("PreExecutionCheck", h.preExecutionCheck), ("ScheduleCopy", h.scheduleCopy)]

theorem Handlers.mem_inOrder_iff {h : Handlers} {e : String × Handler} :
    e ∈ h.inOrder ↔ e ∈ h.byState := by
  simp only [inOrder, byState, List.mem_cons, List.not_mem_nil, or_false]
  tauto

theorem Template.handlers_tree (t : Template) (comment : String) (timeoutSeconds : Option UInt64)
    (parameters : Option Json) :
    (t.tree .handler comment timeoutSeconds parameters).handlers
      = t.handlers.inOrder.map Prod.snd := by
  cases timeoutSeconds <;> cases parameters <;>
    simp [tree, stateTrees, taskTree, plainState, Concrete.handlers, Concrete.handlersOfEntries,
      Handlers.inOrder]

/-- The handlers of a job are filed in the order of their states. -/
theorem Template.filings_tree (t : Template) (bind : Handler → Handler) (comment : String)
    (timeoutSeconds : Option UInt64) (parameters : Option Json) (chain : List (String × Nat)) :
    (t.tree (fun h ↦ .handler (bind h)) comment timeoutSeconds parameters).filings chain
      = t.handlers.inOrder.map fun e ↦ ⟨chain, e.1, bind e.2⟩ := by
  have hstates : (t.tree (fun h ↦ .handler (bind h)) comment timeoutSeconds parameters).stateEntries
      = t.stateTrees (fun h ↦ .handler (bind h)) parameters := by
    simp [tree, Concrete.stateEntries, Concrete.get?, Entries.find?_cons]
  rw [Concrete.filings, hstates, stateTrees]
  rw [filingsOfStates_plainState (by decide) (by decide), filingsOfStates_taskTree,
    filingsOfStates_plainState (by simp [State.kind, StateKind.fields])
      (by simp [State.kind, StateKind.fields]), filingsOfStates_taskTree, filingsOfStates_taskTree,
    filingsOfStates_taskTree, filingsOfStates_plainState (by decide) (by decide),
    filingsOfStates_taskTree, filingsOfStates_plainState (by decide) (by decide),
    filingsOfStates_plainState (by decide) (by decide), Concrete.filingsOfStates]
  rfl

end CopyJob

end Workflow
