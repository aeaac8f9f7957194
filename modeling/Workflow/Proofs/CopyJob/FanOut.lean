import Workflow.Machine.Document
import Workflow.Proofs.CopyJob.Tree
import Workflow.Proofs.Machine.ScopeText
import Workflow.Proofs.Template.Distinct

/-!
# A fan-out is copies of the single job

The definition of a fan-out goes a long way before it can be run: the machine of a worker is
written, its tree gets the handlers, the frame gets a replication of the tree, the replication is
expanded, and what comes out is read, validated and filed. On this way nothing may happen to a
worker but what it is told: its index, in the parameters of its tasks and in its comment.

What could go wrong is the token. It is replaced in every name and text of the worker, so it must
not occur in any but those two (`Template.Fresh`). Then the tree of every copy is the tree of a job
with other parameters (`Template.under_tree`), and its machine is read back from it.
-/

namespace Workflow

open Json

/-- The state with parameters if it has a task carried out. -/
def State.withParameters (parameters : Json) : State → State
  | .task t => .task { t with parameters := some parameters }
  | s => s

namespace CopyJob

namespace Template

/-! ## The frame -/

/-- The machine around some branches. -/
def fanOutMachine (t : Template) (pool : Int64) (branches : List Machine) : Machine where
  comment := some s!"{t.options.comment} ({integerText pool.toInt} workers)"
  startAt := fanOutState
  timeoutSeconds := t.options.timeoutSeconds
  states := [(fanOutState, .parallel branches {
    resultPath := some "$.workers", transition := { ending := some true } })]

/-- The tree of the parallel state with some branches. -/
def forkTree (branches : List Concrete) : Concrete :=
  .mapping [("Branches", .sequence branches), ("End", .scalar (.bool true)),
    ("ResultPath", .text "$.workers"), ("Type", .text "Parallel")]

/-- The tree of the frame around some branches. -/
def frameTree (t : Template) (pool : Int64) (branches : List Concrete) : Concrete :=
  .mapping ([("Comment", .text s!"{t.options.comment} ({integerText pool.toInt} workers)"),
    ("StartAt", .text fanOutState), ("States", .mapping [(fanOutState, forkTree branches)])]
    ++ (t.options.timeoutSeconds.map fun n ↦
      ("TimeoutSeconds", Concrete.ofPlain (ofUInt64 n))).toList)

/-- The frame of a definition around what stands for its branches. -/
def frame (t : Template) (pool : Int64) (branches : Annotated) : Annotated :=
  .mapping ([("Comment", .text s!"{t.options.comment} ({integerText pool.toInt} workers)"),
    ("StartAt", .text fanOutState),
    ("States", .mapping [(fanOutState, .mapping [("Branches", branches),
      ("End", .scalar (.bool true)), ("ResultPath", .text "$.workers"),
      ("Type", .text "Parallel")])])]
    ++ (t.options.timeoutSeconds.map fun n ↦
      ("TimeoutSeconds", Annotated.ofPlain (ofUInt64 n))).toList)

theorem toJson_frameTree (t : Template) (pool : Int64) {branches : List Machine}
    {trees : List Concrete}
    (h : trees.map Concrete.toJson = branches.map fun m ↦ m.toJson.canonical) :
    (t.frameTree pool trees).toJson = (t.fanOutMachine pool branches).toJson.canonical := by
  have hbranches : canonicalItems (machinesToJson branches) = trees.map Concrete.toJson := by
    rw [h, machinesToJson_eq_map, canonicalItems_eq_map, List.map_map]
    rfl
  rw [Machine.toJson_eq, frameTree, forkTree]
  cases ht : t.options.timeoutSeconds <;>
    simp [-String.lt_iff_ltb, Machine.toFields, fanOutMachine, ht, Concrete.toJson,
      Concrete.toJsonFields, Concrete.toJsonItems_eq_map, Scalar.toJson, hbranches, statesToJson,
      stateFields, State.kind, StateKind.name, ParallelSettings.toFields, Transition.toFields,
      listField, fieldOf, ofUInt64, canonical, canonicalFields, addEarlier, Entries.has,
      Entries.find?_cons, Entries.place]

theorem plainTree_fanOutFrame (t : Template) (pool : Int64) :
    plainTree (t.fanOutFrame pool) = .ofConcrete (t.frameTree pool []) := by
  have hjson : (t.frameTree pool []).toJson = (t.fanOutMachine pool []).toJson.canonical :=
    t.toJson_frameTree pool rfl
  have hframe : t.fanOutFrame pool = t.fanOutMachine pool [] := rfl
  rw [plainTree, hframe, ← hjson, Annotated.ofPlain_toJson]
  cases ht : t.options.timeoutSeconds <;>
    simp [frameTree, forkTree, ht, Concrete.handlers, Concrete.handlersOfEntries,
      Concrete.handlersOfItems]

/-- The tree of a worker, with its handlers. -/
def workerTree (t : Template) (pool : Int64) (token : String) : Concrete :=
  t.tree .handler s!"{t.options.comment} (worker {token})" none (some (workerParameters pool token))

theorem annotate_worker (t : Template) (pool : Int64) (token : String) :
    annotate t.handlers.byState (plainTree (t.worker pool token))
      = .ok (.ofConcrete (t.workerTree pool token)) :=
  t.annotate_plainTree _ _ _

/-- The definition of a fan-out is the frame around a replication of the worker. -/
theorem fanOut_eq (t : Template) (pool : Int64) (token : String) :
    t.fanOut pool token
      = .ok (t.frame pool (.replicate token pool (.ofConcrete (t.workerTree pool token)))) := by
  rw [fanOut, annotate_worker, plainTree_fanOutFrame]
  cases ht : t.options.timeoutSeconds <;>
    simp [bind, Except.bind, pure, Except.pure, insertIntoState?, Annotated.changeAt?,
      Annotated.insert?, frameTree, forkTree, frame, ht, ofUInt64, Annotated.ofConcrete,
      Annotated.ofConcreteEntries, Annotated.ofConcreteItems, Concrete.ofPlain, Annotated.ofPlain,
      Entries.find?_cons, Entries.replace, Entries.insert, Entries.has]

/-- The frame stays as it is around what its branches become. -/
theorem expand_frame (t : Template) {pool : Int64} {branches : Annotated} {trees : List Concrete}
    (h : branches.expanded [] = .ok (.copies trees)) :
    (t.frame pool branches).expand = .ok (t.frameTree pool trees) := by
  cases ht : t.options.timeoutSeconds <;>
    simp [-String.lt_iff_ltb, Annotated.expand, Annotated.expandIn, frame, frameTree, forkTree, ht,
      Annotated.expanded, Annotated.expandEntries, h, Except.map, Expanded.node, Entries.insert,
      Entries.place, Entries.has, Entries.find?_cons, ofUInt64, Annotated.ofPlain,
      Concrete.ofPlain]

/-! ## Workers -/

/-- The token is to be found nowhere in a worker but where the worker is told something. -/
structure Fresh (t : Template) (token : String) (branch : Annotated) : Prop where
  names : ∀ p ∈ branch.parts, ∀ name, Annotated.Edge.entry name ∈ p.1 →
    ¬token.toList <:+: name.toList
  texts : ∀ route s, (route, Part.text s) ∈ branch.parts → token.toList <:+: s.toList →
    t.Told route

/-- The tree of copy `index`. -/
def copyTree (t : Template) (pool : Int64) (token : String) (index : Nat) : Concrete :=
  t.tree (fun h ↦ .handler (.bound h [index]))
    (Text.substitute token (wholeText index) s!"{t.options.comment} (worker {token})") none
    (some (workerParameters pool (wholeText index)))

/-- The machine of copy `index`. -/
def copyMachine (t : Template) (pool : Int64) (token : String) (index : Nat) : Machine :=
  t.build (Text.substitute token (wholeText index) s!"{t.options.comment} (worker {token})") none
    (some (workerParameters pool (wholeText index)))

theorem toJson_copyTree (t : Template) (pool : Int64) (token : String) (index : Nat) :
    (t.copyTree pool token index).toJson = (t.copyMachine pool token index).toJson.canonical :=
  t.toJson_tree (fun _ ↦ rfl) _ _ _

/-- **A worker is expanded** to the tree of its copy. -/
theorem expandIn_workerTree {t : Template} {pool : Int64} {token : String} (htoken : token ≠ "")
    (haccepts : ∀ e ∈ t.handlers.byState, e.2.acceptsBranch = true)
    (hfresh : t.Fresh token (.ofConcrete (t.workerTree pool token))) (index : Nat) :
    Annotated.expandIn [(token, index)] (.ofConcrete (t.workerTree pool token))
      = .ok (t.copyTree pool token index) := by
  have happly (s : String) : Bindings.apply [(token, index)] s
      = Text.substitute token (wholeText index) s := rfl
  have hsorted : (t.workerTree pool token).toJson.Ascending := by
    rw [workerTree, t.toJson_tree fun _ ↦ rfl]
    exact ascending_canonical _
  have hnames : Annotated.FixesNames [(token, index)]
      (Annotated.ofConcrete (t.workerTree pool token)).parts := by
    intro p hp name hname
    rw [happly, Text.substitute_of_not_infix (hfresh.names p hp name hname)]
  have htexts : Annotated.FixesTexts [(token, index)] t.Told
      (Annotated.ofConcrete (t.workerTree pool token)).parts := by
    intro route s hmem htold
    have habsent : ¬token.toList <:+: s.toList := fun hoccurs ↦
      htold (hfresh.texts route s hmem hoccurs)
    rw [happly, Text.substitute_of_not_infix habsent]
  have hhandlers : ∀ h ∈ (t.workerTree pool token).handlers,
      [(token, index)] = [] ∨ h.acceptsBranch = true := by
    intro h hmem
    rw [workerTree, handlers_tree] at hmem
    obtain ⟨e, he, rfl⟩ := List.mem_map.mp hmem
    exact .inr (haccepts e (Handlers.mem_inOrder_iff.mp he))
  rw [Annotated.expandIn_ofConcrete hsorted hnames hhandlers, workerTree, t.under_tree htexts,
    happly, happly, Text.substitute_self htoken]
  rfl

/-- The trees of all copies. -/
def copyTrees (t : Template) (pool : Int64) (token : String) : List Concrete :=
  (List.range pool.toInt.toNat).map (t.copyTree pool token)

/-- The machines of all copies. -/
def copyMachines (t : Template) (pool : Int64) (token : String) : List Machine :=
  (List.range pool.toInt.toNat).map (t.copyMachine pool token)

theorem expand_fanOut {t : Template} {pool : Int64} {token : String} (hpool : 1 ≤ pool.toInt)
    (htoken : token ≠ "") (haccepts : ∀ e ∈ t.handlers.byState, e.2.acceptsBranch = true)
    (hfresh : t.Fresh token (.ofConcrete (t.workerTree pool token))) :
    (t.frame pool (.replicate token pool (.ofConcrete (t.workerTree pool token)))).expand
      = .ok (t.frameTree pool (t.copyTrees pool token)) := by
  have hcheck : checkReplication token pool [] = .ok () := by
    rw [checkReplication, if_neg htoken, if_neg (by omega)]
    rfl
  refine t.expand_frame ?_
  rw [Annotated.expanded, hcheck]
  have hcopies : (List.range pool.toInt.toNat).mapM (fun i ↦
      ((Annotated.ofConcrete (t.workerTree pool token)).expanded (Bindings.extended [] token i)).map
        Expanded.node) = .ok (t.copyTrees pool token) := by
    rw [mapM_eq_ok_iff, copyTrees, List.map_map]
    exact List.map_congr_left fun i _ ↦ expandIn_workerTree htoken haccepts hfresh i
  simp only [hcopies]
  rfl

/-! ## The document -/

theorem writable_copyMachine (t : Template) (pool : Int64) (token : String) (index : Nat) :
    (t.copyMachine pool token index).Writable := by
  refine t.writable_build _ _ fun p hp ↦ ?_
  rw [← Option.some.inj hp]
  exact ⟨canonical_workerParameters _ _, nofun⟩

theorem writable_fanOutMachine (t : Template) (pool : Int64) (token : String) :
    (t.fanOutMachine pool (t.copyMachines pool token)).Writable := by
  refine ⟨List.pairwise_singleton _ _, List.forall_mem_singleton.mpr (.parallel ?_ nofun)⟩
  intro m hm
  obtain ⟨index, -, rfl⟩ := List.mem_map.mp hm
  exact t.writable_copyMachine pool token index

/-- The machine of a fan-out is valid. -/
theorem check_fanOutMachine {t : Template}
    (hnames : ∀ e ∈ t.handlers.byState, isBlankText e.2.name = false)
    (htimeout : t.options.timeoutSeconds ≠ some 0) {pool : Int64} (hpool : 1 ≤ pool.toInt)
    (token : String) : (t.fanOutMachine pool (t.copyMachines pool token)).check = .ok () := by
  have hhead : checkHead .root (t.fanOutMachine pool (t.copyMachines pool token)) = .ok () := by
    rw [checkHead]
    simp only [seq_eq_ok_iff, require_eq_ok]
    exact ⟨rfl, rfl, decide_eq_true htimeout⟩
  have hreach : checkReachable .root (t.fanOutMachine pool (t.copyMachines pool token))
      = .ok () := by
    have hunreached : (t.fanOutMachine pool (t.copyMachines pool token)).unreached = [] := by
      simp [Machine.unreached, fanOutMachine, unreachedFrom, reachRound, Entries.find?_cons,
        Entries.names, State.targets, State.transition, State.catchers]
    rw [checkReachable, hunreached]
  have hbranches : checkBranches .root fanOutState 0 (t.copyMachines pool token) = .ok () := by
    refine checkBranches_eq_ok (fun m hm ↦ ?_) 0
    obtain ⟨index, -, rfl⟩ := List.mem_map.mp hm
    have hnone : (none : Option UInt64) ≠ some 0 := (Option.some_ne_none 0).symm
    exact ⟨rfl, fun inner ↦ check_build hnames inner _ hnone _⟩
  have hsome : (t.copyMachines pool token).isEmpty = false := by
    have hne : pool.toInt.toNat ≠ 0 := by omega
    simpa [copyMachines] using hne
  rw [Machine.check, fanOutMachine, checkMachine]
  simp only [seq_eq_ok_iff]
  refine ⟨hhead, checkStates_eq_ok (List.forall_mem_singleton.mpr ⟨?_, hbranches⟩), hreach⟩
  rw [checkState]
  simp only [seq_eq_ok_iff, require_eq_ok, mapError_eq_ok_iff]
  refine ⟨rfl, ?_, rfl⟩
  rw [State.checkSelf]
  simp only [seq_eq_ok_iff, require_eq_ok, hsome]
  exact ⟨rfl, rfl, rfl, rfl, rfl⟩

theorem policies_fanOutMachine (t : Template) (pool : Int64) (token : String) :
    (t.fanOutMachine pool (t.copyMachines pool token)).checkPolicies = .ok () := by
  rw [Machine.checkPolicies, fanOutMachine, policiesOfMachine, policiesOfStates, seq_eq_ok_iff]
  refine ⟨policiesOfMachines_eq_ok fun m hm ↦ ?_, rfl⟩
  obtain ⟨index, -, rfl⟩ := List.mem_map.mp hm
  exact t.policies_build _ _ _

/-! ## The table -/

/-- The handlers of a fan-out, copy by copy. -/
def copyFilings (t : Template) (pool : Int64) : List Filing :=
  (List.range pool.toInt.toNat).flatMap fun i ↦
    t.handlers.inOrder.map fun e ↦ ⟨[(fanOutState, i)], e.1, .bound e.2 [i]⟩

theorem filings_frameTree (t : Template) (pool : Int64) (token : String) :
    (t.frameTree pool (t.copyTrees pool token)).filings [] = t.copyFilings pool := by
  have hstates : (t.frameTree pool (t.copyTrees pool token)).stateEntries
      = [(fanOutState, forkTree (t.copyTrees pool token))] := by
    simp [frameTree, Concrete.stateEntries, Concrete.get?, Entries.find?_cons]
  have hresource : (forkTree (t.copyTrees pool token)).get? "Resource" = none := by
    simp [forkTree, Concrete.get?, Entries.find?_cons]
  have hbranches : (forkTree (t.copyTrees pool token)).branchItems = t.copyTrees pool token := by
    simp [forkTree, Concrete.branchItems, Concrete.get?, Entries.find?_cons]
  rw [Concrete.filings, hstates, Concrete.filingsOfStates, Concrete.filingsOfStates, hresource,
    hbranches, copyTrees, List.range_eq_range', Concrete.filingsOfBranches_map, List.append_nil,
    ← List.range_eq_range']
  refine congrArg (List.flatMap · _) (funext fun i ↦ ?_)
  exact t.filings_tree (fun h ↦ .bound h [i]) _ _ _ _

theorem length_copyFilings (t : Template) (pool : Int64) :
    (t.copyFilings pool).length = 5 * pool.toInt.toNat := by
  rw [copyFilings, List.length_flatMap]
  simp only [List.length_map, Handlers.inOrder, List.length_cons, List.length_nil]
  rw [List.map_const', List.sum_replicate_nat, List.length_range, Nat.mul_comm]

/-- No two handlers are filed under one label. -/
theorem nodup_copyFilings (t : Template) (pool : Int64) :
    ((t.copyFilings pool).map Filing.label).Nodup := by
  have hslash (i : Nat) : Scope.Unslashed [(fanOutState, i)] :=
    List.forall_mem_singleton.mpr (show '/' ∉ fanOutState.toList by simp [fanOutState])
  rw [copyFilings, List.map_flatMap, List.nodup_flatMap]
  constructor
  · intro i _
    rw [List.map_map]
    refine List.Nodup.of_map Prod.snd ?_
    rw [List.map_map]
    simp [Handlers.inOrder, Filing.label]
  · refine List.nodup_range.imp fun {i j} hne label hi hj ↦ hne ?_
    simp only [List.map_map, List.mem_map] at hi hj
    obtain ⟨e, -, rfl⟩ := hi
    obtain ⟨e', -, heq⟩ := hj
    -- the text of the scope tells the index of the copy
    have hchain := (Scope.ofChain_inj (hslash j) (hslash i)).mp (Prod.mk.inj heq).1
    exact (Prod.mk.inj (List.cons.inj hchain).1).2.symm

/-- The handlers of all copies, in a table. -/
def copyTable (t : Template) (pool : Int64) : HandlerTable :=
  (t.copyFilings pool).foldl HandlerTable.file {}

theorem size_copyTable (t : Template) (pool : Int64) :
    (t.copyTable pool).size = 5 * pool.toInt.toNat := by
  have hnodup : ((({} : HandlerTable).entries.map Prod.fst)
      ++ (t.copyFilings pool).map Filing.label).Nodup := t.nodup_copyFilings pool
  have hempty : ({} : HandlerTable).size = 0 := rfl
  rw [copyTable, HandlerTable.size_foldl_file hnodup, hempty, Nat.zero_add, length_copyFilings]

/-- The table has the handlers of a copy, bound to the index of the copy. -/
theorem get?_copyTable {t : Template} {pool : Int64} {i : Nat} (hi : i < pool.toInt.toNat)
    {e : String × Handler} (he : e ∈ t.handlers.byState) :
    (t.copyTable pool).get? (Scope.root.branch fanOutState i) e.1 = some (.bound e.2 [i]) := by
  have hmem : ⟨[(fanOutState, i)], e.1, .bound e.2 [i]⟩ ∈ t.copyFilings pool :=
    List.mem_flatMap.mpr ⟨i, List.mem_range.mpr hi,
      List.mem_map.mpr ⟨e, Handlers.mem_inOrder_iff.mpr he, rfl⟩⟩
  have hlast : lastFiled? (Scope.root.branch fanOutState i, e.1) (t.copyFilings pool)
      = some (.bound e.2 [i]) := lastFiled?_of_nodup (t.nodup_copyFilings pool) hmem
  rw [copyTable, get?_foldl_file, hlast, Option.some_or]

/-- **The expanded definition is read** as the machine of all copies, with their handlers. -/
theorem ofConcrete?_frameTree (t : Template) (pool : Int64) (token : String) :
    WorkflowDocument.ofConcrete? (t.frameTree pool (t.copyTrees pool token))
      = some { machine := t.fanOutMachine pool (t.copyMachines pool token)
               handlers := t.copyTable pool } := by
  have hjson : (t.frameTree pool (t.copyTrees pool token)).toJson
      = (t.fanOutMachine pool (t.copyMachines pool token)).toJson.canonical := by
    refine t.toJson_frameTree pool ?_
    rw [copyTrees, copyMachines, List.map_map, List.map_map]
    exact List.map_congr_left fun i _ ↦ t.toJson_copyTree pool token i
  rw [WorkflowDocument.ofConcrete?, hjson,
    Machine.ofJson?_toJson (t.writable_fanOutMachine pool token), Option.map_some,
    ← Scope.ofChain_nil, fileMachine_ofChain, filings_frameTree, copyTable]

/-! ## The fan-out -/

/-- **A fan-out is copies of the single job.** Take a template whose handlers have names and take a
branch index, with no time limit or a positive one, and a token that is found in a worker only where
it is told something. For every positive size the definition of the fan-out is there and is expanded
to a document, whose machine is valid and has both policies on every task. The machine has a
parallel state and nothing else; branch `i` is the machine of the single job with another comment,
without a time limit, and with its index and the number of workers as parameters of every task. The
table has the handlers of every copy and no others, each bound to the index of its copy. -/
theorem fanOut_copies {t : Template} {pool : Int64} {token : String}
    (haccepts : ∀ e ∈ t.handlers.byState, e.2.acceptsBranch = true)
    (hnames : ∀ e ∈ t.handlers.byState, isBlankText e.2.name = false)
    (htimeout : t.options.timeoutSeconds ≠ some 0) (hpool : 1 ≤ pool.toInt) (htoken : token ≠ "")
    (hfresh : ∀ branch, annotate t.handlers.byState (plainTree (t.worker pool token)) = .ok branch →
      t.Fresh token branch) :
    ∃ node c d branches settings, t.fanOut pool token = .ok node ∧ node.expand = .ok c ∧
      WorkflowDocument.ofConcrete? c = some d ∧
      d.machine.check = .ok () ∧ d.machine.checkPolicies = .ok () ∧
      d.machine.states = [(fanOutState, .parallel branches settings)] ∧
      branches.length = pool.toInt.toNat ∧
      (∀ i < pool.toInt.toNat, branches[i]? = some { t.machine with
        comment := some
          (Text.substitute token (wholeText i) s!"{t.options.comment} (worker {token})")
        timeoutSeconds := none
        states := t.machine.states.map fun e ↦
          (e.1, e.2.withParameters (workerParameters pool (wholeText i))) }) ∧
      d.handlers.size = 5 * pool.toInt.toNat ∧
      ∀ i < pool.toInt.toNat, ∀ e ∈ t.handlers.byState,
        d.handler? (Scope.root.branch fanOutState i) e.1 = some (.bound e.2 [i]) := by
  have hexpand := expand_fanOut hpool htoken haccepts (hfresh _ (t.annotate_worker pool token))
  refine ⟨_, _, _, t.copyMachines pool token, _, t.fanOut_eq pool token, hexpand,
    t.ofConcrete?_frameTree pool token, check_fanOutMachine hnames htimeout hpool token,
    t.policies_fanOutMachine pool token, rfl, ?_, fun i hi ↦ ?_, t.size_copyTable pool,
    fun i hi e he ↦ get?_copyTable hi he⟩
  · rw [copyMachines, List.length_map, List.length_range]
  · rw [copyMachines, List.getElem?_map, List.getElem?_range hi, Option.map_some]
    rfl

/-! ## A fan-out of tasks carried out elsewhere -/

/-- Neither the names on the route nor the text have the character, unless something is told
there. -/
def lacks (t : Template) (c : Char) (p : Annotated.Route × Part) : Bool :=
  (p.1.all fun
    | .entry name => !name.toList.contains c
    | _ => true) &&
  match p.2 with
  | .text s => !s.toList.contains c || decide (t.Told p.1)
  | _ => true

/-- A token is fresh if one of its characters occurs nowhere else. -/
theorem Fresh.of_lacks {t : Template} {token : String} {c : Char} (hc : c ∈ token.toList)
    {branch : Annotated} (h : branch.parts.all (t.lacks c) = true) : t.Fresh token branch := by
  rw [List.all_eq_true] at h
  constructor
  · intro p hp name hname hoccurs
    have hroute := (Bool.and_eq_true_iff.mp (h p hp)).1
    have hlacks := List.all_eq_true.mp hroute _ hname
    simp only [Bool.not_eq_true', List.contains_eq_mem, decide_eq_false_iff_not] at hlacks
    exact hlacks (hoccurs.subset hc)
  · intro route s hp hoccurs
    have htext := (Bool.and_eq_true_iff.mp (h _ hp)).2
    simp only [Bool.or_eq_true, Bool.not_eq_true', List.contains_eq_mem, decide_eq_false_iff_not,
      decide_eq_true_eq] at htext
    exact htext.resolve_left fun hnot ↦ hnot (hoccurs.subset hc)

/-- A job whose tasks are carried out elsewhere. -/
def relayed : Template := { handlers := .remote id }

theorem fanOut_copies_relayed : ∃ node c d branches settings,
    relayed.fanOut 2 "#" = .ok node ∧ node.expand = .ok c ∧
      WorkflowDocument.ofConcrete? c = some d ∧ d.machine.check = .ok () ∧
      d.machine.states = [("CopyWorkers", .parallel branches settings)] ∧ branches.length = 2 ∧
      d.handlers.size = 10 ∧
      d.handler? "CopyWorkers[1]" "Notify" = some (.bound (.elsewhere "notify") [1]) := by
  have hfresh : relayed.Fresh "#" (.ofConcrete (relayed.workerTree 2 "#")) :=
    .of_lacks (show '#' ∈ "#".toList by decide) (by decide +kernel)
  obtain ⟨node, c, d, branches, settings, hnode, hc, hd, hcheck, -, hstates, hlength, -, hsize,
    htable⟩ := @fanOut_copies relayed 2 "#"
      (by simp [relayed, Handlers.remote, Handlers.byState, Handler.acceptsBranch])
      (by decide) (by decide) (by decide) (by decide) (fun branch hbranch ↦ by
        rw [annotate_worker] at hbranch
        rw [← Except.ok.inj hbranch]
        exact hfresh)
  exact ⟨node, c, d, branches, settings, hnode, hc, hd, hcheck, hstates, hlength, hsize,
    htable 1 (by decide) ("Notify", .elsewhere "notify") (by decide)⟩

end Template

end CopyJob

end Workflow
