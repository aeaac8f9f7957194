import Workflow.Machine.Fault
import Workflow.Machine.Reachable
import Workflow.Text.Characters

/-!
# Validation

`Machine.check` finds the first rule that a machine breaks. The states are looked at in the order of
their names, and a state with its branches before the next one; that every state is reachable is
looked at last.

`Machine.checkPolicies` is a separate question: whether every task has a retry and a catch policy.
-/

namespace Workflow

/-- Fails unless the condition holds. -/
def require {ε : Type} (condition : Bool) (fault : ε) : Except ε Unit :=
  if condition then .ok () else .error fault

/-! ## Parts of a state -/

/-- A path field, if it is there, has to be a path. -/
def checkPath (field : String) : Option String → Except StateFault Unit
  | none => .ok ()
  | some text =>
    match ContextPath.parse text with
    | .ok _ => .ok ()
    | .error e => .error (.badPath field e)

/-- A state goes on or ends, not both. `End: false` says nothing. -/
def checkTransition (kind : StateKind) (t : Transition) : Except StateFault Unit :=
  match t.next, t.ending with
  | some _, some true => .error .nextAndEnd
  | some _, _ => .ok ()
  | none, some true => .ok ()
  | none, _ => .error (.neitherNextNorEnd kind)

/-- The error names of an entry. -/
def checkErrorNames (block : PolicyBlock) (isLast : Bool) (names : List String) :
    Except StateFault Unit := do
  require (!names.isEmpty) (.noErrorNames block)
  require (!names.contains ErrorName.all || (names.length = 1 && isLast)) (.misplacedAll block)

def checkRetriers : List Retrier → Except StateFault Unit
  | [] => .ok ()
  | r :: rs => do
    checkErrorNames .retry rs.isEmpty r.errorEquals
    require (1 ≤ r.intervalSeconds) .zeroInterval
    require (isFiniteFloat r.backoffRate && !(r.backoffRate < 1.0)) (.backoffRate r.backoffRate)
    checkRetriers rs

def checkCatchers : List Catcher → Except StateFault Unit
  | [] => .ok ()
  | c :: cs => do
    checkErrorNames .recovery cs.isEmpty c.errorEquals
    checkPath "Catch ResultPath" c.resultPath
    checkCatchers cs

mutual

/-- The condition of a rule; nested rules lead nowhere. -/
def checkRule : ChoiceRule → Except StateFault Unit
  | ⟨condition, _⟩ => checkCondition condition

def checkCondition : Condition → Except StateFault Unit
  | .all rules => do
    require (!rules.isEmpty) .emptyRules
    checkNested rules
  | .any rules => do
    require (!rules.isEmpty) .emptyRules
    checkNested rules
  | .negate rule => do
    require rule.next.isNone .nestedNext
    checkRule rule
  | .compare path _ => checkPath "Variable" (some path)

def checkNested : List ChoiceRule → Except StateFault Unit
  | [] => .ok ()
  | rule :: rules => do
    require rule.next.isNone .nestedNext
    checkRule rule
    checkNested rules

end

/-- The rules of a choice state. -/
def checkRules : List ChoiceRule → Except StateFault Unit
  | [] => .ok ()
  | rule :: rules => do
    require rule.next.isSome .ruleWithoutNext
    checkRule rule
    checkRules rules

/-! ## States -/

/-- What a state says by itself, without its targets and branches. -/
def State.checkSelf (s : State) : Except StateFault Unit :=
  match s with
  | .task t => do
    checkTransition s.kind s.transition
    checkPath "ResultPath" t.resultPath
    require (t.timeoutSeconds ≠ some 0) .zeroTimeout
    require (!isBlankText t.resource) .blankResource
    checkRetriers t.retry
    checkCatchers t.catchers
  | .parallel branches p => do
    checkTransition s.kind s.transition
    checkPath "ResultPath" p.resultPath
    require (!branches.isEmpty) .noBranches
    checkRetriers p.retry
    checkCatchers p.catchers
  | .wait w => do
    checkTransition s.kind s.transition
    match w.seconds, w.secondsPath with
    | some _, none => .ok ()
    | none, some path => checkPath "SecondsPath" (some path)
    | _, _ => .error .duration
  | .choice c => do
    require (!c.choices.isEmpty) .noRules
    checkRules c.choices
  | .succeed _ => .ok ()
  | .fail _ => .ok ()

/-- Every target has to be a state of the machine. -/
def checkTargets (m : Machine) : List String → Except StateFault Unit
  | [] => .ok ()
  | name :: names => do
    require (m.has name) (.unknownTarget name)
    checkTargets m names

/-- A state with its targets. -/
def checkState (place : Place) (m : Machine) (name : String) (s : State) : Except Fault Unit := do
  require (!isBlankText name) (.machine place .blankName)
  (s.checkSelf).mapError (.state place name)
  (checkTargets m s.targets).mapError (.state place name)

/-! ## Machines -/

/-- What a machine says before its states are looked at. -/
def checkHead (place : Place) (m : Machine) : Except Fault Unit := do
  require (!m.states.isEmpty) (.machine place .noStates)
  require (m.has m.startAt) (.machine place (.unknownStart m.startAt))
  require (m.timeoutSeconds ≠ some 0) (.machine place .zeroTimeout)

/-- Every state has to be reachable. -/
def checkReachable (place : Place) (m : Machine) : Except Fault Unit :=
  match m.unreached with
  | [] => .ok ()
  | name :: _ => .error (.machine place (.unreachable name m.startAt))

mutual

/-- A machine at some place in the document. -/
def checkMachine (place : Place) (m : Machine) : Except Fault Unit :=
  match m with
  | ⟨comment, startAt, timeoutSeconds, states⟩ => do
    checkHead place ⟨comment, startAt, timeoutSeconds, states⟩
    checkStates place ⟨comment, startAt, timeoutSeconds, states⟩ states
    checkReachable place ⟨comment, startAt, timeoutSeconds, states⟩

/-- The states of the machine `whole`, one after the other. -/
def checkStates (place : Place) (whole : Machine) : List (String × State) → Except Fault Unit
  | [] => .ok ()
  | (name, s) :: states => do
    checkState place whole name s
    checkInside place name s
    checkStates place whole states

/-- The branches of a state. -/
def checkInside (place : Place) (name : String) : State → Except Fault Unit
  | .parallel branches _ => checkBranches place name 0 branches
  | .task _ => .ok ()
  | .choice _ => .ok ()
  | .wait _ => .ok ()
  | .succeed _ => .ok ()
  | .fail _ => .ok ()

/-- The branches from some index on. -/
def checkBranches (place : Place) (name : String) (index : Nat) :
    List Machine → Except Fault Unit
  | [] => .ok ()
  | m :: ms => do
    require m.timeoutSeconds.isNone (.machine (.branch place name index) .branchTimeout)
    checkMachine (.branch place name index) m
    checkBranches place name (index + 1) ms

end

/-- The first rule that a machine breaks. -/
def Machine.check (m : Machine) : Except Fault Unit := checkMachine .root m

/-! ## Policies -/

mutual

/-- Every task state, those of branches included, has to have both policies. -/
def policiesOfMachine : Machine → Except PolicyFault Unit
  | ⟨_, _, _, states⟩ => policiesOfStates states

def policiesOfStates : List (String × State) → Except PolicyFault Unit
  | [] => .ok ()
  | (name, s) :: states => do
    policiesOfState name s
    policiesOfStates states

def policiesOfState (name : String) : State → Except PolicyFault Unit
  | .task t => do
    require (!t.retry.isEmpty) (.noRetry name)
    require (!t.catchers.isEmpty) (.noCatch name)
  | .parallel branches _ => policiesOfMachines branches
  | .choice _ => .ok ()
  | .wait _ => .ok ()
  | .succeed _ => .ok ()
  | .fail _ => .ok ()

def policiesOfMachines : List Machine → Except PolicyFault Unit
  | [] => .ok ()
  | m :: ms => do
    policiesOfMachine m
    policiesOfMachines ms

end

/-- The first task state without a policy. -/
def Machine.checkPolicies (m : Machine) : Except PolicyFault Unit := policiesOfMachine m

/-! ## Checks that pass -/

@[simp] theorem require_eq_ok {ε : Type} {condition : Bool} {fault : ε} :
    require condition fault = .ok () ↔ condition = true := by
  cases condition <;> simp [require]

theorem checkPath_eq_ok {field : String} {text : Option String} :
    checkPath field text = .ok () ↔ ∀ t ∈ text, ∃ p, ContextPath.parse t = .ok p := by
  cases text with
  | none => simp [checkPath]
  | some t =>
    simp only [checkPath, Option.mem_def, Option.some.injEq, forall_eq']
    cases ContextPath.parse t with
    | ok p => simp
    | error e => simp

end Workflow
