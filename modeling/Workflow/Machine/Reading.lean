import Workflow.Json.Record
import Workflow.Machine.Basic

/-!
# Reading machines

A machine is read from a value whose fields are still in the order of the document, because that
order decides between the comparators of a rule. Machines, policies and states are records; a state
is told apart by its `Type`. A rule is an object: its `Next` is read by itself, and its condition by
the first form that fits the other fields.

Reading checks shapes only. Whether a machine can be run is a matter of validation.
-/

namespace Workflow

/-! ## Policies -/

def Retrier.ofJson? (v : Json) : Option Retrier := do
  let fields ← v.record? ["ErrorEquals", "IntervalSeconds", "MaxAttempts", "BackoffRate"]
  let field (name : String) := Entries.find? name fields
  return {
    errorEquals := ← Json.required (Json.listOf? Json.string?) (field "ErrorEquals")
    intervalSeconds := ← Json.defaulting 1 Json.uint32? (field "IntervalSeconds")
    maxAttempts := ← Json.defaulting 3 Json.uint32? (field "MaxAttempts")
    backoffRate := ← Json.defaulting 2.0 Json.float? (field "BackoffRate") }

def Catcher.ofJson? (v : Json) : Option Catcher := do
  let fields ← v.record? ["ErrorEquals", "Next", "ResultPath"]
  let field (name : String) := Entries.find? name fields
  return {
    errorEquals := ← Json.required (Json.listOf? Json.string?) (field "ErrorEquals")
    next := ← Json.required Json.string? (field "Next")
    resultPath := ← Json.optional Json.string? (field "ResultPath") }

/-! ## Rules -/

namespace Comparator

/-- The names of comparators, each with the way to read what is expected. -/
def forms : List (String × (Json → Option Comparator)) :=
  [("StringEquals", fun v => v.string?.map .stringEquals),
    ("NumericEquals", fun v => v.float?.map .numericEquals),
    ("NumericGreaterThan", fun v => v.float?.map .numericGreaterThan),
    ("NumericGreaterThanEquals", fun v => v.float?.map .numericGreaterThanEquals),
    ("NumericLessThan", fun v => v.float?.map .numericLessThan),
    ("NumericLessThanEquals", fun v => v.float?.map .numericLessThanEquals),
    ("BooleanEquals", fun v => v.bool?.map .booleanEquals),
    ("IsPresent", fun v => v.bool?.map .isPresent)]

/-- The first comparator among the fields of a rule. If its value is of another type there is no
other chance. -/
def ofFields? : List (String × Json) → Option Comparator
  | [] => none
  | (name, v) :: fields =>
    match Entries.find? name forms with
    | some read => read v
    | none => ofFields? fields

end Comparator

/-- The value of a field that is not given twice. -/
def Json.sole? (name : String) (fields : List (String × Json)) : Option Json :=
  if Entries.occurrences name fields ≤ 1 then Entries.find? name fields else none

/-- A comparison: a variable and a comparator. -/
def Condition.comparison? (fields : List (String × Json)) : Option Condition := do
  let path ← (Json.sole? "Variable" fields).bind Json.string?
  let comparator ← Comparator.ofFields? fields
  return .compare path comparator

/-- The state a rule leads to. -/
def ChoiceRule.next? (fields : List (String × Json)) : Option (Option String) :=
  if Entries.occurrences "Next" fields ≤ 1 then
    Json.optional Json.string? (Entries.find? "Next" fields)
  else none

mutual

/-- Reads a rule. -/
def ChoiceRule.ofJson? : Json → Option ChoiceRule
  | .object fields =>
    match ChoiceRule.next? fields with
    | none => none
    | some next =>
      let one (name : String) := Entries.occurrences name fields ≤ 1
      let condition :=
        (if one "And" then (rulesAmong? "And" fields).map Condition.all else none) <|>
        (if one "Or" then (rulesAmong? "Or" fields).map Condition.any else none) <|>
        (if one "Not" then (ruleAmong? "Not" fields).map Condition.negate else none) <|>
        Condition.comparison? fields
      condition.map fun c => { condition := c, next }
  | _ => none

/-- The rules in the field of a name. -/
def rulesAmong? (name : String) : List (String × Json) → Option (List ChoiceRule)
  | [] => none
  | (n, v) :: fields => if n = name then rulesOf? v else rulesAmong? name fields

/-- The rule in the field of a name. -/
def ruleAmong? (name : String) : List (String × Json) → Option ChoiceRule
  | [] => none
  | (n, v) :: fields => if n = name then ChoiceRule.ofJson? v else ruleAmong? name fields

/-- A list of rules. -/
def rulesOf? : Json → Option (List ChoiceRule)
  | .array items => ruleItems? items
  | _ => none

def ruleItems? : List Json → Option (List ChoiceRule)
  | [] => some []
  | v :: vs =>
    match ChoiceRule.ofJson? v with
    | none => none
    | some rule => (ruleItems? vs).map (rule :: ·)

end

/-! ## States -/

/-- The fields that say what follows a state. -/
def Transition.ofFields? (fields : Entries Json) : Option Transition := do
  return {
    next := ← Json.optional Json.string? (Entries.find? "Next" fields)
    ending := ← Json.optional Json.bool? (Entries.find? "End" fields) }

def TaskState.ofJson? (v : Json) : Option TaskState := do
  let fields ← v.record? ["Resource", "Parameters", "ResultPath", "TimeoutSeconds", "Next", "End",
    "Retry", "Catch", "Comment"]
  let field (name : String) := Entries.find? name fields
  return {
    resource := ← Json.required Json.string? (field "Resource")
    parameters := ← Json.optional Json.free? (field "Parameters")
    resultPath := ← Json.optional Json.string? (field "ResultPath")
    timeoutSeconds := ← Json.optional Json.uint64? (field "TimeoutSeconds")
    transition := ← Transition.ofFields? fields
    retry := ← Json.defaulting [] (Json.listOf? Retrier.ofJson?) (field "Retry")
    catchers := ← Json.defaulting [] (Json.listOf? Catcher.ofJson?) (field "Catch")
    comment := ← Json.optional Json.string? (field "Comment") }

def ChoiceState.ofJson? (v : Json) : Option ChoiceState := do
  let fields ← v.record? ["Choices", "Default", "Comment"]
  let field (name : String) := Entries.find? name fields
  return {
    choices := ← Json.required rulesOf? (field "Choices")
    fallback := ← Json.optional Json.string? (field "Default")
    comment := ← Json.optional Json.string? (field "Comment") }

def WaitState.ofJson? (v : Json) : Option WaitState := do
  let fields ← v.record? ["Seconds", "SecondsPath", "Next", "End", "Comment"]
  let field (name : String) := Entries.find? name fields
  return {
    seconds := ← Json.optional Json.uint64? (field "Seconds")
    secondsPath := ← Json.optional Json.string? (field "SecondsPath")
    transition := ← Transition.ofFields? fields
    comment := ← Json.optional Json.string? (field "Comment") }

def ParallelSettings.ofJson? (v : Json) : Option ParallelSettings := do
  let fields ← v.record? ["Branches", "ResultPath", "Next", "End", "Retry", "Catch", "Comment"]
  let field (name : String) := Entries.find? name fields
  return {
    resultPath := ← Json.optional Json.string? (field "ResultPath")
    transition := ← Transition.ofFields? fields
    retry := ← Json.defaulting [] (Json.listOf? Retrier.ofJson?) (field "Retry")
    catchers := ← Json.defaulting [] (Json.listOf? Catcher.ofJson?) (field "Catch")
    comment := ← Json.optional Json.string? (field "Comment") }

def FailState.ofJson? (v : Json) : Option FailState := do
  let fields ← v.record? ["Error", "Cause", "Comment"]
  let field (name : String) := Entries.find? name fields
  return {
    error := ← Json.optional Json.string? (field "Error")
    cause := ← Json.optional Json.string? (field "Cause")
    comment := ← Json.optional Json.string? (field "Comment") }

namespace State

/-- The body of a state of any kind. Only a parallel state has branches. -/
def ofBody? (kind : StateKind) (branches : Option (List Machine)) (body : Json) : Option State :=
  match kind with
  | .task => (TaskState.ofJson? body).map .task
  | .choice => (ChoiceState.ofJson? body).map .choice
  | .wait => (WaitState.ofJson? body).map .wait
  | .parallel => do
    let settings ← ParallelSettings.ofJson? body
    let branches ← branches
    return .parallel branches settings
  | .succeed => do
    let fields ← body.record? ["Comment"]
    return .succeed (← Json.optional Json.string? (Entries.find? "Comment" fields))
  | .fail => (FailState.ofJson? body).map .fail

/-- The kind in the `Type` of a state. Inside a branch the kinds may also be given by number. -/
def kindOf? (inBranch : Bool) (tag : Json) : Option StateKind :=
  match tag with
  | .string name => StateKind.ofName? name
  | .number n => if inBranch then n.nat?.bind fun i => StateKind.all[i]? else none
  | _ => none

end State

/-! ## Machines -/

/-- The fields of a machine besides its states. -/
def Machine.ofFields? (states : Entries State) (fields : Entries Json) : Option Machine := do
  let field (name : String) := Entries.find? name fields
  return {
    comment := ← Json.optional Json.string? (field "Comment")
    startAt := ← Json.required Json.string? (field "StartAt")
    timeoutSeconds := ← Json.optional Json.uint64? (field "TimeoutSeconds")
    states }

/-- The fields of a machine in the order in which an array gives them. -/
def Machine.declared : List String := ["Comment", "StartAt", "TimeoutSeconds", "States"]

mutual

/-- Reads a machine, or a branch. -/
def machineOf? (inBranch : Bool) : Json → Option Machine
  | .object fields =>
    match Json.record? Machine.declared (.object fields), statesAmong? inBranch fields with
    | some fields, some states => Machine.ofFields? states fields
    | _, _ => none
  | .array [comment, startAt, timeoutSeconds, states] =>
    match statesOf? inBranch states with
    | some read =>
      Machine.ofFields? read (Machine.declared.zip [comment, startAt, timeoutSeconds, states])
    | none => none
  | _ => none

/-- The states of a machine among its fields. -/
def statesAmong? (inBranch : Bool) : List (String × Json) → Option (Entries State)
  | [] => none
  | (name, v) :: fields =>
    if name = "States" then statesOf? inBranch v else statesAmong? inBranch fields

/-- States under their names. All of them have to be readable; of several under one name the last
counts. -/
def statesOf? (inBranch : Bool) : Json → Option (Entries State)
  | .object fields => (stateFields? inBranch fields).map Entries.collect
  | _ => none

def stateFields? (inBranch : Bool) : List (String × Json) → Option (List (String × State))
  | [] => some []
  | (name, v) :: fields =>
    match stateOf? inBranch v with
    | none => none
    | some s => (stateFields? inBranch fields).map ((name, s) :: ·)

/-- Reads a state. -/
def stateOf? (inBranch : Bool) : Json → Option State
  | .object fields =>
    match (Json.sole? "Type" fields).bind (State.kindOf? inBranch) with
    | none => none
    | some kind => State.ofBody? kind (branchesAmong? fields) (.object fields)
  | .array (tag :: items) =>
    match State.kindOf? inBranch tag with
    | none => none
    | some kind => State.ofBody? kind (firstBranches? items) (.array items)
  | _ => none

/-- The branches of a parallel state among its fields. -/
def branchesAmong? : List (String × Json) → Option (List Machine)
  | [] => none
  | (name, v) :: fields => if name = "Branches" then branchesOf? v else branchesAmong? fields

/-- The branches of a parallel state that is given as an array. -/
def firstBranches? : List Json → Option (List Machine)
  | [] => none
  | v :: _ => branchesOf? v

def branchesOf? : Json → Option (List Machine)
  | .array items => branchItems? items
  | _ => none

def branchItems? : List Json → Option (List Machine)
  | [] => some []
  | v :: vs =>
    match machineOf? true v with
    | none => none
    | some m => (branchItems? vs).map (m :: ·)

end

/-- Reads a machine. -/
def Machine.ofJson? (v : Json) : Option Machine := machineOf? false v

/-- Reads a state that stands by itself. -/
def State.ofJson? (v : Json) : Option State := stateOf? false v

end Workflow
