import Workflow.Machine.Basic

/-!
# Writing machines

Fields come in the order of their declaration, `Type` first in a state. What is missing is left out,
and so are policies without entries.
-/

namespace Workflow

namespace Json

/-- A field that is left out when there is no value for it. -/
def fieldOf {α : Type} (name : String) (write : α → Json) : Option α → List (String × Json)
  | none => []
  | some a => [(name, write a)]

/-- A field that is left out when the list is empty. -/
def listField {α : Type} (name : String) (write : α → Json) (items : List α) :
    List (String × Json) :=
  if items.isEmpty then [] else [(name, .array (items.map write))]

def ofStrings (ss : List String) : Json := .array (ss.map .string)

end Json

open Json

def Retrier.toJson (r : Retrier) : Json :=
  .object [("ErrorEquals", ofStrings r.errorEquals),
    ("IntervalSeconds", ofUInt32 r.intervalSeconds),
    ("MaxAttempts", ofUInt32 r.maxAttempts), ("BackoffRate", ofFloat r.backoffRate)]

def Catcher.toJson (c : Catcher) : Json :=
  .object ([("ErrorEquals", ofStrings c.errorEquals), ("Next", .string c.next)]
    ++ fieldOf "ResultPath" .string c.resultPath)

/-- The name of a comparator and what it expects. -/
def Comparator.toField : Comparator → String × Json
  | .stringEquals s => ("StringEquals", .string s)
  | .numericEquals x => ("NumericEquals", ofFloat x)
  | .numericGreaterThan x => ("NumericGreaterThan", ofFloat x)
  | .numericGreaterThanEquals x => ("NumericGreaterThanEquals", ofFloat x)
  | .numericLessThan x => ("NumericLessThan", ofFloat x)
  | .numericLessThanEquals x => ("NumericLessThanEquals", ofFloat x)
  | .booleanEquals b => ("BooleanEquals", .bool b)
  | .isPresent b => ("IsPresent", .bool b)

mutual

def ChoiceRule.toJson : ChoiceRule → Json
  | ⟨condition, next⟩ => .object (conditionFields condition ++ fieldOf "Next" .string next)

/-- The fields of a condition. -/
def conditionFields : Condition → List (String × Json)
  | .all rules => [("And", .array (rulesToJson rules))]
  | .any rules => [("Or", .array (rulesToJson rules))]
  | .negate rule => [("Not", ChoiceRule.toJson rule)]
  | .compare path comparator => [("Variable", .string path), comparator.toField]

def rulesToJson : List ChoiceRule → List Json
  | [] => []
  | rule :: rules => ChoiceRule.toJson rule :: rulesToJson rules

end

def Transition.toFields (t : Transition) : List (String × Json) :=
  fieldOf "Next" .string t.next ++ fieldOf "End" .bool t.ending

def TaskState.toFields (t : TaskState) : List (String × Json) :=
  [("Resource", .string t.resource)] ++ fieldOf "Parameters" id t.parameters
    ++ fieldOf "ResultPath" .string t.resultPath
    ++ fieldOf "TimeoutSeconds" ofUInt64 t.timeoutSeconds
    ++ t.transition.toFields ++ listField "Retry" Retrier.toJson t.retry
    ++ listField "Catch" Catcher.toJson t.catchers ++ fieldOf "Comment" .string t.comment

def ChoiceState.toFields (c : ChoiceState) : List (String × Json) :=
  [("Choices", .array (rulesToJson c.choices))] ++ fieldOf "Default" .string c.fallback
    ++ fieldOf "Comment" .string c.comment

def WaitState.toFields (w : WaitState) : List (String × Json) :=
  fieldOf "Seconds" ofUInt64 w.seconds ++ fieldOf "SecondsPath" .string w.secondsPath
    ++ w.transition.toFields ++ fieldOf "Comment" .string w.comment

/-- The fields behind the branches. -/
def ParallelSettings.toFields (p : ParallelSettings) : List (String × Json) :=
  fieldOf "ResultPath" .string p.resultPath ++ p.transition.toFields
    ++ listField "Retry" Retrier.toJson p.retry ++ listField "Catch" Catcher.toJson p.catchers
    ++ fieldOf "Comment" .string p.comment

def FailState.toFields (f : FailState) : List (String × Json) :=
  fieldOf "Error" .string f.error ++ fieldOf "Cause" .string f.cause
    ++ fieldOf "Comment" .string f.comment

mutual

def Machine.toJson : Machine → Json
  | ⟨comment, startAt, timeoutSeconds, states⟩ =>
    .object (fieldOf "Comment" .string comment ++ [("StartAt", .string startAt)]
      ++ fieldOf "TimeoutSeconds" ofUInt64 timeoutSeconds
      ++ [("States", .object (statesToJson states))])

def statesToJson : List (String × State) → List (String × Json)
  | [] => []
  | (name, s) :: states => (name, .object (("Type", .string s.kind.name) :: stateFields s))
      :: statesToJson states

/-- The fields of a state behind its `Type`. -/
def stateFields : State → List (String × Json)
  | .task t => t.toFields
  | .choice c => c.toFields
  | .wait w => w.toFields
  | .parallel branches settings =>
    ("Branches", .array (machinesToJson branches)) :: settings.toFields
  | .succeed comment => fieldOf "Comment" .string comment
  | .fail f => f.toFields

def machinesToJson : List Machine → List Json
  | [] => []
  | m :: ms => Machine.toJson m :: machinesToJson ms

end

def State.toJson (s : State) : Json :=
  .object (("Type", .string s.kind.name) :: stateFields s)

end Workflow
