import Workflow.Json.Reader
import Workflow.Machine.Writing
import Workflow.Run.Execution

/-!
# Execution records

The form in which executions are kept: with an identifier and the times of the beginning and the
end. Identifiers have 128 bits and are written as thirty-two hexadecimal digits in five groups.
Times are in UTC.
-/

namespace Workflow

/-! ## Identifiers -/

/-- The identifier of an execution. -/
structure ExecutionId where
  value : BitVec 128
deriving DecidableEq

namespace ExecutionId

/-- The digits between the hyphens. -/
def groups : List Nat := [8, 4, 4, 4, 12]

private def hexText (count : Nat) (cs : List Char) : Option (List Char × List Char) :=
  let digits := cs.take count
  if digits.length = count ∧ digits.all fun c => (Json.hexDigit? c).isSome then
    some (digits, cs.drop count)
  else none

/-- Hexadecimal digits in groups with a hyphen between one group and the next. -/
private def grouped? : List Nat → List Char → Option (List Char)
  | [], cs => if cs = [] then some [] else none
  | [count], cs => do
    let (digits, rest) ← hexText count cs
    if rest = [] then some digits else none
  | count :: counts, cs => do
    let (digits, rest) ← hexText count cs
    match rest with
    | '-' :: rest => (grouped? counts rest).map (digits ++ ·)
    | _ => none

private def ofDigits (cs : List Char) : ExecutionId :=
  ⟨BitVec.ofNat 128 (cs.foldl (fun n c => 16 * n + (Json.hexDigit? c).getD 0) 0)⟩

/-- Reads an identifier: the digits alone, or in groups, or in groups inside braces or behind the
name of their namespace. -/
def parse? (text : String) : Option ExecutionId :=
  let cs := text.toList
  let digits :=
    if cs.length = 32 then grouped? [32] cs
    else if cs.length = 36 then grouped? groups cs
    else if cs.length = 38 ∧ cs.head? = some '{' ∧ cs.getLast? = some '}' then
      grouped? groups ((cs.drop 1).take 36)
    else if cs.length = 45 ∧ cs.take 9 = "urn:uuid:".toList then grouped? groups (cs.drop 9)
    else none
  digits.map ofDigits

private def joined : List Nat → List Char → List String
  | [], _ => []
  | count :: counts, cs => String.ofList (cs.take count) :: joined counts (cs.drop count)

/-- The identifier in groups of small digits. -/
def render (id : ExecutionId) : String :=
  let digits := Nat.toDigits 16 id.value.toNat
  let padded := List.replicate (32 - digits.length) '0' ++ digits
  String.intercalate "-" (joined groups padded)

end ExecutionId

/-! ## Times -/

/-- A point in time, in UTC. -/
structure Timestamp where
  year : Nat
  month : Nat
  day : Nat
  hour : Nat
  minute : Nat
  /-- Sixty in a leap second. -/
  second : Nat
  nanosecond : Nat
deriving DecidableEq

namespace Timestamp

def isLeapYear (year : Nat) : Bool := year % 4 = 0 && (year % 100 ≠ 0 || year % 400 = 0)

def daysInMonth (year month : Nat) : Nat :=
  if month = 2 then (if isLeapYear year then 29 else 28)
  else if month ∈ [4, 6, 9, 11] then 30 else 31

/-- Whether the fields name a time that exists. -/
def IsValid (t : Timestamp) : Prop :=
  1 ≤ t.month ∧ t.month ≤ 12 ∧ 1 ≤ t.day ∧ t.day ≤ daysInMonth t.year t.month ∧ t.hour < 24 ∧
    t.minute < 60 ∧ t.second ≤ 60

instance (t : Timestamp) : Decidable t.IsValid := inferInstanceAs (Decidable (_ ∧ _))

/-- A number of exactly `count` digits. -/
private def number? (count : Nat) (cs : List Char) : Option (Nat × List Char) :=
  let digits := cs.take count
  if digits.length = count ∧ digits.all Char.isDigit then
    some (digitsValue digits, cs.drop count)
  else none

/-- The text behind one of some characters. -/
private def behind? (allowed : List Char) : List Char → Option (List Char)
  | c :: cs => if c ∈ allowed then some cs else none
  | [] => none

/-- The nanoseconds of a fraction; digits beyond the ninth are dropped. -/
private def fraction? : List Char → Option (Nat × List Char)
  | '.' :: cs =>
    let digits := cs.takeWhile Char.isDigit
    let kept := digits.take 9
    if digits = [] then none
    else some (digitsValue kept * Nat.pow 10 (9 - kept.length), cs.dropWhile Char.isDigit)
  | cs => some (0, cs)

/-- Reads a date and a time in UTC. -/
def parse? (text : String) : Option Timestamp := do
  let (year, cs) ← number? 4 text.toList
  let (month, cs) ← number? 2 (← behind? ['-'] cs)
  let (day, cs) ← number? 2 (← behind? ['-'] cs)
  let (hour, cs) ← number? 2 (← behind? ['T', 't', ' '] cs)
  let (minute, cs) ← number? 2 (← behind? [':'] cs)
  let (second, cs) ← number? 2 (← behind? [':'] cs)
  let (nanosecond, cs) ← fraction? cs
  let t : Timestamp := { year, month, day, hour, minute, second, nanosecond }
  if t.IsValid ∧ String.ofList cs ∈ ["Z", "z", "+00:00", "-00:00"] then some t else none

private def padded (count n : Nat) : String :=
  let digits := wholeDigits n
  String.ofList (List.replicate (count - digits.length) '0' ++ digits)

/-- A fraction of three, six or nine digits, if there is one. -/
private def fractionText (nanosecond : Nat) : String :=
  if nanosecond = 0 then ""
  else if nanosecond % 1000000 = 0 then "." ++ padded 3 (nanosecond / 1000000)
  else if nanosecond % 1000 = 0 then "." ++ padded 6 (nanosecond / 1000)
  else "." ++ padded 9 nanosecond

def render (t : Timestamp) : String :=
  padded 4 t.year ++ "-" ++ padded 2 t.month ++ "-" ++ padded 2 t.day ++ "T" ++ padded 2 t.hour
    ++ ":" ++ padded 2 t.minute ++ ":" ++ padded 2 t.second ++ fractionText t.nanosecond ++ "Z"

end Timestamp

/-! ## Records -/

/-- An execution with its identifier and its times. -/
structure ExecutionRecord extends Execution where
  id : ExecutionId
  startedAt : Timestamp
  finishedAt : Option Timestamp := none

namespace ExecutionRecord

def ofJson? (v : Json) : Option ExecutionRecord := do
  let fields ← v.record? ["execution_id", "status", "trace", "output", "error", "cause",
    "elapsed_seconds", "started_at", "finished_at"]
  let field (name : String) := Entries.find? name fields
  let time? (v : Json) := v.string?.bind Timestamp.parse?
  return {
    id := ← Json.required (fun v => v.string?.bind ExecutionId.parse?) (field "execution_id")
    status := ← Json.required ExecutionStatus.ofJson? (field "status")
    trace := ← Json.required (Json.listOf? Json.string?) (field "trace")
    output := ← Json.required Json.free? (field "output")
    error := ← Json.optional Json.string? (field "error")
    cause := ← Json.optional Json.string? (field "cause")
    elapsedSeconds := ← Json.required Json.uint64? (field "elapsed_seconds")
    startedAt := ← Json.required time? (field "started_at")
    finishedAt := ← Json.optional time? (field "finished_at") }

def toJson (r : ExecutionRecord) : Json :=
  .object ([("execution_id", .string r.id.render), ("status", .string r.status.name),
      ("trace", Json.ofStrings r.trace), ("output", r.output)]
    ++ Json.fieldOf "error" .string r.error ++ Json.fieldOf "cause" .string r.cause
    ++ [("elapsed_seconds", .ofUInt64 r.elapsedSeconds),
      ("started_at", .string r.startedAt.render)]
    ++ Json.fieldOf "finished_at" (fun t => .string t.render) r.finishedAt)

end ExecutionRecord

end Workflow
