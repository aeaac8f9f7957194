import Workflow.Decimal.Binary
import Workflow.Entries

/-!
# Document values

Free-form data: task inputs and results, parameters, context documents. A number that is written
as an integer and fits sixty-four bits stays an integer; every other number is a float.

A value read from text keeps its fields as written, repeated names included. `Json.canonical` brings
it into the form in which values are compared, stored and handed on: fields in ascending order, each
name once, and no float that is not a number.
-/

namespace Workflow

/-- An integer that fits sixty-four bits, with or without a sign. -/
structure WideInt where
  val : Int
  lower : -0x8000000000000000 ≤ val := by omega
  upper : val < 0x10000000000000000 := by omega
deriving DecidableEq

namespace WideInt

/-- The integer, if it fits. -/
def ofInt? (i : Int) : Option WideInt :=
  if h : -0x8000000000000000 ≤ i ∧ i < 0x10000000000000000 then some ⟨i, h.1, h.2⟩ else none

def ofUInt64 (n : UInt64) : WideInt where
  val := n.toNat
  lower := by omega
  upper := by have := n.toNat_lt; omega

def ofUInt32 (n : UInt32) : WideInt where
  val := n.toNat
  lower := by omega
  upper := by have := n.toNat_lt; omega

def ofInt64 (n : Int64) : WideInt where
  val := n.toInt
  lower := n.le_toInt
  upper := by have := n.toInt_lt; omega

instance : Inhabited WideInt := ⟨⟨0, by omega, by omega⟩⟩

end WideInt

/-- A number of a document. -/
inductive Number where
  | int (n : WideInt)
  | float (x : Float)
deriving DecidableEq, Inhabited

namespace Number

/-- The value as a natural number below `2 ^ 64`. -/
def nat? : Number → Option Nat
  | .int n => if 0 ≤ n.val then some n.val.toNat else none
  | .float _ => none

/-- The value as a signed integer of sixty-four bits. -/
def int64? : Number → Option Int64
  | .int n => if n.val < 0x8000000000000000 then some (Int64.ofInt n.val) else none
  | .float _ => none

/-- The nearest float. -/
def toFloat : Number → Float
  | .int n => Float.ofInt n.val
  | .float x => x

end Number

/-- A value of a document. -/
inductive Json where
  | null
  | bool (b : Bool)
  | number (n : Number)
  | string (s : String)
  | array (items : List Json)
  | object (fields : List (String × Json))
deriving Inhabited, BEq

namespace Json

/-- A natural number as a value. Past sixty-four bits it is written as a float. -/
def ofNat (n : Nat) : Json :=
  match WideInt.ofInt? n with
  | some i => .number (.int i)
  | none => .number (.float (Float.ofNat n))

def ofUInt64 (n : UInt64) : Json := .number (.int (.ofUInt64 n))

def ofUInt32 (n : UInt32) : Json := .number (.int (.ofUInt32 n))

def ofInt64 (n : Int64) : Json := .number (.int (.ofInt64 n))

def ofFloat (x : Float) : Json := .number (.float x)

/-! ## Views -/

/-- The value of a field of an object. -/
def get? (name : String) : Json → Option Json
  | .object fields => Entries.find? name fields
  | _ => none

def string? : Json → Option String
  | .string s => some s
  | _ => none

def bool? : Json → Option Bool
  | .bool b => some b
  | _ => none

def nat? : Json → Option Nat
  | .number n => n.nat?
  | _ => none

def int64? : Json → Option Int64
  | .number n => n.int64?
  | _ => none

def float? : Json → Option Float
  | .number n => some n.toFloat
  | _ => none

def items? : Json → Option (List Json)
  | .array items => some items
  | _ => none

/-! ## The canonical form -/

/-- Adds an entry read before the others: a later one of the same name has the last word. -/
def addEarlier (name : String) (v : Json) (later : Entries Json) : Entries Json :=
  if Entries.has name later then later else Entries.place name v later

mutual

/-- Fields in ascending order, of several under one name the last, and `null` for a float that is
not finite. -/
def canonical : Json → Json
  | .null => .null
  | .bool b => .bool b
  | .number (.int n) => .number (.int n)
  | .number (.float x) => if isFiniteFloat x then .number (.float x) else .null
  | .string s => .string s
  | .array items => .array (canonicalItems items)
  | .object fields => .object (canonicalFields fields)

/-- `canonical` of every item. -/
def canonicalItems : List Json → List Json
  | [] => []
  | v :: vs => canonical v :: canonicalItems vs

/-- The fields of the canonical form of an object. -/
def canonicalFields : List (String × Json) → List (String × Json)
  | [] => []
  | (name, v) :: fields => addEarlier name (canonical v) (canonicalFields fields)

end

end Json

end Workflow
