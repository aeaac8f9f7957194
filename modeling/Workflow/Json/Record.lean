import Workflow.Json.Value

/-!
# Reading records

A record is an object with declared field names, or an array of its fields in the order of their
declaration. Fields that are not declared are passed over; a declared field must not be given twice.
An array may stop early but holds nothing beyond the last field.

What a missing field means is up to the field: it is an error where the field is `required`, and
`null` is as good as missing where it is `optional`. A field with a default may be missing but must
not be `null` unless its type allows that.
-/

namespace Workflow

namespace Entries

/-- How often a name occurs. -/
def occurrences {α : Type u} (name : String) (es : Entries α) : Nat :=
  (es.filter fun e => e.1 = name).length

end Entries

namespace Json

/-- The fields of a record under their declared names. -/
def record? (declared : List String) : Json → Option (Entries Json)
  | .object fields =>
    if declared.all fun name => Entries.occurrences name fields ≤ 1 then some fields else none
  | .array items => if items.length ≤ declared.length then some (declared.zip items) else none
  | _ => none

/-! ## Fields -/

variable {α : Type u}

/-- A field that has to be there. -/
def required (read : Json → Option α) (field : Option Json) : Option α := field.bind read

/-- A field that may be missing or `null`. -/
def optional (read : Json → Option α) : Option Json → Option (Option α)
  | none => some none
  | some .null => some none
  | some v => (read v).map some

/-- A field that may be missing. -/
def defaulting (default : α) (read : Json → Option α) : Option Json → Option α
  | none => some default
  | some v => read v

/-! ## Values -/

/-- An unsigned integer of sixty-four bits. -/
def uint64? (v : Json) : Option UInt64 := v.nat?.map UInt64.ofNat

/-- An unsigned integer of thirty-two bits. -/
def uint32? (v : Json) : Option UInt32 :=
  v.nat?.bind fun n => if n < UInt32.size then some (UInt32.ofNat n) else none

/-- A list of values of one kind. -/
def listOf? (read : Json → Option α) : Json → Option (List α)
  | .array items => items.mapM read
  | _ => none

/-- Any value, in its canonical form. -/
def free? (v : Json) : Option Json := some v.canonical

end Json

end Workflow
