import Workflow.Machine.Writing
import Workflow.Proofs.Json.Canonical

/-!
# Values that are read back

A value is written, brought into its canonical form and read again. `Json.ReadsBack` says that this
gives the value, and that it is not written as `null`, which as a field would be as good as nothing.
The fields of a record are written one by one, so a record is read back if its fields are.
-/

namespace Workflow

namespace Json

/-- Reading the canonical form of what was written gives `a`. -/
structure ReadsBack {α : Type} (read : Json → Option α) (write : α → Json) (a : α) : Prop where
  read : read (write a).canonical = some a
  ne_null : (write a).canonical ≠ .null

/-! ## Values -/

theorem readsBack_string (s : String) : ReadsBack string? .string s :=
  ⟨by rw [canonical, string?], by rw [canonical]; exact nofun⟩

theorem readsBack_bool (b : Bool) : ReadsBack bool? .bool b :=
  ⟨by rw [canonical, bool?], by rw [canonical]; exact nofun⟩

theorem readsBack_uint64 (n : UInt64) : ReadsBack uint64? ofUInt64 n := by
  refine ⟨?_, by rw [ofUInt64, canonical]; exact nofun⟩
  have hnat : (ofUInt64 n).nat? = some n.toNat := by
    simp [ofUInt64, nat?, Number.nat?, WideInt.ofUInt64]
  rw [ofUInt64, canonical, ← ofUInt64, uint64?, hnat, Option.map_some, UInt64.ofNat_toNat]

theorem readsBack_uint32 (n : UInt32) : ReadsBack uint32? ofUInt32 n := by
  refine ⟨?_, by rw [ofUInt32, canonical]; exact nofun⟩
  have hnat : (ofUInt32 n).nat? = some n.toNat := by
    simp [ofUInt32, nat?, Number.nat?, WideInt.ofUInt32]
  rw [ofUInt32, canonical, ← ofUInt32, uint32?, hnat, Option.bind_some, if_pos n.toNat_lt_size,
    UInt32.ofNat_toNat]

theorem readsBack_float {x : Float} (h : isFiniteFloat x = true) : ReadsBack float? ofFloat x := by
  have hcanonical : (ofFloat x).canonical = .number (.float x) := by
    rw [ofFloat, canonical, if_pos h]
  exact ⟨by rw [hcanonical]; rfl, by rw [hcanonical]; exact nofun⟩

/-- A free value is read as it was written if it is in its canonical form. -/
theorem readsBack_free {v : Json} (h : v.canonical = v) (hnull : v ≠ .null) :
    ReadsBack free? id v :=
  ⟨by rw [free?, id_eq, h, h], by rw [id_eq, h]; exact hnull⟩

theorem readsBack_list {α : Type} {read : Json → Option α} {write : α → Json} {as : List α}
    (h : ∀ a ∈ as, ReadsBack read write a) :
    ReadsBack (listOf? read) (fun as ↦ .array (as.map write)) as := by
  refine ⟨?_, by rw [canonical]; exact nofun⟩
  rw [canonical, canonicalItems_eq_map, listOf?, List.map_map]
  induction as with
  | nil => rfl
  | cons a as ih =>
    obtain ⟨ha, has⟩ := List.forall_mem_cons.mp h
    rw [List.map_cons, List.mapM_cons, ih has, Function.comp_apply, ha.read]
    rfl

theorem readsBack_strings (ss : List String) : ReadsBack (listOf? string?) ofStrings ss :=
  readsBack_list fun s _ ↦ readsBack_string s

/-! ## Fields -/

@[simp] theorem find?_append (name : String) (es fs : List (String × Json)) :
    Entries.find? name (es ++ fs) = (Entries.find? name es).or (Entries.find? name fs) := by
  induction es with
  | nil => rfl
  | cons e es ih =>
    rw [List.cons_append, Entries.find?_cons, Entries.find?_cons, ih]
    split <;> rfl

@[simp] theorem find?_fieldOf {α : Type} (name field : String) (write : α → Json) (o : Option α) :
    Entries.find? name (fieldOf field write o) = if field = name then o.map write else none := by
  cases o with
  | none => rw [fieldOf, Entries.find?_nil, Option.map_none, ite_self]
  | some a => rfl

/-- The value of a field that is left out when the list is empty. -/
def listValue? {α : Type} (write : α → Json) : List α → Option Json
  | [] => none
  | a :: as => some (.array ((a :: as).map write))

@[simp] theorem find?_listField {α : Type} (name field : String) (write : α → Json)
    (items : List α) : Entries.find? name (listField field write items)
      = if field = name then listValue? write items else none := by
  cases items with
  | nil =>
    rw [listField, List.isEmpty_nil, if_pos rfl, listValue?, ite_self]
    rfl
  | cons a as => rfl

theorem declared_fieldOf {α : Type} (field : String) (write : α → Json) (o : Option α) :
    Declared [field] (fieldOf field write o) := by
  cases o with
  | none => exact List.nil_sublist _
  | some a => exact declared_single field _

theorem declared_listField {α : Type} (field : String) (write : α → Json) (items : List α) :
    Declared [field] (listField field write items) := by
  cases items with
  | nil => exact List.nil_sublist _
  | cons a as => exact declared_single field _

/-! ## Fields that are read back -/

section

variable {α : Type} {read : Json → Option α} {write : α → Json}

theorem optional_of_readsBack {o : Option α} (h : ∀ a ∈ o, ReadsBack read write a) :
    optional read (o.map (canonical ∘ write)) = some o := by
  cases o with
  | none => rfl
  | some a =>
    obtain ⟨hread, hnull⟩ := h a rfl
    rw [Option.map_some, Function.comp_apply, optional]
    · rw [hread, Option.map_some]
    · exact hnull

theorem defaulting_of_readsBack {a : α} (default : α) (h : ReadsBack read write a) :
    defaulting default read (some (write a).canonical) = some a := h.read

theorem defaulting_listValue? {items : List α} (h : ∀ a ∈ items, ReadsBack read write a) :
    defaulting [] (listOf? read) ((listValue? write items).map canonical) = some items := by
  cases items with
  | nil => rfl
  | cons a as => exact (readsBack_list h).read

end

@[simp] theorem required_string (s : String) :
    required string? (some (canonical (.string s))) = some s := (readsBack_string s).read

@[simp] theorem required_strings (ss : List String) :
    required (listOf? string?) (some (ofStrings ss).canonical) = some ss :=
  (readsBack_strings ss).read

@[simp] theorem optional_string (o : Option String) :
    optional string? (o.map (canonical ∘ .string)) = some o :=
  optional_of_readsBack fun s _ ↦ readsBack_string s

@[simp] theorem optional_bool (o : Option Bool) :
    optional bool? (o.map (canonical ∘ .bool)) = some o :=
  optional_of_readsBack fun b _ ↦ readsBack_bool b

@[simp] theorem optional_uint64 (o : Option UInt64) :
    optional uint64? (o.map (canonical ∘ ofUInt64)) = some o :=
  optional_of_readsBack fun n _ ↦ readsBack_uint64 n

/-- A free value comes back if it is in its canonical form and is not `null`. -/
theorem optional_free {o : Option Json} (h : ∀ v ∈ o, v.canonical = v ∧ v ≠ .null) :
    optional free? (o.map canonical) = some o :=
  optional_of_readsBack fun v hv ↦ readsBack_free (h v hv).1 (h v hv).2

end Json

end Workflow
