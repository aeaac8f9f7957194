import Mathlib.Data.List.Nodup
import Workflow.Json.Record
import Workflow.Proofs.Entries

/-!
# Canonical values

The fields of a canonical value stand in ascending order, and looking one up in it gives the
canonical form of what was written. So a record that was written field by field is found in its
canonical form again, whatever order its fields were written in.
-/

namespace Workflow

/-! ## Entries in ascending order -/

namespace Entries

universe u

variable {α : Type u}

/-- The names are in ascending order, each once. -/
def Ascending (es : Entries α) : Prop := (names es).Pairwise (· < ·)

theorem Ascending.nodup {es : Entries α} (h : Ascending es) : (names es).Nodup :=
  List.Pairwise.imp (fun hlt ↦ String.ne_of_lt hlt) h

theorem mem_names_place {n name : String} {a : α} {es : Entries α} :
    n ∈ names (place name a es) ↔ n = name ∨ n ∈ names es := by
  have hperm : (names (place name a es)).Perm (name :: names es) := (perm_place name a es).map _
  rw [hperm.mem_iff, List.mem_cons]

theorem ascending_place {name : String} {es : Entries α} (hes : Ascending es)
    (h : name ∉ names es) (a : α) : Ascending (place name a es) := by
  induction es with
  | nil => exact List.pairwise_singleton _ _
  | cons e es ih =>
    obtain ⟨n, b⟩ := e
    obtain ⟨hfirst, hrest⟩ := List.pairwise_cons.mp hes
    obtain ⟨hne, hmem⟩ := not_or.mp (mt List.mem_cons.mpr h)
    rw [place]
    split
    · next hlt =>
      refine List.pairwise_cons.mpr ⟨fun k hk ↦ ?_, hes⟩
      rcases List.mem_cons.mp hk with rfl | hk
      · exact hlt
      · exact String.lt_trans hlt (hfirst k hk)
    · next hlt =>
      refine List.pairwise_cons.mpr ⟨fun k hk ↦ ?_, ih hrest hmem⟩
      rcases mem_names_place.mp hk with rfl | hk
      · -- the new name is neither before the first one nor the same
        refine Classical.byContradiction fun hge ↦ hne ?_
        exact String.le_antisymm (String.not_lt.mp hge) (String.not_lt.mp hlt)
      · exact hfirst k hk

/-- An entry before all others is put in front. -/
theorem place_of_first {name : String} {es : Entries α} (h : ∀ n ∈ names es, name < n) (a : α) :
    place name a es = (name, a) :: es := by
  cases es with
  | nil => rfl
  | cons e es =>
    rw [place, if_pos (h e.1 List.mem_cons_self)]

/-- An entry behind all others is put at the end. -/
theorem insert_of_last {name : String} {es : Entries α} (h : ∀ n ∈ names es, n < name) (a : α) :
    insert name a es = es ++ [(name, a)] := by
  have hnew : has name es = false := by
    rw [← Bool.not_eq_true, has_iff]
    exact fun hmem ↦ String.lt_irrefl _ (h name hmem)
  rw [insert, hnew, if_neg Bool.false_ne_true]
  clear hnew
  induction es with
  | nil => rfl
  | cons e es ih =>
    obtain ⟨hfirst, hrest⟩ := List.forall_mem_cons.mp h
    rw [place, if_neg (String.lt_asymm hfirst), ih hrest, List.cons_append]

theorem Ascending.of_cons {e : String × α} {es : Entries α} (h : Ascending (e :: es)) :
    (∀ n ∈ names es, e.1 < n) ∧ Ascending es := List.pairwise_cons.mp h

/-- Collecting entries in order changes nothing. -/
theorem collect_of_ascending {es : Entries α} (h : Ascending es) : collect es = es := by
  have key : ∀ done : Entries α, (∀ n ∈ names done, ∀ m ∈ names es, n < m) →
      es.foldl (fun acc e ↦ insert e.1 e.2 acc) done = done ++ es := by
    induction es with
    | nil => exact fun done _ ↦ (List.append_nil done).symm
    | cons e es ih =>
      obtain ⟨hfirst, hrest⟩ := h.of_cons
      intro done hdone
      have hlast : ∀ n ∈ names done, n < e.1 := fun n hn ↦ hdone n hn e.1 List.mem_cons_self
      rw [List.foldl_cons, insert_of_last hlast, ih hrest, List.append_assoc, List.singleton_append]
      intro n hn m hm
      rw [names, List.map_append, List.mem_append] at hn
      rcases hn with hn | hn
      · exact hdone n hn m (List.mem_cons_of_mem _ hm)
      · rw [List.mem_singleton.mp hn]
        exact hfirst m hm
  exact key [] (by simp [names])

theorem names_replace (name : String) (a : α) (es : Entries α) :
    names (replace name a es) = names es := by
  induction es with
  | nil => rfl
  | cons e es ih =>
    rw [replace]
    split
    · rfl
    · rw [names, List.map_cons, ← names, ih]
      rfl

theorem ascending_insert {es : Entries α} (hes : Ascending es) (name : String) (a : α) :
    Ascending (insert name a es) := by
  rw [insert]
  split
  · rw [Ascending, names_replace]
    exact hes
  · next hhas => exact ascending_place hes (mt (has_iff _ _).mpr hhas) a

theorem ascending_enter {done : Entries α} (hdone : Ascending done) (added : Entries α) :
    Ascending (enter added done) := by
  induction added generalizing done with
  | nil => exact hdone
  | cons e added ih => exact ih (ascending_insert hdone e.1 e.2)

/-- Entries that were collected are in order. -/
theorem ascending_collect (es : Entries α) : Ascending (collect es) := by
  have hnil : Ascending ([] : Entries α) := List.Pairwise.nil
  exact ascending_enter hnil es

/-- There is only one way to put entries in order. -/
theorem Ascending.eq_of_perm {es es' : Entries α} (hes : Ascending es) (hes' : Ascending es')
    (h : es.Perm es') : es = es' := by
  rw [Ascending, names, List.pairwise_map] at hes hes'
  refine h.eq_of_pairwise ?_ hes hes'
  intro e e' _ _ hlt hgt
  exact absurd hgt (String.lt_asymm hlt)

/-- The order in which entries with distinct names are collected does not matter. -/
theorem collect_eq_of_perm {es es' : Entries α} (hes : (names es).Nodup) (h : es.Perm es') :
    collect es = collect es' := by
  have hes' : (names es').Nodup := (h.map Prod.fst).nodup_iff.mp hes
  exact (ascending_collect es).eq_of_perm (ascending_collect es')
    ((perm_collect hes).trans (h.trans (perm_collect hes').symm))

end Entries

/-! ## Canonical fields -/

namespace Json

/-- Induction over a value, with the hypothesis for every value directly inside. -/
@[elab_as_elim]
theorem rec' {motive : Json → Prop} (null : motive .null) (bool : ∀ b, motive (.bool b))
    (number : ∀ n, motive (.number n)) (string : ∀ s, motive (.string s))
    (array : ∀ items, (∀ v ∈ items, motive v) → motive (.array items))
    (object : ∀ fields, (∀ e ∈ fields, motive e.2) → motive (.object fields)) : ∀ v, motive v
  | .null => null
  | .bool b => bool b
  | .number n => number n
  | .string s => string s
  | .array items => array items fun v hv ↦
    have : sizeOf v < sizeOf items := List.sizeOf_lt_of_mem hv
    rec' null bool number string array object v
  | .object fields => object fields fun e he ↦
    have : sizeOf e.2 < sizeOf fields := Entries.sizeOf_snd_lt_of_mem he
    rec' null bool number string array object e.2

theorem mem_names_canonicalFields {name : String} {fields : List (String × Json)} :
    name ∈ Entries.names (canonicalFields fields) ↔ name ∈ Entries.names fields := by
  induction fields with
  | nil => rw [canonicalFields]
  | cons e fields ih =>
    have hcons : Entries.names (e :: fields) = e.1 :: Entries.names fields := rfl
    rw [canonicalFields, addEarlier, hcons, List.mem_cons, ← ih]
    split
    · next hhas =>
      rw [Entries.has_iff] at hhas
      refine ⟨.inr, fun h ↦ ?_⟩
      rcases h with rfl | h
      · exact hhas
      · exact h
    · exact Entries.mem_names_place

theorem ascending_canonicalFields (fields : List (String × Json)) :
    Entries.Ascending (canonicalFields fields) := by
  induction fields with
  | nil => exact .nil
  | cons e fields ih =>
    rw [canonicalFields, addEarlier]
    split
    · exact ih
    · next hhas => exact Entries.ascending_place ih (mt (Entries.has_iff _ _).mpr hhas) _

/-- A field of a canonical object is the canonical form of the field. -/
theorem find?_canonicalFields {fields : List (String × Json)} (h : (Entries.names fields).Nodup)
    (name : String) :
    Entries.find? name (canonicalFields fields) = (Entries.find? name fields).map canonical := by
  induction fields with
  | nil => rw [canonicalFields, Entries.find?_nil, Option.map_none]
  | cons e fields ih =>
    obtain ⟨n, v⟩ := e
    obtain ⟨hnotMem, hrest⟩ := List.nodup_cons.mp h
    have hnew : Entries.has n (canonicalFields fields) = false := by
      rw [← Bool.not_eq_true, Entries.has_iff, mem_names_canonicalFields]
      exact hnotMem
    rw [canonicalFields, addEarlier, hnew, if_neg Bool.false_ne_true, Entries.find?_cons]
    by_cases hn : n = name
    · rw [if_pos hn, ← hn, Entries.find?_place_self _ _ hnew, Option.map_some]
    · rw [if_neg hn, Entries.find?_place_of_ne _ _ (Ne.symm hn), ih hrest]

/-- Fields in order stay where they are. -/
theorem canonicalFields_of_ascending {fields : List (String × Json)}
    (h : Entries.Ascending fields) :
    canonicalFields fields = fields.map fun e ↦ (e.1, e.2.canonical) := by
  induction fields with
  | nil => rw [canonicalFields, List.map_nil]
  | cons e fields ih =>
    obtain ⟨hfirst, hrest⟩ := h.of_cons
    have hbefore : ∀ n ∈ Entries.names (canonicalFields fields), e.1 < n := fun n hn ↦
      hfirst n (mem_names_canonicalFields.mp hn)
    have hnew : Entries.has e.1 (canonicalFields fields) = false := by
      rw [← Bool.not_eq_true, Entries.has_iff]
      exact fun hmem ↦ String.lt_irrefl _ (hbefore _ hmem)
    rw [canonicalFields, addEarlier, hnew, if_neg Bool.false_ne_true,
      Entries.place_of_first hbefore, ih hrest, List.map_cons]

theorem canonicalItems_eq_map (items : List Json) : canonicalItems items = items.map canonical := by
  induction items with
  | nil => rw [canonicalItems, List.map_nil]
  | cons v items ih => rw [canonicalItems, ih, List.map_cons]

/-! ## Values in ascending order -/

/-- Every object in the value has its fields in ascending order. -/
inductive Ascending : Json → Prop
  | null : Ascending .null
  | bool {b : Bool} : Ascending (.bool b)
  | number {n : Number} : Ascending (.number n)
  | string {s : String} : Ascending (.string s)
  | array {items : List Json} (each : ∀ v ∈ items, Ascending v) : Ascending (.array items)
  | object {fields : List (String × Json)} (names : Entries.Ascending fields)
      (values : ∀ e ∈ fields, Ascending e.2) : Ascending (.object fields)

mutual

/-- A canonical value has its fields in ascending order, at every depth. -/
theorem ascending_canonical : ∀ v : Json, v.canonical.Ascending
  | .null => by rw [canonical]; exact .null
  | .bool b => by rw [canonical]; exact .bool
  | .number (.int n) => by rw [canonical]; exact .number
  | .number (.float x) => by
    rw [canonical]
    split
    · exact .number
    · exact .null
  | .string s => by rw [canonical]; exact .string
  | .array items => by
    rw [canonical]
    exact .array (ascending_canonicalItems items)
  | .object fields => by
    rw [canonical]
    exact .object (ascending_canonicalFields fields) (ascending_values fields)

private theorem ascending_canonicalItems : ∀ items : List Json,
    ∀ v ∈ canonicalItems items, v.Ascending
  | [] => by simp [canonicalItems]
  | v :: items => by
    rw [canonicalItems]
    exact List.forall_mem_cons.mpr ⟨ascending_canonical v, ascending_canonicalItems items⟩

private theorem ascending_values : ∀ fields : List (String × Json),
    ∀ e ∈ canonicalFields fields, e.2.Ascending
  | [] => by simp [canonicalFields]
  | (name, v) :: fields => by
    rw [canonicalFields, addEarlier]
    split
    · exact ascending_values fields
    · intro e he
      rcases List.mem_cons.mp ((Entries.perm_place _ _ _).mem_iff.mp he) with rfl | he
      · exact ascending_canonical v
      · exact ascending_values fields e he

end

/-! ## Records -/

theorem occurrences_le_one {α : Type} {es : Entries α} (h : (Entries.names es).Nodup)
    (name : String) : Entries.occurrences name es ≤ 1 := by
  rw [Entries.occurrences, ← List.countP_eq_length_filter]
  calc es.countP (fun e ↦ e.1 = name)
      = (Entries.names es).count name := by
        rw [Entries.names, List.count, List.countP_map]
        exact List.countP_congr fun e _ ↦ by simp
    _ ≤ 1 := List.nodup_iff_count_le_one.mp h name

/-- Fields that hold what was written, each once and in its canonical form. -/
structure Carries (fields written : List (String × Json)) : Prop where
  once : ∀ name, Entries.occurrences name fields ≤ 1
  find? : ∀ name, Entries.find? name fields = (Entries.find? name written).map canonical
  names : ∀ name ∈ Entries.names fields, name ∈ Entries.names written

theorem carries_canonicalFields {written : List (String × Json)}
    (h : (Entries.names written).Nodup) : Carries (canonicalFields written) written where
  once := occurrences_le_one (ascending_canonicalFields written).nodup
  find? := find?_canonicalFields h
  names _ := mem_names_canonicalFields.mp

/-- The fields are some of the declared ones, in the order of their declaration. -/
def Declared (declared : List String) (fields : List (String × Json)) : Prop :=
  (Entries.names fields).Sublist declared

theorem declared_single (name : String) (v : Json) : Declared [name] [(name, v)] := .refl _

theorem Declared.cons {declared : List String} {fields : List (String × Json)}
    (h : Declared declared fields) (name : String) (v : Json) :
    Declared (name :: declared) ((name, v) :: fields) := List.Sublist.cons_cons name h

theorem Declared.append {declared others : List String} {fields more : List (String × Json)}
    (h : Declared declared fields) (h' : Declared others more) :
    Declared (declared ++ others) (fields ++ more) := by
  rw [Declared, Entries.names, List.map_append]
  exact List.Sublist.append h h'

/-- An object that is written with declared fields, in its canonical form. -/
theorem Declared.exists_carries {declared : List String} {written : List (String × Json)}
    (h : Declared declared written) (hdeclared : declared.Nodup) :
    ∃ fields, (Json.object written).canonical = .object fields ∧ Carries fields written :=
  ⟨_, by rw [canonical], carries_canonicalFields (List.Sublist.nodup h hdeclared)⟩

/-- An object that gives no field twice has the form of any record. -/
theorem Carries.record? {fields written : List (String × Json)} (h : Carries fields written)
    (declared : List String) : (Json.object fields).record? declared = some fields := by
  rw [Json.record?, if_pos]
  exact List.all_eq_true.mpr fun name _ ↦ decide_eq_true (h.once name)

end Json

end Workflow
