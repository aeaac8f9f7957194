/-!
# Entries under names

The mappings of a workflow document are lists of named entries. Lookup takes the first entry of a
name. Insertion replaces an entry of the same name where it stands, and otherwise puts the new one
before the first greater name, so that a list in ascending order stays in ascending order.

Names are ordered by code point.
-/

namespace Workflow

/-- Named entries, one per name and in ascending order unless said otherwise. -/
abbrev Entries (α : Type u) := List (String × α)

namespace Entries

variable {α : Type u} {β : Type v}

/-- The names in order. -/
def names (es : Entries α) : List String := es.map Prod.fst

/-- The first entry of a name. -/
def find? (name : String) : Entries α → Option α
  | [] => none
  | (n, a) :: es => if n = name then some a else find? name es

/-- Whether there is an entry of this name. -/
def has (name : String) (es : Entries α) : Bool := (find? name es).isSome

/-- Puts `a` where the first entry of the name stands. -/
def replace (name : String) (a : α) : Entries α → Entries α
  | [] => []
  | (n, b) :: es => if n = name then (n, a) :: es else (n, b) :: replace name a es

/-- Puts a new entry before the first greater name. -/
def place (name : String) (a : α) : Entries α → Entries α
  | [] => [(name, a)]
  | (n, b) :: es => if name < n then (name, a) :: (n, b) :: es else (n, b) :: place name a es

/-- The entries with `a` under `name`. -/
def insert (name : String) (a : α) (es : Entries α) : Entries α :=
  if has name es then replace name a es else place name a es

/-- Collects entries given in any order; of several under one name the last counts. -/
def collect (es : Entries α) : Entries α := es.foldl (fun acc e => insert e.1 e.2 acc) []

/-! ## What lookup sees -/

@[simp] theorem find?_nil (name : String) : find? name ([] : Entries α) = none := rfl

theorem find?_cons (name n : String) (a : α) (es : Entries α) :
    find? name ((n, a) :: es) = if n = name then some a else find? name es := rfl

theorem has_iff (name : String) (es : Entries α) : has name es = true ↔ name ∈ names es := by
  induction es with
  | nil => simp [has, names]
  | cons e es ih =>
    obtain ⟨n, a⟩ := e
    by_cases h : n = name
    · simp [has, names, find?_cons, h]
    · have h' : name ≠ n := fun e ↦ h e.symm
      simpa [has, names, find?_cons, h, h'] using ih

theorem find?_replace_self (name : String) (a : α) {es : Entries α} (h : has name es = true) :
    find? name (replace name a es) = some a := by
  induction es with
  | nil => simp [has] at h
  | cons e es ih =>
    obtain ⟨n, b⟩ := e
    by_cases hn : n = name
    · simp [replace, find?_cons, hn]
    · simp only [has, find?_cons, hn, if_false] at h
      simp [replace, find?_cons, hn, ih h]

theorem find?_replace_of_ne {name other : String} (a : α) (es : Entries α) (h : other ≠ name) :
    find? other (replace name a es) = find? other es := by
  induction es with
  | nil => rfl
  | cons e es ih =>
    obtain ⟨n, b⟩ := e
    by_cases hn : n = name
    · have h' : name ≠ other := fun e ↦ h e.symm
      simp [replace, find?_cons, hn, h']
    · simp [replace, find?_cons, hn, ih]

theorem find?_place_self (name : String) (a : α) {es : Entries α} (h : has name es = false) :
    find? name (place name a es) = some a := by
  induction es with
  | nil => simp [place, find?_cons]
  | cons e es ih =>
    obtain ⟨n, b⟩ := e
    have hn : n ≠ name := by
      intro e
      simp [has, find?_cons, e] at h
    have h' : has name es = false := by simpa [has, find?_cons, hn] using h
    by_cases hlt : name < n
    · simp [place, hlt, find?_cons]
    · simp [place, hlt, find?_cons, hn, ih h']

theorem find?_place_of_ne {name other : String} (a : α) (es : Entries α) (h : other ≠ name) :
    find? other (place name a es) = find? other es := by
  have h' : name ≠ other := fun e ↦ h e.symm
  induction es with
  | nil => simp [place, find?_cons, h']
  | cons e es ih =>
    obtain ⟨n, b⟩ := e
    by_cases hlt : name < n
    · simp [place, hlt, find?_cons, h']
    · simp [place, hlt, find?_cons, ih]

@[simp] theorem find?_insert_self (name : String) (a : α) (es : Entries α) :
    find? name (insert name a es) = some a := by
  unfold insert
  cases h : has name es with
  | true => simpa using find?_replace_self name a h
  | false => simpa using find?_place_self name a h

theorem find?_insert_of_ne {name other : String} (a : α) (es : Entries α) (h : other ≠ name) :
    find? other (insert name a es) = find? other es := by
  unfold insert
  split
  · exact find?_replace_of_ne a es h
  · exact find?_place_of_ne a es h

end Entries

end Workflow
