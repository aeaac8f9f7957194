import Workflow.Proofs.Template.Steps

/-!
# Definitions that have an expansion

A node of a definition stands below the replications around it. With an index for each of them it
is in a place with bindings, those of the context followed by the tokens and indices of these
replications. There is such a place only if no replication around the node is of size zero, and
nothing is asked of a node that has none.

A definition has an expansion exactly if every node of it is in order in every one of its places
(`exists_expandIn_iff`). From left to right an expansion of the whole gives one of every node inside
it (`Expands.of_holds`); from right to left the definition is put together from its nodes.
-/

namespace Workflow

namespace Annotated

/-! ## Places -/

/-- `inner` stands somewhere in a definition, below the replications `around`, which are told by
their tokens and sizes, the outermost first. -/
inductive Holds : Annotated → List (String × Nat) → Annotated → Prop
  | here {node : Annotated} : Holds node [] node
  | entry {entries : List (String × Annotated)} {e : String × Annotated}
      {around : List (String × Nat)} {inner : Annotated} (mem : e ∈ entries)
      (inside : Holds e.2 around inner) : Holds (.mapping entries) around inner
  | item {items : List Annotated} {node : Annotated} {around : List (String × Nat)}
      {inner : Annotated} (mem : node ∈ items) (inside : Holds node around inner) :
      Holds (.sequence items) around inner
  | copy {token : String} {pool : Int64} {node : Annotated} {around : List (String × Nat)}
      {inner : Annotated} (inside : Holds node around inner) :
      Holds (.replicate token pool node) ((token, pool.toInt.toNat) :: around) inner

/-- The bindings below replications whose copies have the given indices. -/
def bindingsBelow (b : Bindings) (around : List (String × Nat)) (indices : List Nat) : Bindings :=
  b ++ (around.map Prod.fst).zip indices

/-- One index for each replication, below its size. -/
def Indexes (indices : List Nat) (around : List (String × Nat)) : Prop :=
  List.Forall₂ (· < ·) indices (around.map Prod.snd)

@[simp] theorem bindingsBelow_nil (b : Bindings) : bindingsBelow b [] [] = b := List.append_nil b

theorem bindingsBelow_cons (b : Bindings) (token : String) (pool : Nat)
    (around : List (String × Nat)) (i : Nat) (indices : List Nat) :
    bindingsBelow b ((token, pool) :: around) (i :: indices)
      = bindingsBelow (b.extended token i) around indices := by
  simp [bindingsBelow, Bindings.extended]

/-- What a node needs by itself in the place that it has with these indices. -/
def Admitted (b : Bindings) (around : List (String × Nat)) (indices : List Nat) :
    Annotated → Prop
  | .replicate token pool _ =>
    token ≠ "" ∧ 0 ≤ pool.toInt ∧ token ∉ b.map Prod.fst ∧ token ∉ around.map Prod.fst
  | .handler h => h.acceptsBranch = true ∨ (around = [] ∧ b = [])
  | .mapping entries =>
    ((Entries.names entries).map (bindingsBelow b around indices).apply).Nodup
  | .sequence _ | .text _ | .scalar _ => True

/-- A replication around a node may be counted as part of its context. -/
theorem admitted_cons_iff {b : Bindings} {token : String} {pool i : Nat}
    {around : List (String × Nat)} {indices : List Nat} {node : Annotated} :
    Admitted b ((token, pool) :: around) (i :: indices) node ↔
      Admitted (b.extended token i) around indices node := by
  cases node with
  | mapping entries => rw [Admitted, Admitted, bindingsBelow_cons]
  | handler h => simp [Admitted, Bindings.extended]
  | replicate other size inner =>
    simp only [Admitted, Bindings.extended, List.map_append, List.map_cons, List.map_nil,
      List.mem_append, List.mem_cons, List.not_mem_nil, or_false, not_or, and_assoc]
  | _ => exact Iff.rfl

/-- All replications around a node may be counted as part of its context. -/
theorem admitted_iff_context {b : Bindings} {around : List (String × Nat)} {indices : List Nat}
    {node : Annotated} (h : Indexes indices around) :
    Admitted b around indices node ↔ Admitted (bindingsBelow b around indices) [] [] node := by
  induction around generalizing b indices with
  | nil =>
    obtain rfl := List.forall₂_nil_right_iff.mp h
    rw [bindingsBelow_nil]
  | cons r around ih =>
    obtain ⟨i, rest, -, hrest, rfl⟩ := List.forall₂_cons_right_iff.mp h
    rw [admitted_cons_iff, ih hrest, bindingsBelow_cons]

/-! ## Having an expansion -/

/-- The node has an expansion in a place with the bindings `b`. -/
def Expands (b : Bindings) (node : Annotated) : Prop := ∃ r, expanded node b = .ok r

theorem exists_expandIn_iff_expands {b : Bindings} {node : Annotated} :
    (∃ c, expandIn b node = .ok c) ↔ Expands b node := by
  constructor
  · rintro ⟨c, hc⟩
    obtain ⟨r, hr, -⟩ := map_eq_ok_iff.mp hc
    exact ⟨r, hr⟩
  · rintro ⟨r, hr⟩
    exact ⟨r.node, map_eq_ok_iff.mpr ⟨r, hr, rfl⟩⟩

theorem expands_mapping_iff {b : Bindings} {entries : List (String × Annotated)} :
    Expands b (.mapping entries) ↔
      ((Entries.names entries).map b.apply).Nodup ∧ ∀ e ∈ entries, Expands b e.2 := by
  simp only [Expands, expanded_mapping_eq_ok_iff]
  constructor
  · rintro ⟨_, added, hall, hnodup, -⟩
    rw [names_of_becomes hall] at hnodup
    refine ⟨hnodup, fun e he ↦ ?_⟩
    obtain ⟨e', -, hc⟩ := exists_forall₂_iff.mp ⟨added, hall⟩ e he
    exact exists_expandIn_iff_expands.mp ⟨_, hc⟩
  · rintro ⟨hnodup, heach⟩
    obtain ⟨added, hall⟩ : ∃ added, List.Forall₂ (Becomes b) entries added := by
      refine exists_forall₂_iff.mpr fun e he ↦ ?_
      obtain ⟨c, hc⟩ := exists_expandIn_iff_expands.mpr (heach e he)
      exact ⟨(b.apply e.1, c), rfl, hc⟩
    rw [← names_of_becomes hall] at hnodup
    exact ⟨_, added, hall, hnodup, rfl⟩

theorem expands_sequence_iff {b : Bindings} {items : List Annotated} :
    Expands b (.sequence items) ↔ ∀ node ∈ items, Expands b node := by
  simp only [Expands, expanded_sequence_eq_ok_iff, ← exists_forall₂_iff]
  constructor
  · rintro ⟨_, rs, hall, -⟩
    exact ⟨rs, hall⟩
  · rintro ⟨rs, hall⟩
    exact ⟨_, rs, hall, rfl⟩

theorem expands_text (b : Bindings) (s : String) : Expands b (.text s) := ⟨_, rfl⟩

theorem expands_scalar (b : Bindings) (s : Scalar) : Expands b (.scalar s) := ⟨_, rfl⟩

theorem expands_handler_iff {b : Bindings} {h : Handler} :
    Expands b (.handler h) ↔ h.acceptsBranch = true ∨ b = [] := by
  simp only [Expands, expanded_handler_eq_ok_iff, exists_and_left, exists_eq, and_true]

theorem expands_replicate_iff {b : Bindings} {token : String} {pool : Int64} {node : Annotated} :
    Expands b (.replicate token pool node) ↔
      (token ≠ "" ∧ 0 ≤ pool.toInt ∧ token ∉ b.map Prod.fst) ∧
        ∀ i < pool.toInt.toNat, Expands (b.extended token i) node := by
  have hcopies : (∃ cs, List.Forall₂ (fun i c ↦ expandIn (b.extended token i) node = .ok c)
      (List.range pool.toInt.toNat) cs) ↔
        ∀ i < pool.toInt.toNat, Expands (b.extended token i) node := by
    simp only [exists_forall₂_iff, List.mem_range, exists_expandIn_iff_expands]
  rw [← hcopies]
  simp only [Expands, expanded_replicate_eq_ok_iff]
  constructor
  · rintro ⟨_, hplace, cs, hcs, -⟩
    exact ⟨hplace, cs, hcs⟩
  · rintro ⟨hplace, cs, hcs⟩
    exact ⟨_, hplace, cs, hcs, rfl⟩

/-- A definition with an expansion holds nodes with an expansion in each of their places. -/
theorem Expands.of_holds {b : Bindings} {node inner : Annotated} {around : List (String × Nat)}
    {indices : List Nat} (h : Expands b node) (hholds : node.Holds around inner)
    (hindices : Indexes indices around) : Expands (bindingsBelow b around indices) inner := by
  induction hholds generalizing b indices with
  | here =>
    obtain rfl := List.forall₂_nil_right_iff.mp hindices
    rw [bindingsBelow_nil]
    exact h
  | entry hmem _ ih => exact ih ((expands_mapping_iff.mp h).2 _ hmem) hindices
  | item hmem _ ih => exact ih (expands_sequence_iff.mp h _ hmem) hindices
  | copy _ ih =>
    obtain ⟨i, rest, hi, hrest, rfl⟩ := List.forall₂_cons_right_iff.mp hindices
    rw [bindingsBelow_cons]
    exact ih ((expands_replicate_iff.mp h).2 i hi) hrest

/-- A node with an expansion is in order by itself. -/
theorem Expands.admitted {b : Bindings} {node : Annotated} (h : Expands b node) :
    Admitted b [] [] node := by
  cases node with
  | mapping entries =>
    rw [Admitted, bindingsBelow_nil]
    exact (expands_mapping_iff.mp h).1
  | handler written => exact (expands_handler_iff.mp h).imp_right fun hb ↦ ⟨rfl, hb⟩
  | replicate token pool inner =>
    obtain ⟨⟨htoken, hpool, hfresh⟩, -⟩ := expands_replicate_iff.mp h
    exact ⟨htoken, hpool, hfresh, List.not_mem_nil⟩
  | _ => trivial

/-- A definition of which every node is in order in every place has an expansion. -/
theorem expands_of_admitted {b : Bindings} {node : Annotated}
    (h : ∀ around inner, node.Holds around inner → ∀ indices, Indexes indices around →
      Admitted b around indices inner) : Expands b node := by
  induction node using rec' generalizing b with
  | mapping entries ih =>
    have hhere := h [] _ .here [] .nil
    rw [Admitted, bindingsBelow_nil] at hhere
    refine expands_mapping_iff.mpr ⟨hhere, fun e he ↦ ih e he ?_⟩
    intro around inner hholds
    exact h around inner (.entry he hholds)
  | sequence items ih =>
    refine expands_sequence_iff.mpr fun node hnode ↦ ih node hnode ?_
    intro around inner hholds
    exact h around inner (.item hnode hholds)
  | text s => exact expands_text b s
  | handler written =>
    have hhere := h [] _ .here [] .nil
    exact expands_handler_iff.mpr (hhere.imp_right And.right)
  | replicate token pool node ih =>
    obtain ⟨htoken, hpool, hfresh, -⟩ := h [] _ .here [] .nil
    refine expands_replicate_iff.mpr ⟨⟨htoken, hpool, hfresh⟩, fun i hi ↦ ih ?_⟩
    intro around inner hholds indices hindices
    exact admitted_cons_iff.mp (h _ inner (.copy hholds) (i :: indices) (.cons hi hindices))
  | scalar s => exact expands_scalar b s

/-- **Which definitions have an expansion.** A definition has an expansion exactly if, at every node
of it and for all indices below the sizes of the replications around the node: a replication has a
token that is not empty, a size that is not negative, and a token that is neither one of the context
nor that of a replication around it; a handler takes a branch index or is outside all replications
and without context; and the names of a mapping are distinct after the bindings of the context and
of the replications around it have been applied to them. -/
theorem exists_expandIn_iff {b : Bindings} {node : Annotated} :
    (∃ c, expandIn b node = .ok c) ↔
      ∀ around inner, node.Holds around inner → ∀ indices, Indexes indices around →
        Admitted b around indices inner := by
  rw [exists_expandIn_iff_expands]
  constructor
  · intro h around inner hholds indices hindices
    exact (admitted_iff_context hindices).mpr (h.of_holds hholds hindices).admitted
  · exact expands_of_admitted

/-- These names are distinct in every copy but the one with index ten. -/
example :
    expandIn [] (.replicate "#" 11 (.mapping [("#a", .scalar .null), ("10a", .scalar .null)]))
      = .error (.duplicateKey "10a") := rfl

end Annotated

end Workflow
