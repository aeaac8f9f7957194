import Mathlib.Data.List.Pairwise
import Mathlib.Data.List.Perm.Basic
import Workflow.Proofs.Template.Remote
import Workflow.Proofs.Template.Tokens
import Workflow.Proofs.Text.Commuting

/-!
# The order of independent tokens

Replacing an outer token may leave something behind that is an inner token, and then the order of
the replications can be told from the result. Tokens are independent if they are not empty, have no
digits, and never overlap. They may be replaced in any order, and the index that replaces one of
them may have any number of digits.

The order of bindings also shows in the branch index that a handler is bound to, but a document has
only the name of the handler. Besides that, expansion applies the bindings and asks which tokens are
bound. Contexts that agree in both (`Bindings.Agree`) give the same document or the same error. So
replications around each other may change their places, too: every choice of one index for each of
them leads to the same copy, wherever the copy then stands.
-/

namespace Workflow

namespace Text

/-- Tokens that are not empty and overlap neither each other nor an index. -/
structure Independent (tokens : List String) : Prop where
  nonempty : ∀ t ∈ tokens, t ≠ ""
  digitless : ∀ t ∈ tokens, Digitless t
  apart : tokens.Pairwise fun t u ↦ NonOverlapping t.toList u.toList

theorem substitute_comm {t u : String} (ht : t ≠ "") (hu : u ≠ "") (htdigits : Digitless t)
    (hudigits : Digitless u) (h : NonOverlapping t.toList u.toList) (i j : Nat) (s : String) :
    substitute u (wholeText j) (substitute t (wholeText i) s)
      = substitute t (wholeText i) (substitute u (wholeText j) s) := by
  have ht' : t.toList ≠ [] := mt String.toList_eq_nil_iff.mp ht
  have hu' : u.toList ≠ [] := mt String.toList_eq_nil_iff.mp hu
  apply String.toList_inj.mp
  simp only [toList_substitute, substituteAll, if_neg ht', if_neg hu']
  exact substituteFrom_comm ht' hu' h (toList_wholeText_ne_nil i) (toList_wholeText_ne_nil j)
    (hudigits.apart i) (htdigits.apart j) s.toList

theorem Independent.nodup {tokens : List String} (h : Independent tokens) : tokens.Nodup := by
  refine h.apart.imp ?_
  rintro t _ hover rfl
  exact hover.1.1 List.infix_rfl

end Text

namespace Bindings

variable {b b' : Bindings}

/-- **Independent tokens** may be replaced in any order. -/
theorem apply_perm (h : Text.Independent (b.map Prod.fst)) (hperm : b.Perm b') (text : String) :
    b'.apply text = b.apply text := by
  have hapart := List.pairwise_map.mp h.apart
  have hsymm : Std.Symm fun e e' : String × Nat ↦ NonOverlapping e.1.toList e'.1.toList :=
    ⟨fun _ _ ↦ NonOverlapping.symm⟩
  have hmem : ∀ e ∈ b, e.1 ∈ b.map Prod.fst := fun e ↦ List.mem_map_of_mem
  refine (hperm.foldl_eq' (fun e he e' he' s ↦ ?_) text).symm
  rcases eq_or_ne e e' with rfl | hne
  · rfl
  · exact Text.substitute_comm (h.nonempty _ (hmem e he)) (h.nonempty _ (hmem e' he'))
      (h.digitless _ (hmem e he)) (h.digitless _ (hmem e' he')) (hapart.forall he he' hne) _ _ s

/-- Contexts that expansion cannot tell apart. -/
structure Agree (b b' : Bindings) : Prop where
  apply : ∀ text, b'.apply text = b.apply text
  bound : ∀ token, token ∈ b'.map Prod.fst ↔ token ∈ b.map Prod.fst

namespace Agree

theorem binds (h : Agree b b') (token : String) : b'.binds token = b.binds token := by
  rw [Bool.eq_iff_iff, binds_iff, binds_iff]
  exact h.bound token

theorem isEmpty (h : Agree b b') : b'.isEmpty = b.isEmpty := by
  have hnil : ∀ c : Bindings, c.isEmpty = true ↔ ∀ token, token ∉ c.map Prod.fst := by
    intro c
    rw [List.isEmpty_iff, ← List.eq_nil_iff_forall_not_mem, List.map_eq_nil_iff]
  rw [Bool.eq_iff_iff, hnil, hnil]
  exact forall_congr' fun token ↦ not_congr (h.bound token)

theorem extended (h : Agree b b') (token : String) (index : Nat) :
    Agree (b.extended token index) (b'.extended token index) where
  apply text := by rw [apply_extended, apply_extended, h.apply]
  bound other := by
    rw [Bindings.extended, Bindings.extended, List.map_append, List.map_append, List.mem_append,
      List.mem_append, h.bound]

theorem of_perm (h : Text.Independent (b.map Prod.fst)) (hperm : b.Perm b') (outer : Bindings) :
    Agree (outer ++ b) (outer ++ b') where
  apply text := by rw [apply_append, apply_append, apply_perm h hperm]
  bound _ := ((hperm.append_left outer).map Prod.fst).mem_iff.symm

end Agree

end Bindings

namespace Annotated

variable {b b' : Bindings}

/-- Neither run has a reason of its own to stop, so they come to the same. -/
theorem stricter_expanded_of_agree (h : b.Agree b') (node : Annotated) :
    Stricter (fun _ ↦ False) Expanded.SameJson (expanded node b') (expanded node b) := by
  induction node using rec' generalizing b b' with
  | mapping entries ih =>
    exact stricter_mapping (List.forall₂_same.mpr fun e he ↦ ⟨h.apply e.1, ih e he h⟩)
  | sequence items ih =>
    exact stricter_sequence (List.forall₂_same.mpr fun node hnode ↦ ih node hnode h)
  | text s =>
    rw [expanded, expanded, h.apply]
    exact .ok (.one rfl)
  | handler written =>
    rw [expanded, expanded, bindHandler, bindHandler, h.isEmpty]
    by_cases hempty : b.isEmpty = true
    · rw [if_pos hempty, if_pos hempty]
      exact .ok (.one rfl)
    · rw [if_neg hempty, if_neg hempty]
      split
      · exact .ok (.one rfl)
      · exact .error
  | replicate token pool node ih =>
    have hcheck : checkReplication token pool b' = checkReplication token pool b := by
      rw [checkReplication, h.binds, ← checkReplication]
    exact stricter_replicate hcheck fun i ↦ ih (h.extended token i)
  | scalar s => exact .ok (.one rfl)

/-- **Contexts that agree** give the same document or the same error. -/
theorem map_toJson_expandIn (h : b.Agree b') (node : Annotated) :
    (expandIn b' node).map Concrete.toJson = (expandIn b node).map Concrete.toJson := by
  have hstricter := stricter_expanded_of_agree h node
  rw [expandIn, expandIn]
  generalize expanded node b' = x at hstricter
  generalize expanded node b = y at hstricter
  cases hstricter with
  | ok hsame => exact congrArg Except.ok hsame.node.symm
  | error => rfl
  | refused hreason => exact hreason.elim

theorem exists_expandIn_of_agree (h : b.Agree b') {node : Annotated} {c : Concrete}
    (hc : expandIn b node = .ok c) : ∃ c', expandIn b' node = .ok c' ∧ c'.toJson = c.toJson := by
  have hmap := map_toJson_expandIn h node
  rw [hc] at hmap
  exact map_eq_ok_iff.mp hmap

end Annotated

/-! ## Replications around each other -/

namespace Concrete

/-- What is found by going into sequences at the given indices. -/
def copyAt? : List Nat → Concrete → Option Concrete
  | [], c => some c
  | i :: indices, c => do
    let items ← c.items?
    copyAt? indices (← items[i]?)

theorem copyAt?_sequence (i : Nat) (indices : List Nat) (items : List Concrete) :
    copyAt? (i :: indices) (.sequence items) = items[i]?.bind (copyAt? indices) := rfl

end Concrete

namespace Annotated

variable {b : Bindings}

/-- A node inside replications with the given tokens and sizes, the outermost first. -/
def nest : List (String × Int64) → Annotated → Annotated
  | [], node => node
  | (token, pool) :: around, node => .replicate token pool (nest around node)

/-- The binding is for a copy of the replication. -/
def Picks (r : String × Int64) (e : String × Nat) : Prop := e.1 = r.1 ∧ e.2 < r.2.toInt.toNat

theorem map_fst_of_picks {around : List (String × Int64)} {chosen : Bindings}
    (h : List.Forall₂ Picks around chosen) : chosen.map Prod.fst = around.map Prod.fst :=
  map_eq_map_of_forall₂ (h.imp fun _ _ ↦ And.left)

/-- A node inside replications that have copies has an expansion if their tokens are not bound and
the node has an expansion for every choice of copies. -/
theorem expands_nest_iff {around : List (String × Int64)} {node : Annotated}
    (hpools : ∀ r ∈ around, 0 < r.2.toInt) (hempty : ∀ r ∈ around, r.1 ≠ "")
    (hnodup : (around.map Prod.fst).Nodup) :
    Expands b (nest around node) ↔
      (∀ r ∈ around, r.1 ∉ b.map Prod.fst) ∧
        ∀ chosen, List.Forall₂ Picks around chosen → Expands (b ++ chosen) node := by
  induction around generalizing b with
  | nil => simp [nest]
  | cons r around ih =>
    obtain ⟨token, pool⟩ := r
    obtain ⟨(hpool : 0 < pool.toInt), hpools⟩ := List.forall_mem_cons.mp hpools
    obtain ⟨htoken, hempty⟩ := List.forall_mem_cons.mp hempty
    obtain ⟨hfirst, hnodup⟩ := List.nodup_cons.mp hnodup
    have hbelow : ∀ i, Expands (b.extended token i) (nest around node) ↔
        (∀ r ∈ around, r.1 ∉ b.map Prod.fst) ∧ ∀ chosen, List.Forall₂ Picks around chosen →
          Expands (b ++ (token, i) :: chosen) node := by
      intro i
      have hother : ∀ r ∈ around, r.1 ≠ token :=
        fun r hr heq ↦ hfirst (List.mem_map.mpr ⟨r, hr, heq⟩)
      simp only [ih hpools hempty hnodup, Bindings.extended, List.append_assoc, List.map_append,
        List.mem_append, List.map_cons, List.map_nil, List.mem_singleton, not_or,
        List.singleton_append]
      exact and_congr_left' (forall₂_congr fun r hr ↦ and_iff_left (hother r hr))
    rw [nest, expands_replicate_iff, List.forall_mem_cons]
    simp only [hbelow]
    constructor
    · rintro ⟨⟨-, -, hfresh⟩, hcopies⟩
      refine ⟨⟨hfresh, (hcopies 0 (by omega)).1⟩, fun _ hchosen ↦ ?_⟩
      obtain ⟨⟨_, i⟩, rest, ⟨rfl, hi⟩, hrest, rfl⟩ := List.forall₂_cons_left_iff.mp hchosen
      exact (hcopies i hi).2 rest hrest
    · rintro ⟨⟨hfresh, hrest⟩, hall⟩
      refine ⟨⟨htoken, Int.le_of_lt hpool, hfresh⟩, fun i hi ↦ ⟨hrest, fun rest hpicks ↦ ?_⟩⟩
      exact hall _ (.cons ⟨rfl, hi⟩ hpicks)

/-- The indices of a choice of copies lead to what the node becomes for that choice. -/
theorem exists_copyAt {around : List (String × Int64)} {chosen : Bindings} {node : Annotated}
    {c : Concrete} (h : expandIn b (nest around node) = .ok c)
    (hchosen : List.Forall₂ Picks around chosen) :
    ∃ copy, c.copyAt? chosen.branchIndex = some copy ∧ expandIn (b ++ chosen) node = .ok copy := by
  induction hchosen generalizing b c with
  | nil => exact ⟨c, rfl, by rwa [List.append_nil]⟩
  | @cons r e around chosen hpicks _ ih =>
    obtain ⟨token, pool⟩ := r
    obtain ⟨_, i⟩ := e
    obtain ⟨rfl, hi⟩ := hpicks
    obtain ⟨_, hr, rfl⟩ := map_eq_ok_iff.mp h
    obtain ⟨cs, rfl, hlength, hcopies⟩ := expanded_replicate_eq_ok hr
    have hget : cs[i]? = some cs[i] := List.getElem?_eq_getElem (hlength ▸ hi)
    obtain ⟨copy, hcopy, hnode⟩ := ih (hcopies i _ hget)
    refine ⟨copy, ?_, ?_⟩
    · rw [Bindings.branchIndex, List.map_cons, Expanded.node, Concrete.copyAt?_sequence, hget]
      exact hcopy
    · rwa [Bindings.extended, List.append_assoc] at hnode

theorem exists_expandIn_nest {around around' : List (String × Int64)} {node : Annotated}
    {c : Concrete} (htokens : Text.Independent (around.map Prod.fst))
    (hpools : ∀ r ∈ around, 0 < r.2.toInt) (hperm : around.Perm around')
    (h : expandIn b (nest around node) = .ok c) :
    ∃ c', expandIn b (nest around' node) = .ok c' := by
  have hempty : ∀ r ∈ around, r.1 ≠ "" := fun r hr ↦ htokens.nonempty _ (List.mem_map_of_mem hr)
  have hexpands : Expands b (nest around node) := exists_expandIn_iff_expands.mp ⟨c, h⟩
  obtain ⟨hfresh, hall⟩ := (expands_nest_iff hpools hempty htokens.nodup).mp hexpands
  have hnodup' : (around'.map Prod.fst).Nodup := (hperm.map Prod.fst).nodup_iff.mp htokens.nodup
  simp only [hperm.mem_iff] at hpools hempty hfresh
  rw [exists_expandIn_iff_expands, expands_nest_iff hpools hempty hnodup']
  refine ⟨hfresh, fun chosen' hchosen' ↦ ?_⟩
  obtain ⟨chosen, hchosen, hsame⟩ := List.perm_comp_forall₂ hperm hchosen'
  obtain ⟨copy, hcopy⟩ := exists_expandIn_iff_expands.mpr (hall chosen hchosen)
  rw [← map_fst_of_picks hchosen] at htokens
  obtain ⟨copy', hcopy', -⟩ := exists_expandIn_of_agree (.of_perm htokens hsame b) hcopy
  exact exists_expandIn_iff_expands.mp ⟨copy', hcopy'⟩

/-- **Independent tokens commute.** Bindings of independent tokens come to the same in any order: in
a text, and in a definition that is expanded under them. Replications with these tokens may stand
around each other in any order. The indices of a copy then come in another order, but they lead to
the same document. -/
theorem order_of_independent {b' : Bindings}
    (h : Text.Independent (b.map Prod.fst)) (hperm : b.Perm b') :
    (∀ text, b'.apply text = b.apply text) ∧
    (∀ node, (expandIn b' node).map Concrete.toJson = (expandIn b node).map Concrete.toJson) ∧
    ∀ around around' outer node c, List.Forall₂ Picks around b → List.Forall₂ Picks around' b' →
      around.Perm around' → expandIn outer (nest around node) = .ok c →
      ∃ c' copy copy', expandIn outer (nest around' node) = .ok c' ∧
        c.copyAt? b.branchIndex = some copy ∧ c'.copyAt? b'.branchIndex = some copy' ∧
        copy'.toJson = copy.toJson := by
  refine ⟨Bindings.apply_perm h hperm, map_toJson_expandIn (.of_perm h hperm []), ?_⟩
  intro around around' outer node c hpicks hpicks' haround hc
  have htokens : Text.Independent (around.map Prod.fst) := map_fst_of_picks hpicks ▸ h
  have hpools : ∀ r ∈ around, 0 < r.2.toInt := by
    intro r hr
    obtain ⟨e, -, -, hindex⟩ := exists_mem_of_forall₂ hpicks.flip hr
    omega
  obtain ⟨c', hc'⟩ := exists_expandIn_nest htokens hpools haround hc
  obtain ⟨copy, hcopy, hnode⟩ := exists_copyAt hc hpicks
  obtain ⟨copy', hcopy', hnode'⟩ := exists_copyAt hc' hpicks'
  obtain ⟨_, hsame, hjson⟩ := exists_expandIn_of_agree (.of_perm h hperm outer) hnode
  obtain rfl := Except.ok.inj (hnode'.symm.trans hsame)
  exact ⟨c', copy, copy', hc', hcopy, hcopy', hjson⟩

/-- Two tokens, of which the first one overlaps itself in the name and in the text. -/
def labels : Annotated := .mapping [("<n>aaa", .text "aaa<n>aa")]

theorem order_of_independent_labels :
    Text.Independent ["aa", "<n>"] ∧
      Bindings.apply [("<n>", 1), ("aa", 10)] "aaa<n>aa" = "10a110" ∧
      ∃ c copy, expandIn [] (nest [("<n>", 2), ("aa", 11)] labels) = .ok c ∧
        c.copyAt? [1, 10] = some copy ∧ copy.toJson = .object [("110a", .string "10a110")] := by
  have hindependent : Text.Independent (List.map Prod.fst [("aa", 10), ("<n>", 1)]) :=
    ⟨by decide, by decide, by decide⟩
  have hpicks : List.Forall₂ Picks [("aa", 11), ("<n>", 2)] [("aa", 10), ("<n>", 1)] :=
    .cons ⟨rfl, by decide⟩ (.cons ⟨rfl, by decide⟩ .nil)
  have hpicks' : List.Forall₂ Picks [("<n>", 2), ("aa", 11)] [("<n>", 1), ("aa", 10)] :=
    .cons ⟨rfl, by decide⟩ (.cons ⟨rfl, by decide⟩ .nil)
  have hexpanded : expandIn [] (nest [("aa", 11), ("<n>", 2)] labels) = .ok _ := rfl
  have hswapped : List.Perm [("aa", 10), ("<n>", 1)] [("<n>", 1), ("aa", 10)] := .swap _ _ []
  obtain ⟨happly, -, hnest⟩ := order_of_independent hindependent hswapped
  obtain ⟨c, _, copy, hc, hfirst, hcopy, hjson⟩ :=
    hnest _ _ _ _ _ hpicks hpicks' (.swap ("<n>", 2) ("aa", 11) []) hexpanded
  obtain rfl := Option.some.inj hfirst
  exact ⟨hindependent, happly "aaa<n>aa", c, copy, hc, hcopy, hjson⟩

end Annotated

end Workflow
