import Workflow.Proofs.Template.Binding
import Workflow.Proofs.Text.Occurrences

/-!
# Tokens are used up

A token that is not empty and has no digits does not occur in what is made below its replication,
neither in a text nor in a name, whatever the other tokens are (`tokens_used_up`).

An index is written in digits, so it has nothing in common with such a token. Replacing the token
leaves no occurrence of it, and no later replacement of another token makes a new one: what occurs
afterwards lies between the indices that were put in, where the text is as it was before.

A part of the expansion is told by its position, and each step of a position is a step of the route
that leads there. A name at some step is below the replications that the route has passed by then.
-/

namespace Workflow

/-! ## Texts without a token -/

/-- The token does not occur in the text. -/
def Text.Without (token s : String) : Prop := ¬token.toList <:+: s.toList

theorem Text.Digitless.apart {token : String} (h : Digitless token) (index : Nat) :
    Apart token.toList (wholeText index).toList := by
  intro x hx hmem
  rw [toList_wholeText] at hmem
  have hdigit := isDigit_of_mem_wholeDigits hmem
  rw [h x hx] at hdigit
  cases hdigit

namespace Text

variable {token : String}

theorem without_substitute (hne : token ≠ "") (hdigits : Digitless token) (index : Nat)
    (s : String) : Without token (substitute token (wholeText index) s) := by
  rw [Without, toList_substitute]
  exact not_infix_substituteAll (hdigits.apart index) (toList_wholeText_ne_nil index)
    (mt String.toList_eq_nil_iff.mp hne)

/-- Another token may be replaced without bringing this one back. -/
theorem Without.substitute {s : String} (h : Without token s) (hne : token ≠ "")
    (hdigits : Digitless token) (other : String) (index : Nat) :
    Without token (substitute other (wholeText index) s) := by
  intro hmem
  rw [toList_substitute] at hmem
  exact h (infix_of_infix_substituteAll (hdigits.apart index) (toList_wholeText_ne_nil index)
    (mt String.toList_eq_nil_iff.mp hne) hmem)

end Text

namespace Bindings

theorem without_apply_of_without {token s : String} (h : Text.Without token s) (hne : token ≠ "")
    (hdigits : Text.Digitless token) (b : Bindings) : Text.Without token (b.apply s) := by
  induction b generalizing s with
  | nil => exact h
  | cons binding b ih => exact ih (h.substitute hne hdigits binding.1 binding.2)

/-- A bound token does not occur where the bindings have been applied. -/
theorem without_apply {token : String} {b : Bindings} (h : token ∈ b.map Prod.fst)
    (hne : token ≠ "") (hdigits : Text.Digitless token) (s : String) :
    Text.Without token (b.apply s) := by
  induction b generalizing s with
  | nil => cases h
  | cons binding b ih =>
    rcases List.mem_cons.mp h with rfl | hrest
    · exact without_apply_of_without (Text.without_substitute hne hdigits _ s) hne hdigits b
    · exact ih hrest _

end Bindings

/-! ## Positions tell the parts apart -/

namespace Concrete

theorem head?_of_mem_below {edge : Edge} {parts : List (List Edge × Part)} {pos : List Edge}
    (h : pos ∈ (below edge parts).map Prod.fst) : pos.head? = some edge := by
  simp only [below, List.mem_map] at h
  obtain ⟨_, ⟨p, -, rfl⟩, rfl⟩ := h
  rfl

theorem nodup_positions_below {edge : Edge} {parts : List (List Edge × Part)}
    (h : (parts.map Prod.fst).Nodup) : ((below edge parts).map Prod.fst).Nodup := by
  have heq : (below edge parts).map Prod.fst = (parts.map Prod.fst).map (edge :: ·) := by
    rw [below, List.map_map, List.map_map]
    rfl
  rw [heq]
  exact h.map List.cons_injective

theorem head?_of_mem_partsOfItems {cs : List Concrete} {start : Nat} {pos : List Edge}
    (h : pos ∈ (partsOfItems start cs).map Prod.fst) :
    ∃ index, start ≤ index ∧ pos.head? = some (.item index) := by
  induction cs generalizing start with
  | nil => cases h
  | cons c cs ih =>
    rw [partsOfItems, List.map_append] at h
    rcases List.mem_append.mp h with h | h
    · exact ⟨start, Nat.le_refl start, head?_of_mem_below h⟩
    · obtain ⟨index, hindex, hhead⟩ := ih h
      exact ⟨index, Nat.le_of_succ_le hindex, hhead⟩

theorem nodup_positions_of_items {cs : List Concrete}
    (h : ∀ c ∈ cs, (c.parts.map Prod.fst).Nodup) (start : Nat) :
    ((partsOfItems start cs).map Prod.fst).Nodup := by
  induction cs generalizing start with
  | nil => exact .nil
  | cons c cs ih =>
    obtain ⟨hfirst, hrest⟩ := List.forall_mem_cons.mp h
    rw [partsOfItems, List.map_append, List.nodup_append']
    refine ⟨nodup_positions_below hfirst, ih hrest (start + 1), ?_⟩
    intro pos hpos hlater
    obtain ⟨index, hindex, hhead⟩ := head?_of_mem_partsOfItems hlater
    rw [head?_of_mem_below hpos] at hhead
    have hsame := Edge.item.inj (Option.some.inj hhead)
    omega

theorem nodup_positions_of_entries {entries : List (String × Concrete)}
    (hnames : (Entries.names entries).Nodup)
    (h : ∀ e ∈ entries, (e.2.parts.map Prod.fst).Nodup) :
    ((partsOfEntries entries).map Prod.fst).Nodup := by
  rw [partsOfEntries_eq_flatMap, List.map_flatMap, List.nodup_flatMap]
  refine ⟨fun e he ↦ nodup_positions_below (h e he), ?_⟩
  rw [Entries.names, List.Nodup, List.pairwise_map] at hnames
  refine hnames.imp fun hne pos hpos hother ↦ hne ?_
  have hhead := head?_of_mem_below hpos
  rw [head?_of_mem_below hother] at hhead
  exact (Edge.entry.inj (Option.some.inj hhead)).symm

/-- In a tree with distinct names no two parts have the same position. -/
theorem Distinct.nodup_positions {c : Concrete} (h : c.Distinct) :
    (c.parts.map Prod.fst).Nodup := by
  induction h with
  | mapping names _ ih =>
    rw [parts, List.map_cons, List.nodup_cons]
    refine ⟨?_, nodup_positions_of_entries names ih⟩
    rw [partsOfEntries_eq_flatMap, List.map_flatMap, List.mem_flatMap]
    rintro ⟨e, -, hmem⟩
    cases head?_of_mem_below hmem
  | sequence _ ih =>
    rw [parts, List.map_cons, List.nodup_cons]
    refine ⟨fun hmem ↦ ?_, nodup_positions_of_items ih 0⟩
    obtain ⟨index, -, hhead⟩ := head?_of_mem_partsOfItems hmem
    cases hhead
  | text => exact List.nodup_singleton _
  | handler => exact List.nodup_singleton _
  | scalar => exact List.nodup_singleton _

end Concrete

namespace Annotated

/-! ## Names on a way -/

/-- A name at some step of a position has had all tokens replaced of the context and of the
replications before that step. -/
theorem Route.name_of_position {b : Bindings} {route : Route} {indices : List Nat} {k : Nat}
    {name : String} (h : (position b route indices)[k]? = some (.entry name)) :
    ∃ (b' : Bindings) (key : String),
      b'.map Prod.fst = b.map Prod.fst ++ tokens (route.take k) ∧ b'.apply key = name := by
  induction route generalizing b indices k with
  | nil => cases h
  | cons edge route ih =>
    rcases edge with key | index | ⟨token, pool, start⟩
    · rcases k with _ | k
      · exact ⟨b, key, (List.append_nil _).symm, Concrete.Edge.entry.inj (Option.some.inj h)⟩
      · exact ih h
    · rcases k with _ | k
      · cases h
      · exact ih h
    · rcases indices with _ | ⟨i, indices⟩
      · cases h
      rcases k with _ | k
      · cases h
      · obtain ⟨b', key, htokens, happly⟩ := ih (b := b.extended token i) h
        refine ⟨b', key, ?_, happly⟩
        rw [htokens, Bindings.extended, List.map_append, List.append_assoc]
        rfl

theorem Route.tokens_bindings {b : Bindings} {route : Route} {indices : List Nat}
    (h : indices ∈ indexTuples (pools route)) :
    (bindings b route indices).map Prod.fst = b.map Prod.fst ++ tokens route := by
  have hlen : (tokens route).length ≤ indices.length :=
    Nat.le_of_eq (by rw [length_tokens, length_of_mem_indexTuples h])
  rw [bindings, List.map_append, List.map_fst_zip hlen]

/-- The route leads from a part of the definition to this position in the expansion, when its
replications have the given indices. -/
structure LeadsTo (b : Bindings) (node : Annotated) (route : Route) (indices : List Nat)
    (pos : List Concrete.Edge) : Prop where
  source : ∃ part, (route, part) ∈ node.parts
  below : indices ∈ indexTuples (Route.pools route)
  reaches : Route.position b route indices = pos

/-- **Tokens are used up.** Every part of an expansion has a route that leads to it from the
definition. Let a token that is not empty and has no digits be bound by the context or by a
replication on a route that leads to a part. If the part is a text, the token does not occur in it;
and a name on the way to the part does not have the token in it either, if the replication comes
before the name. -/
theorem tokens_used_up {b : Bindings} {node : Annotated} {c : Concrete}
    (h : expandIn b node = .ok c) {pos : List Concrete.Edge} {part : Part}
    (hpart : (pos, part) ∈ c.parts) :
    (∃ route indices, LeadsTo b node route indices pos) ∧
    ∀ route indices, LeadsTo b node route indices pos →
      ∀ token, token ≠ "" → Text.Digitless token →
        (token ∈ b.map Prod.fst ++ Route.tokens route →
          ∀ s, part = .text s → Text.Without token s) ∧
        ∀ k name, pos[k]? = some (.entry name) →
          token ∈ b.map Prod.fst ++ Route.tokens (route.take k) → Text.Without token name := by
  have hdistinct := (distinct_of_expandIn h).nodup_positions
  obtain ⟨r, hr, rfl⟩ := map_eq_ok_iff.mp h
  have hparts := (fits_expanded node hr).whole
  constructor
  · obtain ⟨⟨route, source⟩, hsource, hinstance⟩ := List.mem_flatMap.mp (hparts.mem_iff.mp hpart)
    obtain ⟨indices, hindices, heq⟩ := List.mem_map.mp hinstance
    exact ⟨route, indices, ⟨source, hsource⟩, hindices, (Prod.mk.inj heq).1⟩
  · rintro route indices ⟨⟨source, hsource⟩, hindices, rfl⟩ token hne hdigits
    constructor
    · rintro htoken s rfl
      -- the part at this position is the one that the route comes from
      have hmade : (Route.position b route indices, source.under (Route.bindings b route indices))
          ∈ r.node.parts :=
        hparts.mem_iff.mpr (List.mem_flatMap.mpr ⟨_, hsource, List.mem_map_of_mem hindices⟩)
      have hsame := (Prod.mk.inj (List.inj_on_of_nodup_map hdistinct hmade hpart rfl)).2
      obtain ⟨written, rfl⟩ : ∃ written, source = .text written := by
        cases source with
        | text written => exact ⟨written, rfl⟩
        | _ => cases hsame
      rw [← Part.text.inj hsame]
      rw [← Route.tokens_bindings hindices] at htoken
      exact Bindings.without_apply htoken hne hdigits written
    · intro k name hname htoken
      obtain ⟨b', key, htokens, rfl⟩ := Route.name_of_position hname
      rw [← htokens] at htoken
      exact Bindings.without_apply htoken hne hdigits key

/-- The inner token is a digit, and so the index of the outer copy is rewritten in the inner one. -/
def digitInside : Annotated :=
  .replicate "x" 2 (.replicate "0" 2 (.mapping [("x0", .text "x0x")]))

def digitInsideCopies : Concrete :=
  .sequence [.sequence [.mapping [("00", .text "000")], .mapping [("11", .text "111")]],
    .sequence [.mapping [("10", .text "101")], .mapping [("11", .text "111")]]]

theorem tokens_used_up_digitInside :
    expandIn [("y", 3)] digitInside = .ok digitInsideCopies ∧
      ([.item 0, .item 1, .entry "11"], .text "111") ∈ digitInsideCopies.parts ∧
      Text.Without "x" "111" ∧ Text.Without "x" "11" := by
  have hexpanded : expandIn [("y", 3)] digitInside = .ok digitInsideCopies := rfl
  have hpart : ([.item 0, .item 1, .entry "11"], .text "111") ∈ digitInsideCopies.parts := by decide
  have hleads : LeadsTo [("y", 3)] digitInside [.copy "x" 2 0, .copy "0" 2 0, .entry "x0"] [0, 1]
      [.item 0, .item 1, .entry "11"] :=
    ⟨⟨.text "x0x", by decide⟩, by decide, rfl⟩
  obtain ⟨htext, hname⟩ :=
    (tokens_used_up hexpanded hpart).2 _ _ hleads "x" (by decide) (by decide)
  exact ⟨hexpanded, hpart, htext (by decide) _ rfl, hname 2 _ rfl (by decide)⟩

end Annotated

end Workflow
