import Workflow.Proofs.Machine.Filing
import Workflow.Proofs.Machine.ScopeText
import Workflow.Proofs.Template.Copies

/-!
# Handlers bound along a way

A handler inside replications is bound to the indices of its copy. When every list of branches on
the way to it is made by one replication, these are the indices of the branches, which a run gathers
on the same way (`bound_of_resourceVia`).

The way is told by names of the expansion, and a route by names of the definition. They need not be
the same, since tokens are replaced in names too. But an index brings a digit along, so a name
without digits was the same before.
-/

namespace Workflow

/-! ## Names without digits -/

/-- Where a pattern was replaced, something of the value is left behind. -/
theorem substituteFrom_eq_self_or {pattern value : List Char} (hvalue : value ≠ [])
    (cs : List Char) :
    substituteFrom pattern value 0 cs = cs ∨
      ∃ x ∈ substituteFrom pattern value 0 cs, x ∈ value := by
  induction cs with
  | nil => exact .inl rfl
  | cons c cs ih =>
    rw [substituteFrom]
    split
    · obtain ⟨x, hx⟩ := List.exists_mem_of_ne_nil value hvalue
      exact .inr ⟨x, List.mem_append_left _ hx, hx⟩
    · rcases ih with heq | ⟨x, hx, hmem⟩
      · exact .inl (by rw [heq])
      · exact .inr ⟨x, List.mem_cons_of_mem c hx, hmem⟩

theorem substituteAll_eq_self_or (pattern : List Char) {value : List Char} (hvalue : value ≠ [])
    (cs : List Char) :
    substituteAll pattern value cs = cs ∨ ∃ x ∈ substituteAll pattern value cs, x ∈ value := by
  rw [substituteAll]
  split
  · obtain ⟨x, hx⟩ := List.exists_mem_of_ne_nil value hvalue
    exact .inr ⟨x, List.mem_append_left _ hx, hx⟩
  · exact substituteFrom_eq_self_or hvalue cs

/-- A text without digits. -/
def Text.Digitless (s : String) : Prop := ∀ x ∈ s.toList, x.isDigit = false

instance (s : String) : Decidable (Text.Digitless s) :=
  List.decidableBAll (fun x : Char ↦ x.isDigit = false) s.toList

theorem toList_wholeText_ne_nil (index : Nat) : (wholeText index).toList ≠ [] := by
  rw [toList_wholeText]
  exact Nat.toDigits_ne_nil

theorem Text.substitute_of_digitless {token s : String} {index : Nat}
    (h : Digitless (substitute token (wholeText index) s)) :
    substitute token (wholeText index) s = s := by
  rcases substituteAll_eq_self_or token.toList (toList_wholeText_ne_nil index) s.toList with
    heq | ⟨x, hx, hmem⟩
  · rw [substitute, heq, String.ofList_toList]
  · have hfalse := h x (by rw [substitute, String.toList_ofList]; exact hx)
    rw [toList_wholeText] at hmem
    rw [isDigit_of_mem_wholeDigits hmem] at hfalse
    cases hfalse

theorem Bindings.apply_cons (token : String) (index : Nat) (b : Bindings) (s : String) :
    apply ((token, index) :: b) s = apply b (Text.substitute token (wholeText index) s) := rfl

/-- **Names without digits** were the same before their tokens were replaced. -/
theorem Bindings.apply_of_digitless {b : Bindings} {s : String}
    (h : Text.Digitless (b.apply s)) : b.apply s = s := by
  induction b generalizing s with
  | nil => rfl
  | cons binding b ih =>
    rw [Bindings.apply_cons] at h ⊢
    have heq := ih h
    rw [heq] at h ⊢
    exact Text.substitute_of_digitless h

/-! ## Positions of resources -/

namespace Concrete

/-- The position of the resource at the end of a way through mappings. -/
def wayTo : List (String × Nat) → String → List Edge
  | [], name => [.entry "States", .entry name, .entry "Resource"]
  | (state, index) :: chain, name =>
    .entry "States" :: .entry state :: .entry "Branches" :: .item index :: wayTo chain name

theorem wayTo_inj {chain chain' : List (String × Nat)} {name name' : String} :
    wayTo chain name = wayTo chain' name' ↔ chain = chain' ∧ name = name' := by
  refine ⟨fun h ↦ ?_, fun ⟨hchain, hname⟩ ↦ by rw [hchain, hname]⟩
  induction chain generalizing chain' with
  | nil =>
    cases chain' with
    | nil => simpa [wayTo] using h
    | cons link chain' => simp [wayTo] at h
  | cons link chain ih =>
    cases chain' with
    | nil => simp [wayTo] at h
    | cons link' chain' =>
      simp only [wayTo, List.cons.injEq, Edge.entry.injEq, Edge.item.injEq, true_and] at h
      obtain ⟨hstate, hindex, hrest⟩ := h
      obtain ⟨rfl, rfl⟩ := ih hrest
      exact ⟨congrArg (· :: chain) (Prod.ext hstate hindex), rfl⟩

theorem mem_partsOfItems {cs : List Concrete} {index : Nat} {x : Concrete}
    (hx : cs[index]? = some x) {pos : List Edge} {part : Part} (hpart : (pos, part) ∈ x.parts)
    (start : Nat) : (.item (start + index) :: pos, part) ∈ partsOfItems start cs := by
  induction cs generalizing index start with
  | nil => simp at hx
  | cons c cs ih =>
    rw [partsOfItems, List.mem_append]
    cases index with
    | zero =>
      obtain rfl : c = x := Option.some.inj hx
      exact .inl (List.mem_map_of_mem hpart)
    | succ index =>
      rw [← Nat.succ_add_eq_add_succ]
      exact .inr (ih hx (start + 1))

theorem mem_parts_of_get? {name : String} {c x : Concrete} (hx : get? name c = some x)
    {pos : List Edge} {part : Part} (hpart : (pos, part) ∈ x.parts) :
    (.entry name :: pos, part) ∈ c.parts := by
  cases c with
  | mapping entries =>
    rw [parts, partsOfEntries_eq_flatMap]
    refine List.mem_cons_of_mem _ (List.mem_flatMap.mpr ⟨_, Entries.mem_of_find? hx, ?_⟩)
    exact List.mem_map_of_mem hpart
  | _ => cases hx

theorem mem_parts_of_items? {c x : Concrete} {cs : List Concrete} (hcs : c.items? = some cs)
    {index : Nat} (hx : cs[index]? = some x) {pos : List Edge} {part : Part}
    (hpart : (pos, part) ∈ x.parts) : (.item index :: pos, part) ∈ c.parts := by
  cases c with
  | sequence items =>
    obtain rfl : items = cs := Option.some.inj hcs
    have hmem := mem_partsOfItems hx hpart 0
    rw [Nat.zero_add] at hmem
    exact List.mem_cons_of_mem _ hmem
  | _ => cases hcs

/-- What stands at the end of a way is a part of the tree. -/
theorem mem_parts_of_resourceVia {chain : List (String × Nat)} {name : String} {c : Concrete}
    {h : Handler} (hway : resourceVia get? chain name c = some (.handler h)) :
    (wayTo chain name, .handler h) ∈ c.parts := by
  obtain ⟨s, hstate, hresource⟩ := Option.bind_eq_some_iff.mp hway
  obtain ⟨m, hmachine, hs⟩ := Option.bind_eq_some_iff.mp hstate
  induction chain generalizing c with
  | nil =>
    obtain rfl : c = m := Option.some.inj hmachine
    obtain ⟨states, hstates, hs⟩ := Option.bind_eq_some_iff.mp hs
    exact mem_parts_of_get? hstates (mem_parts_of_get? hs
      (mem_parts_of_get? hresource List.mem_cons_self))
  | cons link chain ih =>
    obtain ⟨inner, hinner, hrest⟩ := Option.bind_eq_some_iff.mp hmachine
    obtain ⟨state, hvia, hbranch⟩ := Option.bind_eq_some_iff.mp hinner
    obtain ⟨states, hstates, hvia⟩ := Option.bind_eq_some_iff.mp hvia
    obtain ⟨items, hitems, hindex⟩ := Option.bind_eq_some_iff.mp hbranch
    obtain ⟨branches, hbranches, hitems⟩ := Option.bind_eq_some_iff.mp hitems
    have hmem := ih (by rw [resourceVia, hrest, Option.bind_some, hs, Option.bind_some, hresource])
      (by rw [hrest, Option.bind_some, hs]) hrest
    exact mem_parts_of_get? hstates (mem_parts_of_get? hvia
      (mem_parts_of_get? hbranches (mem_parts_of_items? hitems hindex hmem)))

end Concrete

/-! ## Routes to handlers -/

namespace Annotated

/-- From a machine on, a route enters the branches of a state only by way of a replication whose
copies are the first items there, and so on inside them. -/
def Route.Forked : Route → Prop
  | .entry _ :: .entry _ :: .entry field :: .item _ :: _ => field ≠ "Branches"
  | .entry _ :: .entry _ :: .entry field :: .copy _ _ start :: route =>
    field = "Branches" → start = 0 ∧ Forked route
  | _ => True

namespace Route

variable {b : Bindings} {route : Route} {indices : List Nat} {pos : List Concrete.Edge}

theorem position_eq_entry {name : String} (h : position b route indices = .entry name :: pos) :
    ∃ key rest, route = .entry key :: rest ∧ b.apply key = name ∧
      position b rest indices = pos := by
  match route, indices with
  | .entry key :: rest, indices =>
    rw [position] at h
    obtain ⟨hname, hpos⟩ := List.cons.inj h
    exact ⟨key, rest, rfl, Concrete.Edge.entry.inj hname, hpos⟩
  | [], _ => cases h
  | .item _ :: _, _ => cases h
  | .copy _ _ _ :: _, [] => cases h
  | .copy _ _ _ :: _, _ :: _ => cases h

/-- An item is an item of the definition or the copy of a replication. -/
theorem position_eq_item {index : Nat} (h : position b route indices = .item index :: pos) :
    (∃ rest, route = .item index :: rest) ∨
      ∃ token pool start i rest others, route = .copy token pool start :: rest ∧
        indices = i :: others ∧ index = start + i ∧
        position (b.extended token i) rest others = pos := by
  match route, indices with
  | .item i :: rest, indices =>
    rw [position] at h
    obtain ⟨hindex, -⟩ := List.cons.inj h
    exact .inl ⟨rest, by rw [Concrete.Edge.item.inj hindex]⟩
  | .copy token pool start :: rest, i :: others =>
    rw [position] at h
    obtain ⟨hindex, hpos⟩ := List.cons.inj h
    exact .inr ⟨token, pool, start, i, rest, others, rfl, rfl,
      (Concrete.Edge.item.inj hindex).symm, hpos⟩
  | [], _ => cases h
  | .entry _ :: _, _ => cases h
  | .copy _ _ _ :: _, [] => cases h

theorem position_eq_nil (h : position b route indices = [])
    (hlen : indices.length = (pools route).length) : indices = [] := by
  match route, indices with
  | _, [] => rfl
  | [], i :: others => simp [pools] at hlen
  | .entry _ :: _, _ :: _ => cases h
  | .item _ :: _, _ :: _ => cases h
  | .copy _ _ _ :: _, _ :: _ => cases h

/-- The indices of the copies on a way are those of the branches. -/
theorem indices_of_position {chain : List (String × Nat)} {name : String} (hroute : Forked route)
    (hlen : indices.length = (pools route).length)
    (h : position b route indices = Concrete.wayTo chain name) :
    indices = chain.map Prod.snd := by
  induction chain generalizing b route indices with
  | nil =>
    obtain ⟨_, rest₁, rfl, -, hstate⟩ := position_eq_entry h
    obtain ⟨_, rest₂, rfl, -, hresource⟩ := position_eq_entry hstate
    obtain ⟨_, rest₃, rfl, -, hnil⟩ := position_eq_entry hresource
    exact position_eq_nil hnil hlen
  | cons link chain ih =>
    obtain ⟨_, rest₁, rfl, -, hstate⟩ := position_eq_entry h
    obtain ⟨_, rest₂, rfl, -, hfield⟩ := position_eq_entry hstate
    obtain ⟨key, rest₃, rfl, hkey, hitem⟩ := position_eq_entry hfield
    -- no token was replaced in the name of the branches
    have hbranches : key = "Branches" := by
      rw [← hkey]
      refine (Bindings.apply_of_digitless ?_).symm
      have hletters : "Branches".toList.all (fun x ↦ !x.isDigit) = true := by decide
      intro x hx
      rw [hkey] at hx
      simpa using List.all_eq_true.mp hletters x hx
    subst hbranches
    rcases position_eq_item hitem with ⟨rest, rfl⟩ | ⟨token, pool, start, i, rest, others, rfl, rfl,
      hindex, hinner⟩
    · exact absurd rfl hroute
    · obtain ⟨rfl, hforked⟩ := hroute rfl
      rw [Nat.zero_add] at hindex
      rw [List.map_cons, hindex, ih hforked (by simpa [pools] using hlen) hinner]

end Route

/-! ## Handlers that take a branch index -/

/-- Every handler that gets into a place with bindings takes a branch index. -/
def Accepts (b : Bindings) (parts : List (Route × Part)) : Prop :=
  ∀ route h, (route, Part.handler h) ∈ parts → ∀ indices ∈ indexTuples (Route.pools route),
    Route.bindings b route indices ≠ [] → h.acceptsBranch = true

namespace Accepts

variable {b : Bindings} {parts others : List (Route × Part)}

theorem nil : Accepts b [] := by
  intro route h hmem
  cases hmem

theorem append (h : Accepts b parts) (h' : Accepts b others) : Accepts b (parts ++ others) := by
  intro route written hmem
  rcases List.mem_append.mp hmem with hmem | hmem
  · exact h route written hmem
  · exact h' route written hmem

/-- A part without a handler. -/
theorem cons {route : Route} {part : Part} (hpart : ∀ h, part ≠ .handler h) (h : Accepts b parts) :
    Accepts b ((route, part) :: parts) := by
  intro route' written hmem
  rcases List.mem_cons.mp hmem with heq | hmem
  · exact absurd (Prod.mk.inj heq).2.symm (hpart written)
  · exact h route' written hmem

theorem below_entry (h : Accepts b parts) (name : String) :
    Accepts b (below (.entry name) parts) := by
  intro route written hmem indices hindices hbound
  obtain ⟨⟨rest, part⟩, hinside, heq⟩ := List.mem_map.mp hmem
  obtain ⟨rfl, rfl⟩ := Prod.mk.inj heq
  exact h rest written hinside indices hindices hbound

theorem below_item (h : Accepts b parts) (index : Nat) :
    Accepts b (below (.item index) parts) := by
  intro route written hmem indices hindices hbound
  obtain ⟨⟨rest, part⟩, hinside, heq⟩ := List.mem_map.mp hmem
  obtain ⟨rfl, rfl⟩ := Prod.mk.inj heq
  exact h rest written hinside indices hindices hbound

theorem below_copy {token : String} {pool : Nat}
    (h : ∀ i < pool, Accepts (b.extended token i) parts) (start : Nat) :
    Accepts b (below (.copy token pool start) parts) := by
  intro route written hmem indices hindices hbound
  obtain ⟨⟨rest, part⟩, hinside, heq⟩ := List.mem_map.mp hmem
  obtain ⟨rfl, rfl⟩ := Prod.mk.inj heq
  obtain ⟨i, hi, others, hothers, rfl⟩ : ∃ i < pool, ∃ others ∈ indexTuples (Route.pools rest),
      indices = i :: others := by
    simp only [Route.pools, indexTuples, List.mem_flatMap, List.mem_range, List.mem_map] at hindices
    obtain ⟨i, hi, others, hothers, rfl⟩ := hindices
    exact ⟨i, hi, others, hothers, rfl⟩
  refine h i hi rest written hinside others hothers ?_
  simp [Route.bindings, Bindings.extended]

end Accepts

mutual

private theorem accepts_expanded : ∀ (node : Annotated) {b : Bindings} {r : Expanded},
    expanded node b = .ok r → Accepts b node.parts ∧ ∀ start, Accepts b (partsAt start node)
  | .mapping entries, b, r, h => by
    rw [expanded] at h
    obtain ⟨es, hes, -⟩ := map_eq_ok_iff.mp h
    have hparts : Accepts b (Annotated.mapping entries).parts := by
      rw [parts]
      exact .cons (by simp) (accepts_expandEntries entries hes)
    exact ⟨hparts, hparts.below_item⟩
  | .sequence items, b, r, h => by
    rw [expanded] at h
    obtain ⟨cs, hcs, -⟩ := map_eq_ok_iff.mp h
    have hparts : Accepts b (Annotated.sequence items).parts := by
      rw [parts]
      exact .cons (by simp) (accepts_expandItems items hcs 0)
    exact ⟨hparts, hparts.below_item⟩
  | .text s, b, r, h => by
    have hparts : Accepts b (Annotated.text s).parts := by
      rw [parts]
      exact .cons (by simp) .nil
    exact ⟨hparts, hparts.below_item⟩
  | .handler written, b, r, h => by
    rw [expanded] at h
    obtain ⟨c, hc, -⟩ := map_eq_ok_iff.mp h
    have hparts : Accepts b (Annotated.handler written).parts := by
      intro route written' hmem indices _ hbound
      obtain ⟨rfl, hhandler⟩ := Prod.mk.inj (List.mem_singleton.mp hmem)
      cases hhandler
      -- a handler that takes no branch index would have been refused here
      have hb : b ≠ [] := by
        rintro rfl
        exact hbound rfl
      rw [bindHandler, if_neg (by simpa using hb)] at hc
      split at hc
      · assumption
      · cases hc
    exact ⟨hparts, hparts.below_item⟩
  | .replicate token pool node, b, r, h => by
    obtain ⟨cs, -, hlen, hcopies⟩ := expanded_replicate_eq_ok h
    have hcopy : ∀ i < pool.toInt.toNat, Accepts (b.extended token i) node.parts := by
      intro i hi
      obtain ⟨r, hr, -⟩ := map_eq_ok_iff.mp (hcopies i cs[i] (List.getElem?_eq_getElem _))
      exact (accepts_expanded node hr).1
    rw [parts]
    exact ⟨.cons (by simp) (.below_copy hcopy 0), .below_copy hcopy⟩
  | .scalar s, b, r, h => by
    have hparts : Accepts b (Annotated.scalar s).parts := by
      rw [parts]
      exact .cons (by simp) .nil
    exact ⟨hparts, hparts.below_item⟩

private theorem accepts_expandItems : ∀ (nodes : List Annotated) {b : Bindings}
    {cs : List Concrete}, expandItems nodes b = .ok cs → ∀ start,
      Accepts b (partsOfItems start nodes)
  | [], b, cs, h, start => .nil
  | node :: nodes, b, cs, h, start => by
    obtain ⟨r, rest, hr, hrest, -⟩ := expandItems_cons_eq_ok h
    rw [partsOfItems_cons]
    exact ((accepts_expanded node hr).2 start).append (accepts_expandItems nodes hrest _)

private theorem accepts_expandEntries : ∀ (entries : List (String × Annotated)) {b : Bindings}
    {done es : Entries Concrete}, expandEntries entries b done = .ok es →
      Accepts b (partsOfEntries entries)
  | [], b, done, es, h => .nil
  | (name, node) :: entries, b, done, es, h => by
    obtain ⟨r, hr, -, hrest⟩ := expandEntries_cons_eq_ok h
    rw [partsOfEntries]
    exact ((accepts_expanded node hr).1.below_entry name).append
      (accepts_expandEntries entries hrest)

end

/-- **Handlers of an expansion.** A definition with an expansion has only handlers below its
replications that take a branch index. -/
theorem accepts_of_expandIn {b : Bindings} {node : Annotated} {c : Concrete}
    (h : expandIn b node = .ok c) : Accepts b node.parts := by
  obtain ⟨r, hr, -⟩ := map_eq_ok_iff.mp h
  exact (accepts_expanded node hr).1

/-! ## Handlers at the end of a way -/

/-- **A handler at the end of a way** was written in the definition. It is itself when the way
enters no branch, and any other one takes a branch index and is bound to the branches on the
way. -/
theorem bound_of_resourceVia {node : Annotated} {c : Concrete} (hc : node.expand = .ok c)
    (hforked : ∀ route h, (route, Part.handler h) ∈ node.parts → Route.Forked route)
    {chain : List (String × Nat)} {name : String} {h : Handler}
    (hway : Concrete.resourceVia Concrete.get? chain name c = some (.handler h)) :
    ∃ route written, (route, Part.handler written) ∈ node.parts ∧
      (chain = [] ∧ h = written ∨ chain ≠ [] ∧ written.acceptsBranch = true ∧
        h = .bound written (chain.map Prod.snd)) := by
  obtain ⟨r, hr, rfl⟩ := map_eq_ok_iff.mp hc
  have hmem := (fits_expanded node hr).whole.mem_iff.mp (Concrete.mem_parts_of_resourceVia hway)
  obtain ⟨⟨route, part⟩, hpart, hinstance⟩ := List.mem_flatMap.mp hmem
  obtain ⟨indices, hindices, heq⟩ := List.mem_map.mp hinstance
  obtain ⟨hpos, hunder⟩ := Prod.mk.inj heq
  obtain ⟨written, rfl⟩ : ∃ written, part = .handler written := by
    cases part with
    | handler written => exact ⟨written, rfl⟩
    | _ => cases hunder
  have hchain : indices = chain.map Prod.snd :=
    Route.indices_of_position (hforked route written hpart)
      (length_of_mem_indexTuples hindices) hpos
  have hbranch := Route.branchIndex_bindings (b := []) hindices
  have hbound : h = if (Route.bindings [] route indices).isEmpty then written
      else .bound written (Route.bindings [] route indices).branchIndex :=
    (Part.handler.inj hunder).symm
  refine ⟨route, written, hpart, ?_⟩
  by_cases hempty : Route.bindings [] route indices = []
  · -- without bindings there are no indices, and so no branches
    rw [hempty] at hbound hbranch
    have hnil : chain.map Prod.snd = [] := by
      rw [← hchain]
      exact hbranch.symm
    exact .inl ⟨List.map_eq_nil_iff.mp hnil, hbound⟩
  · have haccepts := accepts_of_expandIn hc route written hpart indices hindices hempty
    have hinside : chain ≠ [] := by
      rintro rfl
      rw [Route.bindings_eq_nil_iff hindices] at hempty
      have hpools := length_of_mem_indexTuples hindices
      rw [hchain] at hpools
      exact hempty ⟨rfl, List.length_eq_zero_iff.mp hpools.symm⟩
    rw [if_neg (by simpa using hempty), hbranch, hchain] at hbound
    exact .inr ⟨hinside, haccepts, hbound⟩

end Annotated

end Workflow
