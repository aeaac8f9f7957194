import Workflow.Proofs.Json.Canonical
import Workflow.Proofs.Machine.Ways
import Workflow.Proofs.Template.Parts
import Workflow.Proofs.Text.Occurrences
import Workflow.Template.Expansion

/-!
# Definitions without replications

A concrete tree is a definition too. Expanding it changes texts and handlers only, provided that its
mappings are in order and that the bindings leave its names alone: the mappings are built up again
entry by entry, and an entry behind all the others is put at the end.

A token leaves a text alone in which it does not occur.
-/

namespace Workflow

/-! ## Texts in which the token does not occur -/

theorem substituteFrom_of_not_infix {pattern value cs : List Char} (h : ¬pattern <:+: cs) :
    substituteFrom pattern value 0 cs = cs := by
  induction cs with
  | nil => rfl
  | cons c cs ih =>
    have hfront : ¬pattern <+: c :: cs := fun hprefix ↦ h hprefix.isInfix
    have hrest : ¬pattern <:+: cs := fun hoccurs ↦ h (hoccurs.trans (List.suffix_cons c cs).isInfix)
    rw [substituteFrom_cons_kept hfront, ih hrest]

namespace Text

/-- A text is left alone by a token that does not occur in it. -/
theorem substitute_of_not_infix {token value s : String} (h : ¬token.toList <:+: s.toList) :
    substitute token value s = s := by
  have hne : token.toList ≠ [] := fun hnil ↦ h (hnil ▸ List.nil_infix)
  rw [substitute, substituteAll, if_neg hne, substituteFrom_of_not_infix h, String.ofList_toList]

/-- The token by itself becomes the value. -/
theorem substitute_self {token : String} (h : token ≠ "") (value : String) :
    substitute token value token = value := by
  have hne : token.toList ≠ [] := mt String.toList_eq_nil_iff.mp h
  have hself := substituteFrom_pattern_append hne value.toList []
  rw [List.append_nil] at hself
  rw [substitute, substituteAll, if_neg hne, hself, substituteFrom, List.append_nil,
    String.ofList_toList]

end Text

/-! ## Concrete trees as definitions -/

namespace Concrete

mutual

/-- A value as a tree. -/
def ofPlain : Json → Concrete
  | .null => .scalar .null
  | .bool b => .scalar (.bool b)
  | .number n => .scalar (.number n)
  | .string s => .text s
  | .array items => .sequence (ofPlainItems items)
  | .object fields => .mapping (ofPlainFields fields)

def ofPlainItems : List Json → List Concrete
  | [] => []
  | v :: vs => ofPlain v :: ofPlainItems vs

def ofPlainFields : List (String × Json) → List (String × Concrete)
  | [] => []
  | (name, v) :: fields => (name, ofPlain v) :: ofPlainFields fields

end

mutual

@[simp] theorem toJson_ofPlain : ∀ v : Json, (ofPlain v).toJson = v
  | .null => rfl
  | .bool _ => rfl
  | .number _ => rfl
  | .string _ => rfl
  | .array items => by rw [ofPlain, toJson, toJsonItems_ofPlain items]
  | .object fields => by rw [ofPlain, toJson, toJsonFields_ofPlain fields]

private theorem toJsonItems_ofPlain : ∀ items : List Json, toJsonItems (ofPlainItems items) = items
  | [] => rfl
  | v :: vs => by rw [ofPlainItems, toJsonItems, toJson_ofPlain v, toJsonItems_ofPlain vs]

private theorem toJsonFields_ofPlain : ∀ fields : List (String × Json),
    toJsonFields (ofPlainFields fields) = fields
  | [] => rfl
  | (name, v) :: fields => by
    rw [ofPlainFields, toJsonFields, toJson_ofPlain v, toJsonFields_ofPlain fields]

end

theorem find?_ofPlainFields (name : String) (fields : List (String × Json)) :
    Entries.find? name (ofPlainFields fields)
      = (Entries.find? name fields).map ofPlain := by
  induction fields with
  | nil => rfl
  | cons e fields ih =>
    obtain ⟨n, v⟩ := e
    rw [ofPlainFields, Entries.find?_cons, Entries.find?_cons, ih]
    split <;> rfl

mutual

@[simp] theorem handlers_ofPlain : ∀ v : Json, (ofPlain v).handlers = []
  | .null => rfl
  | .bool _ => rfl
  | .number _ => rfl
  | .string _ => rfl
  | .array items => by rw [ofPlain, handlers, handlersOfItems_ofPlain items]
  | .object fields => by rw [ofPlain, handlers, handlersOfEntries_ofPlain fields]

private theorem handlersOfItems_ofPlain : ∀ items : List Json,
    handlersOfItems (ofPlainItems items) = []
  | [] => rfl
  | v :: vs => by
    rw [ofPlainItems, handlersOfItems, handlers_ofPlain v, handlersOfItems_ofPlain vs,
      List.append_nil]

private theorem handlersOfEntries_ofPlain : ∀ fields : List (String × Json),
    handlersOfEntries (ofPlainFields fields) = []
  | [] => rfl
  | (name, v) :: fields => by
    rw [ofPlainFields, handlersOfEntries, handlers_ofPlain v, handlersOfEntries_ofPlain fields,
      List.append_nil]

end

mutual

/-- The tree in a place with the bindings `b`, its names left alone. -/
def under (b : Bindings) : Concrete → Concrete
  | .mapping entries => .mapping (underEntries b entries)
  | .sequence items => .sequence (underItems b items)
  | .text s => .text (b.apply s)
  | .handler h => .handler (if b.isEmpty then h else .bound h b.branchIndex)
  | .scalar s => .scalar s

def underItems (b : Bindings) : List Concrete → List Concrete
  | [] => []
  | c :: cs => under b c :: underItems b cs

def underEntries (b : Bindings) : List (String × Concrete) → List (String × Concrete)
  | [] => []
  | (name, c) :: entries => (name, under b c) :: underEntries b entries

end

end Concrete

namespace Annotated

mutual

/-- A tree as a definition. -/
def ofConcrete : Concrete → Annotated
  | .mapping entries => .mapping (ofConcreteEntries entries)
  | .sequence items => .sequence (ofConcreteItems items)
  | .text s => .text s
  | .handler h => .handler h
  | .scalar s => .scalar s

def ofConcreteItems : List Concrete → List Annotated
  | [] => []
  | c :: cs => ofConcrete c :: ofConcreteItems cs

def ofConcreteEntries : List (String × Concrete) → List (String × Annotated)
  | [] => []
  | (name, c) :: entries => (name, ofConcrete c) :: ofConcreteEntries entries

end

mutual

/-- A tree without handlers is the definition that its value gives. -/
theorem ofPlain_toJson : ∀ c : Concrete, c.handlers = [] → ofPlain c.toJson = ofConcrete c
  | .mapping entries, h => by
    rw [Concrete.toJson, ofPlain, ofConcrete, ofPlainFields_toJsonFields entries h]
  | .sequence items, h => by
    rw [Concrete.toJson, ofPlain, ofConcrete, ofPlainItems_toJsonItems items h]
  | .text s, _ => rfl
  | .scalar .null, _ => rfl
  | .scalar (.bool b), _ => rfl
  | .scalar (.number n), _ => rfl

private theorem ofPlainItems_toJsonItems : ∀ items : List Concrete,
    Concrete.handlersOfItems items = [] →
      ofPlainItems (Concrete.toJsonItems items) = ofConcreteItems items
  | [], _ => rfl
  | c :: cs, h => by
    obtain ⟨hc, hcs⟩ := List.append_eq_nil_iff.mp h
    rw [Concrete.toJsonItems, ofPlainItems, ofConcreteItems, ofPlain_toJson c hc,
      ofPlainItems_toJsonItems cs hcs]

private theorem ofPlainFields_toJsonFields : ∀ entries : List (String × Concrete),
    Concrete.handlersOfEntries entries = [] →
      ofPlainFields (Concrete.toJsonFields entries) = ofConcreteEntries entries
  | [], _ => rfl
  | (name, c) :: entries, h => by
    obtain ⟨hc, hentries⟩ := List.append_eq_nil_iff.mp h
    rw [Concrete.toJsonFields, ofPlainFields, ofConcreteEntries, ofPlain_toJson c hc,
      ofPlainFields_toJsonFields entries hentries]

end

/-! ## Expansion -/

/-- The bindings leave every name on the routes alone. -/
def FixesNames (b : Bindings) (parts : List (Route × Part)) : Prop :=
  ∀ p ∈ parts, ∀ name, Edge.entry name ∈ p.1 → b.apply name = name

namespace FixesNames

variable {b : Bindings} {parts others : List (Route × Part)}

theorem of_append (h : FixesNames b (parts ++ others)) : FixesNames b parts ∧ FixesNames b others :=
  ⟨fun p hp ↦ h p (List.mem_append_left _ hp), fun p hp ↦ h p (List.mem_append_right _ hp)⟩

theorem of_cons {p : Route × Part} (h : FixesNames b (p :: parts)) : FixesNames b parts :=
  fun q hq ↦ h q (List.mem_cons_of_mem _ hq)

theorem of_below {edge : Edge} (h : FixesNames b (below edge parts)) : FixesNames b parts := by
  intro p hp name hname
  exact h (edge :: p.1, p.2) (List.mem_map_of_mem hp) name (List.mem_cons_of_mem _ hname)

end FixesNames

/-- Every node is a part of itself. -/
theorem exists_part (node : Annotated) : ∃ part, ([], part) ∈ node.parts := by
  cases node <;> exact ⟨_, List.mem_cons_self⟩

theorem FixesNames.apply_eq {b : Bindings} {name : String} {node : Annotated}
    (h : FixesNames b (below (.entry name) node.parts)) : b.apply name = name := by
  obtain ⟨part, hpart⟩ := node.exists_part
  exact h ([.entry name], part) (List.mem_map_of_mem hpart) name List.mem_cons_self

theorem partsOfItems_ofConcrete (start : Nat) (c : Concrete) (cs : List Concrete) :
    partsOfItems start (ofConcreteItems (c :: cs))
      = below (.item start) (ofConcrete c).parts
        ++ partsOfItems (start + 1) (ofConcreteItems cs) := by
  cases c <;> rfl

mutual

/-- **A tree is expanded in place.** Texts and handlers get the bindings of the place, and
everything else stays as it is. -/
theorem expanded_ofConcrete {b : Bindings} : ∀ c : Concrete, c.toJson.Ascending →
    FixesNames b (ofConcrete c).parts → (∀ h ∈ c.handlers, b = [] ∨ h.acceptsBranch = true) →
      expanded (ofConcrete c) b = .ok (.one (c.under b))
  | .mapping entries, hsorted, hfixed, hhandlers => by
    cases hsorted with
    | object names values =>
      have hnames : (Entries.names entries).Pairwise (· < ·) := by
        rw [← Concrete.names_toJsonFields]
        exact names
      rw [ofConcrete, expanded, expandEntries_ofConcreteEntries entries [] hnames values
        (hfixed.of_cons) hhandlers]
      rfl
  | .sequence items, hsorted, hfixed, hhandlers => by
    cases hsorted with
    | array each =>
      rw [ofConcrete, expanded, expandItems_ofConcreteItems items 0 each hfixed.of_cons hhandlers]
      rfl
  | .text s, _, _, _ => rfl
  | .handler h, _, _, hhandlers => by
    rw [ofConcrete, expanded, bindHandler, Concrete.under]
    rcases hhandlers h List.mem_cons_self with rfl | haccepts
    · rfl
    · rw [haccepts, if_pos rfl]
      split <;> rfl
  | .scalar s, _, _, _ => rfl

private theorem expandItems_ofConcreteItems {b : Bindings} :
    ∀ (items : List Concrete) (start : Nat), (∀ v ∈ Concrete.toJsonItems items, v.Ascending) →
      FixesNames b (partsOfItems start (ofConcreteItems items)) →
        (∀ h ∈ Concrete.handlersOfItems items, b = [] ∨ h.acceptsBranch = true) →
          expandItems (ofConcreteItems items) b = .ok (Concrete.underItems b items)
  | [], _, _, _, _ => rfl
  | c :: cs, start, hsorted, hfixed, hhandlers => by
    rw [partsOfItems_ofConcrete] at hfixed
    obtain ⟨hsortedFirst, hsortedRest⟩ := List.forall_mem_cons.mp hsorted
    obtain ⟨hfixedFirst, hfixedRest⟩ := hfixed.of_append
    obtain ⟨hfirst, hrest⟩ := List.forall_mem_append.mp hhandlers
    rw [ofConcreteItems, expandItems,
      expanded_ofConcrete c hsortedFirst hfixedFirst.of_below hfirst,
      expandItems_ofConcreteItems cs (start + 1) hsortedRest hfixedRest hrest]
    rfl

private theorem expandEntries_ofConcreteEntries {b : Bindings} :
    ∀ (entries : List (String × Concrete)) (done : Entries Concrete),
      (Entries.names done ++ Entries.names entries).Pairwise (· < ·) →
        (∀ e ∈ Concrete.toJsonFields entries, e.2.Ascending) →
          FixesNames b (partsOfEntries (ofConcreteEntries entries)) →
            (∀ h ∈ Concrete.handlersOfEntries entries, b = [] ∨ h.acceptsBranch = true) →
              expandEntries (ofConcreteEntries entries) b done
                = .ok (done ++ Concrete.underEntries b entries)
  | [], done, _, _, _, _ => by
    rw [ofConcreteEntries, expandEntries, Concrete.underEntries, List.append_nil]
  | (name, c) :: entries, done, hnames, hsorted, hfixed, hhandlers => by
    obtain ⟨hsortedFirst, hsortedRest⟩ := List.forall_mem_cons.mp hsorted
    obtain ⟨hfixedFirst, hfixedRest⟩ := FixesNames.of_append hfixed
    obtain ⟨hfirst, hrest⟩ := List.forall_mem_append.mp hhandlers
    -- all the names so far come before the new one
    have hlast : ∀ n ∈ Entries.names done, n < name := fun n hn ↦
      (List.pairwise_append.mp hnames).2.2 n hn name List.mem_cons_self
    have hnew : Entries.has name done = false := by
      rw [← Bool.not_eq_true, Entries.has_iff]
      exact fun hmem ↦ String.lt_irrefl _ (hlast name hmem)
    have hnames' : (Entries.names (done ++ [(name, c.under b)]) ++ Entries.names entries).Pairwise
        (· < ·) := by
      rw [Entries.names, List.map_append, List.append_assoc]
      exact hnames
    rw [ofConcreteEntries, expandEntries,
      expanded_ofConcrete c hsortedFirst hfixedFirst.of_below hfirst]
    simp only [hfixedFirst.apply_eq, hnew, Bool.false_eq_true, if_false, Expanded.node]
    rw [Entries.insert_of_last hlast, expandEntries_ofConcreteEntries entries _ hnames'
      hsortedRest hfixedRest hrest, List.append_assoc]
    rfl

end

theorem expandIn_ofConcrete {b : Bindings} {c : Concrete} (hsorted : c.toJson.Ascending)
    (hfixed : FixesNames b (ofConcrete c).parts)
    (hhandlers : ∀ h ∈ c.handlers, b = [] ∨ h.acceptsBranch = true) :
    expandIn b (ofConcrete c) = .ok (c.under b) := by
  rw [expandIn, expanded_ofConcrete c hsorted hfixed hhandlers]
  rfl

/-! ## Texts left alone -/

/-- The bindings leave every text alone, except at the excepted routes. -/
def FixesTexts (b : Bindings) (except : Route → Prop) (parts : List (Route × Part)) : Prop :=
  ∀ route s, (route, Part.text s) ∈ parts → ¬except route → b.apply s = s

namespace FixesTexts

variable {b : Bindings} {except : Route → Prop} {parts others : List (Route × Part)}

theorem of_append (h : FixesTexts b except (parts ++ others)) :
    FixesTexts b except parts ∧ FixesTexts b except others :=
  ⟨fun route s hmem ↦ h route s (List.mem_append_left _ hmem),
    fun route s hmem ↦ h route s (List.mem_append_right _ hmem)⟩

theorem of_cons {p : Route × Part} (h : FixesTexts b except (p :: parts)) :
    FixesTexts b except parts := fun route s hmem ↦ h route s (List.mem_cons_of_mem _ hmem)

theorem of_below {edge : Edge} (h : FixesTexts b except (below edge parts)) :
    FixesTexts b (fun route ↦ except (edge :: route)) parts :=
  fun route s hmem ↦ h (edge :: route) s (List.mem_map_of_mem hmem)

/-- The entry of a mapping. -/
theorem entry {entries : List (String × Concrete)} {name : String} {c : Concrete}
    (h : FixesTexts b except (ofConcrete (.mapping entries)).parts) (hmem : (name, c) ∈ entries) :
    FixesTexts b (fun route ↦ except (.entry name :: route)) (ofConcrete c).parts := by
  have hentries : FixesTexts b except (partsOfEntries (ofConcreteEntries entries)) := h.of_cons
  clear h
  induction entries with
  | nil => cases hmem
  | cons e entries ih =>
    obtain ⟨hfirst, hrest⟩ := hentries.of_append
    rcases List.mem_cons.mp hmem with rfl | hmem
    · exact hfirst.of_below
    · exact ih hmem hrest

end FixesTexts

mutual

private theorem under_of_fixesTexts {b : Bindings} : ∀ c : Concrete, c.handlers = [] →
    FixesTexts b (fun _ ↦ False) (ofConcrete c).parts → c.under b = c
  | .mapping entries, hhandlers, h => by
    rw [Concrete.under, underEntries_of_fixesTexts entries hhandlers h.of_cons]
  | .sequence items, hhandlers, h => by
    rw [Concrete.under, underItems_of_fixesTexts items 0 hhandlers h.of_cons]
  | .text s, _, h => by
    rw [Concrete.under, h [] s List.mem_cons_self id]
  | .scalar s, _, _ => rfl

private theorem underItems_of_fixesTexts {b : Bindings} : ∀ (items : List Concrete) (start : Nat),
    Concrete.handlersOfItems items = [] →
      FixesTexts b (fun _ ↦ False) (partsOfItems start (ofConcreteItems items)) →
        Concrete.underItems b items = items
  | [], _, _, _ => rfl
  | c :: cs, start, hhandlers, h => by
    rw [partsOfItems_ofConcrete] at h
    obtain ⟨hc, hcs⟩ := List.append_eq_nil_iff.mp hhandlers
    obtain ⟨hfirst, hrest⟩ := h.of_append
    rw [Concrete.underItems, under_of_fixesTexts c hc hfirst.of_below,
      underItems_of_fixesTexts cs (start + 1) hcs hrest]

private theorem underEntries_of_fixesTexts {b : Bindings} :
    ∀ entries : List (String × Concrete), Concrete.handlersOfEntries entries = [] →
      FixesTexts b (fun _ ↦ False) (partsOfEntries (ofConcreteEntries entries)) →
        Concrete.underEntries b entries = entries
  | [], _, _ => rfl
  | (name, c) :: entries, hhandlers, h => by
    obtain ⟨hc, hentries⟩ := List.append_eq_nil_iff.mp hhandlers
    obtain ⟨hfirst, hrest⟩ := FixesTexts.of_append h
    rw [Concrete.underEntries, under_of_fixesTexts c hc hfirst.of_below,
      underEntries_of_fixesTexts entries hentries hrest]

end

/-- A tree without handlers stays as it is where all its texts are left alone. -/
theorem FixesTexts.under_eq {b : Bindings} {except : Route → Prop} {c : Concrete}
    (h : FixesTexts b except (ofConcrete c).parts) (hexcept : ∀ route, ¬except route)
    (hhandlers : c.handlers = []) : c.under b = c :=
  under_of_fixesTexts c hhandlers fun route s hmem _ ↦ h route s hmem (hexcept route)

/-- An entry without handlers stays as it is if no route into it is excepted. -/
theorem FixesTexts.under_entry {b : Bindings} {except : Route → Prop}
    {entries : List (String × Concrete)} {name : String} {c : Concrete}
    (h : FixesTexts b except (ofConcrete (.mapping entries)).parts) (hmem : (name, c) ∈ entries)
    (hexcept : ∀ route, ¬except (.entry name :: route)) (hhandlers : c.handlers = []) :
    c.under b = c := (h.entry hmem).under_eq hexcept hhandlers

theorem FixesTexts.apply_entry {b : Bindings} {except : Route → Prop}
    {entries : List (String × Concrete)} {name s : String}
    (h : FixesTexts b except (ofConcrete (.mapping entries)).parts)
    (hmem : (name, .text s) ∈ entries)
    (hexcept : ∀ route, ¬except (.entry name :: route)) : b.apply s = s :=
  Concrete.text.inj (h.under_entry hmem hexcept rfl)

end Annotated

end Workflow
