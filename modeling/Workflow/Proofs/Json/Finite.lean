import Workflow.Json.Reader
import Workflow.Proofs.Decimal.Finite
import Workflow.Proofs.Json.Canonical

/-!
# Values with finite numbers

The numbers of JSON text are finite: an overflow is refused by the reader, and the divisions that
scale a number down keep it in range. The canonical form of a value has finite numbers too, because
it puts `null` for the others.
-/

namespace Workflow

namespace Json

/-- `w` is the value itself or stands somewhere inside it. -/
inductive Within : Json → Json → Prop
  | refl (v : Json) : Within v v
  | item {w v : Json} {items : List Json} (inside : Within w v) (mem : v ∈ items) :
    Within w (.array items)
  | field {w : Json} {e : String × Json} {fields : List (String × Json)} (inside : Within w e.2)
      (mem : e ∈ fields) : Within w (.object fields)

theorem Within.trans {u v w : Json} (huv : Within u v) (hvw : Within v w) : Within u w := by
  induction hvw with
  | refl => exact huv
  | item _ hmem ih => exact .item ih hmem
  | field _ hmem ih => exact .field ih hmem

/-- Every number in the value stands for a real number. -/
def Finite (v : Json) : Prop := ∀ n, Within (.number n) v → isFiniteFloat n.toFloat = true

theorem Finite.of_within {v w : Json} (h : v.Finite) (hw : w.Within v) : w.Finite :=
  fun n hn ↦ h n (hn.trans hw)

@[simp] theorem isFiniteFloat_int (n : WideInt) : isFiniteFloat (Number.toFloat (.int n)) = true :=
  isFiniteFloat_ofInt n.lower n.upper

@[simp] theorem finite_null : Finite .null := by
  intro n h
  cases h

@[simp] theorem finite_bool (b : Bool) : Finite (.bool b) := by
  intro n h
  cases h

@[simp] theorem finite_string (s : String) : Finite (.string s) := by
  intro n h
  cases h

@[simp] theorem finite_number_iff {n : Number} :
    Finite (.number n) ↔ isFiniteFloat n.toFloat = true := by
  refine ⟨fun h ↦ h n (.refl _), fun h n' hn' ↦ ?_⟩
  cases hn'
  exact h

@[simp] theorem finite_array_iff {items : List Json} :
    Finite (.array items) ↔ ∀ v ∈ items, v.Finite := by
  refine ⟨fun h v hv ↦ h.of_within (.item (.refl v) hv), fun h n hn ↦ ?_⟩
  cases hn with
  | item hinside hmem => exact h _ hmem n hinside

@[simp] theorem finite_object_iff {fields : List (String × Json)} :
    Finite (.object fields) ↔ ∀ e ∈ fields, e.2.Finite := by
  refine ⟨fun h e he ↦ h.of_within (.field (.refl e.2) he), fun h n hn ↦ ?_⟩
  cases hn with
  | field hinside hmem => exact h _ hmem n hinside

/-! ## The canonical form -/

theorem mem_canonicalFields {e : String × Json} {fields : List (String × Json)}
    (h : e ∈ canonicalFields fields) : ∃ f ∈ fields, e.2 = f.2.canonical := by
  induction fields with
  | nil =>
    rw [canonicalFields] at h
    cases h
  | cons f fields ih =>
    have hrest : e ∈ canonicalFields fields → ∃ f' ∈ f :: fields, e.2 = f'.2.canonical := by
      intro hmem
      obtain ⟨f', hf', heq⟩ := ih hmem
      exact ⟨f', List.mem_cons_of_mem f hf', heq⟩
    rw [canonicalFields, addEarlier] at h
    split at h
    · exact hrest h
    · rcases List.mem_cons.mp ((Entries.perm_place _ _ _).mem_iff.mp h) with rfl | hmem
      · exact ⟨f, List.mem_cons_self, rfl⟩
      · exact hrest hmem

/-- **The numbers of a canonical value are finite.** -/
theorem finite_canonical (v : Json) : v.canonical.Finite := by
  induction v using Json.rec' with
  | null =>
    rw [canonical]
    exact finite_null
  | bool b =>
    rw [canonical]
    exact finite_bool b
  | string s =>
    rw [canonical]
    exact finite_string s
  | number n =>
    cases n with
    | int n =>
      rw [canonical]
      exact finite_number_iff.mpr (isFiniteFloat_int n)
    | float x =>
      rw [canonical]
      split
      · next hfinite => exact finite_number_iff.mpr hfinite
      · exact finite_null
  | array items ih =>
    rw [canonical, canonicalItems_eq_map]
    exact finite_array_iff.mpr (List.forall_mem_map.mpr ih)
  | object fields ih =>
    rw [canonical]
    refine finite_object_iff.mpr fun e he ↦ ?_
    obtain ⟨f, hf, heq⟩ := mem_canonicalFields he
    rw [heq]
    exact ih f hf

/-- A value in ascending order with finite numbers is in its canonical form. -/
theorem canonical_eq_self {v : Json} (hv : v.Ascending) (hfinite : v.Finite) : v.canonical = v := by
  induction v using Json.rec' with
  | null | bool _ | string _ => rw [canonical]
  | number n =>
    cases n with
    | int n => rw [canonical]
    | float x =>
      have hx : isFiniteFloat x = true := finite_number_iff.mp hfinite
      rw [canonical, if_pos hx]
  | array items ih =>
    cases hv with
    | array each =>
      have hitems : ∀ v ∈ items, v.canonical = id v := fun v hv ↦
        ih v hv (each v hv) (finite_array_iff.mp hfinite v hv)
      rw [canonical, canonicalItems_eq_map, List.map_congr_left hitems, List.map_id]
  | object fields ih =>
    cases hv with
    | object names values =>
      have hfields : ∀ e ∈ fields, (e.1, e.2.canonical) = id e := fun e he ↦
        congrArg (e.1, ·) (ih e he (values e he) (finite_object_iff.mp hfinite e he))
      rw [canonical, canonicalFields_of_ascending names, List.map_congr_left hfields, List.map_id]

theorem canonical_canonical (v : Json) : v.canonical.canonical = v.canonical :=
  canonical_eq_self (ascending_canonical v) (finite_canonical v)

/-! ## Texts -/

theorem isFiniteFloat_floatOf? {negative down : Bool} {s : Significand} {exponent : Nat} {x : Float}
    (h : floatOf? negative s down exponent = some x) : isFiniteFloat x = true := by
  have hsigned : ∀ y : Float, isFiniteFloat y = true →
      isFiniteFloat (if negative then -y else y) = true := by
    intro y hy
    cases negative with
    | true => exact isFiniteFloat_neg hy
    | false => exact hy
  rw [floatOf?] at h
  dsimp only at h
  split at h
  · split at h
    · cases h
    · rw [← Option.some.inj h]
      exact hsigned _ (by decide)
  · obtain ⟨y, hy, rfl⟩ := Option.map_eq_some_iff.mp h
    exact hsigned y (isFiniteFloat_scaledFloat hy)

theorem isFiniteFloat_integer {negative : Bool} {s : Significand} {cs rest : List Char} {n : Number}
    (h : numberTail.integer negative s cs = some (n, rest)) : isFiniteFloat n.toFloat = true := by
  rw [numberTail.integer] at h
  split at h
  · obtain ⟨x, hx, heq⟩ := Option.map_eq_some_iff.mp h
    cases heq
    exact isFiniteFloat_floatOf? hx
  · split at h
    · cases h
      exact (by decide : isFiniteFloat (-(Float.ofBits 0)) = true)
    · split at h
      · next n _ =>
        cases h
        exact isFiniteFloat_int n
      · cases h
        exact isFiniteFloat_neg
          (isFiniteFloat_of_exponentField (exponentField_toFloat _) (by decide))

theorem isFiniteFloat_numberTail {negative : Bool} {cs rest : List Char} {n : Number}
    (h : numberTail negative cs = some (n, rest)) : isFiniteFloat n.toFloat = true := by
  have hfloat : ∀ (s : Significand) (read : Option (Bool × Nat × List Char)),
      (read.bind fun p ↦ (floatOf? negative s p.1 p.2.1).bind fun x ↦ some (Number.float x, p.2.2))
        = some (n, rest) → isFiniteFloat n.toFloat = true := by
    intro s read hread
    obtain ⟨p, -, hread⟩ := Option.bind_eq_some_iff.mp hread
    obtain ⟨x, hx, heq⟩ := Option.bind_eq_some_iff.mp hread
    cases heq
    exact isFiniteFloat_floatOf? hx
  rw [numberTail] at h
  dsimp only at h
  split at h
  case h_1 | h_3 => cases h
  -- a zero or digits without a leading one: what follows is read alike
  all_goals
    split at h
    · split at h
      · cases h
      · exact hfloat _ _ h
    · split at h
      · exact hfloat _ _ h
      · exact isFiniteFloat_integer h
    · exact isFiniteFloat_integer h

/-- With this fuel, what is read has finite numbers, as long as what was read before it has. -/
structure ReadsFinite (fuel : Nat) : Prop where
  value {depth : Nat} {cs rest : List Char} {v : Json} (h : value fuel depth cs = some (v, rest)) :
    v.Finite
  items {depth : Nat} {done : List Json} {cs rest : List Char} {v : Json}
    (hdone : ∀ u ∈ done, Finite u) (h : items fuel depth done cs = some (v, rest)) : v.Finite
  fields {depth : Nat} {done : List (String × Json)} {cs rest : List Char} {v : Json}
    (hdone : ∀ e ∈ done, Finite e.2) (h : fields fuel depth done cs = some (v, rest)) : v.Finite

theorem ReadsFinite.value_succ {fuel : Nat} (ih : ReadsFinite fuel) {depth : Nat}
    {cs rest : List Char} {v : Json} (h : Json.value (fuel + 1) depth cs = some (v, rest)) :
    v.Finite := by
  have hnumber : ∀ {negative : Bool} {cs : List Char},
      ((numberTail negative cs).map fun p ↦ (Json.number p.1, p.2)) = some (v, rest) →
        v.Finite := by
    intro negative cs h
    obtain ⟨p, hp, heq⟩ := Option.map_eq_some_iff.mp h
    cases heq
    exact finite_number_iff.mpr (isFiniteFloat_numberTail hp)
  rw [Json.value] at h
  split at h
  · cases h
    exact finite_null
  · cases h
    exact finite_bool true
  · cases h
    exact finite_bool false
  · obtain ⟨p, -, heq⟩ := Option.map_eq_some_iff.mp h
    cases heq
    exact finite_string p.1
  · exact hnumber h
  · split at h
    · cases h
    · split at h
      · cases h
        exact finite_array_iff.mpr (List.forall_mem_nil _)
      · exact ih.items (List.forall_mem_nil _) h
  · split at h
    · cases h
    · split at h
      · cases h
        exact finite_object_iff.mpr (List.forall_mem_nil _)
      · exact ih.fields (List.forall_mem_nil _) h
  · exact hnumber h

theorem ReadsFinite.items_succ {fuel : Nat} (ih : ReadsFinite fuel) {depth : Nat} {done : List Json}
    {cs rest : List Char} {v : Json} (hdone : ∀ u ∈ done, Finite u)
    (h : Json.items (fuel + 1) depth done cs = some (v, rest)) : v.Finite := by
  rw [Json.items] at h
  split at h
  · cases h
  · next u cs' hu =>
    have hdone' : ∀ u' ∈ u :: done, Finite u' := List.forall_mem_cons.mpr ⟨ih.value hu, hdone⟩
    split at h
    · exact ih.items hdone' h
    · cases h
      exact finite_array_iff.mpr fun u' hu' ↦ hdone' u' (List.mem_reverse.mp hu')
    · cases h

theorem ReadsFinite.fields_succ {fuel : Nat} (ih : ReadsFinite fuel) {depth : Nat}
    {done : List (String × Json)} {cs rest : List Char} {v : Json}
    (hdone : ∀ e ∈ done, Finite e.2)
    (h : Json.fields (fuel + 1) depth done cs = some (v, rest)) : v.Finite := by
  rw [Json.fields] at h
  split at h
  · split at h
    · cases h
    · next name _ _ =>
      split at h
      · split at h
        · cases h
        · next u cs' hu =>
          have hdone' : ∀ e ∈ (name, u) :: done, Finite e.2 :=
            List.forall_mem_cons.mpr ⟨ih.value hu, hdone⟩
          split at h
          · exact ih.fields hdone' h
          · cases h
            exact finite_object_iff.mpr fun e he ↦ hdone' e (List.mem_reverse.mp he)
          · cases h
      · cases h
  · cases h

theorem readsFinite (fuel : Nat) : ReadsFinite fuel := by
  induction fuel with
  | zero => exact ⟨nofun, nofun, nofun⟩
  | succ fuel ih => exact ⟨ih.value_succ, ih.items_succ, ih.fields_succ⟩

/-- **The numbers of a text are finite.** -/
theorem finite_ofText? {text : String} {v : Json} (h : ofText? text = some v) : v.Finite := by
  rw [ofText?] at h
  split at h
  · next v' rest hvalue =>
    split at h
    · exact Option.some.inj h ▸ (readsFinite _).value hvalue
    · cases h
  · cases h

end Json

end Workflow
