import Workflow.Proofs.Machine.PathLaws
import Workflow.Proofs.Machine.PathText
import Workflow.Run.Recovery

/-!
# What a write leaves alone

A write makes the objects it needs on its way, and still leaves the document as it was when it
fails: it is stopped by a value that was there before, so it has made no object on the way to it.
A write at a field of the document that does not fail leaves the other fields as they were.
-/

namespace Workflow

/-- A result that cannot be stored leaves the document as it was. -/
theorem storeAt_document_of_failure {path : Option String} {v doc doc' : Json} {cause : String}
    (h : storeAt path v doc = (doc', some cause)) : doc' = doc := by
  rcases path with _ | text
  · cases h
  · rcases hparse : ContextPath.parse text with e | p
    · rw [storeAt] at h
      simp only [hparse, Prod.mk.injEq] at h
      exact h.1.symm
    · rw [storeAt] at h
      simp only [hparse, Prod.mk.injEq] at h
      obtain ⟨hdoc, hcause⟩ := h
      obtain ⟨f, hf, -⟩ := Option.map_eq_some_iff.mp hcause
      rw [← hdoc]
      exact Json.writeAt_document_of_failure hf

/-- The path that a value is stored at, if the text of the field is a path at all. -/
def storedAt? : Option String → Option ContextPath
  | none => some .root
  | some text => (ContextPath.parse text).toOption

/-- What is stored is out of sight of a path apart from its own. -/
theorem read_storeAt {path : Option String} {q : ContextPath}
    (hq : ∀ p ∈ storedAt? path, q.Apart p) (v doc : Json) :
    q.read (storeAt path v doc).1 = q.read doc := by
  rcases path with _ | text
  · exact absurd List.nil_prefix (hq .root rfl).2
  · rcases hparse : ContextPath.parse text with e | p
    · simp only [storeAt, hparse]
    · have hapart : q.Apart p := hq p (by rw [storedAt?, hparse]; rfl)
      simp only [storeAt, hparse]
      exact Json.readAt_writeAt_of_not_prefix hapart.2 hapart.1 v doc

/-! ## Writes at a field -/

/-- The path to a field of the document. -/
theorem ContextPath.parse_field {s : String} (h : IsSegment s) :
    ContextPath.parse ("$." ++ s)
      = .ok ⟨[s], fun _ ht ↦ List.mem_singleton.mp ht ▸ h⟩ :=
  parse_eq_ok_iff.mpr rfl

theorem Json.get?_writeAt {v doc : Json} {s : String}
    (h : (Json.writeAt v [s] doc).failure = none) :
    (Json.writeAt v [s] doc).document.get? s = some v ∧
      ∀ other, other ≠ s → (Json.writeAt v [s] doc).document.get? other = doc.get? other := by
  constructor
  · rw [← readAt_singleton]
    exact readAt_append_writeAt h []
  · intro other hother
    rw [← readAt_singleton, ← readAt_singleton]
    exact readAt_writeAt_of_not_prefix (by simp [Ne.symm hother]) (by simp [hother]) v doc

/-- A value stored at a field is found there, and the other fields are as they were. -/
theorem get?_of_storeAt {v doc doc' : Json} {s : String} (hs : IsSegment s)
    (h : storeAt (some ("$." ++ s)) v doc = (doc', none)) :
    doc'.get? s = some v ∧ ∀ other, other ≠ s → doc'.get? other = doc.get? other := by
  rw [storeAt] at h
  simp only [ContextPath.parse_field hs, Prod.mk.injEq, Option.map_eq_none_iff] at h
  obtain ⟨rfl, hfailure⟩ := h
  exact Json.get?_writeAt hfailure

end Workflow
