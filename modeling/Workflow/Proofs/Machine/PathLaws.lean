import Workflow.Machine.Path
import Workflow.Proofs.Entries

/-!
# Laws of path reads and writes

A write goes down through the objects on its path, and takes `null` and what is missing for objects
without fields. So every value on the way has entries to write among, or it is in the way:
`Json.opened?` tells which. With it a write at a longer path is one insertion around a write at a
shorter one (`writeAt_cons_of_opened`), and each law is an induction on the path with two cases.

## What does not depend on success

A write that is stopped has met a value that was there before, so it has made nothing on the way to
it and leaves the document as it was. For this reason the law about the other paths and the law
about writing twice hold of every write, whether it comes to its end or not.
-/

namespace Workflow

namespace Json

/-! ## Values on the way -/

/-- The entries of a value that a write can pass or enter. -/
def opened? : Json → Option (Entries Json)
  | .null => some []
  | .object fields => some fields
  | _ => none

theorem opened?_eq_none_iff {doc : Json} :
    doc.opened? = none ↔ doc ≠ .null ∧ ∀ fields, doc ≠ .object fields := by
  cases doc <;> simp [opened?]

theorem get?_of_opened {doc : Json} {fields : Entries Json} (h : doc.opened? = some fields)
    (s : String) : doc.get? s = Entries.find? s fields := by
  cases doc with
  | null =>
    cases h
    rfl
  | object _ =>
    cases h
    rfl
  | bool _ | number _ | string _ | array _ => cases h

/-- Something is found at a field of objects only. -/
theorem eq_object_of_get? {doc child : Json} {s : String} (h : doc.get? s = some child) :
    ∃ fields, doc = .object fields ∧ Entries.find? s fields = some child := by
  cases doc with
  | object fields => exact ⟨fields, rfl, h⟩
  | null | bool _ | number _ | string _ | array _ => cases h

theorem readAt_null {ss : List String} (h : ss ≠ []) : readAt ss .null = none := by
  cases ss with
  | nil => exact absurd rfl h
  | cons s ss => rfl

theorem readAt_cons_object (s : String) (ss : List String) (fields : Entries Json) :
    readAt (s :: ss) (.object fields) = (Entries.find? s fields).bind (readAt ss) := rfl

/-! ## One step of a write -/

theorem writeAt_cons_of_opened {doc : Json} {fields : Entries Json}
    (h : doc.opened? = some fields) (v : Json) (s : String) (ss : List String) :
    writeAt v (s :: ss) doc =
      { document := .object (Entries.insert s
          (writeAt v ss ((Entries.find? s fields).getD .null)).document fields)
        failure := (writeAt v ss ((Entries.find? s fields).getD .null)).failure } := by
  cases doc with
  | null =>
    cases h
    cases ss <;> rfl
  | object _ =>
    cases h
    cases ss <;> rfl
  | bool _ | number _ | string _ | array _ => cases h

/-- A value that is in the way stops the write. -/
theorem writeAt_cons_of_closed {doc : Json} (h : doc.opened? = none) (v : Json) (s : String)
    (ss : List String) :
    (writeAt v (s :: ss) doc).document = doc ∧ (writeAt v (s :: ss) doc).failure.isSome = true := by
  cases doc with
  | null | object _ => cases h
  | bool _ | number _ | string _ | array _ =>
    cases ss with
    | nil => exact ⟨rfl, rfl⟩
    | cons t ss => exact ⟨rfl, rfl⟩

/-! ## Failure -/

/-- Nothing is in the way below a missing value or `null`. -/
theorem opened?_of_readAt_null {ss : List String} {x : Json} (h : readAt ss .null = some x) :
    x.opened? = some [] := by
  cases ss with
  | nil =>
    cases h
    rfl
  | cons s ss => cases h

/-- A write fails exactly if a value is in the way at a place that its path passes. -/
theorem isSome_failure_writeAt_iff {v : Json} {ss : List String} {doc : Json} :
    (writeAt v ss doc).failure.isSome = true ↔
      ∃ ts rest x, ss = ts ++ rest ∧ rest ≠ [] ∧ readAt ts doc = some x ∧ x.opened? = none := by
  induction ss generalizing doc with
  | nil =>
    constructor
    · intro h
      cases h
    · rintro ⟨ts, rest, x, heq, hrest, -⟩
      exact absurd (List.append_eq_nil_iff.mp heq.symm).2 hrest
  | cons s ss ih =>
    rcases hdoc : doc.opened? with _ | fields
    · exact iff_of_true (writeAt_cons_of_closed hdoc v s ss).2
        ⟨[], s :: ss, doc, rfl, List.cons_ne_nil s ss, rfl, hdoc⟩
    · rw [writeAt_cons_of_opened hdoc, ih]
      constructor
      · rintro ⟨ts, rest, x, rfl, hrest, hread, hx⟩
        refine ⟨s :: ts, rest, x, rfl, hrest, ?_, hx⟩
        rw [readAt, get?_of_opened hdoc]
        rcases hs : Entries.find? s fields with _ | child
        · rw [hs, Option.getD_none] at hread
          rw [opened?_of_readAt_null hread] at hx
          cases hx
        · rw [hs] at hread
          exact hread
      · rintro ⟨ts, rest, x, heq, hrest, hread, hx⟩
        rcases ts with _ | ⟨t, ts⟩
        · obtain rfl : doc = x := Option.some.inj hread
          rw [hdoc] at hx
          cases hx
        · obtain ⟨rfl, rfl⟩ := List.cons.inj heq
          rw [readAt, get?_of_opened hdoc] at hread
          obtain ⟨child, hchild, hread⟩ := Option.bind_eq_some_iff.mp hread
          exact ⟨ts, rest, x, rfl, hrest, by rw [hchild]; exact hread, hx⟩

/-- A write puts back what is there. -/
theorem writeAt_of_readAt {v doc : Json} {ss : List String} (h : readAt ss doc = some v) :
    writeAt v ss doc = { document := doc } := by
  induction ss generalizing doc with
  | nil =>
    obtain rfl : doc = v := Option.some.inj h
    rfl
  | cons s ss ih =>
    obtain ⟨child, hchild, hread⟩ := Option.bind_eq_some_iff.mp h
    obtain ⟨fields, rfl, hs⟩ := eq_object_of_get? hchild
    rw [writeAt_cons_of_opened rfl, hs, Option.getD_some, ih hread, Entries.insert_of_find? hs]

/-- A write that fails leaves the document as it was. -/
theorem writeAt_document_of_failure {v : Json} {ss : List String} {doc : Json} {f : WriteFailure}
    (h : (writeAt v ss doc).failure = some f) : (writeAt v ss doc).document = doc := by
  induction ss generalizing doc with
  | nil => cases h
  | cons s ss ih =>
    rcases hdoc : doc.opened? with _ | fields
    · exact (writeAt_cons_of_closed hdoc v s ss).1
    · rw [writeAt_cons_of_opened hdoc] at h ⊢
      obtain ⟨ts, rest, x, -, -, hread, hx⟩ :=
        isSome_failure_writeAt_iff.mp (Option.isSome_of_eq_some h)
      rcases hs : Entries.find? s fields with _ | child
      · -- the write fails below `s`, so there is something
        rw [hs, Option.getD_none] at hread
        rw [opened?_of_readAt_null hread] at hx
        cases hx
      · obtain ⟨_, rfl, -⟩ := eq_object_of_get? ((get?_of_opened hdoc s).trans hs)
        obtain rfl := Option.some.inj hdoc
        rw [hs] at h
        rw [ih h]
        exact congrArg Json.object (Entries.insert_of_find? hs)

/-! ## What is found after a write -/

/-- A value that was written is found, and all that is below it. -/
theorem readAt_append_writeAt {v doc : Json} {ss : List String}
    (h : (writeAt v ss doc).failure = none) (ts : List String) :
    readAt (ss ++ ts) (writeAt v ss doc).document = readAt ts v := by
  induction ss generalizing doc with
  | nil => rfl
  | cons s ss ih =>
    rcases hdoc : doc.opened? with _ | fields
    · have hfails := (writeAt_cons_of_closed hdoc v s ss).2
      rw [h] at hfails
      cases hfails
    · rw [writeAt_cons_of_opened hdoc] at h ⊢
      rw [List.cons_append, readAt_cons_object, Entries.find?_insert_self, Option.bind_some]
      exact ih h

/-- Elsewhere a write changes nothing, be there something or not. -/
theorem readAt_writeAt_of_not_prefix {ss ts : List String} (hst : ¬ss <+: ts) (hts : ¬ts <+: ss)
    (v doc : Json) : readAt ts (writeAt v ss doc).document = readAt ts doc := by
  induction ss generalizing ts doc with
  | nil => exact absurd List.nil_prefix hst
  | cons s ss ih =>
    rcases ts with _ | ⟨t, ts⟩
    · exact absurd List.nil_prefix hts
    · rcases hdoc : doc.opened? with _ | fields
      · rw [(writeAt_cons_of_closed hdoc v s ss).1]
      · rw [writeAt_cons_of_opened hdoc, readAt_cons_object, readAt, get?_of_opened hdoc]
        by_cases hne : t = s
        · subst hne
          rw [List.cons_prefix_cons, not_and] at hst hts
          have hbelow := ih (hst rfl) (hts rfl) ((Entries.find? t fields).getD .null)
          rw [Entries.find?_insert_self, Option.bind_some, hbelow]
          rcases Entries.find? t fields with _ | child
          · -- `ts` is not empty, because the empty path is a prefix of all
            exact readAt_null fun hnil ↦ hts rfl (hnil ▸ List.nil_prefix)
          · rfl
        · rw [Entries.find?_insert_of_ne _ _ hne]

/-- Of two values written at one path the second counts. -/
theorem writeAt_writeAt (v w : Json) (ss : List String) (doc : Json) :
    writeAt w ss (writeAt v ss doc).document = writeAt w ss doc := by
  induction ss generalizing doc with
  | nil => rfl
  | cons s ss ih =>
    rcases hdoc : doc.opened? with _ | fields
    · rw [(writeAt_cons_of_closed hdoc v s ss).1]
    · rw [writeAt_cons_of_opened hdoc v, writeAt_cons_of_opened rfl, writeAt_cons_of_opened hdoc,
        Entries.find?_insert_self, Option.getD_some, ih, Entries.insert_insert]

theorem readAt_singleton (s : String) (doc : Json) : readAt [s] doc = doc.get? s := by
  rw [readAt]
  rcases doc.get? s with _ | child <;> rfl

end Json

namespace ContextPath

/-! ## Failed writes -/

/-- The path of some of the first segments of a path. -/
def before (p : ContextPath) {ss : List String} (h : ss <+: p.segments) : ContextPath where
  segments := ss
  isSegment s hs := p.isSegment s (h.subset hs)

/-- **When a write fails, and what it leaves.** A write fails exactly if a proper prefix of its path
holds a value that is neither `null` nor an object, and then the document is as it was. -/
theorem isSome_failure_write_iff (p : ContextPath) (v doc : Json) :
    ((p.write v doc).failure.isSome = true ↔
      p.isRoot = false ∧ ∃ (q : ContextPath) (x : Json), q.segments <+: p.segments ∧ q ≠ p ∧
        q.read doc = some x ∧ x ≠ .null ∧ ∀ fields, x ≠ .object fields) ∧
    ((p.write v doc).failure.isSome = true → (p.write v doc).document = doc) := by
  refine ⟨?_, fun h ↦ ?_⟩
  · rw [write, Json.isSome_failure_writeAt_iff]
    constructor
    · rintro ⟨ts, rest, x, heq, hrest, hread, hx⟩
      have hprefix : ts <+: p.segments := ⟨rest, heq.symm⟩
      have hroot : p.isRoot = false := by
        rw [isRoot, heq, List.isEmpty_eq_false_iff]
        exact fun hnil ↦ hrest (List.append_eq_nil_iff.mp hnil).2
      refine ⟨hroot, p.before hprefix, x, hprefix, ?_, hread, Json.opened?_eq_none_iff.mp hx⟩
      intro hp
      have hts : ts = ts ++ rest := (congrArg segments hp).trans heq
      exact hrest (List.self_eq_append_right.mp hts)
    · rintro ⟨-, q, x, ⟨rest, heq⟩, hne, hread, hx⟩
      refine ⟨q.segments, rest, x, heq.symm, ?_, hread, Json.opened?_eq_none_iff.mpr hx⟩
      rintro rfl
      obtain ⟨qs, hqs⟩ := q
      obtain ⟨ps, hps⟩ := p
      obtain rfl : qs = ps := (List.append_nil qs).symm.trans heq
      exact hne rfl
  · obtain ⟨f, hf⟩ := Option.isSome_iff_exists.mp h
    exact Json.writeAt_document_of_failure hf

/-- A count cannot be written into a text. -/
theorem document_write_into_text :
    let p : ContextPath := ⟨["status", "check_count"], by decide⟩
    let doc : Json := .object [("status", .string "done")]
    (p.write .null doc).failure.isSome = true ∧ (p.write .null doc).document = doc := by
  intro p doc
  have hstatus : (⟨["status"], by decide⟩ : ContextPath).segments <+: p.segments :=
    ⟨["check_count"], rfl⟩
  have hfails := (isSome_failure_write_iff p .null doc).1.mpr
    ⟨rfl, ⟨["status"], by decide⟩, .string "done", hstatus, by decide, rfl, by simp, by simp⟩
  exact ⟨hfails, (isSome_failure_write_iff p .null doc).2 hfails⟩

/-! ## Writes that succeed -/

/-- Neither of two paths is a prefix of the other. -/
def Apart (p q : ContextPath) : Prop := ¬p.segments <+: q.segments ∧ ¬q.segments <+: p.segments

instance (p q : ContextPath) : Decidable (p.Apart q) := inferInstanceAs (Decidable (_ ∧ _))

/-- Whether a write fails does not depend on the value. -/
theorem failure_write_eq_none {p : ContextPath} {v doc : Json}
    (h : (p.write v doc).failure = none) (w : Json) : (p.write w doc).failure = none := by
  rw [write, ← Option.not_isSome_iff_eq_none, Json.isSome_failure_writeAt_iff] at h ⊢
  exact h

/-- **The laws of a write that succeeds.** The value and what is in it are found at its path and
below, other paths read what they did, a value written later at the path counts alone, and a value
that is there can be written back. -/
theorem write_laws {p : ContextPath} {v doc doc' : Json}
    (h : p.write v doc = { document := doc' }) :
    p.read doc' = some v ∧
    (∀ q rest : ContextPath, q.segments = p.segments ++ rest.segments →
      q.read doc' = rest.read v) ∧
    (∀ q : ContextPath, q.Apart p → q.read doc' = q.read doc) ∧
    (∀ w, p.write w doc' = p.write w doc ∧ (p.write w doc).failure = none) ∧
    ∀ w, p.read doc = some w → p.write w doc = { document := doc } := by
  have hfailure : (p.write v doc).failure = none := congrArg Written.failure h
  obtain rfl : (p.write v doc).document = doc' := congrArg Written.document h
  have hbelow := Json.readAt_append_writeAt hfailure
  refine ⟨?_, ?_, ?_, ?_, ?_⟩
  · have hself := hbelow []
    rwa [List.append_nil] at hself
  · intro q rest hq
    rw [read, hq]
    exact hbelow rest.segments
  · intro q hq
    exact Json.readAt_writeAt_of_not_prefix hq.2 hq.1 v doc
  · intro w
    exact ⟨Json.writeAt_writeAt v w p.segments doc, failure_write_eq_none hfailure w⟩
  · intro w hread
    exact Json.writeAt_of_readAt hread

/-- A write that makes an object on its way. -/
theorem read_write_schedule :
    let p : ContextPath := ⟨["schedule", "wait"], by decide⟩
    let input : ContextPath := ⟨["input"], by decide⟩
    let doc : Json := .object [("input", .bool true), ("schedule", .null)]
    let doc' : Json := .object [("input", .bool true), ("schedule", .object [("wait", .ofNat 30)])]
    p.write (.ofNat 30) doc = { document := doc' } ∧ p.read doc' = some (.ofNat 30) ∧
      input.read doc' = input.read doc := by
  intro p input doc doc'
  have hwrite : p.write (.ofNat 30) doc = { document := doc' } := rfl
  obtain ⟨hread, -, hother, -⟩ := write_laws hwrite
  exact ⟨hwrite, hread, hother input (by decide)⟩

end ContextPath

end Workflow
