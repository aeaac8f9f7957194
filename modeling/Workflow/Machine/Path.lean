import Workflow.Json.Value

/-!
# Paths into the context document

A path is `$` for the whole document, or `$` followed by segments that each start with a dot. Paths
go through objects only: an array has no segments.

## Reading and writing

Reading fails where a segment is missing. Writing makes the objects it needs out of missing values
and `null`, and fails only where some other value is in the way. A failed write says how it leaves
the document, because the document goes on being used.
-/

namespace Workflow

/-- What a segment may look like. -/
def IsSegment (s : String) : Prop := s ≠ "" ∧ '.' ∉ s.toList

instance (s : String) : Decidable (IsSegment s) := inferInstanceAs (Decidable (_ ∧ _))

/-- A path into the context document, as the names passed on the way. -/
structure ContextPath where
  segments : List String
  isSegment : ∀ s ∈ segments, IsSegment s
deriving DecidableEq

/-- Why a text is not a path. -/
inductive PathError where
  | noRoot (text : String)
  | noDot (text : String)
  | emptySegment (text : String)
deriving DecidableEq

namespace PathError

def message : PathError → String
  | .noRoot text => s!"path '{text}' must start with '$'"
  | .noDot text => s!"path '{text}' must continue with '.' after '$'"
  | .emptySegment text => s!"path '{text}' has an empty segment"

end PathError

/-! ## The text of a path -/

/-- Splits a text at every dot. -/
def splitDots : List Char → List (List Char)
  | [] => [[]]
  | c :: cs =>
    if c = '.' then [] :: splitDots cs
    else
      match splitDots cs with
      | [] => [[c]]
      | s :: ss => (c :: s) :: ss

theorem not_mem_of_mem_splitDots {cs s : List Char} (h : s ∈ splitDots cs) : '.' ∉ s := by
  induction cs generalizing s with
  | nil => simp_all [splitDots]
  | cons c cs ih =>
    simp only [splitDots] at h
    split at h
    · rcases List.mem_cons.1 h with rfl | h
      · simp
      · exact ih h
    · rename_i hc
      split at h
      · simp_all [Ne.symm hc]
      · rename_i t ts ht
        rcases List.mem_cons.1 h with rfl | h
        · have := ih (ht ▸ List.mem_cons_self)
          simp [this, Ne.symm hc]
        · exact ih (ht ▸ List.mem_cons_of_mem _ h)

namespace ContextPath

/-- The whole document. -/
def root : ContextPath := ⟨[], by simp⟩

/-- Reads a path. -/
def parse (text : String) : Except PathError ContextPath :=
  match text.toList with
  | '$' :: [] => .ok root
  | '$' :: '.' :: cs =>
    if h : [] ∈ splitDots cs then .error (.emptySegment text)
    else .ok ⟨(splitDots cs).map String.ofList, by
      intro s hs
      obtain ⟨t, ht, rfl⟩ := List.mem_map.1 hs
      refine ⟨fun e ↦ h ?_, by simpa using not_mem_of_mem_splitDots ht⟩
      have : t = [] := by simpa using congrArg String.toList e
      exact this ▸ ht⟩
  | '$' :: _ => .error (.noDot text)
  | _ => .error (.noRoot text)

/-- The text of a path. -/
def display (p : ContextPath) : String := p.segments.foldl (fun s t => s ++ "." ++ t) "$"

def isRoot (p : ContextPath) : Bool := p.segments.isEmpty

end ContextPath

/-! ## Reading and writing -/

/-- Where a write was stopped: at a value that it had to pass, or at the one that was to hold the
last segment. -/
inductive WriteFailure where
  | passing (segment : String)
  | entering (segment : String)
deriving DecidableEq

/-- What a write leaves behind. -/
structure Written where
  document : Json
  failure : Option WriteFailure := none

namespace Json

/-- The value behind a sequence of segments. -/
def readAt : List String → Json → Option Json
  | [], doc => some doc
  | s :: ss, doc => (doc.get? s).bind (readAt ss)

/-- Puts `v` behind a sequence of segments. -/
def writeAt (v : Json) : List String → Json → Written
  | [], _ => { document := v }
  | [s], doc =>
    match doc with
    | .null => { document := .object [(s, v)] }
    | .object fields => { document := .object (Entries.insert s v fields) }
    | other => { document := other, failure := some (.entering s) }
  | s :: t :: ss, doc =>
    match doc with
    | .null =>
      let below := writeAt v (t :: ss) .null
      { document := .object [(s, below.document)], failure := below.failure }
    | .object fields =>
      let below := writeAt v (t :: ss) ((Entries.find? s fields).getD .null)
      { document := .object (Entries.insert s below.document fields), failure := below.failure }
    | other => { document := other, failure := some (.passing s) }

@[simp] theorem readAt_nil (doc : Json) : readAt [] doc = some doc := rfl

theorem readAt_append (ss ts : List String) (doc : Json) :
    readAt (ss ++ ts) doc = (readAt ss doc).bind (readAt ts) := by
  induction ss generalizing doc with
  | nil => rfl
  | cons s ss ih =>
    simp only [List.cons_append, readAt]
    cases doc.get? s with
    | none => rfl
    | some child => exact ih child

end Json

namespace ContextPath

/-- The value at a path. -/
def read (p : ContextPath) (doc : Json) : Option Json := doc.readAt p.segments

/-- Writes `v` at a path. -/
def write (p : ContextPath) (v doc : Json) : Written := Json.writeAt v p.segments doc

end ContextPath

/-- The sentence for a failed write at a path. -/
def WriteFailure.message (p : ContextPath) : WriteFailure → String
  | .passing s => s!"cannot descend into '{s}' of {p.display}"
  | .entering s => s!"cannot write '{s}' of {p.display}"

end Workflow
