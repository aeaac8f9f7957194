import Mathlib.Logic.ExistsUnique
import Workflow.Machine.Path

/-!
# Paths as texts

A text is read as a path exactly if it is `$`, with any number of groups behind it of a dot and at
least one character other than a dot (`IsPathText`). Its path is the only one with this text, and it
is the only text of its path (`parse_inverse`).

Reading splits at every dot, and writing puts a dot before every segment. Splitting loses nothing,
so the text of what was read is the text that was read. And a segment has no dot inside, so the dots
that are found are the ones that were put in.
-/

namespace Workflow

/-! ## Splitting at dots -/

/-- Runs of characters, with a dot before each of them. -/
def dotted (runs : List (List Char)) : List Char := runs.flatMap fun run ↦ '.' :: run

theorem dotted_cons (run : List Char) (runs : List (List Char)) :
    dotted (run :: runs) = '.' :: (run ++ dotted runs) := rfl

/-- Splitting loses nothing. -/
theorem dotted_splitDots (cs : List Char) : dotted (splitDots cs) = '.' :: cs := by
  induction cs with
  | nil => rfl
  | cons c cs ih =>
    rw [splitDots]
    split
    · next hdot => rw [dotted_cons, ih, hdot, List.nil_append]
    · split
      · next hnil =>
        rw [hnil] at ih
        cases ih
      · next run runs hsplit =>
        rw [hsplit, dotted_cons, List.cons.injEq] at ih
        rw [dotted_cons, List.cons_append, ih.2]

theorem splitDots_of_notMem {cs : List Char} (h : '.' ∉ cs) : splitDots cs = [cs] := by
  induction cs with
  | nil => rfl
  | cons c cs ih =>
    rw [List.mem_cons, not_or] at h
    obtain ⟨hc, hcs⟩ := h
    rw [splitDots, if_neg (Ne.symm hc), ih hcs]

theorem splitDots_append {run : List Char} (h : '.' ∉ run) (cs : List Char) :
    splitDots (run ++ '.' :: cs) = run :: splitDots cs := by
  induction run with
  | nil => rw [List.nil_append, splitDots, if_pos rfl]
  | cons c run ih =>
    rw [List.mem_cons, not_or] at h
    obtain ⟨hc, hrun⟩ := h
    rw [List.cons_append, splitDots, if_neg (Ne.symm hc), ih hrun]

/-- The dots that are found are the ones that were put in. -/
theorem splitDots_dotted {run : List Char} {runs : List (List Char)}
    (h : ∀ r ∈ run :: runs, '.' ∉ r) : splitDots (run ++ dotted runs) = run :: runs := by
  induction runs generalizing run with
  | nil =>
    rw [dotted, List.flatMap_nil, List.append_nil]
    exact splitDots_of_notMem (h run List.mem_cons_self)
  | cons next runs ih =>
    obtain ⟨hrun, hrest⟩ := List.forall_mem_cons.mp h
    rw [dotted_cons, splitDots_append hrun, ih hrest]

/-! ## Reading and writing -/

theorem map_ofList_map_toList (texts : List String) :
    (texts.map String.toList).map String.ofList = texts := by
  rw [List.map_map]
  simp only [Function.comp_def, String.ofList_toList, List.map_id_fun', id]

theorem map_toList_map_ofList (runs : List (List Char)) :
    (runs.map String.ofList).map String.toList = runs := by
  rw [List.map_map]
  simp only [Function.comp_def, String.toList_ofList, List.map_id_fun', id]

namespace ContextPath

theorem toList_display (p : ContextPath) :
    p.display.toList = '$' :: dotted (p.segments.map String.toList) := by
  have key : ∀ (segments : List String) (text : String),
      (segments.foldl (fun s t ↦ s ++ "." ++ t) text).toList
        = text.toList ++ dotted (segments.map String.toList) := by
    intro segments
    induction segments with
    | nil => exact fun text ↦ (List.append_nil _).symm
    | cons s segments ih =>
      intro text
      rw [List.foldl_cons, ih, String.toList_append, String.toList_append, List.map_cons,
        dotted_cons, List.append_assoc, List.append_assoc]
      rfl
  exact key p.segments "$"

/-- The characters of a segment are what may stand behind a dot. -/
theorem runs_segments (p : ContextPath) :
    ∀ run ∈ p.segments.map String.toList, run ≠ [] ∧ '.' ∉ run := by
  intro run hrun
  obtain ⟨s, hs, rfl⟩ := List.mem_map.mp hrun
  obtain ⟨hne, hdot⟩ := p.isSegment s hs
  exact ⟨mt String.toList_eq_nil_iff.mp hne, hdot⟩

/-- A path is read from its text. -/
theorem parse_display (p : ContextPath) : parse p.display = .ok p := by
  have htext := p.toList_display
  have hruns := p.runs_segments
  have hback := map_ofList_map_toList p.segments
  obtain ⟨segments, hsegments⟩ := p
  cases segments with
  | nil =>
    rw [parse.eq_def]
    simp only [htext, List.map_nil, dotted, List.flatMap_nil]
    rfl
  | cons s segments =>
    simp only [List.map_cons] at hruns hback
    have hsplit := splitDots_dotted fun run hrun ↦ (hruns run hrun).2
    have hnonempty : [] ∉ s.toList :: segments.map String.toList := fun hnil ↦ (hruns [] hnil).1 rfl
    rw [List.map_cons, dotted_cons] at htext
    rw [parse.eq_def]
    simp only [htext, hsplit, hnonempty, dite_false, List.map_cons, hback]

/-- The path that was read from a text has this text. -/
theorem display_of_parse {text : String} {p : ContextPath} (h : parse text = .ok p) :
    p.display = text := by
  rw [← String.toList_inj, toList_display]
  rw [parse.eq_def] at h
  split at h
  · next htext =>
    cases h
    exact htext.symm
  · next cs htext =>
    split at h
    · cases h
    · cases h
      rw [htext, map_toList_map_ofList, dotted_splitDots]
  · cases h
  · cases h

/-- Reading undoes writing and nothing else. -/
theorem parse_eq_ok_iff {text : String} {p : ContextPath} :
    parse text = .ok p ↔ p.display = text := by
  refine ⟨display_of_parse, ?_⟩
  rintro rfl
  exact parse_display p

end ContextPath

/-- A dollar sign, and behind it any number of groups of a dot and characters that are not dots. -/
def IsPathText (text : String) : Prop :=
  ∃ runs : List (List Char), (∀ run ∈ runs, run ≠ [] ∧ '.' ∉ run) ∧
    text.toList = '$' :: dotted runs

theorem isPathText_display (p : ContextPath) : IsPathText p.display :=
  ⟨p.segments.map String.toList, p.runs_segments, p.toList_display⟩

/-- The groups of a text are the segments of a path. -/
theorem IsPathText.exists_display {text : String} (h : IsPathText text) :
    ∃ p : ContextPath, p.display = text := by
  obtain ⟨runs, hruns, htext⟩ := h
  have hsegments : ∀ s ∈ runs.map String.ofList, IsSegment s := by
    intro s hs
    obtain ⟨run, hrun, rfl⟩ := List.mem_map.mp hs
    obtain ⟨hne, hdot⟩ := hruns run hrun
    rw [IsSegment, String.toList_ofList]
    exact ⟨fun hempty ↦ hne (by simpa using congrArg String.toList hempty), hdot⟩
  refine ⟨⟨runs.map String.ofList, hsegments⟩, ?_⟩
  rw [← String.toList_inj, ContextPath.toList_display, htext, map_toList_map_ofList]

/-- **Paths and their texts.** A text is read as a path exactly if it is a dollar sign, or a dollar
sign followed by groups of a dot and at least one character that is not a dot. It is read as the
path that has this text, so every path is read back from its text; and no two texts are read as the
same path. -/
theorem ContextPath.parse_inverse (text : String) (p : ContextPath) :
    ((∃ q, parse text = .ok q) ↔ IsPathText text) ∧
    (parse text = .ok p ↔ p.display = text) ∧
    ∃! other, parse other = .ok p := by
  refine ⟨⟨?_, fun htext ↦ ?_⟩, parse_eq_ok_iff, p.display, parse_display p, ?_⟩
  · rintro ⟨q, hq⟩
    rw [← parse_eq_ok_iff.mp hq]
    exact isPathText_display q
  · obtain ⟨q, rfl⟩ := htext.exists_display
    exact ⟨q, parse_display q⟩
  · exact fun other hother ↦ (parse_eq_ok_iff.mp hother).symm

end Workflow
