import Mathlib.Data.List.Chain
import Workflow.Proofs.Listing.Complete
import Workflow.Proofs.Listing.Drain

/-!
# Requests and items

A cursor is called again and again, past the end too, and its lister answers as it likes: with pages
that are empty and claim to be truncated, with keys in any order, with errors. Whatever it answers,
the record of the exchanges tells which items have been handed out, and the items tell where the
next request starts.

## The invariant

Up to the end of the walk all items are keys, and the keys of the pages served so far are those
handed out and then those in the buffer. From the end on the items are the keys of all pages and the
error, if there was one, and after them nothing. These are the two cases of `Stage`. In both the
cursor is done exactly if the last exchange ends the walk, which is what keeps it from making
another request.
-/

namespace Workflow

/-! ## Exchanges -/

/-- No request follows this exchange: the answer is an error, or a page that is empty or says that
nothing follows. -/
def EndsWalk (x : Exchange) : Prop :=
  match x.2 with
  | .error _ => True
  | .ok page => page.keys = [] ∨ page.truncated = false

theorem not_endsWalk_iff {x : Exchange} :
    ¬EndsWalk x ↔ ∃ page, x.2 = .ok page ∧ page.truncated = true ∧ page.keys ≠ [] := by
  rw [EndsWalk]
  cases x.2 with
  | error e => simp
  | ok page => simp [and_comm]

/-- The record of a walk that has come to its last exchange. -/
def Closed (log : List Exchange) : Prop := ∃ x ∈ log.getLast?, EndsWalk x

theorem closed_concat {log : List Exchange} {x : Exchange} : Closed (log ++ [x]) ↔ EndsWalk x := by
  simp [Closed]

/-- A page adds its keys. -/
theorem served_concat_page (log : List Exchange) (request : PageRequest) (page : KeyPage) :
    servedKeys (log ++ [(request, .ok page)]) = servedKeys log ++ page.keys ∧
      servedError? (log ++ [(request, .ok page)]) = servedError? log := by
  simp [servedKeys, servedError?, List.findSome?_append]

/-- An error adds no key, and is the first one if there was none before. -/
theorem served_concat_error {log : List Exchange} (h : servedError? log = none)
    (request : PageRequest) (e : TaskError) :
    servedKeys (log ++ [(request, .error e)]) = servedKeys log ∧
      servedError? (log ++ [(request, .error e)]) = some e := by
  rw [servedError?] at h
  simp [servedKeys, servedError?, List.findSome?_append, h]

/-- The second exchange takes up the walk where the page of the first one ended. -/
def Continues (x y : Exchange) : Prop :=
  ∃ page, x.2 = .ok page ∧ page.truncated = true ∧ page.keys ≠ [] ∧
    y.1.marker = page.keys.getLast?

/-- What the exchanges of a record are good for: the keys of all pages, and then the error of the
request that failed. -/
def servedItems (log : List Exchange) : List (Except TaskError String) :=
  (servedKeys log).map .ok ++ (servedError? log).toList.map .error

/-- The items of calls that hand out these keys. -/
def itemsOf (keys : List String) : List (Option (Except TaskError String)) :=
  keys.map fun key ↦ some (.ok key)

theorem itemsOf_concat (keys : List String) (key : String) :
    itemsOf (keys ++ [key]) = itemsOf keys ++ [some (.ok key)] :=
  List.map_append

/-- The keys among the items of some calls. -/
def handedOut (items : List (Option (Except TaskError String))) : List String :=
  items.filterMap fun item ↦ item.bind Except.toOption

theorem handedOut_append (items later : List (Option (Except TaskError String))) :
    handedOut (items ++ later) = handedOut items ++ handedOut later :=
  List.filterMap_append

theorem handedOut_itemsOf (keys : List String) : handedOut (itemsOf keys) = keys := by
  rw [handedOut, itemsOf, List.filterMap_map]
  exact List.filterMap_some

/-- All that was served, and then nothing. -/
theorem handedOut_served (log : List Exchange) (k : Nat) :
    handedOut ((servedItems log).map some ++ List.replicate k none) = servedKeys log := by
  have herror : handedOut ((((servedError? log).toList.map .error).map some)) = [] := by
    cases servedError? log <;> rfl
  have hnone : handedOut (List.replicate k none) = [] := List.filterMap_replicate_of_none rfl
  rw [servedItems, List.map_append, List.map_map, handedOut_append, handedOut_append, hnone, herror,
    List.append_nil, List.append_nil]
  exact handedOut_itemsOf _

namespace KeyCursor

variable {σ : Type}

/-- The items of `n` calls of `next`, whatever they come to, with the cursor after them. -/
def calls (lister : KeyLister σ) (c : KeyCursor) (s : σ) :
    Nat → List (Option (Except TaskError String)) × KeyCursor × σ
  | 0 => ([], c, s)
  | n + 1 =>
    let (items, c, s) := calls lister c s n
    let (item, c, s) := next lister c s
    (items ++ [item], c, s)

/-- The record that `n` calls leave. -/
def record (lister : KeyLister σ) (c : KeyCursor) (s : σ) (n : Nat) : List Exchange :=
  (calls lister.recorded c (s, []) n).2.2.2

/-! ## Requests -/

/-- The requests of a walk that began with the cursor `start`: the first one is made from its
marker, every other one from the end of the page before it, and nothing else is different. -/
structure Requests (start : KeyCursor) (log : List Exchange) : Prop where
  same : ∀ x ∈ log, x.1.container = start.container ∧ x.1.stem = start.stem ∧
    x.1.limit = start.pageSize
  first : ∀ x ∈ log.head?, x.1.marker = start.marker
  continues : log.IsChain Continues

theorem Requests.nil (start : KeyCursor) : Requests start [] :=
  ⟨by simp, by simp, .nil⟩

theorem Requests.concat {start : KeyCursor} {log : List Exchange} (h : Requests start log)
    {x : Exchange} (hsame : x.1.container = start.container ∧ x.1.stem = start.stem ∧
      x.1.limit = start.pageSize)
    (hfirst : log = [] → x.1.marker = start.marker)
    (hcontinues : ∀ y ∈ log.getLast?, Continues y x) : Requests start (log ++ [x]) where
  same y hy := by
    rcases List.mem_append.mp hy with hy | hy
    · exact h.same y hy
    · rw [List.mem_singleton.mp hy]
      exact hsame
  first := by
    rw [List.head?_append]
    cases hlog : log with
    | nil =>
      simpa using hfirst hlog
    | cons y log => simpa [hlog] using h.first
  continues := by
    refine h.continues.append (.singleton x) fun y hy z hz ↦ ?_
    obtain rfl := Option.mem_some.mp hz
    exact hcontinues y hy

/-! ## The two stages of a walk -/

/-- Where a walk that began with the cursor `start` stands, by the items handed out and the record
of the exchanges. -/
inductive Stage (start : KeyCursor) :
    List (Option (Except TaskError String)) → List Exchange → KeyCursor → Prop
  /-- All items are keys. -/
  | running {keys : List String} {log : List Exchange} {c : KeyCursor}
      (served : servedKeys log = keys ++ c.buffer) (unfailed : servedError? log = none)
      (marker : c.marker = keys.getLast?.or start.marker) (done : c.done = true ↔ Closed log) :
      Stage start (itemsOf keys) log c
  /-- Everything has been handed out, and `k` calls have come to nothing. -/
  | past {k : Nat} {log : List Exchange} {c : KeyCursor} (buffer : c.buffer = [])
      (done : c.done = true) (closed : Closed log)
      (marker : c.marker = (servedKeys log).getLast?.or start.marker) :
      Stage start ((servedItems log).map some ++ List.replicate k none) log c

/-- What all calls keep. -/
structure Keeps (start : KeyCursor) (items : List (Option (Except TaskError String)))
    (log : List Exchange) (c : KeyCursor) : Prop where
  same : c.container = start.container ∧ c.stem = start.stem ∧ c.pageSize = start.pageSize
  requests : Requests start log
  stage : Stage start items log c

variable {start c c' : KeyCursor} {items : List (Option (Except TaskError String))}
  {log : List Exchange}

/-- The request that a cursor makes when everything has been handed out continues the record. -/
theorem Requests.concat_request (h : Requests start log)
    (hsame : c.container = start.container ∧ c.stem = start.stem ∧ c.pageSize = start.pageSize)
    (hmarker : c.marker = (servedKeys log).getLast?.or start.marker) (hopen : ¬Closed log)
    (answer : Except TaskError KeyPage) : Requests start (log ++ [(c.request, answer)]) := by
  refine h.concat hsame (fun hlog ↦ ?_) fun y hy ↦ ?_
  · subst hlog
    exact hmarker
  · obtain ⟨page, hpage, htruncated, hkeys⟩ :=
      not_endsWalk_iff.mp fun hends ↦ hopen ⟨y, hy, hends⟩
    refine ⟨page, hpage, htruncated, hkeys, ?_⟩
    -- the last key that was served is that of the page
    have hserved : servedKeys log = servedKeys log.dropLast ++ page.keys := by
      obtain ⟨request, answer⟩ := y
      obtain rfl : answer = .ok page := hpage
      rw [← (served_concat_page log.dropLast request page).1, List.dropLast_append_getLast? _ hy]
    change c.marker = _
    rw [hmarker, hserved, List.getLast?_append]
    cases hlast : page.keys.getLast? with
    | none => exact absurd (List.getLast?_eq_none_iff.mp hlast) hkeys
    | some key => rfl

/-- One more key has been handed out. -/
theorem Stage.concat_key {keys : List String} {key : String}
    (served : servedKeys log = keys ++ key :: c.buffer) (unfailed : servedError? log = none)
    (marker : c.marker = some key) (done : c.done = true ↔ Closed log) :
    Stage start (itemsOf keys ++ [some (.ok key)]) log c := by
  rw [← itemsOf_concat]
  refine .running ?_ unfailed ?_ done
  · rw [served, List.append_assoc, List.singleton_append]
  · rw [marker, List.getLast?_concat, Option.some_or]

/-- All keys have been handed out, and what follows them is the error if there is one. -/
theorem Stage.concat_last (buffer : c.buffer = []) (done : c.done = true) (closed : Closed log)
    (marker : c.marker = (servedKeys log).getLast?.or start.marker) :
    Stage start (itemsOf (servedKeys log) ++ [(servedError? log).map .error]) log c := by
  have hitems : ∃ k, itemsOf (servedKeys log) ++ [(servedError? log).map .error]
      = (servedItems log).map some ++ List.replicate k none := by
    rw [servedItems, itemsOf]
    cases servedError? log with
    | none => exact ⟨1, by simp⟩
    | some e => exact ⟨0, by simp⟩
  obtain ⟨k, hitems⟩ := hitems
  rw [hitems]
  exact .past buffer done closed marker

/-- **One call.** Whatever the lister answers, the call keeps the invariant; and it makes a request
only if all keys of the pages so far have been handed out and no exchange has ended the walk. -/
theorem Keeps.call {lister : KeyLister σ} {s t : σ} {exchanges : List Exchange}
    {item : Option (Except TaskError String)} (h : Keeps start items log c)
    (hadvances : Advances lister c s exchanges item c' t) :
    Keeps start (items ++ [item]) (log ++ exchanges) c' ∧
      (exchanges = [] ∨
        (∃ x, exchanges = [x]) ∧ ¬Closed log ∧ items = itemsOf (servedKeys log)) := by
  obtain ⟨hsame, hrequests, hstage⟩ := h
  cases hstage with
  | @past k _ _ buffer done closed marker =>
    cases hadvances with
    | finished _ _ =>
      rw [List.append_assoc, ← List.replicate_succ', List.append_nil]
      exact ⟨⟨hsame, hrequests, .past buffer done closed marker⟩, .inl rfl⟩
    | buffered buffer' => cases buffer.symm.trans buffer'
    | failed _ done' _ | emptied _ done' _ _ | fetched _ done' _ _ => cases done.symm.trans done'
  | @running keys _ _ served unfailed marker done =>
    -- before a request everything has been handed out
    have hask : c.buffer = [] → c.done = false → servedKeys log = keys ∧ ¬Closed log ∧
        ∀ answer, Requests start (log ++ [(c.request, answer)]) := by
      intro hbuffer hdone
      rw [hbuffer, List.append_nil] at served
      have hopen : ¬Closed log := fun hclosed ↦ by
        rw [done.mpr hclosed] at hdone
        cases hdone
      exact ⟨served, hopen, hrequests.concat_request hsame (served ▸ marker) hopen⟩
    cases hadvances with
    | @buffered key rest buffer =>
      rw [List.append_nil]
      exact ⟨⟨hsame, hrequests, .concat_key (buffer ▸ served) unfailed rfl done⟩, .inl rfl⟩
    | finished buffer done' =>
      rw [buffer, List.append_nil] at served
      subst served
      have hstage : Stage start _ log c := .concat_last buffer done' (done.mp done') marker
      rw [unfailed] at hstage
      rw [List.append_nil]
      exact ⟨⟨hsame, hrequests, hstage⟩, .inl rfl⟩
    | @failed e _ buffer done' _ =>
      obtain ⟨rfl, hopen, hasked⟩ := hask buffer done'
      obtain ⟨hkeys, herror⟩ := served_concat_error unfailed c.request e
      have hstage : Stage start _ (log ++ [(c.request, .error e)]) { c with done := true } :=
        .concat_last buffer rfl (closed_concat.mpr trivial) (by rw [hkeys]; exact marker)
      rw [hkeys, herror] at hstage
      exact ⟨⟨hsame, hasked _, hstage⟩, .inr ⟨⟨_, rfl⟩, hopen, rfl⟩⟩
    | @emptied page _ buffer done' _ empty =>
      obtain ⟨rfl, hopen, hasked⟩ := hask buffer done'
      obtain ⟨hkeys, herror⟩ := served_concat_page log c.request page
      rw [empty, List.append_nil] at hkeys
      have hstage : Stage start _ (log ++ [(c.request, .ok page)]) { c with done := true } :=
        .concat_last buffer rfl (closed_concat.mpr (.inl empty)) (by rw [hkeys]; exact marker)
      rw [hkeys, herror, unfailed] at hstage
      exact ⟨⟨hsame, hasked _, hstage⟩, .inr ⟨⟨_, rfl⟩, hopen, rfl⟩⟩
    | @fetched page _ key rest buffer done' _ full =>
      obtain ⟨rfl, hopen, hasked⟩ := hask buffer done'
      obtain ⟨hkeys, herror⟩ := served_concat_page log c.request page
      rw [full] at hkeys
      have hdone : (!page.truncated) = true ↔ Closed (log ++ [(c.request, .ok page)]) := by
        rw [closed_concat, EndsWalk]
        simp [full]
      have hstage : Stage start _ (log ++ [(c.request, .ok page)])
          { c with buffer := rest, marker := some key, done := !page.truncated } :=
        .concat_key hkeys (herror.trans unfailed) rfl hdone
      exact ⟨⟨hsame, hasked _, hstage⟩, .inr ⟨⟨_, rfl⟩, hopen, rfl⟩⟩

/-! ## All calls -/

/-- Keeping a record makes no difference to the calls. -/
theorem calls_recorded (lister : KeyLister σ) (c : KeyCursor) (s : σ) (n : Nat) :
    calls lister.recorded c (s, []) n = ((calls lister c s n).1, (calls lister c s n).2.1,
      (calls lister c s n).2.2, record lister c s n) := by
  have same : ∃ log, calls lister.recorded c (s, []) n = ((calls lister c s n).1,
      (calls lister c s n).2.1, (calls lister c s n).2.2, log) := by
    induction n with
    | zero => exact ⟨[], rfl⟩
    | succ n ih =>
      obtain ⟨log, hlog⟩ := ih
      obtain ⟨exchanges, item, c', t, hnext, hrecorded, -⟩ :=
        advances_next lister (calls lister c s n).2.1 (calls lister c s n).2.2
      rw [calls, calls, hlog]
      dsimp only
      rw [hnext, hrecorded]
      exact ⟨log ++ exchanges, rfl⟩
  obtain ⟨log, hlog⟩ := same
  rw [record, hlog]

/-- One call more. -/
theorem exists_advances_calls (lister : KeyLister σ) (c : KeyCursor) (s : σ) (n : Nat) :
    ∃ exchanges item, Advances lister (calls lister c s n).2.1 (calls lister c s n).2.2 exchanges
        item (calls lister c s (n + 1)).2.1 (calls lister c s (n + 1)).2.2 ∧
      (calls lister c s (n + 1)).1 = (calls lister c s n).1 ++ [item] ∧
      record lister c s (n + 1) = record lister c s n ++ exchanges := by
  obtain ⟨exchanges, item, c', t, hnext, hrecorded, hadvances⟩ :=
    advances_next lister (calls lister c s n).2.1 (calls lister c s n).2.2
  have hrecord := calls_recorded lister c s n
  refine ⟨exchanges, item, ?_, ?_, ?_⟩
  · rw [calls]
    dsimp only
    rw [hnext]
    exact hadvances
  · rw [calls]
    dsimp only
    rw [hnext]
  · rw [record, calls, hrecord]
    dsimp only
    rw [hrecorded]

/-- The calls of a cursor as it is made keep the invariant. -/
theorem keeps_calls (lister : KeyLister σ) (start : KeyCursor) (hbuffer : start.buffer = [])
    (hdone : start.done = false) (s : σ) (n : Nat) :
    Keeps start (calls lister start s n).1 (record lister start s n)
      (calls lister start s n).2.1 := by
  induction n with
  | zero =>
    have hstage : Stage start (itemsOf []) [] start :=
      .running hbuffer.symm rfl rfl (by simp [hdone, Closed])
    exact ⟨⟨rfl, rfl, rfl⟩, .nil start, hstage⟩
  | succ n ih =>
    obtain ⟨exchanges, item, hadvances, hitems, hrecord⟩ := exists_advances_calls lister start s n
    rw [hitems, hrecord]
    exact (ih.call hadvances).1

/-- How a cursor that began as `start` deals with its lister, by the items of its calls, the record
of the exchanges and the cursor at the end. -/
structure Protocol (start : KeyCursor) (items : List (Option (Except TaskError String)))
    (log : List Exchange) (c : KeyCursor) : Prop where
  requests : Requests start log
  /-- The items are those that were served, in order, and after the last of them nothing. -/
  yields : items = ((servedItems log).take items.length).map some
    ++ List.replicate (items.length - (servedItems log).length) none
  /-- There is nothing to hand out only after the last exchange. -/
  ended : none ∈ items → Closed log
  /-- The marker is the last key handed out. -/
  marker : c.marker = (handedOut items).getLast?.or start.marker

theorem Keeps.protocol (h : Keeps start items log c) : Protocol start items log c := by
  obtain ⟨-, hrequests, hstage⟩ := h
  cases hstage with
  | @running keys _ _ served unfailed marker done =>
    have hserved : servedItems log = keys.map .ok ++ c.buffer.map .ok := by
      rw [servedItems, served, unfailed, List.map_append]
      exact List.append_nil _
    refine ⟨hrequests, ?_, ?_, ?_⟩
    · rw [hserved]
      simp [itemsOf]
    · simp [itemsOf]
    · rw [handedOut_itemsOf]
      exact marker
  | @past k _ _ buffer done closed marker =>
    refine ⟨hrequests, ?_, fun _ ↦ closed, ?_⟩
    · rw [List.length_append, List.length_map, List.length_replicate, Nat.add_sub_cancel_left,
        List.take_of_length_le (Nat.le_add_right _ _)]
    · rw [handedOut_served]
      exact marker

/-- A record that is closed stays as it is. -/
theorem record_eq_of_closed {lister : KeyLister σ} {start : KeyCursor} (hbuffer : start.buffer = [])
    (hdone : start.done = false) {s : σ} {n m : Nat} (hclosed : Closed (record lister start s n))
    (hle : n ≤ m) : record lister start s m = record lister start s n := by
  induction hle with
  | refl => rfl
  | @step m _ ih =>
    obtain ⟨exchanges, item, hadvances, -, hrecord⟩ := exists_advances_calls lister start s m
    obtain ⟨-, hasked⟩ := (keeps_calls lister start hbuffer hdone s m).call hadvances
    rw [hrecord]
    rcases hasked with rfl | ⟨-, hopen, -⟩
    · rw [List.append_nil, ih]
    · rw [ih] at hopen
      exact absurd hclosed hopen

/-- **The protocol of a cursor**, whatever the lister answers and however often the cursor is
called. The requests follow one another along the pages, from the marker that the cursor was made
with. The items are the keys of the pages and the error of the last request, if it failed, and then
nothing. A request is made only when all keys have been handed out, and none is made after an error
or a page that is empty or untruncated. The marker is the last key handed out. -/
theorem calls_startedAt (lister : KeyLister σ) (container stem : String) (marker : Option String)
    (size : Nat) (s : σ) (n : Nat) :
    let start := startedAt container stem marker size
    let items := (calls lister start s n).1
    let log := record lister start s
    items.length = n ∧ Protocol start items (log n) (calls lister start s n).2.1 ∧
      (log (n + 1) = log n ∨
        (∃ x, log (n + 1) = log n ++ [x]) ∧ items = itemsOf (servedKeys (log n))) ∧
      (Closed (log n) → ∀ m, n ≤ m → log m = log n) := by
  intro start items log
  have hkeeps := keeps_calls lister start rfl rfl s
  refine ⟨?_, (hkeeps n).protocol, ?_, fun hclosed m hle ↦ record_eq_of_closed rfl rfl hclosed hle⟩
  · induction n with
    | zero => rfl
    | succ n ih =>
      obtain ⟨exchanges, item, -, hitems, -⟩ := exists_advances_calls lister start s n
      change (calls lister start s (n + 1)).1.length = n + 1
      rw [hitems, List.length_append, List.length_singleton, ih]
  · obtain ⟨exchanges, item, hadvances, -, hrecord⟩ := exists_advances_calls lister start s n
    obtain ⟨-, hasked⟩ := (hkeeps n).call hadvances
    change record lister start s (n + 1) = _ ∨ (∃ x, record lister start s (n + 1) = _) ∧ _
    rw [hrecord]
    rcases hasked with rfl | ⟨⟨x, rfl⟩, -, hall⟩
    · exact .inl (List.append_nil _)
    · exact .inr ⟨⟨x, rfl⟩, hall⟩

/-- A lister that has one page, out of order and truncated, and fails from the second request on. -/
def failsLater : KeyLister Nat := fun _ n ↦
  (if n = 0 then .ok ⟨["b", "a"], true⟩ else .error (.taskFailed "gone"), n + 1)

/-- The keys of the page are followed by the error, and then by nothing. The second request is made
from the last key of the page, and there is no third one. -/
theorem calls_startedAt_failsLater :
    let start := startedAt "c" "" (some "x") 0
    let log := record failsLater start 0
    (calls failsLater start 0 5).1
        = [some (.ok "b"), some (.ok "a"), some (.error (.taskFailed "gone")), none, none] ∧
      (log 3).map (fun x ↦ (x.1.marker, x.1.limit)) = [(some "x", 1), (some "a", 1)] ∧
      (∀ m, 3 ≤ m → log m = log 3) ∧ (calls failsLater start 0 5).2.1.marker = some "a" := by
  intro start log
  obtain ⟨-, -, -, hfrozen⟩ := calls_startedAt failsLater "c" "" (some "x") 0 0 3
  exact ⟨rfl, rfl, hfrozen ⟨_, rfl, trivial⟩, rfl⟩

end KeyCursor

end Workflow
