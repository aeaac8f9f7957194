import Workflow.Listing

/-!
# Draining a cursor

What a cursor asks of its lister is seen by keeping a record of the exchanges: `recorded` answers as
the lister does and writes every request down with its answer.

`Advances` has one case for each thing that a call of `next` can do. From it follows what a walk
hands out when it comes to its end: the keys it had, the keys of all pages it was given, and after
them the error, if a request failed. The invariant is that a cursor that is `done` makes no further
request, so that an error is always the last item.

A store may break the program off instead of answering. `walkM_eq_walk` carries over to it what is
shown here of listers, as far as its requests are answered.
-/

namespace Workflow

/-- A page request and its answer. -/
abbrev Exchange := PageRequest × Except TaskError KeyPage

/-- The lister with a record of all requests and their answers. -/
def KeyLister.recorded {σ : Type} (lister : KeyLister σ) : KeyLister (σ × List Exchange) :=
  fun request s ↦
    ((lister request s.1).1, (lister request s.1).2, s.2 ++ [(request, (lister request s.1).1)])

/-- The keys of all pages in a record. -/
def servedKeys (exchanges : List Exchange) : List String :=
  exchanges.flatMap fun x ↦
    match x.2 with
    | .ok page => page.keys
    | .error _ => []

/-- The first error in a record. -/
def servedError? (exchanges : List Exchange) : Option TaskError :=
  exchanges.findSome? fun x ↦
    match x.2 with
    | .ok _ => none
    | .error e => some e

theorem servedError?_eq_none_iff {exchanges : List Exchange} :
    servedError? exchanges = none ↔ ∀ x ∈ exchanges, ∃ page, x.2 = .ok page := by
  rw [servedError?, List.findSome?_eq_none_iff]
  refine forall₂_congr fun x _ ↦ ?_
  cases x.2 with
  | ok page => simp
  | error e => simp

namespace KeyCursor

variable {σ : Type}

/-! ## One call -/

/-- What one call of `next` does: the exchange with the lister if there is one, the item handed out
if there is one, the cursor afterwards, and the state of the lister. -/
inductive Advances (lister : KeyLister σ) (c : KeyCursor) (s : σ) :
    List Exchange → Option (Except TaskError String) → KeyCursor → σ → Prop
  | buffered {key : String} {rest : List String} (buffer : c.buffer = key :: rest) :
      Advances lister c s [] (some (.ok key)) { c with buffer := rest, marker := some key } s
  | finished (buffer : c.buffer = []) (done : c.done = true) : Advances lister c s [] none c s
  | failed {e : TaskError} {t : σ} (buffer : c.buffer = []) (done : c.done = false)
      (answer : lister c.request s = (.error e, t)) :
      Advances lister c s [(c.request, .error e)] (some (.error e)) { c with done := true } t
  | emptied {page : KeyPage} {t : σ} (buffer : c.buffer = []) (done : c.done = false)
      (answer : lister c.request s = (.ok page, t)) (keys : page.keys = []) :
      Advances lister c s [(c.request, .ok page)] none { c with done := true } t
  | fetched {page : KeyPage} {t : σ} {key : String} {rest : List String} (buffer : c.buffer = [])
      (done : c.done = false) (answer : lister c.request s = (.ok page, t))
      (keys : page.keys = key :: rest) :
      Advances lister c s [(c.request, .ok page)] (some (.ok key))
        { c with buffer := rest, marker := some key, done := !page.truncated } t

theorem next_of_answer {lister : KeyLister σ} {c : KeyCursor} {s t : σ}
    {answer : Except TaskError KeyPage} (hbuffer : c.buffer = []) (hdone : c.done = false)
    (hask : lister c.request s = (answer, t)) :
    next lister c s = ((c.receive answer).1, (c.receive answer).2, t) := by
  rw [next, nextM_of_not_done _ hbuffer hdone]
  change ((c.receive (lister c.request s).1).1, (c.receive (lister c.request s).1).2,
    (lister c.request s).2) = _
  rw [hask]

theorem advances_next (lister : KeyLister σ) (c : KeyCursor) (s : σ) :
    ∃ (exchanges : List Exchange) (item : Option (Except TaskError String)) (c' : KeyCursor)
      (t : σ), next lister c s = (item, c', t) ∧
        (∀ log, next lister.recorded c (s, log) = (item, c', t, log ++ exchanges)) ∧
        Advances lister c s exchanges item c' t := by
  rcases hbuffer : c.buffer with _ | ⟨key, rest⟩
  · cases hdone : c.done with
    | true =>
      exact ⟨[], none, c, s, by rw [next, nextM_of_done _ hbuffer hdone]; rfl,
        fun log ↦ by rw [next, nextM_of_done _ hbuffer hdone, List.append_nil]; rfl,
        .finished hbuffer hdone⟩
    | false =>
      rcases hask : lister c.request s with ⟨answer, t⟩
      have hrecorded (log : List Exchange) : lister.recorded c.request (s, log)
          = (answer, t, log ++ [(c.request, answer)]) := by
        rw [KeyLister.recorded, hask]
      refine ⟨_, _, _, t, next_of_answer hbuffer hdone hask,
        fun log ↦ next_of_answer hbuffer hdone (hrecorded log), ?_⟩
      cases answer with
      | error e => exact .failed hbuffer hdone hask
      | ok page =>
        rcases hkeys : page.keys with _ | ⟨key, rest⟩
        · rw [receive_nil hbuffer hkeys]
          exact .emptied hbuffer hdone hask hkeys
        · rw [receive_cons hbuffer hdone hkeys]
          exact .fetched hbuffer hdone hask hkeys
  · exact ⟨[], some (.ok key), _, s, by rw [next, nextM_of_cons _ hbuffer]; rfl,
      fun log ↦ by rw [next, nextM_of_cons _ hbuffer, List.append_nil]; rfl, .buffered hbuffer⟩

/-! ## Requests in another monad -/

theorem pageSize_next (lister : KeyLister σ) (c : KeyCursor) (s : σ) :
    (next lister c s).2.1.pageSize = c.pageSize := by
  obtain ⟨_, item, c', t, hnext, -, hadvances⟩ := advances_next lister c s
  rw [hnext]
  cases hadvances <;> rfl

/-- Gives these answers, whatever it has been asked before. -/
def answering (answer : PageRequest → Except TaskError KeyPage) : KeyLister σ :=
  fun request s ↦ (answer request, s)

section Answered

variable {m : Type → Type} [Monad m] [LawfulMonad m]
  {ask : PageRequest → m (Except TaskError KeyPage)}
  {answer : PageRequest → Except TaskError KeyPage} {c : KeyCursor}

theorem nextM_eq_next (hask : ask c.request = pure (answer c.request)) (s : σ) :
    nextM ask c
      = pure ((next (answering answer) c s).1, (next (answering answer) c s).2.1) := by
  unfold next nextM
  cases c.buffer.isEmpty && !c.done with
  | true =>
    rw [hask]
    exact pure_bind _ _
  | false => rfl

/-- Where all requests of its page size are answered, a cursor goes the way of a cursor on the
lister with these answers. So what holds of listers holds of a store whose requests do not break the
program off. -/
theorem walkM_eq_walk (hask : ∀ r, r.limit = c.pageSize → ask r = pure (answer r)) (n : Nat)
    (s : σ) :
    walkM ask n c
      = pure ((walk (answering answer) n c s).1, (walk (answering answer) n c s).2.1) := by
  induction n generalizing c s with
  | zero => rfl
  | succ n ih =>
    have hsize := pageSize_next (answering answer) c s
    rw [walkM, nextM_eq_next (hask c.request rfl) s, pure_bind, walk_succ]
    generalize next (answering answer) c s = result at hsize ⊢
    obtain ⟨_ | item, c', t⟩ := result
    · rfl
    · dsimp only at hsize ⊢
      rw [ih (fun r hr ↦ hask r (hr.trans hsize)) t, pure_bind]

end Answered

/-! ## Walks that come to an end -/

/-- A walk to the end of the listing, with the record of its exchanges. -/
inductive Drains (lister : KeyLister σ) :
    KeyCursor → σ → List Exchange → List (Except TaskError String) → Prop
  | ended {c c' : KeyCursor} {s t : σ} {exchanges : List Exchange}
      (last : Advances lister c s exchanges none c' t) : Drains lister c s exchanges []
  | more {c c' : KeyCursor} {s t : σ} {exchanges later : List Exchange}
      {item : Except TaskError String} {items : List (Except TaskError String)}
      (first : Advances lister c s exchanges (some item) c' t)
      (rest : Drains lister c' t later items) :
      Drains lister c s (exchanges ++ later) (item :: items)

/-- The record that a walk of at most `n` calls leaves. -/
def exchanges (lister : KeyLister σ) (n : Nat) (c : KeyCursor) (s : σ) : List Exchange :=
  (walk lister.recorded n c (s, [])).2.2.2

/-- A walk that hands out fewer items than it had calls has come to the end. -/
theorem drains_walk {lister : KeyLister σ} {n : Nat} {c : KeyCursor} {s : σ}
    (hend : (walk lister n c s).1.length < n) :
    Drains lister c s (exchanges lister n c s) (walk lister n c s).1 := by
  -- the record grows at its end, so the induction is over all records to begin with
  have key : ∀ log, ∃ later, (walk lister.recorded n c (s, log)).2.2.2 = log ++ later ∧
      Drains lister c s later (walk lister n c s).1 := by
    induction n generalizing c s with
    | zero => exact absurd hend (Nat.not_lt_zero _)
    | succ n ih =>
      intro log
      obtain ⟨first, item, c', t, hnext, hrecorded, hadvances⟩ := advances_next lister c s
      cases item with
      | none =>
        rw [walk_succ, walk_succ, hnext, hrecorded]
        exact ⟨first, rfl, .ended hadvances⟩
      | some item =>
        rw [walk_succ, hnext] at hend
        obtain ⟨later, hlater, hdrains⟩ :=
          ih (c := c') (s := t) (Nat.lt_of_succ_lt_succ hend) (log ++ first)
        rw [walk_succ, walk_succ, hnext, hrecorded]
        refine ⟨first ++ later, ?_, .more hadvances hdrains⟩
        rw [← List.append_assoc]
        exact hlater
  obtain ⟨later, hlater, hdrains⟩ := key []
  rw [exchanges, hlater]
  exact hdrains

/-- **What a drained cursor has handed out**: the keys it held, then those of all pages, then the
error of the request that failed. -/
theorem Drains.items_eq {lister : KeyLister σ} {c : KeyCursor} {s : σ}
    {exchanges : List Exchange} {items : List (Except TaskError String)}
    (h : Drains lister c s exchanges items) :
    items = (c.buffer ++ servedKeys exchanges).map .ok
        ++ (servedError? exchanges).toList.map .error ∧
      (c.done = true → exchanges = []) := by
  induction h with
  | ended last =>
    cases last with
    | finished buffer _ => simp [buffer, servedKeys, servedError?]
    | emptied buffer done _ keys => simp [buffer, done, keys, servedKeys, servedError?]
  | more first _ ih =>
    obtain ⟨hitems, hdone⟩ := ih
    rw [hitems]
    cases first with
    | buffered buffer => exact ⟨by simp [buffer], hdone⟩
    | failed buffer done _ =>
      rw [hdone rfl]
      simp [buffer, done, servedKeys, servedError?]
    | fetched buffer done _ keys =>
      refine ⟨?_, by simp [done]⟩
      simp [buffer, keys, servedKeys, servedError?]

end KeyCursor

end Workflow
