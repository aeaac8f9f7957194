import Workflow.Entries
import Workflow.Task.Error

/-!
# Listings

A lister answers requests for pages of keys. A cursor hands out the keys of a listing one by one and
asks for the next page when it has none left. A page that is empty or says that nothing follows is
the last one; an error ends the walk after it has been reported. The marker is always the last key
handed out, so that a walk can be taken up again from it.

The workers of a pool share the items of a listing by their positions.

A request to the store in memory has one more outcome than a page and an error: the store looks one
key further than the page goes, and where this number does not fit into a machine word the program
breaks off. So a cursor is defined for requests in any monad (`nextM`, `walkM`). With the store it
runs in `Except Crash`; `next` and `walk` are for listers that answer every request and keep a
state.
-/

namespace Workflow

/-! ## Pages -/

/-- Asks for a page of keys. -/
structure PageRequest where
  container : String
  /-- What the keys start with. -/
  stem : String
  /-- The page holds keys after this one. -/
  marker : Option String
  limit : Nat
deriving DecidableEq

/-- A page of keys. -/
structure KeyPage where
  keys : List String
  /-- More keys follow the last one. -/
  truncated : Bool
deriving DecidableEq

/-- Answers page requests, with a state kept between them. -/
abbrev KeyLister (σ : Type) := PageRequest → σ → Except TaskError KeyPage × σ

/-! ## Cursors -/

/-- A walk through the keys of a container. -/
structure KeyCursor where
  container : String
  stem : String
  marker : Option String := none
  pageSize : Nat := 1000
  /-- Keys that have been fetched and not handed out. -/
  buffer : List String := []
  /-- No page is asked for any more. -/
  done : Bool := false
deriving DecidableEq

namespace KeyCursor

/-- The cursor with another page size, at least one. -/
def withPageSize (c : KeyCursor) (n : Nat) : KeyCursor := { c with pageSize := max n 1 }

/-- The request for the next page. -/
def request (c : KeyCursor) : PageRequest := ⟨c.container, c.stem, c.marker, c.pageSize⟩

/-- The cursor with a page it has been given. -/
def take (c : KeyCursor) (page : KeyPage) : KeyCursor :=
  { c with
    buffer := c.buffer ++ page.keys
    done := c.done || page.keys.isEmpty || !page.truncated }

/-- Hands out the first key of the buffer. -/
def pop (c : KeyCursor) : Option (Except TaskError String) × KeyCursor :=
  match c.buffer with
  | [] => (none, c)
  | key :: rest => (some (.ok key), { c with buffer := rest, marker := some key })

/-- What a call makes of the answer to its request. -/
def receive (c : KeyCursor) :
    Except TaskError KeyPage → Option (Except TaskError String) × KeyCursor
  | .error e => (some (.error e), { c with done := true })
  | .ok page => (c.take page).pop

section Calls

variable {m : Type → Type} [Monad m] (ask : PageRequest → m (Except TaskError KeyPage))

/-- The next key, an error, or nothing at the end. -/
def nextM (c : KeyCursor) : m (Option (Except TaskError String) × KeyCursor) :=
  if c.buffer.isEmpty && !c.done then return c.receive (← ask c.request) else return c.pop

/-- The items of at most `n` calls of `nextM`, up to the end of the walk, with the cursor after
them. -/
def walkM : Nat → KeyCursor → m (List (Except TaskError String) × KeyCursor)
  | 0, c => return ([], c)
  | n + 1, c => do
    match ← nextM ask c with
    | (none, c) => return ([], c)
    | (some item, c) =>
      let (items, c) ← walkM n c
      return (item :: items, c)

variable {c : KeyCursor}

theorem nextM_of_cons {key : String} {rest : List String} (hbuffer : c.buffer = key :: rest) :
    nextM ask c = pure (some (.ok key), { c with buffer := rest, marker := some key }) := by
  simp [nextM, pop, hbuffer]

theorem nextM_of_done (hbuffer : c.buffer = []) (hdone : c.done = true) :
    nextM ask c = pure (none, c) := by
  simp [nextM, pop, hbuffer, hdone]

theorem nextM_of_not_done (hbuffer : c.buffer = []) (hdone : c.done = false) :
    nextM ask c = (do return c.receive (← ask c.request)) := by
  simp [nextM, hbuffer, hdone]

end Calls

theorem receive_nil {c : KeyCursor} (hbuffer : c.buffer = []) {page : KeyPage}
    (hkeys : page.keys = []) : c.receive (.ok page) = (none, { c with done := true }) := by
  simp [receive, take, pop, hbuffer, hkeys]

theorem receive_cons {c : KeyCursor} (hbuffer : c.buffer = []) (hdone : c.done = false)
    {page : KeyPage} {key : String} {rest : List String} (hkeys : page.keys = key :: rest) :
    c.receive (.ok page) = (some (.ok key),
      { c with buffer := rest, marker := some key, done := !page.truncated }) := by
  simp [receive, take, pop, hbuffer, hdone, hkeys]

variable {σ : Type} (lister : KeyLister σ)

/-- One call on a lister that keeps a state. -/
def next (c : KeyCursor) (s : σ) : Option (Except TaskError String) × KeyCursor × σ :=
  let result := nextM (m := StateM σ) lister c s
  (result.1.1, result.1.2, result.2)

/-- At most `n` calls on a lister that keeps a state. -/
def walk (n : Nat) (c : KeyCursor) (s : σ) : List (Except TaskError String) × KeyCursor × σ :=
  let result := walkM (m := StateM σ) lister n c s
  (result.1.1, result.1.2, result.2)

theorem walk_succ (n : Nat) (c : KeyCursor) (s : σ) :
    walk lister (n + 1) c s =
      match next lister c s with
      | (none, c, s) => ([], c, s)
      | (some item, c, s) =>
        let (items, c, s) := walk lister n c s
        (item :: items, c, s) := by
  rw [walk, walkM, next]
  simp only [bind, StateT.bind]
  rcases nextM (m := StateM σ) lister c s with ⟨⟨_ | item, c'⟩, t⟩ <;> rfl

end KeyCursor

/-! ## Shards

The items of a sequence are dealt out in turn: the item at position `n` belongs to worker
`n % pool`. -/

/-- The items at positions `n` with `n % pool = branch`, counting from `start`. -/
def shardFrom {α : Type u} (branch pool : Nat) : Nat → List α → List α
  | _, [] => []
  | start, a :: as =>
    if 0 < pool ∧ start % pool = branch then a :: shardFrom branch pool (start + 1) as
    else shardFrom branch pool (start + 1) as

/-- The items that belong to worker `branch` of `pool`. -/
def shard {α : Type u} (branch pool : Nat) (items : List α) : List α :=
  shardFrom branch pool 0 items

/-- The values of a list of results, or the first error in it. -/
def allOk {ε : Type u} {α : Type v} : List (Except ε α) → Except ε (List α)
  | [] => .ok []
  | .error e :: _ => .error e
  | .ok a :: rest => (allOk rest).map (a :: ·)

/-! ## A store in memory -/

/-- Adds a key to a list in ascending order, unless it is there. -/
def insertKey (key : String) : List String → List String
  | [] => [key]
  | k :: ks => if key < k then key :: k :: ks else if key = k then k :: ks
    else k :: insertKey key ks

/-- Containers and their keys, each key once and in ascending order. -/
structure MemoryStore where
  containers : Entries (List String) := []

/-- Why the program breaks off, with no answer at all. -/
inductive Crash where
  /-- A number does not fit into a machine word. -/
  | overflow
deriving DecidableEq

namespace MemoryStore

/-- Adds a key to a container, which is made if it is not there. -/
def insert (m : MemoryStore) (container key : String) : MemoryStore :=
  let keys := (Entries.find? container m.containers).getD []
  ⟨Entries.insert container (insertKey key keys) m.containers⟩

/-- Whether a key comes after the marker. -/
def isAfter (marker : Option String) (key : String) : Bool :=
  match marker with
  | none => true
  | some m => decide (m < key)

/-- The keys a request is about, from all pages. -/
def matching (r : PageRequest) (keys : List String) : List String :=
  keys.filter fun key => isAfter r.marker key && r.stem.toList.isPrefixOf key.toList

/-- How many keys are looked at for a page: one more than it may hold. The number has to fit into a
machine word. -/
def lookAhead (limit : Nat) : Except Crash Nat :=
  if limit + 1 < UInt64.size then .ok (limit + 1) else .error .overflow

/-- The page a request asks for. A key that is looked at and not on the page tells that the page is
not the last one. -/
def page (m : MemoryStore) (r : PageRequest) : Except Crash (Except TaskError KeyPage) :=
  match Entries.find? r.container m.containers with
  | none => .ok (.error (.notFound ("container " ++ r.container)))
  | some keys => do
    let found := (matching r keys).take (← lookAhead r.limit)
    return .ok { keys := found.take r.limit, truncated := decide (r.limit < found.length) }

end MemoryStore

end Workflow
