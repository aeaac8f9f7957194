import Workflow.Listing

/-!
# Listing everything once

A store in memory keeps the keys of a container in ascending order, so that what a request asks for
is a part of the container in that order: the keys with the stem that come after the marker. The
page holds the first of them, and the key behind the page, which is looked at and not handed out,
tells that there are more.

Taking keys from a cursor keeps two things true (`OnCourse`): what the cursor has in its buffer are
the next keys after its marker, and a cursor that is done has all of them there. The marker moves
with every key and not with every page, so this says at every point of the walk what another cursor
would list from the marker, whatever its page size is.

All of this needs that one key more than a page holds can be looked at. For the greatest page size
of all this number does not fit into a machine word, and the program breaks off at the first request
(`walkM_greatest`).
-/

namespace Workflow

/-! ## Keys in ascending order -/

theorem mem_insertKey {key k : String} {keys : List String} :
    k ∈ insertKey key keys ↔ k = key ∨ k ∈ keys := by
  induction keys with
  | nil => rw [insertKey, List.mem_singleton, List.mem_nil_iff, or_false]
  | cons first keys ih =>
    rw [insertKey]
    split
    · rw [List.mem_cons]
    · split
      · next hkey =>
        rw [hkey, List.mem_cons, or_self_left]
      · rw [List.mem_cons, ih, List.mem_cons, or_left_comm]

theorem ascending_insertKey (key : String) {keys : List String} (hkeys : keys.Pairwise (· < ·)) :
    (insertKey key keys).Pairwise (· < ·) := by
  induction keys with
  | nil => exact List.pairwise_singleton _ _
  | cons first keys ih =>
    obtain ⟨hfirst, hrest⟩ := List.pairwise_cons.mp hkeys
    rw [insertKey]
    split
    · next hlt =>
      refine List.pairwise_cons.mpr ⟨fun k hk ↦ ?_, hkeys⟩
      rcases List.mem_cons.mp hk with rfl | hk
      · exact hlt
      · exact String.lt_trans hlt (hfirst k hk)
    · next hlt =>
      split
      · exact hkeys
      · next hne =>
        refine List.pairwise_cons.mpr ⟨fun k hk ↦ ?_, ih hrest⟩
        rcases mem_insertKey.mp hk with rfl | hk
        · -- the new key is neither before the first one nor the same
          refine Classical.byContradiction fun hge ↦ hne ?_
          exact String.le_antisymm (String.not_lt.mp hge) (String.not_lt.mp hlt)
        · exact hfirst k hk

namespace MemoryStore

/-- The keys of a container, none if it is not there. -/
def keysOf (m : MemoryStore) (container : String) : List String :=
  (Entries.find? container m.containers).getD []

theorem keysOf_insert (m : MemoryStore) (container key other : String) :
    (m.insert container key).keysOf other =
      if other = container then insertKey key (m.keysOf container) else m.keysOf other := by
  rw [keysOf, insert]
  split
  · next h =>
    rw [h, Entries.find?_insert_self]
    rfl
  · next h =>
    rw [Entries.find?_insert_of_ne _ _ h]
    rfl

/-- The store after keys have been put into containers one by one. -/
def ofInserts (inserts : List (String × String)) : MemoryStore :=
  inserts.foldl (fun m x ↦ m.insert x.1 x.2) {}

/-- A container has the keys that were put into it, each once and in ascending order. -/
theorem keysOf_ofInserts (inserts : List (String × String)) (container : String) :
    ((ofInserts inserts).keysOf container).Pairwise (· < ·) ∧
      ∀ key, key ∈ (ofInserts inserts).keysOf container ↔ (container, key) ∈ inserts := by
  have grow : ∀ m : MemoryStore, (m.keysOf container).Pairwise (· < ·) →
      ((inserts.foldl (fun m x ↦ m.insert x.1 x.2) m).keysOf container).Pairwise (· < ·) ∧
        ∀ key, key ∈ (inserts.foldl (fun m x ↦ m.insert x.1 x.2) m).keysOf container ↔
          key ∈ m.keysOf container ∨ (container, key) ∈ inserts := by
    induction inserts with
    | nil =>
      intro m hm
      refine ⟨hm, fun key ↦ ?_⟩
      rw [List.foldl_nil, List.mem_nil_iff, or_false]
    | cons x inserts ih =>
      obtain ⟨c, k⟩ := x
      intro m hm
      have hinsert := keysOf_insert m c k container
      by_cases hc : container = c
      · rw [if_pos hc, ← hc] at hinsert
        have hgrown := ascending_insertKey k hm
        rw [← hinsert, hc] at hgrown
        obtain ⟨hasc, hmem⟩ := ih (m.insert c k) (hc ▸ hgrown)
        refine ⟨hasc, fun key ↦ ?_⟩
        rw [List.foldl_cons, hmem, ← hc, hinsert, mem_insertKey, List.mem_cons, Prod.mk.injEq,
          eq_self, true_and, or_assoc, or_left_comm]
      · rw [if_neg hc] at hinsert
        obtain ⟨hasc, hmem⟩ := ih (m.insert c k) (by rw [hinsert]; exact hm)
        refine ⟨hasc, fun key ↦ ?_⟩
        rw [List.foldl_cons, hmem, hinsert, List.mem_cons, Prod.mk.injEq, eq_false hc, false_and,
          false_or]
  obtain ⟨hasc, hmem⟩ := grow {} List.Pairwise.nil
  refine ⟨hasc, fun key ↦ ?_⟩
  rw [ofInserts, hmem]
  exact or_iff_right List.not_mem_nil

/-- A container that something was put into is there. -/
theorem find?_ofInserts {inserts : List (String × String)} {container : String}
    (h : container ∈ inserts.map Prod.fst) :
    Entries.find? container (ofInserts inserts).containers
      = some ((ofInserts inserts).keysOf container) := by
  obtain ⟨⟨c, key⟩, hmem, rfl⟩ := List.mem_map.mp h
  have hkey : key ∈ (ofInserts inserts).keysOf c := ((keysOf_ofInserts inserts c).2 key).mpr hmem
  cases hfind : Entries.find? c (ofInserts inserts).containers with
  | none =>
    rw [keysOf, hfind] at hkey
    exact absurd hkey List.not_mem_nil
  | some keys => rw [keysOf, hfind, Option.getD_some]

/-! ## What is asked for -/

/-- The keys that start with the stem and come after the marker. -/
def listed (stem : String) (marker : Option String) (keys : List String) : List String :=
  keys.filter fun key ↦ isAfter marker key && stem.toList.isPrefixOf key.toList

theorem isAfter_iff {marker : Option String} {key : String} :
    isAfter marker key = true ↔ ∀ m ∈ marker, m < key := by
  cases marker with
  | none => exact ⟨fun _ _ hm ↦ absurd hm (Option.not_mem_none _), fun _ ↦ rfl⟩
  | some m =>
    rw [isAfter, decide_eq_true_iff]
    exact ⟨fun h _ hm ↦ Option.mem_some.mp hm ▸ h, fun h ↦ h m rfl⟩

theorem mem_listed {stem key : String} {marker : Option String} {keys : List String} :
    key ∈ listed stem marker keys ↔
      key ∈ keys ∧ stem.toList <+: key.toList ∧ ∀ m ∈ marker, m < key := by
  rw [listed, List.mem_filter, Bool.and_eq_true, isAfter_iff, List.isPrefixOf_iff_prefix, and_comm
    (a := ∀ m ∈ marker, m < key)]

/-- After one of the keys that are asked for come those behind it. -/
theorem listed_after {stem key : String} {marker : Option String} {keys before rest : List String}
    (hkeys : keys.Pairwise (· < ·)) (h : listed stem marker keys = before ++ key :: rest) :
    listed stem (some key) keys = rest := by
  have hkey : key ∈ listed stem marker keys := by
    rw [h]
    exact List.mem_append_right _ List.mem_cons_self
  -- whatever comes after the key comes after the marker too
  have hfilter : listed stem (some key) keys
      = (listed stem marker keys).filter fun k ↦ decide (key < k) := by
    rw [listed, listed, List.filter_filter]
    refine List.filter_congr fun k _ ↦ ?_
    rw [Bool.eq_iff_iff, Bool.and_eq_true, Bool.and_eq_true, Bool.and_eq_true, isAfter_iff,
      isAfter_iff, decide_eq_true_iff]
    refine ⟨fun ⟨hafter, hstem⟩ ↦ ?_, fun ⟨hlt, _, hstem⟩ ↦ ?_⟩
    · have hlt : key < k := hafter key rfl
      exact ⟨hlt, fun m hm ↦ String.lt_trans ((mem_listed.mp hkey).2.2 m hm) hlt, hstem⟩
    · exact ⟨fun m hm ↦ Option.mem_some.mp hm ▸ hlt, hstem⟩
  have hasc : (before ++ key :: rest).Pairwise (· < ·) := h ▸ hkeys.filter _
  obtain ⟨_, hfrom, hbefore⟩ := List.pairwise_append.mp hasc
  have hnone : before.filter (fun k ↦ decide (key < k)) = [] := by
    refine List.filter_eq_nil_iff.mpr fun k hk ↦ ?_
    rw [decide_eq_true_iff]
    exact String.lt_asymm (hbefore k hk key List.mem_cons_self)
  have hall : rest.filter (fun k ↦ decide (key < k)) = rest := by
    refine List.filter_eq_self.mpr fun k hk ↦ ?_
    exact decide_eq_true ((List.pairwise_cons.mp hfrom).1 k hk)
  rw [hfilter, h, List.filter_append, hnone, List.nil_append,
    List.filter_cons_of_neg (by rw [decide_eq_true_iff]; exact String.lt_irrefl key), hall]

/-- A page holds as many of the keys asked for as it may, and tells whether there are more, when
one key more can be looked at. -/
theorem page_eq {m : MemoryStore} {container : String} {keys : List String}
    (hfind : Entries.find? container m.containers = some keys) (stem : String)
    (marker : Option String)
    {limit : Nat} (hlimit : limit + 1 < UInt64.size) :
    m.page ⟨container, stem, marker, limit⟩ = .ok (.ok
      { keys := (listed stem marker keys).take limit
        truncated := decide (limit < (listed stem marker keys).length) }) := by
  have hkeys : ((listed stem marker keys).take (limit + 1)).take limit
      = (listed stem marker keys).take limit := by
    rw [List.take_take, Nat.min_eq_left (Nat.le_succ limit)]
  have hmore : limit < ((listed stem marker keys).take (limit + 1)).length ↔
      limit < (listed stem marker keys).length := by
    rw [List.length_take, Nat.lt_min]
    exact and_iff_right (Nat.lt_succ_self limit)
  rw [← hkeys, ← decide_eq_decide.mpr hmore, page, hfind]
  dsimp only
  rw [lookAhead, if_pos hlimit]
  rfl

/-- **When a request breaks the program off**: its container is there, and one cannot be added to the
size of the page. -/
theorem page_eq_error_iff {m : MemoryStore} {r : PageRequest} {crash : Crash} :
    m.page r = .error crash ↔
      (Entries.find? r.container m.containers).isSome = true ∧ UInt64.size ≤ r.limit + 1 := by
  cases crash
  rw [page]
  cases Entries.find? r.container m.containers with
  | none => exact ⟨nofun, fun h ↦ absurd h.1 Bool.false_ne_true⟩
  | some keys =>
    by_cases hlimit : r.limit + 1 < UInt64.size
    · rw [lookAhead, if_pos hlimit]
      exact ⟨nofun, fun h ↦ absurd hlimit (Nat.not_lt.mpr h.2)⟩
    · rw [lookAhead, if_neg hlimit]
      exact ⟨fun _ ↦ ⟨rfl, Nat.not_lt.mp hlimit⟩, fun _ ↦ rfl⟩

end MemoryStore

namespace KeyCursor

open MemoryStore

/-! ## One key after another -/

/-- The keys that the cursor has still to hand out. -/
def left (c : KeyCursor) (keys : List String) : List String := listed c.stem c.marker keys

/-- The cursor is on its way through these keys of its container: its buffer holds the next ones,
and all that are left if it is done. -/
structure OnCourse (m : MemoryStore) (keys : List String) (c : KeyCursor) : Prop where
  container : Entries.find? c.container m.containers = some keys
  size_pos : 0 < c.pageSize
  size_lt : c.pageSize + 1 < UInt64.size
  buffer : c.buffer <+: c.left keys
  done : c.done = true → c.buffer = c.left keys

/-- Handing out the first of the keys left. The marker goes to this key, and the cursor stays on its
way if what comes right behind the key is in the buffer. -/
theorem OnCourse.handOut {m : MemoryStore} {keys : List String} {c : KeyCursor}
    (h : c.OnCourse m keys) (hkeys : keys.Pairwise (· < ·)) {key : String}
    {rest later : List String} {done : Bool} (hleft : c.left keys = key :: (rest ++ later))
    (hdone : done = true → later = []) :
    KeyCursor.OnCourse m keys { c with buffer := rest, marker := some key, done := done } ∧
      KeyCursor.left { c with buffer := rest, marker := some key, done := done } keys
        = (c.left keys).tail := by
  have hafter : listed c.stem (some key) keys = rest ++ later := by
    rw [← List.nil_append (key :: _)] at hleft
    exact listed_after hkeys hleft
  refine ⟨⟨h.container, h.size_pos, h.size_lt, ?_, fun hlast ↦ ?_⟩, ?_⟩
  · change rest <+: listed c.stem (some key) keys
    rw [hafter]
    exact List.prefix_append _ _
  · change rest = listed c.stem (some key) keys
    rw [hafter, hdone hlast, List.append_nil]
  · rw [hleft]
    exact hafter

/-- **One step of a walk.** The cursor hands out the first of the keys left and has the others
left. -/
theorem OnCourse.next {m : MemoryStore} {keys : List String} {c : KeyCursor}
    (h : c.OnCourse m keys) (hkeys : keys.Pairwise (· < ·)) :
    ∃ c' : KeyCursor, nextM m.page c = .ok ((c.left keys).head?.map .ok, c') ∧
      c'.OnCourse m keys ∧ c'.left keys = (c.left keys).tail ∧
      c'.container = c.container ∧ c'.stem = c.stem := by
  rcases hbuffer : c.buffer with _ | ⟨key, rest⟩
  · cases hdone : c.done with
    | true =>
      have hnil : c.left keys = [] := by rw [← h.done hdone, hbuffer]
      rw [nextM_of_done _ hbuffer hdone, hnil]
      exact ⟨c, rfl, h, hnil, rfl, rfl⟩
    | false =>
      have hpage : m.page c.request = _ := page_eq h.container c.stem c.marker h.size_lt
      rw [nextM_of_not_done _ hbuffer hdone, hpage]
      -- the page is the front of what is left
      rcases hfront : (c.left keys).take c.pageSize with _ | ⟨key, rest⟩
      · have hnil : c.left keys = [] :=
          (List.take_eq_nil_iff.mp hfront).resolve_left (Nat.ne_of_gt h.size_pos)
        refine ⟨{ c with done := true }, ?_,
          ⟨h.container, h.size_pos, h.size_lt, h.buffer, fun _ ↦ hbuffer.trans hnil.symm⟩, ?_,
          rfl, rfl⟩
        · rw [hnil]
          exact congrArg Except.ok (receive_nil hbuffer hfront)
        · rw [hnil]
          exact hnil
      · have hleft : c.left keys = key :: (rest ++ (c.left keys).drop c.pageSize) := by
          rw [← List.cons_append, ← hfront]
          exact (List.take_append_drop _ _).symm
        have hlast : (!decide (c.pageSize < (c.left keys).length)) = true →
            (c.left keys).drop c.pageSize = [] := fun hshort ↦
          List.drop_eq_nil_of_le
            (Nat.not_lt.mp (of_decide_eq_false (Bool.not_eq_true' _ ▸ hshort)))
        obtain ⟨hcourse, htail⟩ := h.handOut hkeys hleft hlast
        have hhead : (c.left keys).head? = some key := by rw [hleft, List.head?_cons]
        refine ⟨_, ?_, hcourse, htail, rfl, rfl⟩
        rw [hhead]
        exact congrArg Except.ok (receive_cons hbuffer hdone hfront)
  · obtain ⟨later, hleft⟩ := h.buffer
    rw [hbuffer, List.cons_append] at hleft
    have hlast : c.done = true → later = [] := fun hdone ↦ by
      have hall := h.done hdone
      rw [hbuffer, ← hleft] at hall
      exact List.self_eq_append_right.mp (List.cons.inj hall).2
    obtain ⟨hcourse, htail⟩ := h.handOut hkeys hleft.symm hlast
    rw [nextM_of_cons _ hbuffer]
    exact ⟨_, by rw [← hleft]; rfl, hcourse, htail, rfl, rfl⟩

/-- **A walk hands out the keys left**, as many as it makes calls, and leaves the others. -/
theorem OnCourse.walk {m : MemoryStore} {keys : List String} {c : KeyCursor}
    (h : c.OnCourse m keys) (hkeys : keys.Pairwise (· < ·)) (n : Nat) :
    ∃ c' : KeyCursor, walkM m.page n c = .ok (((c.left keys).take n).map .ok, c') ∧
      c'.left keys = (c.left keys).drop n ∧ c'.container = c.container ∧ c'.stem = c.stem := by
  induction n generalizing c with
  | zero => exact ⟨c, rfl, rfl, rfl, rfl⟩
  | succ n ih =>
    obtain ⟨c', hnext, hcourse, hleft, hcontainer, hstem⟩ := h.next hkeys
    rw [walkM, hnext]
    cases hc : c.left keys with
    | nil =>
      rw [hc] at hleft
      exact ⟨c', rfl, hleft, hcontainer, hstem⟩
    | cons key rest =>
      rw [hc, List.tail_cons] at hleft
      obtain ⟨c'', hwalk, hrest, hcontainer', hstem'⟩ := ih hcourse
      rw [hleft] at hwalk hrest
      refine ⟨c'', ?_, hrest, hcontainer'.trans hcontainer, hstem'.trans hstem⟩
      change (walkM m.page n c' >>= fun x ↦ pure (Except.ok key :: x.1, x.2)) = _
      rw [hwalk]
      rfl

/-! ## Cursors as they are made -/

/-- A cursor that starts after the marker, with this page size. -/
def startedAt (container stem : String) (marker : Option String) (size : Nat) : KeyCursor :=
  withPageSize { container, stem, marker } size

theorem onCourse_startedAt {m : MemoryStore} {container : String} {keys : List String}
    (hfind : Entries.find? container m.containers = some keys) (stem : String)
    (marker : Option String) {size : Nat} (hsize : size + 1 < UInt64.size) :
    (startedAt container stem marker size).OnCourse m keys where
  container := hfind
  size_pos := Nat.le_max_right size 1
  size_lt := by
    rcases Nat.le_total size 1 with h | h
    · rw [startedAt, withPageSize, Nat.max_eq_right h]
      change 1 + 1 < UInt64.size
      decide
    · rw [startedAt, withPageSize, Nat.max_eq_left h]
      exact hsize
  buffer := List.nil_prefix
  done := fun hdone ↦ absurd hdone Bool.false_ne_true

/-- With the greatest page size the program breaks off at the first call. -/
theorem walkM_greatest {m : MemoryStore} {container : String} {keys : List String}
    (hfind : Entries.find? container m.containers = some keys) (stem : String)
    (marker : Option String) (n : Nat) :
    walkM m.page (n + 1) (startedAt container stem marker (UInt64.size - 1))
      = .error .overflow := by
  have hpage : m.page (startedAt container stem marker (UInt64.size - 1)).request
      = .error .overflow :=
    MemoryStore.page_eq_error_iff.mpr ⟨Option.isSome_of_mem hfind, Nat.le_refl _⟩
  rw [walkM, nextM_of_not_done _ rfl rfl, hpage]
  rfl

/-- **A listing is complete and can be taken up again anywhere**, with every page size but the
greatest. A cursor that starts after the marker hands out, without an error, exactly the keys of the
container that start with the stem and come after the marker, in ascending order and each once; it
comes to the same list with every page size. A cursor that starts after the marker left by `k` calls
hands out those that remain. With the greatest page size, to which one cannot be added, a cursor
hands out nothing: wherever it starts, the program breaks off at its first call. -/
theorem walkM_startedAt (inserts : List (String × String)) {container : String}
    (hcontainer : container ∈ inserts.map Prod.fst) (stem : String) (marker : Option String) :
    ∃ keys : List String, keys.Pairwise (· < ·) ∧
      (∀ key, key ∈ keys ↔ (container, key) ∈ inserts ∧ stem.toList <+: key.toList ∧
        ∀ m ∈ marker, m < key) ∧
      (∀ size, size + 1 < UInt64.size → ∀ k, ∃ c,
        walkM (ofInserts inserts).page k (startedAt container stem marker size)
          = .ok ((keys.take k).map .ok, c) ∧
        ∀ size', size' + 1 < UInt64.size → ∀ n, ∃ c',
          walkM (ofInserts inserts).page n (startedAt container stem c.marker size')
            = .ok (((keys.drop k).take n).map .ok, c')) ∧
      ∀ marker' n, walkM (ofInserts inserts).page (n + 1)
        (startedAt container stem marker' (UInt64.size - 1)) = .error .overflow := by
  obtain ⟨hasc, hmem⟩ := keysOf_ofInserts inserts container
  have hfind := find?_ofInserts hcontainer
  generalize (ofInserts inserts).keysOf container = keys at hasc hmem hfind
  refine ⟨listed stem marker keys, hasc.filter _, fun key ↦ ?_, fun size hsize k ↦ ?_,
    fun marker' n ↦ walkM_greatest hfind stem marker' n⟩
  · rw [mem_listed, hmem]
  · obtain ⟨c, hwalk, hleft, -, hstem⟩ :=
      (onCourse_startedAt hfind stem marker hsize).walk hasc k
    refine ⟨c, hwalk, fun size' hsize' n ↦ ?_⟩
    -- what a new cursor has left is what the old one has, since both look after the same marker
    have hsame : (startedAt container stem c.marker size').left keys
        = (listed stem marker keys).drop k := by
      rw [left, hstem] at hleft
      exact hleft
    obtain ⟨c', hresumed, -⟩ := (onCourse_startedAt hfind stem c.marker hsize').walk hasc n
    rw [hsame] at hresumed
    exact ⟨c', hresumed⟩

/-- Three keys put into a container out of order are listed behind the first of them page by page
and from the marker on. With the greatest page size the program breaks off. -/
theorem walkM_startedAt_letters :
    ∃ keys : List String, (∀ key, key ∈ keys ↔
        ("c", key) ∈ [("c", "b"), ("c", "a"), ("c", "ab"), ("d", "e")] ∧
          "".toList <+: key.toList ∧ ∀ m ∈ some "a", m < key) ∧
      (∃ c, walkM (ofInserts [("c", "b"), ("c", "a"), ("c", "ab"), ("d", "e")]).page 3
        (startedAt "c" "" (some "a") 1) = .ok ((keys.take 3).map .ok, c)) ∧
      walkM (ofInserts [("c", "b"), ("c", "a"), ("c", "ab"), ("d", "e")]).page 3
        (startedAt "c" "" (some "a") (UInt64.size - 1)) = .error .overflow := by
  obtain ⟨keys, _, hmem, hwalk, hgreatest⟩ := walkM_startedAt
    [("c", "b"), ("c", "a"), ("c", "ab"), ("d", "e")] (show "c" ∈ _ from List.mem_cons_self) ""
    (some "a")
  obtain ⟨c, hlisted, -⟩ := hwalk 1 (by decide) 3
  exact ⟨keys, hmem, ⟨c, hlisted⟩, hgreatest (some "a") 2⟩

end KeyCursor

end Workflow
