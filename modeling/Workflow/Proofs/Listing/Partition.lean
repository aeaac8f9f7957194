import Mathlib.Data.List.Nodup
import Mathlib.Data.List.Perm.Subperm
import Mathlib.Data.Nat.ModEq
import Workflow.Proofs.Listing.Complete
import Workflow.Proofs.Listing.Shards

/-!
# Workers share a listing out

Every worker walks through the listing by itself, with a page size of its own, and keeps the items
at its positions. That no key is copied twice or left out is seen by no single worker. It holds
because all of them walk through the same keys in the same order (`OnCourse.walk`), and because what
worker `b` of `n` has at place `i` stands in the listing at place `b + i * n` (`getElem?_shard`).
Disjointness, lengths and the way back to the whole listing are read off this place.

A worker with the greatest page size gets no share at all, not even an empty one: the program breaks
off when its cursor asks for the first page.
-/

namespace Workflow

universe u

variable {α : Type u}

/-! ## The place of an item -/

/-- When the next item of the worker is `ahead` places ahead, the others follow it at distance
`pool`. -/
theorem getElem?_shardFrom {branch pool : Nat} (xs : List α) {start ahead : Nat}
    (hahead : ahead < pool) (hnext : (start + ahead) % pool = branch) (i : Nat) :
    (shardFrom branch pool start xs)[i]? = xs[ahead + i * pool]? := by
  have hpool : 0 < pool := Nat.zero_lt_of_lt hahead
  induction xs generalizing start ahead i with
  | nil => rfl
  | cons x xs ih =>
    rw [shardFrom]
    cases ahead with
    | zero =>
      rw [if_pos ⟨hpool, hnext⟩]
      cases i with
      | zero => rw [Nat.zero_mul, List.getElem?_cons_zero, List.getElem?_cons_zero]
      | succ i =>
        -- the item after this one is a whole round ahead
        have hround : (start + 1 + (pool - 1)) % pool = branch := by
          rw [Nat.add_assoc, Nat.add_sub_cancel' hpool, Nat.add_mod_right]
          exact hnext
        have hplace : 0 + (i + 1) * pool = pool - 1 + i * pool + 1 := by
          rw [Nat.add_one_mul]
          omega
        rw [hplace, List.getElem?_cons_succ, List.getElem?_cons_succ]
        exact ih (Nat.sub_lt hpool Nat.one_pos) hround i
    | succ ahead =>
      have hother : start % pool ≠ branch := by
        intro hstart
        have hzero : ahead + 1 ≡ 0 [MOD pool] :=
          Nat.ModEq.add_left_cancel' start (hnext.trans hstart.symm)
        rw [Nat.ModEq, Nat.mod_eq_of_lt hahead, Nat.zero_mod] at hzero
        exact Nat.succ_ne_zero ahead hzero
      have hplace : ahead + 1 + i * pool = ahead + i * pool + 1 := Nat.add_right_comm _ _ _
      rw [if_neg fun h ↦ hother h.2, hplace, List.getElem?_cons_succ]
      refine ih (Nat.lt_of_succ_lt hahead) ?_ i
      rw [Nat.add_assoc, Nat.add_comm 1]
      exact hnext

/-- **The place of an item.** What a worker has at place `i` stands in the whole list behind `i`
rounds, at the place of the worker in the next one. -/
theorem getElem?_shard {branch pool : Nat} (hbranch : branch < pool) (xs : List α) (i : Nat) :
    (shard branch pool xs)[i]? = xs[branch + i * pool]? := by
  refine getElem?_shardFrom xs hbranch ?_ i
  rw [Nat.zero_add, Nat.mod_eq_of_lt hbranch]

/-! ## Shards of a list -/

theorem shardFrom_of_le {branch pool : Nat} (h : pool ≤ branch) (start : Nat) (xs : List α) :
    shardFrom branch pool start xs = [] := by
  induction xs generalizing start with
  | nil => rfl
  | cons x xs ih =>
    have hother : ¬(0 < pool ∧ start % pool = branch) := by
      rintro ⟨hpool, hstart⟩
      have hlt : start % pool < pool := Nat.mod_lt start hpool
      omega
    rw [shardFrom, if_neg hother]
    exact ih (start + 1)

/-- There is nothing for a worker that is not in the pool. -/
theorem shard_of_le {branch pool : Nat} (h : pool ≤ branch) (xs : List α) :
    shard branch pool xs = [] := shardFrom_of_le h 0 xs

theorem shardFrom_sublist (branch pool start : Nat) (xs : List α) :
    (shardFrom branch pool start xs).Sublist xs := by
  induction xs generalizing start with
  | nil => exact .slnil
  | cons x xs ih =>
    rw [shardFrom]
    split
    · exact (ih (start + 1)).cons_cons x
    · exact (ih (start + 1)).cons x

theorem shard_sublist (branch pool : Nat) (xs : List α) : (shard branch pool xs).Sublist xs :=
  shardFrom_sublist branch pool 0 xs

/-- Two workers have nothing in common if no item is in the list twice. -/
theorem disjoint_shard {pool b b' : Nat} (hb : b < pool) (hb' : b' < pool) (hne : b ≠ b')
    {xs : List α} (hxs : xs.Nodup) : (shard b pool xs).Disjoint (shard b' pool xs) := by
  intro x hx hx'
  obtain ⟨i, hi⟩ := List.mem_iff_getElem?.mp hx
  obtain ⟨j, hj⟩ := List.mem_iff_getElem?.mp hx'
  rw [getElem?_shard hb] at hi
  rw [getElem?_shard hb'] at hj
  have hplace : b + i * pool = b' + j * pool := by
    obtain ⟨hlt, -⟩ := List.getElem?_eq_some_iff.mp hi
    exact (List.getElem?_inj hlt hxs).mp (hi.trans hj.symm)
  -- the two places are at the same distance behind their rounds
  have hmod := congrArg (· % pool) hplace
  simp only [Nat.add_mul_mod_self_right, Nat.mod_eq_of_lt hb, Nat.mod_eq_of_lt hb'] at hmod
  exact hne hmod

/-- No worker has two items more than another one. -/
theorem length_shard_le {pool b b' : Nat} (hb : b < pool) (hb' : b' < pool) (xs : List α) :
    (shard b pool xs).length ≤ (shard b' pool xs).length + 1 := by
  -- where the second worker has nothing any more, the first has nothing one round later
  have hend : xs.length ≤ b' + (shard b' pool xs).length * pool := by
    rw [← List.getElem?_eq_none_iff, ← getElem?_shard hb', List.getElem?_eq_none_iff]
  rw [← List.getElem?_eq_none_iff, getElem?_shard hb, List.getElem?_eq_none_iff, Nat.add_one_mul]
  omega

/-! ## Taking items in turn -/

/-- The greatest length of some lists. -/
def longest (lists : List (List α)) : Nat := lists.foldr (fun l n ↦ max l.length n) 0

/-- One item of each list in turn, as long as there are any: first the first items of all lists,
then the second ones of those that have any, and so on. -/
def inTurns (lists : List (List α)) : List α :=
  (List.range (longest lists)).flatMap fun i ↦ lists.filterMap fun l ↦ l[i]?

theorem length_le_longest {l : List α} {lists : List (List α)} (h : l ∈ lists) :
    l.length ≤ longest lists := by
  induction lists with
  | nil => cases h
  | cons first lists ih =>
    rw [longest, List.foldr_cons]
    rcases List.mem_cons.mp h with rfl | h
    · exact Nat.le_max_left _ _
    · exact (ih h).trans (Nat.le_max_right _ _)

/-- Reading one place after the other gives the items that are there. -/
theorem filterMap_getElem?_range (xs : List α) (start n : Nat) :
    (List.range n).filterMap (fun b ↦ xs[b + start]?) = (xs.drop start).take n := by
  induction n with
  | zero => rw [List.range_zero, List.filterMap_nil, List.take_zero]
  | succ n ih =>
    have hlast : [n].filterMap (fun b ↦ xs[b + start]?) = (xs.drop start)[n]?.toList := by
      rw [List.getElem?_drop, Nat.add_comm start, List.filterMap_cons]
      cases xs[n + start]? <;> rfl
    rw [List.range_succ, List.filterMap_append, ih, List.take_add_one, hlast]

/-- Some rounds of equal length are the front of the list. -/
theorem flatMap_rounds (xs : List α) (pool n : Nat) :
    (List.range n).flatMap (fun i ↦ (xs.drop (i * pool)).take pool) = xs.take (n * pool) := by
  induction n with
  | zero => rw [List.range_zero, List.flatMap_nil, Nat.zero_mul, List.take_zero]
  | succ n ih =>
    rw [List.range_succ, List.flatMap_append, ih, List.flatMap_singleton, Nat.add_one_mul,
      List.take_add]

/-- **What is dealt out in turn is taken back in turn.** -/
theorem inTurns_shards {pool : Nat} (hpool : 0 < pool) (xs : List α) :
    inTurns ((List.range pool).map fun b ↦ shard b pool xs) = xs := by
  have hround (i : Nat) :
      ((List.range pool).map fun b ↦ shard b pool xs).filterMap (fun l ↦ l[i]?)
        = (xs.drop (i * pool)).take pool := by
    rw [List.filterMap_map, ← filterMap_getElem?_range]
    exact List.filterMap_congr fun b hb ↦ getElem?_shard (List.mem_range.mp hb) xs i
  have hfirst : shard 0 pool xs ∈ (List.range pool).map fun b ↦ shard b pool xs :=
    List.mem_map_of_mem (List.mem_range.mpr hpool)
  have hlength := length_le_longest hfirst
  rw [inTurns]
  generalize longest _ = rounds at hlength
  -- the first worker has nothing left after all rounds, and so has the list
  have hall : xs.length ≤ rounds * pool := by
    rw [← List.getElem?_eq_none_iff, getElem?_shard hpool, List.getElem?_eq_none_iff] at hlength
    rwa [Nat.zero_add] at hlength
  calc (List.range rounds).flatMap (fun i ↦ List.filterMap (fun l ↦ l[i]?) _)
      = (List.range rounds).flatMap (fun i ↦ (xs.drop (i * pool)).take pool) :=
        congrArg (List.flatMap · _) (funext hround)
    _ = xs.take (rounds * pool) := flatMap_rounds xs pool rounds
    _ = xs := List.take_of_length_le hall

namespace KeyCursor

open MemoryStore

/-! ## Workers on one container -/

/-- What worker `branch` of `pool` keeps of the items of `n` calls, from the beginning of the
container on. -/
def kept (m : MemoryStore) (container stem : String) (size n branch pool : Nat) :
    Except Crash (List (Except TaskError String)) :=
  (walkM m.page n (opened container stem size)).map fun x ↦ shard branch pool x.1

theorem opened_eq_startedAt (container stem : String) (size : Nat) :
    opened container stem size = startedAt container stem none size := rfl

theorem kept_eq {m : MemoryStore} {container : String} {keys : List String}
    (hfind : Entries.find? container m.containers = some keys) (hkeys : keys.Pairwise (· < ·))
    (stem : String) {size : Nat} (hsize : size + 1 < UInt64.size) (n branch pool : Nat) :
    kept m container stem size n branch pool
      = .ok (shard branch pool (((listed stem none keys).take n).map .ok)) := by
  obtain ⟨c, hwalk, -⟩ := (onCourse_startedAt hfind stem none hsize).walk hkeys n
  rw [kept, opened_eq_startedAt, hwalk]
  rfl

theorem kept_greatest {m : MemoryStore} {container : String} {keys : List String}
    (hfind : Entries.find? container m.containers = some keys) (stem : String)
    (n branch pool : Nat) :
    kept m container stem (UInt64.size - 1) (n + 1) branch pool = .error .overflow := by
  rw [kept, opened_eq_startedAt, walkM_greatest hfind]
  rfl

/-- **Workers share a listing out**, whatever their page sizes are, if none is the greatest one. In
`n` calls, as many as there are keys or more, every worker of a pool gets a share of the listing, in
the order of the listing and without an error. No two shares have a key in common, taking the shares
in turn gives back the whole listing, and none of them has two items more than another. A worker
that is not in the pool gets nothing. With the greatest page size there is no share: the program
breaks off at the first call. -/
theorem kept_partition (inserts : List (String × String)) {container : String}
    (hcontainer : container ∈ inserts.map Prod.fst) (stem : String) :
    ∃ keys : List String, keys.Pairwise (· < ·) ∧
      (∀ key, key ∈ keys ↔ (container, key) ∈ inserts ∧ stem.toList <+: key.toList) ∧
      (∀ (pool : Nat) (sizes : Nat → Nat) (n : Nat), (∀ b < pool, sizes b + 1 < UInt64.size) →
        keys.length ≤ n →
        ∃ share : Nat → List (Except TaskError String),
          (∀ b < pool, kept (ofInserts inserts) container stem (sizes b) n b pool
            = .ok (share b)) ∧
          (∀ b < pool, ∀ b' < pool, b ≠ b' → (share b).Disjoint (share b')) ∧
          (∀ b < pool, (share b).Sublist (keys.map .ok)) ∧
          (0 < pool → inTurns ((List.range pool).map share) = keys.map .ok) ∧
          ∀ b < pool, ∀ b' < pool, (share b).length ≤ (share b').length + 1) ∧
      (∀ size, size + 1 < UInt64.size → ∀ n b pool, pool ≤ b →
        kept (ofInserts inserts) container stem size n b pool = .ok []) ∧
      ∀ n b pool, kept (ofInserts inserts) container stem (UInt64.size - 1) (n + 1) b pool
        = .error .overflow := by
  obtain ⟨hasc, hmem⟩ := keysOf_ofInserts inserts container
  have hfind := find?_ofInserts hcontainer
  generalize (ofInserts inserts).keysOf container = keys at hasc hmem hfind
  have hlisted : (listed stem none keys).Pairwise (· < ·) := hasc.filter _
  have hnodup : ((listed stem none keys).map (.ok : String → Except TaskError String)).Nodup :=
    List.Nodup.map (fun _ _ ↦ Except.ok.inj) (hlisted.imp String.ne_of_lt)
  refine ⟨listed stem none keys, hlisted, fun key ↦ ?_, fun pool sizes n hsizes hn ↦ ?_,
    fun size hsize n b pool hb ↦ ?_, fun n b pool ↦ kept_greatest hfind stem n b pool⟩
  · rw [mem_listed, hmem]
    simp
  · refine ⟨fun b ↦ shard b pool ((listed stem none keys).map .ok), fun b hb ↦ ?_,
      fun b hb b' hb' hne ↦ disjoint_shard hb hb' hne hnodup, fun b _ ↦ shard_sublist b pool _,
      fun hpool ↦ inTurns_shards hpool _, fun b hb b' hb' ↦ length_shard_le hb hb' _⟩
    rw [kept_eq hfind hasc stem (hsizes b hb), List.take_of_length_le hn]
  · rw [kept_eq hfind hasc stem hsize, shard_of_le hb]

/-- Three keys are shared out between two workers with pages of one key and of two. With the
greatest page size the second worker breaks off. -/
theorem kept_partition_letters :
    ∃ keys : List String, (∀ key, key ∈ keys ↔
        ("c", key) ∈ [("c", "b"), ("c", "a"), ("c", "ab"), ("d", "e")] ∧
          "".toList <+: key.toList) ∧
      keys.length ≤ 4 ∧
      (∃ share : Nat → List (Except TaskError String),
        (∀ b < 2, kept (ofInserts [("c", "b"), ("c", "a"), ("c", "ab"), ("d", "e")]) "c" "" (b + 1)
          4 b 2 = .ok (share b)) ∧
        inTurns ((List.range 2).map share) = keys.map .ok) ∧
      kept (ofInserts [("c", "b"), ("c", "a"), ("c", "ab"), ("d", "e")]) "c" "" 2 4 1 2
        = .ok [.ok "ab"] ∧
      kept (ofInserts [("c", "b"), ("c", "a"), ("c", "ab"), ("d", "e")]) "c" ""
        (UInt64.size - 1) 4 1 2 = .error .overflow := by
  obtain ⟨keys, hasc, hmem, hshares, -, hgreatest⟩ := kept_partition
    [("c", "b"), ("c", "a"), ("c", "ab"), ("d", "e")] (show "c" ∈ _ from List.mem_cons_self) ""
  have hlength : keys.length ≤ 4 := by
    have hsubset : keys ⊆ ["b", "a", "ab"] := fun key hkey ↦ by
      simpa using ((hmem key).mp hkey).1
    have hnodup : keys.Nodup := hasc.imp String.ne_of_lt
    exact (List.subperm_of_subset hnodup hsubset).length_le.trans (by decide)
  obtain ⟨share, hkept, -, -, hturns, -⟩ := hshares 2 (· + 1) 4 (by decide) hlength
  exact ⟨keys, hmem, hlength, ⟨share, hkept, hturns (by decide)⟩, by rfl, hgreatest 3 1 2⟩

end KeyCursor

end Workflow
