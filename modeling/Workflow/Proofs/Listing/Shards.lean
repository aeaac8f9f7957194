import Workflow.Proofs.Listing.Drain

/-!
# Sharding a listing that may fail

A worker takes its shard of the items of a cursor, by their positions, and an error of the lister is
an item like any other. It has the position after the last key, so it belongs to exactly one worker.
That worker fails; all the others take what has been listed so far for the whole listing.

`allOk_shard_walk_eq_ok_iff` says when a worker gets its keys and which ones, for every lister. A
worker can rely on the result exactly if a failure, should there be one, falls into its own shard.
-/

namespace Workflow

universe u v

variable {α : Type u} {ε : Type v}

/-! ## Positions -/

/-- The items at the positions that leave the remainder `branch` when divided by `pool`. -/
def itemsAt (branch pool : Nat) (items : List α) : List α :=
  (items.zipIdx.filter fun x ↦ x.2 % pool = branch).map Prod.fst

theorem shardFrom_append (branch pool start : Nat) (xs ys : List α) :
    shardFrom branch pool start (xs ++ ys)
      = shardFrom branch pool start xs ++ shardFrom branch pool (start + xs.length) ys := by
  induction xs generalizing start with
  | nil => rfl
  | cons x xs ih =>
    have hlen : start + (x :: xs).length = start + 1 + xs.length := by
      rw [List.length_cons]
      omega
    rw [List.cons_append, shardFrom, shardFrom, ih, hlen]
    split <;> rfl

theorem shardFrom_map {β : Type v} (f : α → β) (branch pool start : Nat) (xs : List α) :
    shardFrom branch pool start (xs.map f) = (shardFrom branch pool start xs).map f := by
  induction xs generalizing start with
  | nil => rfl
  | cons x xs ih =>
    rw [List.map_cons, shardFrom, shardFrom, ih]
    split <;> rfl

theorem shardFrom_eq_filter {branch pool : Nat} (hpool : 0 < pool) (start : Nat) (xs : List α) :
    shardFrom branch pool start xs
      = ((xs.zipIdx start).filter fun x ↦ x.2 % pool = branch).map Prod.fst := by
  induction xs generalizing start with
  | nil => rfl
  | cons x xs ih =>
    rw [shardFrom, ih, List.zipIdx_cons]
    by_cases h : start % pool = branch
    · simp [hpool, h]
    · simp [h]

theorem shard_eq_itemsAt {branch pool : Nat} (hpool : 0 < pool) (items : List α) :
    shard branch pool items = itemsAt branch pool items :=
  shardFrom_eq_filter hpool 0 items

/-! ## Results -/

theorem allOk_map_ok_append (xs : List α) (rest : List (Except ε α)) :
    allOk (xs.map .ok ++ rest) = (allOk rest).map (xs ++ ·) := by
  induction xs with
  | nil =>
    rw [List.map_nil, List.nil_append]
    cases allOk rest <;> rfl
  | cons x xs ih =>
    rw [List.map_cons, List.cons_append, allOk, ih]
    cases allOk rest <;> rfl

/-- A worker gets its items unless there is an error behind them that is its own. -/
theorem allOk_shard_eq_ok_iff {branch pool : Nat} (hbranch : branch < pool) (xs keys : List α)
    (error? : Option ε) :
    allOk (shard branch pool (xs.map .ok ++ error?.toList.map .error)) = .ok keys ↔
      (error?.isSome = true → xs.length % pool ≠ branch) ∧ keys = itemsAt branch pool xs := by
  have hpool : 0 < pool := Nat.zero_lt_of_lt hbranch
  rw [← shard_eq_itemsAt hpool, shard, shardFrom_append, shardFrom_map, allOk_map_ok_append,
    List.length_map, Nat.zero_add]
  cases error? with
  | none =>
    simp only [Option.toList_none, List.map_nil, shardFrom, allOk, Except.map, List.append_nil,
      Except.ok.injEq]
    exact ⟨fun h ↦ ⟨by simp, h.symm⟩, fun h ↦ h.2.symm⟩
  | some e =>
    by_cases h : xs.length % pool = branch
    · simp [shardFrom, hpool, h, allOk, Except.map]
    · simp only [Option.toList_some, List.map_cons, List.map_nil, shardFrom, h, and_false,
        if_false, allOk, Except.map, List.append_nil, Except.ok.injEq]
      exact ⟨fun hkeys ↦ ⟨fun _ ↦ h, hkeys.symm⟩, fun hkeys ↦ hkeys.2.symm⟩

/-! ## Workers -/

/-- Some request of the record failed. -/
def Failed (exchanges : List Exchange) : Prop := ∃ x ∈ exchanges, ∃ e, x.2 = .error e

theorem failed_iff_isSome_servedError? {exchanges : List Exchange} :
    Failed exchanges ↔ (servedError? exchanges).isSome = true := by
  rw [Failed, ← Option.ne_none_iff_isSome, Ne, servedError?_eq_none_iff, Classical.not_forall]
  refine exists_congr fun x ↦ ?_
  rw [Classical.not_imp]
  refine and_congr_right fun _ ↦ ?_
  cases x.2 <;> simp

namespace KeyCursor

variable {σ : Type}

/-- A cursor at the beginning of a listing. -/
def opened (container stem : String) (size : Nat) : KeyCursor :=
  withPageSize { container, stem } size

/-- **When a worker gets its keys.** A cursor at the beginning of a listing is drained through the
shard of a worker, and `n` calls are enough to come to the end. The worker gets keys unless a
request failed after a number of keys that makes the error its own item, and the keys are those at
its positions among the keys listed. So its success tells that no request failed exactly if a
failure would be its own. -/
theorem allOk_shard_walk_eq_ok_iff (lister : KeyLister σ) (container stem : String) (size : Nat)
    (s : σ) {branch pool n : Nat} (hbranch : branch < pool)
    (hend : (walk lister n (opened container stem size) s).1.length < n) :
    (∀ keys, allOk (shard branch pool (walk lister n (opened container stem size) s).1) = .ok keys ↔
      (Failed (exchanges lister n (opened container stem size) s) →
        (servedKeys (exchanges lister n (opened container stem size) s)).length % pool ≠ branch) ∧
      keys = itemsAt branch pool
        (servedKeys (exchanges lister n (opened container stem size) s))) ∧
    ((∀ keys,
        allOk (shard branch pool (walk lister n (opened container stem size) s).1) = .ok keys →
        ¬Failed (exchanges lister n (opened container stem size) s)) ↔
      (Failed (exchanges lister n (opened container stem size) s) →
        (servedKeys (exchanges lister n (opened container stem size) s)).length % pool
          = branch)) := by
  have hdrains := drains_walk hend
  generalize exchanges lister n (opened container stem size) s = log at hdrains ⊢
  generalize (walk lister n (opened container stem size) s).1 = items at hdrains ⊢
  have hitems : items = (servedKeys log).map .ok ++ (servedError? log).toList.map .error :=
    hdrains.items_eq.1
  have hkeys : ∀ keys, allOk (shard branch pool items) = .ok keys ↔
      (Failed log → (servedKeys log).length % pool ≠ branch) ∧
        keys = itemsAt branch pool (servedKeys log) := by
    intro keys
    rw [hitems, failed_iff_isSome_servedError?]
    exact allOk_shard_eq_ok_iff hbranch _ keys _
  refine ⟨hkeys, fun h hfail ↦ ?_, fun h keys hok hfail ↦ ?_⟩
  · -- otherwise the worker would get its keys behind the failure
    refine Classical.byContradiction fun hne ↦ ?_
    exact h _ ((hkeys _).mpr ⟨fun _ ↦ hne, rfl⟩) hfail
  · exact ((hkeys keys).mp hok).1 hfail (h hfail)

/-- A store without containers (`walkM_page_empty`). -/
def barren : KeyLister Unit :=
  answering fun request ↦ .error (.notFound ("container " ++ request.container))

theorem walkM_page_empty (n : Nat) (c : KeyCursor) :
    walkM (MemoryStore.page {}) n c = .ok ((walk barren n c ()).1, (walk barren n c ()).2.1) :=
  walkM_eq_walk (fun _ _ ↦ rfl) n ()

/-- Of two workers on a container that is not there, the second takes it for an empty one. -/
theorem allOk_shard_walk_barren :
    allOk (shard 1 2 (walk barren 2 (opened "missing" "" 1000) ()).1) = .ok [] ∧
      Failed (exchanges barren 2 (opened "missing" "" 1000) ()) := by
  have hkeys := (allOk_shard_walk_eq_ok_iff barren "missing" "" 1000 () (show 1 < 2 by decide)
    (show (walk barren 2 (opened "missing" "" 1000) ()).1.length < 2 by decide)).1 []
  exact ⟨hkeys.mpr ⟨fun _ ↦ by decide, by rfl⟩, _, List.mem_singleton.mpr rfl, _, rfl⟩

end KeyCursor

end Workflow
