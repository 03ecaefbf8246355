/-
# The memory check of the scheduler

`self_check_during_busy` (`scheduler_runtime_checker_mixin.py`) for one pool and no
sessions: what is free, evictable and protected and what the batches hold behind their cached prefixes
make up the pool.
-/
import Sglang.Lib.OptionLoops
import Sglang.MemCache.AllocatorRuns
import Sglang.MemCache.Conservation

namespace Sglang

open Lib List Finset

/-! ## 1. The check -/

/-- `ceil_align`. -/
def ceilAlign (x y : ℕ) : ℕ := (x + y - 1) / y * y

/-- What a request adds in `_get_total_uncached_sizes`; `none` when an assertion fails. -/
def Req.uncachedSize (pageSize : ℕ) (req : Req) : Option ℤ :=
  if req.kvCommittedFreed ≠ req.kvOverallocatedFreed then none
  else if req.kvCommittedFreed ∨ req.reqPoolIdx = none then some 0
  else if pageSize > 1 then
    if req.cacheProtectedLen % pageSize = 0 then
      some (ceilAlign req.kvAllocatedLen pageSize - req.cacheProtectedLen)
    else none
  else some (req.kvAllocatedLen - req.cacheProtectedLen)

/-- `_check_pool_invariant`: whether there is a leak, and the message. -/
def checkPoolInvariant (poolName : String) (available evictable guarded held total uncached : ℤ) :
    Bool × String :=
  let totalAccounted := available + evictable + guarded + held + uncached
  (totalAccounted ≠ total, s!"[{poolName}] total={total}, available={available}, " ++
    s!"evictable={evictable}, protected={guarded}, session_held={held}, uncached={uncached}")

namespace KVSystem

open RadixCache

/-- `_get_total_uncached_sizes`, the full pool. -/
def getTotalUncachedSizes (pageSize : ℕ) (S : KVSystem) (reqs : List ReqId) : Option ℤ :=
  (reqs.mapM fun r => (S.reqs r).uncachedSize pageSize).map List.sum

/-- `_check_full_pool`; the allocator has `max_total_num_tokens` slots. -/
def checkFullPool (S : KVSystem) (uncached : ℤ) : Bool × String :=
  checkPoolInvariant "full" S.allocator.availableSize S.cache.evictableSize S.cache.protectedSize 0
    S.allocator.size uncached

/-- `self_check_during_busy` with the requests of the last batch and of the running batch, if that is
another one; `none` when an assertion fails. -/
def selfCheckDuringBusy (pageSize : ℕ) (S : KVSystem) (reqs : List ReqId) : Option Unit := do
  let uncached ← S.getTotalUncachedSizes pageSize reqs
  guard ((S.checkFullPool uncached).1 = false)

/-! ## 2. What it adds up to -/

variable {cfg : CacheConfig} {args : ServerArgs} {t : RootedTree NodeId} {holders reqs : List ReqId}
  {S : KVSystem} {r : ReqId} {idx : ℕ}

/-- How many pages a request owns. -/
def owned (cfg : CacheConfig) (S : KVSystem) (r : ReqId) : ℕ :=
  (rowPages cfg S.pool (S.reqs r)).card

namespace Books

variable (hb : Books cfg args t holders S)

include hb

/-- A request with a row owns the pages behind its cached prefix. -/
theorem owned_eq (hidx : (S.reqs r).reqPoolIdx = some idx) : r ∈ holders ∧ ∃ n,
    (S.reqs r).kvAllocatedLen = (S.reqs r).cacheProtectedLen + n ∧
      S.owned cfg r = pageCount cfg.pageSize n := by
  have hr : r ∈ holders := by
    by_contra hr
    cases (hb.no_row r hr).symm.trans hidx
  have hh := hb.holds r hr
  obtain ⟨n, hn⟩ := Nat.exists_eq_add_of_le (hh.keep_le.trans (hh.running idx hidx).pre_le)
  exact ⟨hr, n, hn, by simp [owned, rowPages, hidx, ReqToTokenPool.row, hn]⟩

theorem owned_eq_zero (hr : r ∉ holders) : S.owned cfg r = 0 := by
  rw [owned, rowPages, hb.no_row r hr]
  rfl

/-- What a request adds are the slots of its pages. -/
theorem uncachedSize_eq (hrow : (S.reqs r).reqPoolIdx = none →
      (S.reqs r).kvCommittedFreed = (S.reqs r).kvOverallocatedFreed) :
    (S.reqs r).uncachedSize cfg.pageSize = some ((S.owned cfg r * cfg.pageSize : ℕ) : ℤ) := by
  cases hidx : (S.reqs r).reqPoolIdx with
  | none => simp [Req.uncachedSize, owned, rowPages, hidx, hrow hidx]
  | some idx =>
    obtain ⟨hr, n, hn, hown⟩ := hb.owned_eq hidx
    obtain ⟨j, hj⟩ := (hb.holds r hr).aligned
    have halign : ceilAlign (cfg.pageSize * j + n) cfg.pageSize
        = (j + pageCount cfg.pageSize n) * cfg.pageSize := by
      rw [← pageCount_mul_add cfg.pageSize_pos]
      rfl
    rw [hown, Req.uncachedSize, ((hb.holders_iff r).mp hr).2, (hb.holds r hr).not_freed, hidx, hn, hj,
      halign, Nat.mul_mod_right, if_neg (by simp), if_neg (by simp)]
    split
    · rw [if_pos rfl]
      push_cast
      congr 1
      ring
    · rw [show cfg.pageSize = 1 from le_antisymm (not_lt.mp ‹_›) cfg.pageSize_pos, pageCount_one]
      simp

theorem tree_size : S.cache.evictableSize + S.cache.protectedSize
    = ((treePages cfg.pageSize t S.cache).card * cfg.pageSize : ℕ) := by
  rw [hb.inv.sizes.evictableSize, hb.inv.sizes.protectedSize, treePages]
  simp only [RootedTree.total, ← sum_add_distrib, Multiset.card_sum, sum_mul, Nat.cast_sum]
  refine sum_congr rfl fun n hn => ?_
  obtain ⟨hr, hn⟩ := mem_erase.mp hn
  obtain ⟨value, hv, hlen⟩ := hb.inv.filled n hn hr
  obtain ⟨j, hj⟩ := hb.inv.toBase.dvd_slots hn hr
  have hslots : S.cache.slots n = value := by rw [RadixCache.slots, hv]; rfl
  have hnonneg := hb.inv.sizes.lockRef_nonneg n hn
  rw [Multiset.coe_card, length_heads, hj, pageCount_mul cfg.pageSize_pos, Nat.mul_comm, ← hj, hslots, hlen,
    unlockedLen, lockedLen]
  split <;> split <;> omega

theorem accounted (hsize : cfg.pageSize ∣ S.allocator.size) :
    (S.allocator.availableSize : ℤ) + (S.cache.evictableSize + S.cache.protectedSize)
      + ((∑ r ∈ holders.toFinset, S.owned cfg r) * cfg.pageSize : ℕ) = S.allocator.size := by
  have hcard := congrArg Multiset.card hb.ledger
  rw [Multiset.card_add, Multiset.card_add, ← sum_toFinset _ hb.nodup, Multiset.card_sum, Finset.card_val,
    Nat.card_Icc, Nat.add_sub_cancel, KVAllocator.numPages, hb.pageSize] at hcard
  rw [hb.tree_size, KVAllocator.availableSize_eq_card, hb.pageSize, ← Nat.div_mul_cancel hsize, ← hcard]
  simp only [owned]
  push_cast
  ring

/-- The check asks whether the requests that are left out own a page. -/
theorem selfCheck_iff (hsize : cfg.pageSize ∣ S.allocator.size) (hnd : reqs.Nodup)
    (hrow : ∀ r ∈ reqs, (S.reqs r).reqPoolIdx = none →
      (S.reqs r).kvCommittedFreed = (S.reqs r).kvOverallocatedFreed) :
    S.selfCheckDuringBusy cfg.pageSize reqs = some () ↔ ∀ r ∉ reqs, S.owned cfg r = 0 := by
  have hadds : S.getTotalUncachedSizes cfg.pageSize reqs
      = some (((∑ r ∈ reqs.toFinset, S.owned cfg r) * cfg.pageSize : ℕ) : ℤ) := by
    rw [getTotalUncachedSizes, mapM_eq_map (g := fun r => ((S.owned cfg r * cfg.pageSize : ℕ) : ℤ)),
      Option.map_some, ← sum_toFinset _ hnd, sum_mul, Nat.cast_sum]
    exact fun r hr => hb.uncachedSize_eq (hrow r hr)
  have hacc := hb.accounted hsize
  rw [sum_subset (subset_union_left : _ ⊆ _ ∪ reqs.toFinset) fun r _ hr =>
      hb.owned_eq_zero fun hin => hr (mem_toFinset.mpr hin),
    ← sum_sdiff subset_union_right, union_sdiff_right, add_mul, Nat.cast_add] at hacc
  have hfull : (S.checkFullPool ((∑ r ∈ reqs.toFinset, S.owned cfg r) * cfg.pageSize : ℕ)).1 = false
      ↔ (∑ r ∈ holders.toFinset \ reqs.toFinset, S.owned cfg r) * cfg.pageSize = 0 := by
    rw [checkFullPool, checkPoolInvariant, decide_eq_false_iff_not, not_not]
    omega
  have hleak : S.selfCheckDuringBusy cfg.pageSize reqs = some ()
      ↔ (∑ r ∈ holders.toFinset \ reqs.toFinset, S.owned cfg r) * cfg.pageSize = 0 := by
    rw [← hfull, selfCheckDuringBusy, hadds, Option.bind_eq_bind, Option.bind_some, guard]
    split <;> simp_all
  rw [hleak, Nat.mul_eq_zero, or_iff_left cfg.pageSize_pos.ne', Finset.sum_eq_zero_iff]
  refine ⟨fun h r hr => ?_, fun h r hr => h r (by simpa using (mem_sdiff.mp hr).2)⟩
  by_cases hin : r ∈ holders
  · exact h r (by simp [hin, hr])
  · exact hb.owned_eq_zero hin

theorem owned_eq_zero_iff : S.owned cfg r = 0 ↔ ((S.reqs r).reqPoolIdx ≠ none →
    (S.reqs r).kvAllocatedLen = (S.reqs r).cacheProtectedLen) := by
  cases hidx : (S.reqs r).reqPoolIdx with
  | none => simp [owned, rowPages, hidx]
  | some idx =>
    obtain ⟨-, n, hn, hown⟩ := hb.owned_eq hidx
    have hzero := pageCount_le_iff (n := n) (j := 0) cfg.pageSize_pos
    rw [hown, hn]
    simp only [ne_eq, reduceCtorEq, not_false_eq_true, true_imp_iff]
    omega

end Books

/-- **The memory check is exact** in every state of a run: it passes if and only if every request with a
row that is in none of the batches has no slot behind its cached prefix. -/
theorem memoryCheck_iff (h : Run cfg args (StripSafe cfg args) S)
    (hsize : cfg.pageSize ∣ S.allocator.size) (hnd : reqs.Nodup)
    (hrow : ∀ r ∈ reqs, (S.reqs r).reqPoolIdx = none →
      (S.reqs r).kvCommittedFreed = (S.reqs r).kvOverallocatedFreed) :
    S.selfCheckDuringBusy cfg.pageSize reqs = some () ↔ ∀ r ∉ reqs, (S.reqs r).reqPoolIdx ≠ none →
      (S.reqs r).kvAllocatedLen = (S.reqs r).cacheProtectedLen := by
  obtain ⟨t, holders, hb⟩ := h.books
  simp only [hb.selfCheck_iff hsize hnd hrow, hb.owned_eq_zero_iff]

/-- The theorem after the second prefill of a small run. -/
theorem memoryCheck_stashed : stashed.selfCheckDuringBusy 2 [0] = some () ∧
    ∀ r ∉ [0], (stashed.reqs r).reqPoolIdx ≠ none →
      (stashed.reqs r).kvAllocatedLen = (stashed.reqs r).cacheProtectedLen := by
  have hpass : stashed.selfCheckDuringBusy 2 [0] = some () := by decide +kernel
  have hrun : Run (smallConfig false) stripArgs (StripSafe (smallConfig false) stripArgs) stashed :=
    run_stashed fun _ _ => by decide +kernel
  exact ⟨hpass, (memoryCheck_iff hrun (by decide +kernel) (by decide) (by decide +kernel)).mp hpass⟩

end KVSystem

end Sglang
