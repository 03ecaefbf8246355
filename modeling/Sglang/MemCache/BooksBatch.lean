/-
# The books through a batch

A batch of requests takes pages from the front of the free list: a prefill behind the cached prefix
of each request, a decode or a speculative decode behind the row that is there.  `Books.grow` is
the one argument for all three; what differs is how a request comes to its row (`allocReqSlots`)
and which part of it is there already (`Grown`).
-/
import Sglang.MemCache.BooksSteps

namespace Sglang

open Lib PagedTokenToKVPoolAllocator List Option Function ReqToTokenPool

namespace KVSystem

open RadixCache

variable {cfg : CacheConfig} {args : ServerArgs} {t : RootedTree NodeId}
  {holders : List ReqId} {S S' S₁ : KVSystem} {r : ReqId}

/-! ## 1. Rows for requests that have none -/

/-- No row is used twice, nor used and free. -/
structure RowsOk (slots : List ℕ) (reqs : ReqId → Req) : Prop where
  inj : ∀ r r' idx, (reqs r).reqPoolIdx = some idx → (reqs r').reqPoolIdx = some idx → r = r'
  nodup : slots.Nodup
  free : ∀ idx ∈ slots, ∀ r, (reqs r).reqPoolIdx ≠ some idx

theorem Books.rowsOk (hb : Books cfg args t holders S) : RowsOk S.pool.freeSlots S.reqs :=
  ⟨hb.rows_inj, hb.slots_nodup, hb.slots_free⟩

/-- One request takes the first free row. -/
theorem RowsOk.assign {idx : ℕ} {slots : List ℕ} {reqs : ReqId → Req}
    (h : RowsOk (idx :: slots) reqs) (r : ReqId) :
    RowsOk slots (Function.update reqs r { reqs r with reqPoolIdx := some idx }) := by
  have hnd := nodup_cons.mp h.nodup
  have key : ∀ x i, (Function.update reqs r { reqs r with reqPoolIdx := some idx } x).reqPoolIdx
      = some i → x = r ∧ i = idx ∨ x ≠ r ∧ (reqs x).reqPoolIdx = some i := by
    intro x i hx
    by_cases hxr : x = r
    · subst hxr
      rw [update_self] at hx
      exact .inl ⟨rfl, (Option.some.inj hx).symm⟩
    · rw [update_of_ne hxr] at hx
      exact .inr ⟨hxr, hx⟩
  refine ⟨fun x y i hx hy => ?_, hnd.2, fun i hi x hx => ?_⟩
  · rcases key x i hx with ⟨h1, h2⟩ | ⟨h1, h2⟩ <;> rcases key y i hy with ⟨h3, h4⟩ | ⟨h3, h4⟩
    · rw [h1, h3]
    · rw [h2] at h4
      exact absurd h4 (h.free idx mem_cons_self y)
    · rw [h4] at h2
      exact absurd h2 (h.free idx mem_cons_self x)
    · exact h.inj x y i h2 h4
  · rcases key x i hx with ⟨-, rfl⟩ | ⟨-, h2⟩
    · exact hnd.1 hi
    · exact h.free i (mem_cons_of_mem _ hi) x h2

/-- The requests of a list take the first rows, in order. -/
theorem RowsOk.assignAll : ∀ (fresh : List ReqId) (slots : List ℕ) (reqs : ReqId → Req),
    RowsOk slots reqs → fresh.Nodup → fresh.length ≤ slots.length →
    ∀ reqs', (fresh.zip slots).foldl (fun reqs a => Function.update reqs a.1
      { reqs a.1 with reqPoolIdx := some a.2 }) reqs = reqs' →
    RowsOk (slots.drop fresh.length) reqs' ∧ (∀ x ∉ fresh, reqs' x = reqs x) ∧
      ∀ r ∈ fresh, ∃ idx, reqs' r = { reqs r with reqPoolIdx := some idx }
  | [], _, _, h, _, _, _, rfl => ⟨h, fun _ _ => rfl, nofun⟩
  | r :: fresh, [], _, _, _, hlen, _, _ => absurd hlen (by simp)
  | r :: fresh, idx :: slots, reqs, h, hnd, hlen, reqs', heq => by
    rw [nodup_cons] at hnd
    obtain ⟨h1, h2, h3⟩ := RowsOk.assignAll fresh slots _ (h.assign r) hnd.2
      (Nat.le_of_succ_le_succ hlen) reqs' heq
    refine ⟨h1, fun x hx => ?_, fun x hx => ?_⟩
    · rw [mem_cons, not_or] at hx
      rw [h2 x hx.2, update_of_ne hx.1]
    · rcases mem_cons.mp hx with rfl | hx
      · exact ⟨idx, by rw [h2 x hnd.1, update_self]⟩
      · obtain ⟨i, hi⟩ := h3 x hx
        have hne : x ≠ r := fun e => hnd.1 (e ▸ hx)
        exact ⟨i, by rw [hi, update_of_ne hne]⟩

/-- What `ReqToTokenPool.alloc` does to a batch. -/
structure Assigns (S : KVSystem) (reqs : List ReqId) (S₁ : KVSystem) : Prop where
  cache : S₁.cache = S.cache
  allocator : S₁.allocator = S.allocator
  rows : S₁.pool.reqToToken = S.pool.reqToToken
  rowsOk : RowsOk S₁.pool.freeSlots S₁.reqs
  other : ∀ x ∉ reqs, S₁.reqs x = S.reqs x
  mem : ∀ r ∈ reqs, ∃ idx, S₁.reqs r = { S.reqs r with reqPoolIdx := some idx }

theorem allocReqSlots_assigns {reqs : List ReqId} (h : S.allocReqSlots reqs = some S₁)
    (hnd : reqs.Nodup) (hrows : RowsOk S.pool.freeSlots S.reqs) : Assigns S reqs S₁ := by
  unfold allocReqSlots at h
  simp only at h
  split at h
  · split at h
    · cases h
    · rename_i hlen
      cases h
      obtain ⟨h1, h2, h3⟩ := RowsOk.assignAll (reqs.filter fun r => (S.reqs r).reqPoolIdx.isNone)
        S.pool.freeSlots S.reqs hrows (hnd.filter _) (Nat.not_lt.mp hlen) _ rfl
      have hold : ∀ r idx, (S.reqs r).reqPoolIdx = some idx →
          r ∉ reqs.filter fun r => (S.reqs r).reqPoolIdx.isNone := by
        intro r idx hidx hr
        simp [hidx] at hr
      refine ⟨rfl, rfl, rfl, h1, fun x hx => h2 x fun hx' => hx (mem_of_mem_filter hx'), fun r hr => ?_⟩
      cases hidx : (S.reqs r).reqPoolIdx with
      | none => exact h3 r (mem_filter.mpr ⟨hr, by rw [hidx]; rfl⟩)
      | some idx =>
        refine ⟨idx, (h2 r (hold r idx hidx)).trans ?_⟩
        rw [← hidx]
  · cases h

/-! ## 2. One argument for all batches -/

/-- What a batch does to the record of one of its requests, and what the span `s` it writes has to
do with it: the row so far is the part that is the request's and the tree's, and the new lengths
fit. -/
structure Grown (cfg : CacheConfig) (args : ServerArgs) (P : ReqToTokenPool) (req req' : Req)
    (s : RowSpan) : Prop where
  path : req'.path cfg = req.path cfg
  tokenIds : req'.tokenIds = req.tokenIds
  key : req'.radixKey cfg = req.radixKey cfg
  lastNode : req'.lastNode = req.lastNode
  prefixIndices : req'.prefixIndices = req.prefixIndices
  cacheProtectedLen : req'.cacheProtectedLen = req.cacheProtectedLen
  committedFreed : req'.kvCommittedFreed = req.kvCommittedFreed
  overallocatedFreed : req'.kvOverallocatedFreed = req.kvOverallocatedFreed
  idx : req'.reqPoolIdx = some s.idx
  ok : s.Ok cfg.pageSize
  keep : s.keep = req.cacheProtectedLen
  owned : rowPages cfg P req = heads cfg.pageSize (s.pre.drop s.keep)
  pre : req.prefixIndices <+: s.pre
  allocated : req'.kvAllocatedLen = s.pre.length + s.ext
  fill : req'.fillIds <+: req'.tokenIds
  keep_le : req'.cacheProtectedLen ≤ (req'.radixKey cfg req'.fillIds).len
  fill_le : req'.fillIds.length ≤ req'.kvCommittedLen
  committed_le : req'.kvCommittedLen ≤ req'.kvAllocatedLen
  no_spec : args.speculativeAlgorithm = false → req'.kvCommittedLen = req'.kvAllocatedLen

variable {req' : Req} {s : RowSpan}

theorem Grown.holds {P P' : ReqToTokenPool} {req : Req} {c : RadixCache ℕ}
    (h : Grown cfg args P req req' s) (hh : Holds cfg args c P req)
    (hpaged : Paged cfg.pageSize (P'.row s.idx (s.pre.length + s.ext)))
    (hpre : P'.row s.idx s.pre.length = s.pre) : Holds cfg args c P' req' := by
  refine ⟨?_, ?_, ?_, ?_, ?_, ?_, ?_⟩
  · rw [h.lastNode, h.path, h.prefixIndices, h.cacheProtectedLen]
    exact hh.node
  · rw [h.cacheProtectedLen]
    exact hh.aligned
  · rw [h.cacheProtectedLen, h.prefixIndices]
    exact hh.keep_le
  · rw [h.cacheProtectedLen, h.tokenIds, h.key]
    exact hh.keep_le_path
  · rw [h.overallocatedFreed]
    exact hh.not_freed
  · intro h0
    rw [h.idx] at h0
    cases h0
  · intro idx hidx
    rw [h.idx] at hidx
    cases hidx
    refine ⟨h.fill, h.keep_le, h.fill_le, h.committed_le, h.no_spec, ?_, ?_, ?_⟩
    · rw [h.prefixIndices, h.allocated]
      exact h.pre.length_le.trans (Nat.le_add_right _ _)
    · rw [h.prefixIndices, ← row_take h.pre.length_le, hpre]
      exact (prefix_iff_eq_take.mp h.pre).symm
    · rw [h.allocated]
      exact hpaged

/-- What the holders own, with a batch of them set apart. -/
theorem sum_split {batch : List ReqId} (f : ReqId → Multiset ℕ) (hnd : holders.Nodup)
    (hndb : batch.Nodup) (hsub : ∀ r ∈ batch, r ∈ holders) :
    (holders.map f).sum = (batch.map f).sum + ∑ x ∈ holders.toFinset \ batch.toFinset, f x := by
  have hs : batch.toFinset ⊆ holders.toFinset := by
    intro x hx
    exact List.mem_toFinset.mpr (hsub x (List.mem_toFinset.mp hx))
  rw [← sum_toFinset _ hnd, ← sum_toFinset _ hndb, add_comm]
  exact (Finset.sum_sdiff hs).symm

variable {B : KVAllocator}

theorem pages_dropFree {A : KVAllocator} (hB : A.SamePages B) (n : ℕ) :
    A.pages = (B.freePages.take n : List ℕ) + (B.dropFree n).pages ∧ A.SameKind (B.dropFree n) := by
  refine ⟨?_, hB.size, hB.pageSize, hB.isNotInFreeGroup⟩
  rw [← hB.pages, KVAllocator.pages, KVAllocator.pages, KVAllocator.dropFree, ← add_assoc,
    Multiset.coe_add (B.freePages.take n), take_append_drop]

/-- **A batch takes pages from the allocator** and nothing else changes hands. -/
theorem Books.grow (hb : Books cfg args t holders S) (span : ReqId → RowSpan) {batch : List ReqId}
    (hnd : batch.Nodup) (hsub : ∀ r ∈ batch, r ∈ holders)
    (hB : S.allocator.SamePages B)
    (hfit : getNumNewPages cfg.pageSize (batch.map fun r => (span r).item) ≤ B.freePages.length)
    (hcache : S'.cache = S.cache)
    (halloc : S'.allocator
      = B.dropFree (getNumNewPages cfg.pageSize (batch.map fun r => (span r).item)))
    (hpool : S'.pool.reqToToken = (S.pool.writeRows (batch.map span)
      (allocExtendKernel cfg.pageSize B.freePages 0 (batch.map fun r => (span r).item))).reqToToken)
    (hrows : RowsOk S'.pool.freeSlots S'.reqs) (hother : ∀ x ∉ batch, S'.reqs x = S.reqs x)
    (hgrown : ∀ r ∈ batch, Grown cfg args S.pool (S.reqs r) (S'.reqs r) (span r)) :
    Books cfg args t holders S' := by
  have hitem : (batch.map span).map RowSpan.item = batch.map fun r => (span r).item := by
    rw [List.map_map]
    rfl
  have hidx : (batch.map span).map RowSpan.idx = batch.map fun r => (span r).idx := by
    rw [List.map_map]
    rfl
  have hinj : ((batch.map span).map RowSpan.idx).Nodup := by
    rw [hidx]
    refine List.Nodup.map_on (fun x hx y hy e => ?_) hnd
    exact hrows.inj x y _ (hgrown x hx).idx (e ▸ (hgrown y hy).idx)
  obtain ⟨-, hkeep, hspan, hledger⟩ := writeRows_spec cfg.pageSize_pos (batch.map span) S.pool 0
    (fun s hs => by
      obtain ⟨r, hr, rfl⟩ := List.mem_map.mp hs
      exact (hgrown r hr).ok) hinj (by rw [hitem, Nat.zero_add]; exact hfit) _ rfl
  rw [hitem, ← hpool] at hkeep
  have hrow : ∀ idx n, S'.pool.row idx n = (S.pool.writeRows (batch.map span)
      (allocExtendKernel cfg.pageSize B.freePages 0
        (batch.map fun r => (span r).item))).row idx n := by
    intro idx n
    exact row_congr (congrFun hpool idx) n
  rw [hitem] at hspan hledger
  simp only [← hrow] at hspan hledger
  -- the rows of the others are not written
  have hrowOther : ∀ x ∉ batch, ∀ idx, (S.reqs x).reqPoolIdx = some idx →
      S'.pool.reqToToken idx = S.pool.reqToToken idx := by
    intro x hx idx h
    refine hkeep idx ?_
    rw [hidx]
    intro hmem
    obtain ⟨y, hy, rfl⟩ := List.mem_map.mp hmem
    rw [← hother x hx] at h
    exact hx (hrows.inj x y _ h (hgrown y hy).idx ▸ hy)
  have hheld : ∀ x, S'.heldNode x = S.heldNode x := by
    intro x
    by_cases hx : x ∈ batch
    · rw [heldNode, (hgrown x hx).lastNode, heldNode]
    · rw [heldNode, hother x hx, heldNode]
  obtain ⟨hpages, hkind⟩ := pages_dropFree hB
    (getNumNewPages cfg.pageSize (batch.map fun r => (span r).item))
  rw [← halloc] at hpages hkind
  refine ⟨hkind.pageSize.trans hb.pageSize, hkind.isNotInFreeGroup.trans hb.no_group, hb.nodup, ?_,
    ?_, ?_, ?_, ?_, ?_, hrows.inj, hrows.nodup, hrows.free, ?_⟩
  · intro x
    rw [hb.holders_iff x]
    by_cases hx : x ∈ batch
    · rw [(hgrown x hx).lastNode, (hgrown x hx).committedFreed]
    · rw [hother x hx]
  · rw [hcache, map_congr_left fun x _ => hheld x]
    exact hb.inv
  · rw [hcache]
    exact hb.pagedTree
  · intro x
    by_cases hx : x ∈ batch
    · rw [(hgrown x hx).tokenIds]
      exact hb.tokens x
    · rw [hother x hx]
      exact hb.tokens x
  · intro x hx
    rw [hother x fun h => hx (hsub x h)]
    exact hb.no_row x hx
  · intro x hx
    by_cases hxb : x ∈ batch
    · obtain ⟨h1, h2⟩ := hspan (span x) (List.mem_map_of_mem hxb)
      rw [hcache]
      exact (hgrown x hxb).holds (hb.holds x hx) h1 h2
    · rw [hother x hxb, hcache]
      have hh := hb.holds x hx
      refine { hh with running := fun idx h => ?_ }
      have hrun := hh.running idx h
      have hc := row_congr (hrowOther x hxb idx h)
      exact { hrun with
        pre_eq := by rw [hc]; exact hrun.pre_eq
        paged := by rw [hc]; exact hrun.paged }
  · have hrest : ∑ x ∈ holders.toFinset \ batch.toFinset, rowPages cfg S'.pool (S'.reqs x)
        = ∑ x ∈ holders.toFinset \ batch.toFinset, rowPages cfg S.pool (S.reqs x) := by
      refine Finset.sum_congr rfl fun x hx => ?_
      rw [Finset.mem_sdiff, List.mem_toFinset, List.mem_toFinset] at hx
      rw [hother x hx.2, rowPages, rowPages]
      cases h : (S.reqs x).reqPoolIdx with
      | none => rfl
      | some idx =>
        simp only
        rw [row_congr (hrowOther x hx.2 idx h)]
    have hbatch : (batch.map fun r => rowPages cfg S'.pool (S'.reqs r)).sum
        = (batch.map fun r => rowPages cfg S.pool (S.reqs r)).sum
          + (B.freePages.take (getNumNewPages cfg.pageSize
              (batch.map fun r => (span r).item)) : List ℕ) := by
      rw [List.map_map, List.map_map] at hledger
      have h1 : (batch.map fun r => rowPages cfg S'.pool (S'.reqs r))
          = batch.map ((fun s => (heads cfg.pageSize ((S'.pool.row s.idx
              (s.pre.length + s.ext)).drop s.keep) : Multiset ℕ)) ∘ span) := by
        refine map_congr_left fun r hr => ?_
        have hg := hgrown r hr
        rw [rowPages, hg.idx, hg.allocated, hg.cacheProtectedLen, ← hg.keep]
        rfl
      have h2 : (batch.map fun r => rowPages cfg S.pool (S.reqs r))
          = batch.map ((fun s => (heads cfg.pageSize (s.pre.drop s.keep) : Multiset ℕ)) ∘ span) :=
        map_congr_left fun r hr => (hgrown r hr).owned
      rw [h1, h2]
      exact hledger
    rw [sum_split _ hb.nodup hnd hsub, hrest, hbatch, hcache, hkind.numPages, ← hb.ledger,
      sum_split _ hb.nodup hnd hsub, hpages]
    abel

/-! ## 3. Allocation -/

variable {S₀ : KVSystem}

theorem evictFromTreeCache_frame {n : ℕ}
    (h : S.evictFromTreeCache cfg n = some S₀) (hc : S₁.cache = S.cache)
    (ha : S₁.allocator = S.allocator) :
    S₁.evictFromTreeCache cfg n
      = some { S₁ with cache := S₀.cache, allocator := S₀.allocator } := by
  unfold KVSystem.evictFromTreeCache at h ⊢
  rw [ha]
  split at h
  · rename_i hlt
    rw [if_pos hlt]
    unfold KVSystem.evict at h ⊢
    rw [hc]
    cases he : S.cache.evict cfg n with
    | none => rw [he] at h; cases h
    | some res =>
      rw [he] at h
      simp only [bind_eq_bind, bind_some, foldl_free_eq, ha] at h ⊢
      cases h
      rfl
  · rename_i hlt
    rw [if_neg hlt]
    cases h
    rw [← hc, ← ha]

/-- What an allocation for a batch comes to: perhaps after an eviction, the kernel runs over the
first free pages. -/
structure Takes (cfg : CacheConfig) (args : ServerArgs) (holders : List ReqId) (S S₁ : KVSystem)
    (items : List ExtendItem) (out : List ℕ) (S₂ : KVSystem) (t : RootedTree NodeId)
    (S₀ : KVSystem) (B : KVAllocator) : Prop where
  books : Books cfg args t holders S₀
  pool : S₀.pool = S.pool
  reqs : S₀.reqs = S.reqs
  same : S₀.allocator.SamePages B
  fits : getNumNewPages cfg.pageSize items ≤ B.freePages.length
  out_eq : out = allocExtendKernel cfg.pageSize B.freePages 0 items
  eq : S₂ = { S₁ with
    cache := S₀.cache
    allocator := B.dropFree (getNumNewPages cfg.pageSize items) }

section Takes

variable {items : List ExtendItem} {out : List ℕ} {S₂ : KVSystem} {n : ℕ}

/-- The same slots, without the kernel, when a page is one slot. -/
theorem Books.allocTokenSlots (hb : Books cfg args t holders S) (hc : S₁.cache = S.cache)
    (ha : S₁.allocator = S.allocator) (hp : cfg.pageSize = 1)
    (hn : n = getNumNewPages cfg.pageSize items)
    (h : S₁.allocTokenSlots cfg n = some (out, S₂)) :
    ∃ t' S₀ B, Takes cfg args holders S S₁ items out S₂ t' S₀ B := by
  obtain ⟨t', S₀, hev, hb₀, hpool, hreqs⟩ := hb.evictFromTreeCache n
  simp only [KVSystem.allocTokenSlots, evictFromTreeCache_frame hev hc ha, bind_eq_bind,
    bind_some] at h
  obtain ⟨⟨o, A⟩, halloc, hret⟩ := bind_eq_some_iff.mp h
  cases hret
  obtain ⟨B, hB, hfit, ho, hA⟩ := KVAllocator.alloc_eq_some (hb₀.pageSize.trans hp) halloc
  rw [hn] at hfit ho hA
  refine ⟨t', S₀, B, hb₀, hpool, hreqs, hB, hfit, ?_, by rw [hA]⟩
  rw [hp] at hfit ho ⊢
  rw [ho, allocExtendKernel_one _ _ (by rwa [Nat.zero_add]), drop_zero]

theorem Books.allocPagedTokenSlotsExtend (hb : Books cfg args t holders S)
    (hc : S₁.cache = S.cache) (ha : S₁.allocator = S.allocator)
    (h : S₁.allocPagedTokenSlotsExtend cfg items n = some (out, S₂)) :
    ∃ t' S₀ B, Takes cfg args holders S S₁ items out S₂ t' S₀ B := by
  obtain ⟨t', S₀, hev, hb₀, hpool, hreqs⟩ := hb.evictFromTreeCache
    (n + items.length * S₁.allocator.pageSize)
  simp only [KVSystem.allocPagedTokenSlotsExtend, evictFromTreeCache_frame hev hc ha,
    bind_eq_bind, bind_some] at h
  obtain ⟨⟨o, A⟩, halloc, hret⟩ := bind_eq_some_iff.mp h
  cases hret
  obtain ⟨B, hB, hfit, ho, hA⟩ := KVAllocator.allocExtend_eq_some halloc
  rw [hb₀.pageSize] at hfit ho hA
  exact ⟨t', S₀, B, hb₀, hpool, hreqs, hB, hfit, ho, by rw [hA]⟩

theorem getNumNewPages_one (items : List ExtendItem) :
    (items.map fun it => it.seqLen - it.prefixLen).sum = getNumNewPages 1 items := by
  congr 1
  exact map_congr_left fun it _ => by simp [newPages]

theorem Books.allocExtend (hb : Books cfg args t holders S) (hc : S₁.cache = S.cache)
    (ha : S₁.allocator = S.allocator) (h : S₁.allocExtend cfg items = some (out, S₂)) :
    ∃ t' S₀ B, Takes cfg args holders S S₁ items out S₂ t' S₀ B := by
  unfold KVSystem.allocExtend at h
  split at h
  · rename_i hp
    exact hb.allocTokenSlots hc ha hp (by rw [hp, getNumNewPages_one]) h
  · exact hb.allocPagedTokenSlotsExtend hc ha h

theorem Books.allocDecode (hb : Books cfg args t holders S) (batch : List (ℕ × ℤ))
    (h : (if cfg.pageSize = 1 then S.allocTokenSlots cfg batch.length
      else S.allocPagedTokenSlotsDecode cfg (batch.map fun b => (b.1 + 1, b.2))) = some (out, S₂)) :
    ∃ t' S₀ B, Takes cfg args holders S S (batch.map fun b => ⟨b.1, b.1 + 1, b.2⟩) out S₂
      t' S₀ B := by
  split at h
  · rename_i hp
    refine hb.allocTokenSlots rfl rfl hp ?_ h
    rw [hp, ← getNumNewPages_one, List.map_map]
    have : (fun it : ExtendItem => it.seqLen - it.prefixLen) ∘
        (fun b : ℕ × ℤ => (⟨b.1, b.1 + 1, b.2⟩ : ExtendItem)) = fun _ => 1 := by
      funext b
      simp
    rw [this]
    simp
  · rename_i hp
    have hp1 : 1 < cfg.pageSize := lt_of_le_of_ne cfg.pageSize_pos (Ne.symm hp)
    obtain ⟨t', S₀, hev, hb₀, hpool, hreqs⟩ := hb.evictFromTreeCache
      ((batch.map fun b => (b.1 + 1, b.2)).length * S.allocator.pageSize)
    simp only [KVSystem.allocPagedTokenSlotsDecode, hev, bind_eq_bind, bind_some] at h
    obtain ⟨⟨o, A⟩, halloc, hret⟩ := bind_eq_some_iff.mp h
    cases hret
    obtain ⟨B, hB, hfit, ho, hA⟩ := KVAllocator.allocDecode_eq_some halloc
    rw [hb₀.pageSize, getNumNewPages_decode hp1] at hfit hA
    rw [hb₀.pageSize, allocDecodeKernel_eq hp1] at ho
    exact ⟨t', S₀, B, hb₀, hpool, hreqs, hB, hfit, ho, by rw [hA, ← hpool, ← hreqs]⟩

end Takes

/-! ## 4. The three batches -/

theorem foldl_modifyReq {β : Type} (id : β → ReqId) (f : β → Req → Req) : ∀ (l : List β)
    (S : KVSystem), ∀ S', l.foldl (fun S b => S.modifyReq (id b) (f b)) S = S' →
    (S'.cache = S.cache ∧ S'.allocator = S.allocator ∧ S'.pool = S.pool) ∧
    (∀ x ∉ l.map id, S'.reqs x = S.reqs x) ∧
    ((l.map id).Nodup → ∀ b ∈ l, S'.reqs (id b) = f b (S.reqs (id b)))
  | [], _, _, rfl => ⟨⟨rfl, rfl, rfl⟩, fun _ _ => rfl, fun _ => nofun⟩
  | b :: l, S, S', h => by
    obtain ⟨h1, h2, h3⟩ := foldl_modifyReq id f l _ S' h
    refine ⟨h1, fun x hx => ?_, fun hnd y hy => ?_⟩
    · rw [map_cons, mem_cons, not_or] at hx
      rw [h2 x hx.2, modifyReq_ne _ _ hx.1]
    · rw [map_cons, nodup_cons] at hnd
      rcases mem_cons.mp hy with rfl | hy
      · rw [h2 _ hnd.1, modifyReq_self]
      · have hne : id y ≠ id b := fun e => hnd.1 (List.mem_map.mpr ⟨y, hy, e⟩)
        rw [h3 hnd.2 y hy, modifyReq_ne _ _ hne]

theorem writeRows_congr : ∀ (spans : List RowSpan) (P Q : ReqToTokenPool) (out : List ℕ),
    P.reqToToken = Q.reqToToken →
    (P.writeRows spans out).reqToToken = (Q.writeRows spans out).reqToToken ∧
      (P.writeRows spans out).freeSlots = P.freeSlots
  | [], _, _, _, h => ⟨h, rfl⟩
  | s :: spans, P, Q, out, h => by
    obtain ⟨h1, h2⟩ := writeRows_congr spans
      ((P.write s.idx 0 s.pre).write s.idx s.pre.length (out.take s.ext))
      ((Q.write s.idx 0 s.pre).write s.idx s.pre.length (out.take s.ext)) (out.drop s.ext)
      (by simp [write, h])
    exact ⟨h1, h2⟩

theorem Books.paged_prefixIndices (hb : Books cfg args t holders S) (hr : r ∈ holders) :
    Paged cfg.pageSize (S.reqs r).prefixIndices := by
  have hh := hb.holds r hr
  cases hidx : (S.reqs r).reqPoolIdx with
  | none =>
    obtain ⟨n, -, hsp⟩ := hh.node
    rw [take_of_length_le (hh.idle hidx).le] at hsp
    obtain ⟨hn, -, hvs⟩ := hb.inv.represents.spells_iff.mp hsp
    rw [hvs]
    exact hb.inv.toBase.paged_word hb.pagedTree n hn
  | some idx =>
    have hrun := hh.running idx hidx
    rw [← hrun.pre_eq]
    exact hb.paged_row hr hidx hrun.pre_le

/-- A request that holds a lock. -/
def Live (S : KVSystem) (r : ReqId) : Prop :=
  (S.reqs r).lastNode.isSome = true ∧ (S.reqs r).kvCommittedFreed = false

theorem Books.live_iff (hb : Books cfg args t holders S) : Live S r ↔ r ∈ holders :=
  (hb.holders_iff r).symm

/-- The requests a prefill batch may hold: those that were admitted, and the chunked request after
it was stashed by `cache_unfinished_req`; each is extended by a token at least. -/
structure Extendable (S : KVSystem) (b : ReqId × ℕ) : Prop where
  live : Live S b.1
  lt : (S.reqs b.1).prefixIndices.length < b.2
  le : b.2 ≤ (S.reqs b.1).tokenIds.length
  stashed : (S.reqs b.1).reqPoolIdx.isSome = true →
    (S.reqs b.1).prefixIndices.length = (S.reqs b.1).kvAllocatedLen

/-- One request of a prefill batch. -/
theorem Extendable.grown {b : ReqId × ℕ} {idx : ℕ}
    (h : Extendable S b) (hb : Books cfg args t holders S)
    (hreq : req' = { S.reqs b.1 with
      fillIds := (S.reqs b.1).tokenIds.take b.2
      reqPoolIdx := some idx
      kvCommittedLen := b.2
      kvAllocatedLen := b.2 })
    (hs : s = ⟨idx, (S.reqs b.1).prefixIndices, b.2 - (S.reqs b.1).prefixIndices.length,
      (S.reqs b.1).cacheProtectedLen⟩) :
    Grown cfg args S.pool (S.reqs b.1) req' s := by
  have hmem := hb.live_iff.mp h.live
  have hh := hb.holds _ hmem
  have hlen : ((S.reqs b.1).tokenIds.take b.2).length = b.2 := by
    rw [length_take, min_eq_left h.le]
  subst hreq hs
  refine ⟨rfl, rfl, rfl, rfl, rfl, rfl, rfl, rfl, rfl,
    ⟨hb.paged_prefixIndices hmem, hh.aligned, hh.keep_le⟩, rfl, ?_, prefix_rfl, ?_,
    take_prefix _ _, ?_, hlen.le, le_rfl, fun _ => rfl⟩
  · rw [rowPages]
    cases hidx : (S.reqs b.1).reqPoolIdx with
    | none =>
      rw [drop_eq_nil_of_le (hh.idle hidx).le, heads_nil cfg.pageSize_pos]
      rfl
    | some i =>
      simp only
      rw [← h.stashed (by rw [hidx]; rfl), (hh.running i hidx).pre_eq]
  · exact (Nat.add_sub_of_le h.lt.le).symm
  · refine Req.le_radixKey_len hh.aligned ?_
    rw [hlen]
    exact hh.keep_le.trans_lt h.lt

/-- **A prefill batch.** -/
theorem Books.extendBatch (hb : Books cfg args t holders S) {batch : List (ReqId × ℕ)}
    (hnd : (batch.map Prod.fst).Nodup) (hext : ∀ b ∈ batch, Extendable S b)
    (h : S.extendBatch cfg batch = some S') : ∃ t', Books cfg args t' holders S' := by
  unfold KVSystem.extendBatch at h
  obtain ⟨⟨hc₁, ha₁, hp₁⟩, ho₁, hm₁⟩ := foldl_modifyReq Prod.fst
    (fun b x => { x with fillIds := x.tokenIds.take b.2 }) batch S _ rfl
  generalize batch.foldl (fun S b => S.modifyReq b.1 fun x =>
    { x with fillIds := x.tokenIds.take b.2 }) S = S₁ at *
  -- the new `fill_ids` do not touch the rows
  have hidx₁ : ∀ x, (S₁.reqs x).reqPoolIdx = (S.reqs x).reqPoolIdx := by
    intro x
    by_cases hx : x ∈ batch.map Prod.fst
    · obtain ⟨b, hb', rfl⟩ := List.mem_map.mp hx
      rw [hm₁ hnd b hb']
    · rw [ho₁ x hx]
  have hrows₁ : RowsOk S₁.pool.freeSlots S₁.reqs := by
    have h0 := hb.rowsOk
    rw [hp₁]
    refine ⟨fun x y i => ?_, h0.nodup, fun i hi x => ?_⟩
    · rw [hidx₁, hidx₁]
      exact h0.inj x y i
    · rw [hidx₁]
      exact h0.free i hi x
  unfold prepareForExtend at h
  obtain ⟨S₂, hslots, h⟩ := bind_eq_some_iff.mp h
  obtain ⟨⟨out, S₃⟩, halloc, h⟩ := bind_eq_some_iff.mp h
  have has := allocReqSlots_assigns hslots hnd hrows₁
  obtain ⟨t', S₀, B, htk⟩ := hb.allocExtend (has.cache.trans hc₁) (has.allocator.trans ha₁) halloc
  simp only [writeCacheIndices_eq] at h
  cases h
  obtain ⟨⟨hc₄, ha₄, hp₄⟩, ho₄, hm₄⟩ := foldl_modifyReq (fun r : ReqId => r)
    (fun _ x => { x with kvCommittedLen := x.fillIds.length, kvAllocatedLen := x.fillIds.length })
    (batch.map Prod.fst)
    { S₃ with pool := S₃.pool.writeRows ((batch.map Prod.fst).map S₃.extendSpan) out } _ rfl
  rw [List.map_id'] at ho₄ hm₄
  have heq := htk.eq
  have hreqs₃ : S₃.reqs = S₂.reqs := by rw [heq]
  have hpool₃ : S₃.pool = S₂.pool := by rw [heq]
  have hspan : S₃.extendSpan = S₂.extendSpan := by
    funext x
    rw [extendSpan, extendSpan, hreqs₃]
  -- the records in the end
  have hfinal : ∀ b ∈ batch, ∃ idx, S₂.reqs b.1 = { S.reqs b.1 with
      fillIds := (S.reqs b.1).tokenIds.take b.2
      reqPoolIdx := some idx } := by
    intro b hb'
    obtain ⟨idx, hi⟩ := has.mem b.1 (List.mem_map_of_mem hb')
    exact ⟨idx, by rw [hi, hm₁ hnd b hb']⟩
  have hlen : ∀ b ∈ batch, ((S.reqs b.1).tokenIds.take b.2).length = b.2 := by
    intro b hb'
    rw [length_take, min_eq_left (hext b hb').le]
  have hitems : (batch.map Prod.fst).map S₂.extendItem
      = (batch.map Prod.fst).map fun r => (S₂.extendSpan r).item := by
    refine map_congr_left fun r hr => ?_
    obtain ⟨b, hb', rfl⟩ := List.mem_map.mp hr
    obtain ⟨idx, hi⟩ := hfinal b hb'
    have hlt : (S.reqs b.1).prefixIndices.length ≤ ((S.reqs b.1).tokenIds.take b.2).length := by
      rw [hlen b hb']
      exact (hext b hb').lt.le
    rw [extendItem, RowSpan.item, extendSpan, hi]
    simp only [Nat.add_sub_of_le hlt]
  have hfit := htk.fits
  have hout := htk.out_eq
  rw [hitems] at hfit hout heq
  have hpool' : S₃.pool.reqToToken = S₀.pool.reqToToken := by
    rw [hpool₃, has.rows, hp₁, htk.pool]
  obtain ⟨hw, hf⟩ := writeRows_congr ((batch.map Prod.fst).map S₂.extendSpan) S₃.pool S₀.pool
    (allocExtendKernel cfg.pageSize B.freePages 0
      ((batch.map Prod.fst).map fun r => (S₂.extendSpan r).item)) hpool'
  generalize hS' : (batch.map Prod.fst).foldl _ _ = S' at *
  have hmem : ∀ b ∈ batch, ∃ idx, S₂.reqs b.1 = { S.reqs b.1 with
      fillIds := (S.reqs b.1).tokenIds.take b.2
      reqPoolIdx := some idx } ∧ S'.reqs b.1 = { S.reqs b.1 with
      fillIds := (S.reqs b.1).tokenIds.take b.2
      reqPoolIdx := some idx
      kvCommittedLen := b.2
      kvAllocatedLen := b.2 } := by
    intro b hb'
    obtain ⟨idx, hi⟩ := hfinal b hb'
    refine ⟨idx, hi, ?_⟩
    rw [hm₄ hnd b.1 (List.mem_map_of_mem hb')]
    simp [hreqs₃, hi, hlen b hb']
  have hsame : ∀ x, (S'.reqs x).reqPoolIdx = (S₂.reqs x).reqPoolIdx := by
    intro x
    by_cases hx : x ∈ batch.map Prod.fst
    · obtain ⟨b, hb', rfl⟩ := List.mem_map.mp hx
      obtain ⟨idx, h1, h2⟩ := hmem b hb'
      rw [h1, h2]
    · rw [ho₄ x hx, hreqs₃]
  refine ⟨t', htk.books.grow S₂.extendSpan hnd ?_ htk.same hfit
    (by rw [hc₄, heq]) (by rw [ha₄, heq]) ?_ ?_ ?_ ?_⟩
  · intro r hr
    obtain ⟨b, hb', rfl⟩ := List.mem_map.mp hr
    exact hb.live_iff.mp (hext b hb').live
  · rw [hp₄, hspan, hout]
    exact hw
  · have h2 := has.rowsOk
    rw [hp₄, hspan, hout]
    rw [hf, hpool₃]
    refine ⟨fun x y i => ?_, h2.nodup, fun i hi x => ?_⟩
    · rw [hsame, hsame]
      exact h2.inj x y i
    · rw [hsame]
      exact h2.free i hi x
  · intro x hx
    rw [ho₄ x hx, hreqs₃, has.other x hx, ho₁ x hx, htk.reqs]
  · intro r hr
    obtain ⟨b, hb', rfl⟩ := List.mem_map.mp hr
    obtain ⟨idx, h1, h2⟩ := hmem b hb'
    have hext₀ : Extendable S₀ b := by
      obtain ⟨e1, e2, e3, e4⟩ := hext b hb'
      exact ⟨by rw [Live, htk.reqs]; exact e1, by rw [htk.reqs]; exact e2, by rw [htk.reqs]; exact e3, by rw [htk.reqs]; exact e4⟩
    refine hext₀.grown htk.books (by rw [h2, htk.reqs]) ?_
    rw [extendSpan, h1, htk.reqs]
    simp [hlen b hb']

/-- The requests a decode batch may hold. -/
def Decodable (S : KVSystem) (r : ReqId) : Prop :=
  Live S r ∧ (S.reqs r).reqPoolIdx.isSome = true

variable {nxt : ℕ}

theorem growSpan_item (S : KVSystem) (r : ReqId) {cur : ℕ} (h : cur ≤ nxt) :
    (S.growSpan r cur nxt).item = ⟨cur, nxt, S.lastLoc r cur⟩ := by
  rw [RowSpan.item, growSpan, lastLoc]
  simp only [length_row, Nat.add_sub_of_le h]
  congr 1
  cases cur with
  | zero => simp [ReqToTokenPool.row]
  | succ k => simp [ReqToTokenPool.row, range_succ]

/-- One request of a decode batch: its row goes on where it ended. -/
theorem Decodable.grown (h : Decodable S r) (hb : Books cfg args t holders S)
    {committed : ℕ} (hreq : req' = { S.reqs r with
      kvCommittedLen := committed
      kvAllocatedLen := nxt })
    (hnxt : (S.reqs r).kvAllocatedLen ≤ nxt) (hfill : (S.reqs r).kvCommittedLen ≤ committed)
    (hle : committed ≤ nxt) (hno : args.speculativeAlgorithm = false → committed = nxt) :
    Grown cfg args S.pool (S.reqs r) req' (S.growSpan r (S.reqs r).kvAllocatedLen nxt) := by
  obtain ⟨hlive, hsome⟩ := h
  obtain ⟨idx, hidx⟩ := isSome_iff_exists.mp hsome
  have hh := hb.holds r (hb.live_iff.mp hlive)
  have hrun := hh.running idx hidx
  have hspan : S.growSpan r (S.reqs r).kvAllocatedLen nxt
      = ⟨idx, S.pool.row idx (S.reqs r).kvAllocatedLen, nxt - (S.reqs r).kvAllocatedLen,
        (S.reqs r).cacheProtectedLen⟩ := by
    rw [growSpan, hidx]
    rfl
  rw [hspan]
  subst hreq
  refine ⟨rfl, rfl, rfl, rfl, rfl, rfl, rfl, rfl, hidx, ⟨hrun.paged, hh.aligned, ?_⟩, rfl, ?_, ?_,
    ?_, hrun.fill, hrun.keep_le, hrun.fill_le.trans hfill, hle, hno⟩
  · rw [length_row]
    exact hh.keep_le.trans hrun.pre_le
  · rw [rowPages, hidx]
  · rw [prefix_iff_eq_take, row_take hrun.pre_le, hrun.pre_eq]
  · rw [length_row, Nat.add_sub_of_le hnxt]

theorem Books.idx_nodup (hb : Books cfg args t holders S) {reqs : List ReqId} (hnd : reqs.Nodup)
    (hdec : ∀ r ∈ reqs, Decodable S r) :
    (reqs.map fun r => (S.reqs r).reqPoolIdx.getD 0).Nodup := by
  refine List.Nodup.map_on (fun x hx y hy e => ?_) hnd
  obtain ⟨i, hi⟩ := isSome_iff_exists.mp (hdec x hx).2
  obtain ⟨j, hj⟩ := isSome_iff_exists.mp (hdec y hy).2
  rw [hi, hj] at e
  exact hb.rows_inj x y i hi (by rw [hj]; exact congrArg some e.symm)

/-- The end of both decodes: the rows are written and only lengths have changed. -/
theorem Books.growRows (hb : Books cfg args t holders S) {reqs : List ReqId} (hnd : reqs.Nodup)
    (hdec : ∀ r ∈ reqs, Decodable S r) (committed nxt : ReqId → ℕ)
    (hnxt : ∀ r ∈ reqs, (S.reqs r).kvAllocatedLen ≤ nxt r ∧
      (S.reqs r).kvCommittedLen ≤ committed r ∧ committed r ≤ nxt r ∧
      (args.speculativeAlgorithm = false → committed r = nxt r))
    {items : List ExtendItem} (hitems : items
      = reqs.map fun r => ⟨(S.reqs r).kvAllocatedLen, nxt r, S.lastLoc r (S.reqs r).kvAllocatedLen⟩)
    {out : List ℕ} {S₂ : KVSystem} {t' : RootedTree NodeId}
    (htk : Takes cfg args holders S S₁ items out S₂ t' S₀ B) (hc : S'.cache = S₂.cache)
    (ha : S'.allocator = S₂.allocator)
    (hpool : S'.pool = S.pool.writeRows
      (reqs.map fun r => S.growSpan r (S.reqs r).kvAllocatedLen (nxt r)) out)
    (hother : ∀ x ∉ reqs, S'.reqs x = S.reqs x)
    (hself : ∀ r ∈ reqs, S'.reqs r = { S.reqs r with
      kvCommittedLen := committed r
      kvAllocatedLen := nxt r }) : Books cfg args t' holders S' := by
  have hspan : (fun r => S.growSpan r (S.reqs r).kvAllocatedLen (nxt r))
      = fun r => S₀.growSpan r (S₀.reqs r).kvAllocatedLen (nxt r) := by
    funext r
    rw [growSpan, growSpan, htk.pool, htk.reqs]
  have hit : items = reqs.map fun r => (S₀.growSpan r (S₀.reqs r).kvAllocatedLen (nxt r)).item := by
    rw [hitems]
    refine map_congr_left fun r hr => ?_
    rw [← congrFun hspan r, growSpan_item S r (hnxt r hr).1]
  have hfit := htk.fits
  have heq := htk.eq
  have hout := htk.out_eq
  rw [hit] at hfit heq hout
  have hidx : ∀ x, (S'.reqs x).reqPoolIdx = (S.reqs x).reqPoolIdx := by
    intro x
    by_cases hx : x ∈ reqs
    · rw [hself x hx]
    · rw [hother x hx]
  refine htk.books.grow (fun r => S₀.growSpan r (S₀.reqs r).kvAllocatedLen (nxt r)) hnd
    (fun r hr => hb.live_iff.mp (hdec r hr).1) htk.same hfit (by rw [hc, heq]) (by rw [ha, heq]) ?_ ?_ ?_ ?_
  · rw [hpool, hspan, hout, htk.pool]
  · have h0 := hb.rowsOk
    rw [hpool, (writeRows_congr _ S.pool S.pool _ rfl).2]
    refine ⟨fun x y i => ?_, h0.nodup, fun i hi x => ?_⟩
    · rw [hidx, hidx]
      exact h0.inj x y i
    · rw [hidx]
      exact h0.free i hi x
  · rw [htk.reqs]
    exact hother
  · intro r hr
    obtain ⟨h1, h2, h3, h4⟩ := hnxt r hr
    have hd : Decodable S₀ r := by
      rw [Decodable, Live, htk.reqs]
      exact hdec r hr
    exact hd.grown htk.books (by rw [hself r hr, htk.reqs]) (by rw [htk.reqs]; exact h1)
      (by rw [htk.reqs]; exact h2) h3 h4

/-- **A decode batch.** -/
theorem Books.prepareForDecode (hb : Books cfg args t holders S) {reqs : List ReqId}
    (hspec : args.speculativeAlgorithm = false) (hnd : reqs.Nodup)
    (hdec : ∀ r ∈ reqs, Decodable S r) (h : S.prepareForDecode cfg reqs = some S') :
    ∃ t', Books cfg args t' holders S' := by
  have hlen : ∀ r ∈ reqs, (S.reqs r).kvAllocatedLen = (S.reqs r).kvCommittedLen := by
    intro r hr
    obtain ⟨idx, hidx⟩ := isSome_iff_exists.mp (hdec r hr).2
    exact (((hb.holds r (hb.live_iff.mp (hdec r hr).1)).running idx hidx).no_spec hspec).symm
  obtain ⟨⟨out, S₂⟩, halloc, h⟩ := bind_eq_some_iff.mp h
  have hbatch : (reqs.map fun r => ((S.reqs r).kvCommittedLen + 1,
      S.lastLoc r (S.reqs r).kvCommittedLen))
      = (reqs.map fun r => ((S.reqs r).kvCommittedLen,
        S.lastLoc r (S.reqs r).kvCommittedLen)).map fun b : ℕ × ℤ => (b.1 + 1, b.2) := by
    rw [List.map_map]
    rfl
  rw [hbatch] at halloc
  obtain ⟨t', S₀, B, htk⟩ := hb.allocDecode (reqs.map fun r => ((S.reqs r).kvCommittedLen,
    S.lastLoc r (S.reqs r).kvCommittedLen)) (by rw [length_map]; exact halloc)
  have hreqs₂ : S₂.reqs = S.reqs := by rw [htk.eq]
  have hpool₂ : S₂.pool = S.pool := by rw [htk.eq]
  generalize hP : S.pool.writeRows (reqs.map fun r => S.growSpan r (S.reqs r).kvAllocatedLen
    ((S.reqs r).kvCommittedLen + 1)) out = P
  have hwrite : S₂.writeNext reqs out = { S₂ with pool := P } := by
    have hspan : (reqs.map fun r => S.growSpan r (S.reqs r).kvAllocatedLen
        ((S.reqs r).kvCommittedLen + 1))
        = reqs.map fun r => S₂.growSpan r (S₂.reqs r).kvCommittedLen
          ((S₂.reqs r).kvCommittedLen + 1) := by
      refine map_congr_left fun r hr => ?_
      rw [growSpan, growSpan, hlen r hr, hreqs₂, hpool₂]
    have hgrow := writeRows_growSpan S₂ (fun r => (S₂.reqs r).kvCommittedLen)
      (fun r => (S₂.reqs r).kvCommittedLen + 1) reqs S₂.pool out
      (by rw [hreqs₂]; exact hb.idx_nodup hnd hdec) (fun _ _ => rfl)
    rw [writeNext_eq, ← hP, hspan, ← hpool₂]
    exact hgrow
  cases h
  simp only [hwrite]
  obtain ⟨⟨hc₄, ha₄, hp₄⟩, ho₄, hm₄⟩ := foldl_modifyReq (fun r : ReqId => r) (fun _ x => { x with
      kvCommittedLen := x.kvCommittedLen + 1
      kvAllocatedLen := x.kvAllocatedLen + 1 }) reqs { S₂ with pool := P } _ rfl
  rw [List.map_id'] at ho₄ hm₄
  refine ⟨t', hb.growRows hnd hdec (fun r => (S.reqs r).kvCommittedLen + 1)
    (fun r => (S.reqs r).kvCommittedLen + 1) (fun r hr => ?_) ?_ htk hc₄ ha₄ (hp₄.trans hP.symm) ?_ ?_⟩
  · exact ⟨by rw [hlen r hr]; exact Nat.le_succ _, Nat.le_succ _, le_rfl, fun _ => rfl⟩
  · rw [List.map_map]
    refine map_congr_left fun r hr => ?_
    rw [hlen r hr]
    rfl
  · intro x hx
    rw [ho₄ x hx, hreqs₂]
  · intro r hr
    rw [hm₄ hnd r hr]
    simp [hreqs₂, hlen r hr]

/-- **A speculative decode batch.** -/
theorem Books.prepareForSpecDecode (hb : Books cfg args t holders S) {reqs : List ReqId} {k : ℕ}
    (hspec : args.speculativeAlgorithm = true) (hk : 0 < k) (hnd : reqs.Nodup)
    (hdec : ∀ r ∈ reqs, Decodable S r) (h : S.prepareForSpecDecode cfg reqs k = some S') :
    ∃ t', Books cfg args t' holders S' := by
  unfold KVSystem.prepareForSpecDecode at h
  generalize hnxt : (fun r => max (S.reqs r).kvAllocatedLen
    ((S.reqs r).kvCommittedLen + (k + k))) = nxt at h
  dsimp only at h
  obtain ⟨⟨hc₁, ha₁, hp₁⟩, ho₁, hm₁⟩ := foldl_modifyReq (fun s : ReqId × ℕ × ℕ => s.1)
    (fun s x => { x with kvAllocatedLen := s.2.2, kvCommittedLen := x.kvCommittedLen + 1 })
    (reqs.map fun r => (r, (S.reqs r).kvAllocatedLen, nxt r)) S _ rfl
  generalize (reqs.map fun r => (r, (S.reqs r).kvAllocatedLen, nxt r)).foldl _ S = S₁ at *
  have hids : (reqs.map fun r => (r, (S.reqs r).kvAllocatedLen, nxt r)).map
      (fun s : ReqId × ℕ × ℕ => s.1) = reqs := by
    rw [List.map_map]
    exact List.map_id' reqs
  rw [hids] at ho₁ hm₁
  have hself₁ : ∀ r ∈ reqs, S₁.reqs r = { S.reqs r with
      kvCommittedLen := (S.reqs r).kvCommittedLen + 1
      kvAllocatedLen := nxt r } := by
    intro r hr
    exact hm₁ hnd (r, (S.reqs r).kvAllocatedLen, nxt r) (List.mem_map.mpr ⟨r, hr, rfl⟩)
  obtain ⟨⟨out, S₂⟩, halloc, h⟩ := bind_eq_some_iff.mp h
  obtain ⟨t', S₀, B, htk⟩ := hb.allocExtend hc₁ ha₁ halloc
  have hreqs₂ : S₂.reqs = S₁.reqs := by rw [htk.eq]
  have hpool₂ : S₂.pool = S.pool := by rw [htk.eq]; exact hp₁
  have hidx : ∀ r ∈ reqs, (S₂.reqs r).reqPoolIdx = (S.reqs r).reqPoolIdx := by
    intro r hr
    rw [hreqs₂, hself₁ r hr]
  have hspan : (reqs.map fun r => S.growSpan r (S.reqs r).kvAllocatedLen (nxt r))
      = reqs.map fun r => S₂.growSpan r (S.reqs r).kvAllocatedLen (nxt r) := by
    refine map_congr_left fun r hr => ?_
    rw [growSpan, growSpan, hpool₂, hreqs₂, hself₁ r hr]
  have hgrow := writeRows_growSpan S₂ (fun r => (S.reqs r).kvAllocatedLen) nxt reqs S₂.pool out
    (by rw [map_congr_left fun r hr => by rw [hidx r hr]]; exact hb.idx_nodup hnd hdec)
    (fun _ _ => rfl)
  rw [← hspan, hpool₂] at hgrow
  have hpool : ({ S₂ with pool := S.pool } : KVSystem) = S₂ := by rw [← hpool₂]
  rw [hpool] at hgrow
  cases h
  rw [hgrow]
  refine ⟨t', hb.growRows hnd hdec (fun r => (S.reqs r).kvCommittedLen + 1) nxt (fun r hr => ?_)
    rfl htk rfl rfl rfl ?_ ?_⟩
  · rw [← congrFun hnxt r]
    refine ⟨le_max_left _ _, Nat.le_succ _, le_max_of_le_right (by omega), fun h => ?_⟩
    rw [hspec] at h
    cases h
  · intro x hx
    rw [hreqs₂, ho₁ x hx]
  · intro r hr
    rw [hreqs₂, hself₁ r hr]

end KVSystem

end Sglang
