/-
# The books through the life of a request

Each step of a request's life keeps the books of `Books.lean`.  The steps cut the row of the
request at page boundaries `a ≤ j ≤ l ≤ m`: the part before `a` is the tree's already, up to `j`
the tree had its own copy, up to `l` the tree takes the pages over, and the rest is freed or stays
with the request.
-/
import Sglang.MemCache.Books

namespace Sglang

open Lib List Option ReqToTokenPool Req

namespace KVSystem

open RadixCache

variable {cfg : CacheConfig} {args : ServerArgs} {t : RootedTree NodeId}
  {holders : List ReqId} {S S' : KVSystem} {r : ReqId} {idx : ℕ}

/-! ## 1. Cutting a row -/

theorem take_drop_append {l : List ℕ} {a b : ℕ} (h : a ≤ b) :
    (l.take b).drop a ++ l.drop b = l.drop a := by
  obtain ⟨k, rfl⟩ := Nat.exists_eq_add_of_le h
  rw [drop_take, Nat.add_sub_cancel_left, ← drop_drop, take_append_drop]

theorem heads_row_slice (P : ReqToTokenPool) {p n m j : ℕ} (hp : 0 < p) (hn : n ≤ m) :
    heads p ((P.row idx n).drop (p * j))
      = ((heads p (P.row idx m)).take (pageCount p n)).drop j := by
  rw [← row_take hn, heads_slice hp (by simpa using hn)]

/-- The locks when the request `r` moves its own. -/
theorem held_perm (hnd : holders.Nodup) (hr : r ∈ holders)
    (hother : ∀ x, x ≠ r → S'.heldNode x = S.heldNode x) :
    (holders.map S'.heldNode).Perm
      (S'.heldNode r :: (holders.map S.heldNode).erase (S.heldNode r)) := by
  have h1 := (perm_cons_erase hr).map S'.heldNode
  have h2 := (perm_cons_erase hr).map S.heldNode
  rw [map_cons] at h1 h2
  have h3 : (holders.erase r).map S'.heldNode = (holders.erase r).map S.heldNode :=
    map_congr_left fun x hx => hother x ((List.Nodup.mem_erase_iff hnd).mp hx).1
  rw [h3] at h1
  refine h1.trans (List.Perm.cons _ ?_)
  have h4 := h2.erase (S.heldNode r)
  rw [erase_cons_head] at h4
  exact h4.symm

/-- A running holder and a start of its tokens that covers what the tree owns of its row. -/
theorem Books.cut (hb : Books cfg args t holders S) (hr : r ∈ holders) {toks : List Token}
    (hkeep : (S.reqs r).cacheProtectedLen ≤ ((S.reqs r).radixKey cfg toks).len) :
    ∃ a l, (S.reqs r).cacheProtectedLen = cfg.pageSize * a ∧
      (((S.reqs r).radixKey cfg toks).label cfg.pageSize).length = l ∧ a ≤ l := by
  obtain ⟨a, ha⟩ := (hb.holds r hr).aligned
  rw [ha, radixKey_len_eq] at hkeep
  exact ⟨a, _, ha, rfl, Nat.le_of_mul_le_mul_left hkeep cfg.pageSize_pos⟩

theorem Books.paged_row (hb : Books cfg args t holders S) (hr : r ∈ holders)
    (hidx : (S.reqs r).reqPoolIdx = some idx) {n : ℕ} (hn : n ≤ (S.reqs r).kvAllocatedLen) :
    Paged cfg.pageSize (S.pool.row idx n) := by
  rw [← row_take hn]
  exact ((hb.holds r hr).running idx hidx).paged.take n

theorem Books.rowPages_eq (hb : Books cfg args t holders S)
    (hidx : (S.reqs r).reqPoolIdx = some idx) {a : ℕ}
    (ha : (S.reqs r).cacheProtectedLen = cfg.pageSize * a) :
    rowPages cfg S.pool (S.reqs r)
        = ((heads cfg.pageSize (S.pool.row idx (S.reqs r).kvAllocatedLen)).drop a : List ℕ) ∧
      ((heads cfg.pageSize (S.pool.row idx (S.reqs r).kvAllocatedLen)).drop a).Nodup := by
  have h1 : rowPages cfg S.pool (S.reqs r)
      = ((heads cfg.pageSize (S.pool.row idx (S.reqs r).kvAllocatedLen)).drop a : List ℕ) := by
    rw [rowPages, hidx, ha]
    simp only
    rw [heads_drop cfg.pageSize_pos]
  have h2 := hb.nodup_ledger
  rw [sum_rowPages hb.nodup (hb.no_row r), h1] at h2
  exact ⟨h1, Multiset.coe_nodup.mp (Multiset.nodup_of_le
    ((Multiset.le_add_right _ _).trans (Multiset.le_add_left _ _)) h2)⟩

/-- The path a holder has locked starts the key of every such start of its tokens. -/
theorem path_take_initial {req : Req} {toks : List Token} (htoks : toks <+: req.tokenIds) {a : ℕ}
    (hal : a ≤ ((req.radixKey cfg toks).label cfg.pageSize).length) :
    (req.path cfg).take a <+: (req.radixKey cfg toks).label cfg.pageSize ∧
      ((req.path cfg).take a).length = a := by
  have hle : cfg.pageSize * a ≤ (req.radixKey cfg toks).len := by
    rw [radixKey_len_eq]
    exact Nat.mul_le_mul_left _ hal
  rw [path_take htoks hle]
  exact ⟨List.take_prefix _ _, by rw [length_take, min_eq_left hal]⟩

theorem path_eq_append {req : Req} {toks : List Token} (htoks : toks <+: req.tokenIds) {l : ℕ}
    (hl : ((req.radixKey cfg toks).label cfg.pageSize).length = l) :
    req.path cfg = (req.radixKey cfg toks).label cfg.pageSize ++ (req.path cfg).drop l := by
  have h1 := path_take htoks (by rw [radixKey_len_eq, hl])
  rw [take_of_length_le hl.le] at h1
  rw [← h1, take_append_drop]

/-- **An insertion** of such a start finds at least what the request holds. -/
theorem Books.insert_row (hb : Books cfg args t holders S) (hr : r ∈ holders)
    (hidx : (S.reqs r).reqPoolIdx = some idx) {toks : List Token}
    (htoks : toks <+: (S.reqs r).tokenIds) (hle : toks.length ≤ (S.reqs r).kvAllocatedLen)
    {key : RadixKey} (hk : (S.reqs r).radixKey cfg toks = key) {a l : ℕ}
    (ha : (S.reqs r).cacheProtectedLen = cfg.pageSize * a)
    (hl : (key.label cfg.pageSize).length = l) (hal : a ≤ l) (priority : ℤ) (chunked : Bool) :
    ∃ j t₁ c₁, S.cache.insert cfg key ((S.pool.row idx toks.length).take key.len) priority chunked
        = some (cfg.pageSize * j, c₁) ∧
      Stores cfg t S.cache (holders.map S.heldNode) key ((S.pool.row idx toks.length).take key.len)
        j t₁ c₁ ∧ a ≤ j ∧ j ≤ l := by
  subst hk hl
  have hkeyle := radixKey_len_le cfg (S.reqs r) toks
  obtain ⟨n, -, hsp⟩ := (hb.holds r hr).node
  obtain ⟨hpre, hlen⟩ := path_take_initial htoks hal
  rw [ha, Nat.mul_div_cancel_left _ cfg.pageSize_pos] at hsp
  have hkv : ((S.pool.row idx toks.length).take ((S.reqs r).radixKey cfg toks).len).length
      = ((S.reqs r).radixKey cfg toks).len := by simp [hkeyle]
  obtain ⟨j, t₁, c₁, hins, hst⟩ := insert_stores hb.inv hb.pagedTree
    (radixKey_fits cfg (S.reqs r) toks) hkv ((hb.paged_row hr hidx hle).take _)
    (fun hon => radixKey_hashable fun x hx =>
      hb.tokens r hon x (htoks.subset hx)) priority chunked
  exact ⟨j, t₁, c₁, hins, hst, hlen ▸ hst.longest _ _ _ hsp hpre, hst.le⟩

/-! ## 2. `cache_unfinished_req` -/

/-- **An unfinished request** gives the pages of its key to the tree, frees its duplicates, and
goes on with the slots of the tree. -/
theorem Books.cacheUnfinishedReq (hb : Books cfg args t holders S) (hr : r ∈ holders)
    (hidx : (S.reqs r).reqPoolIdx = some idx) (chunked : Bool) :
    ∃ t' S', S.cacheUnfinishedReq cfg r chunked = some S' ∧ Books cfg args t' holders S' := by
  have hp := cfg.pageSize_pos
  have hh := hb.holds r hr
  have hrun := hh.running idx hidx
  obtain ⟨hiff, hfreed⟩ := (hb.holders_iff r).mp hr
  have hlast := hh.lastNode_eq
  obtain ⟨n₀, -, hsp₀⟩ := hh.node
  have hkeyle := radixKey_len_le cfg (S.reqs r) (S.reqs r).fillIds
  have hkey := radixKey_fits cfg (S.reqs r) (S.reqs r).fillIds
  have hfa : (S.reqs r).fillIds.length ≤ (S.reqs r).kvAllocatedLen :=
    hrun.fill_le.trans hrun.committed_le
  obtain ⟨a, l, ha, hl, hal⟩ := hb.cut hr hrun.keep_le
  obtain ⟨hw₀, -⟩ := path_take_initial hrun.fill (hl ▸ hal)
  have hpath := path_eq_append hrun.fill hl
  have hkeep := hrun.keep_le
  generalize hk : (S.reqs r).radixKey cfg (S.reqs r).fillIds = key at *
  have hkl : key.len = cfg.pageSize * l := by rw [← hl]; exact hkey.len_eq
  have hdiv : (S.reqs r).cacheProtectedLen / cfg.pageSize = a := by
    rw [ha, Nat.mul_div_cancel_left _ hp]
  -- the insertion
  obtain ⟨j, t₁, c₁, hins, hst, haj, hle⟩ := hb.insert_row hr hidx hrun.fill hfa hk ha hl hal
    ((S.reqs r).priority.getD 0) chunked
  generalize hkv : S.pool.row idx (S.reqs r).fillIds.length = kv at hins hst
  have hkvpaged : Paged cfg.pageSize kv := hkv ▸ hb.paged_row hr hidx hfa
  -- the lookup, and the locks
  obtain ⟨vs, t₂, c₂, node, hmatch, hi₂, hp₂, hret₂, htree₂, hnode, hsp₂, hvs, hvspaged⟩ :=
    matchPrefix_stored hst.inv hst.pagedTree hkey hst.stored
  have hret : Retains cfg S.cache c₂ := hst.retains.trans hret₂
  obtain ⟨c₃, d₃, hdec, hre₃, hi₃⟩ := decLockRef_inv hi₂ (mem_map_of_mem hr)
  obtain ⟨c₄, d₄, hinc, hre₄, hi₄⟩ := incLockRef_inv hi₃ hnode
  have hret₄ : Retains cfg c₂ c₄ :=
    (hre₃.retains hi₂.represents).trans (hre₄.retains hi₃.represents)
  have heq := cacheUnfinishedReq_eq hidx hlast hk (hkv ▸ hins) hmatch hdec hinc
  rw [if_neg (fun h => h hvs), hkv] at heq
  generalize hS' : ({ S.free ((kv.take (cfg.pageSize * j)).drop (S.reqs r).cacheProtectedLen) with
      cache := c₄
      pool := S.pool.write idx (S.reqs r).cacheProtectedLen
        (vs.drop (S.reqs r).cacheProtectedLen) } : KVSystem).modifyReq r (fun x => { x with
        cacheProtectedLen := vs.length
        prefixIndices := if vs.length < (S.reqs r).fillIds.length then vs ++ kv.drop vs.length
          else vs
        lastNode := some node }) = S' at heq
  have hself : S'.reqs r = { S.reqs r with
      cacheProtectedLen := vs.length
      prefixIndices := if vs.length < (S.reqs r).fillIds.length then vs ++ kv.drop vs.length
        else vs
      lastNode := some node } := by rw [← hS', modifyReq_self]; rfl
  have hother : ∀ x, x ≠ r → S'.reqs x = S.reqs x := by
    intro x hx
    rw [← hS', modifyReq_ne _ _ hx]
    rfl
  have hcache : S'.cache = c₄ := by rw [← hS']; rfl
  have hpool : S'.pool = S.pool.write idx (S.reqs r).cacheProtectedLen
      (vs.drop (S.reqs r).cacheProtectedLen) := by rw [← hS']; rfl
  have halloc : S'.allocator = S.allocator.free
      ((kv.take (cfg.pageSize * j)).drop (S.reqs r).cacheProtectedLen) := by rw [← hS']; rfl
  -- the row afterwards: the tree's slots, then what stays
  have hinit : (S.reqs r).prefixIndices.take (S.reqs r).cacheProtectedLen
      = vs.take (S.reqs r).cacheProtectedLen := by
    have h1 := hi₂.represents.slots_initial (hret _ _ _ hsp₀) hsp₂ (by rw [hdiv]; exact hw₀)
    rw [prefix_iff_eq_take, length_take, min_eq_left hh.keep_le] at h1
    exact h1
  have hrow₀ : S.pool.row idx (S.reqs r).cacheProtectedLen
      = vs.take (S.reqs r).cacheProtectedLen := by
    rw [← hinit, ← hrun.pre_eq, row_take hh.keep_le]
  have hrow' : ∀ n, vs.length ≤ n → S'.pool.row idx n = vs ++ (S.pool.row idx n).drop vs.length := by
    intro n hn
    have hsum : (S.reqs r).cacheProtectedLen
        + (vs.drop (S.reqs r).cacheProtectedLen).length = vs.length := by
      rw [length_drop]
      omega
    rw [hpool, row_write (by rw [hsum]; exact hn), hsum, hrow₀, take_append_drop]
  have hpre' : (S'.reqs r).prefixIndices = S'.pool.row idx (S.reqs r).fillIds.length := by
    rw [hrow' _ (by rw [hvs]; exact hkeyle), hkv, hself]
    split
    · rfl
    · rename_i h
      rw [drop_eq_nil_of_le (by rw [← hkv]; simpa using Nat.not_lt.mp h), append_nil]
  have hprelen : (S'.reqs r).prefixIndices.length = (S.reqs r).fillIds.length := by
    rw [hpre', length_row]
  have hvl : vs.length = cfg.pageSize * l := hvs.trans hkl
  -- the pages
  obtain ⟨hrowPages, hHnd⟩ := hb.rowPages_eq hidx ha
  generalize hH : heads cfg.pageSize (S.pool.row idx (S.reqs r).kvAllocatedLen) = H at *
  have hjk : cfg.pageSize * j ≤ key.len := by rw [hkl]; exact Nat.mul_le_mul_left _ hle
  have hfreed' : heads cfg.pageSize ((kv.take (cfg.pageSize * j)).drop
      (S.reqs r).cacheProtectedLen) = (H.take j).drop a := by
    rw [← hkv, row_take (hjk.trans hkeyle), ha,
      heads_row_slice S.pool hp (hjk.trans (hkeyle.trans hfa)), hH, pageCount_mul hp]
  have hstored : heads cfg.pageSize ((kv.take key.len).drop (cfg.pageSize * j))
      = (H.take l).drop j := by
    rw [← hkv, row_take hkeyle, heads_row_slice S.pool hp (hkeyle.trans hfa), hH,
      hkl, pageCount_mul hp]
  have hpages : (S'.allocator).pages = S.allocator.pages + ((H.take j).drop a : List ℕ) := by
    rw [halloc, KVAllocator.pages_free, hb.pageSize, hfreed']
    · rw [hb.pageSize]; exact hp
    · exact hb.no_group
    · rw [hb.pageSize, ha]
      exact (hkvpaged.take _).drop hp a
    · rw [hb.pageSize, hfreed']
      have := take_drop_append (l := H) haj
      rw [← this] at hHnd
      exact (nodup_append.mp hHnd).1
  refine ⟨t₂, S', heq, hb.change (r := r) hb.nodup (fun _ _ => Iff.rfl) ?_ hother ?_ ?_ ?_ ?_ ?_
    (fun h => absurd hr h) (fun _ => ?_) ?_ ?_ ?_ ?_⟩
  · rw [hself]
    simp [hr, hfreed]
  · rw [halloc]
    exact KVAllocator.free_sameKind _ _
  · have hheld : S'.heldNode r = node := by rw [heldNode, hself]; rfl
    have hperm := held_perm hb.nodup hr fun x hx => show S'.heldNode x = S.heldNode x by
      rw [heldNode, hother x hx, heldNode]
    rw [hheld] at hperm
    rw [hcache]
    exact hi₄.perm hperm.symm
  · rw [hcache]
    exact hre₄.pagedTree (hre₃.pagedTree hp₂)
  · rw [hcache]
    exact (hret.trans hret₄).keeps
  · rw [hself]
    exact hb.tokens r
  · have hp' : (S'.reqs r).path cfg = (S.reqs r).path cfg := by rw [hself]; rfl
    have hprot : (S'.reqs r).cacheProtectedLen = vs.length := by rw [hself]
    have hidx' : (S'.reqs r).reqPoolIdx = some idx := by rw [hself]; exact hidx
    refine ⟨⟨node, by rw [hself], ?_⟩, by rw [hprot, hvl]; exact Dvd.intro _ rfl, ?_, ?_, ?_, ?_, ?_⟩
    · have h1 : ((S.reqs r).path cfg).take (vs.length / cfg.pageSize) = key.label cfg.pageSize := by
        rw [hvl, Nat.mul_div_cancel_left _ hp, hpath, ← hl, take_left]
      have h2 : (S'.reqs r).prefixIndices.take vs.length = vs := by
        rw [hpre', hrow' _ (by rw [hvs]; exact hkeyle), take_left]
      rw [hprot, hp', h1, h2, hcache]
      exact hret₄ _ _ _ hsp₂
    · rw [hprelen, hprot, hvs]
      exact hkeyle
    · rw [hprot, hvs, hself]
      exact hk ▸ radixKey_len_mono hrun.fill
    · rw [hself]
      exact hh.not_freed
    · intro h
      rw [hidx'] at h
      cases h
    · intro idx' h
      rw [hidx'] at h
      cases h
      refine ⟨by rw [hself]; exact hrun.fill, ?_, by rw [hself]; exact hrun.fill_le,
        by rw [hself]; exact hrun.committed_le, by rw [hself]; exact hrun.no_spec, ?_, ?_, ?_⟩
      · rw [hprot, hvs, hself, ← hk]
        exact le_rfl
      · rw [hprelen, hself]
        exact hfa
      · rw [hprelen, hpre']
      · have h1 : (S'.reqs r).kvAllocatedLen = (S.reqs r).kvAllocatedLen := by rw [hself]
        rw [h1, hrow' _ (by rw [hvs]; exact hkeyle.trans hfa)]
        refine hvspaged.append hp (by rw [hvl]; exact Dvd.intro _ rfl) ?_
        rw [hvl]
        exact hrun.paged.drop hp l
  · intro x hx idx' hidx'
    have hne : idx' ≠ idx := by
      rintro rfl
      exact hx (hb.rows_inj x r _ hidx' hidx)
    refine ⟨by rw [hpool, write_ne hne], ?_⟩
    rw [hself]
    intro h
    rw [hidx] at h
    cases h
    exact hne rfl
  · rw [hpool]
    exact hb.slots_nodup
  · intro idx' h x
    rw [hpool] at h
    by_cases hx : x = r
    · rw [hx, hself]
      exact hb.slots_free idx' h r
    · rw [hother x hx]
      exact hb.slots_free idx' h x
  · have hrow'' : rowPages cfg S'.pool (S'.reqs r) = (H.drop l : List ℕ) := by
      have h1 : (S'.reqs r).reqPoolIdx = some idx := by rw [hself]; exact hidx
      have h2 : (S'.reqs r).kvAllocatedLen = (S.reqs r).kvAllocatedLen := by rw [hself]
      have h3 : (S'.reqs r).cacheProtectedLen = vs.length := by rw [hself]
      rw [rowPages, h1, h2, h3]
      simp only
      rw [hrow' _ (by rw [hvs]; exact hkeyle.trans hfa), drop_left, hvl, heads_drop hp, hH]
    rw [hpages, hrow'', hrowPages, hcache, treePages_congr hre₄.slots, treePages_congr hre₃.slots,
      htree₂, hst.treePages, hstored, ← take_drop_append (l := H) haj,
      ← take_drop_append (l := H) hle, ← Multiset.coe_add, ← Multiset.coe_add]
    abel

/-! ## 3. `release_kv_cache` -/

/-- With `strip_thinking_cache` a request that has thought is stored up to the end of its prompt
only.  The release is safe if the tree does not own more of the row than that. -/
def StripSafe (cfg : CacheConfig) (args : ServerArgs) (req : Req) : Prop :=
  args.stripThinkingCache = true → req.reasoningTokens > 0 →
    req.cacheProtectedLen ≤ (req.radixKey cfg req.originInputIds).len

/-- The key of a release covers what the tree owns of the row. -/
theorem StripSafe.keep_le {req : Req} {P : ReqToTokenPool} (hs : StripSafe cfg args req)
    (hrun : Running cfg args P req idx) :
    req.cacheProtectedLen ≤ (req.radixKey cfg (req.tokenIds.take (req.cacheCommitLen args))).len := by
  have hfill : req.fillIds <+: req.tokenIds.take req.kvCommittedLen := by
    have h := hrun.fill
    rw [prefix_iff_eq_take] at h
    rw [h]
    exact take_prefix_take_left hrun.fill_le
  have hall := hrun.keep_le.trans (radixKey_len_mono hfill)
  unfold cacheCommitLen
  split
  · rename_i h
    rcases Nat.le_total req.kvCommittedLen req.originInputIds.length with hle | hle
    · rw [min_eq_left hle]
      exact hall
    · have horig : req.tokenIds.take req.originInputIds.length = req.originInputIds :=
        take_left
      rw [min_eq_right hle, horig]
      exact hs h.1 h.2
  · exact hall

theorem cacheCommitLen_le (args : ServerArgs) (req : Req) :
    req.cacheCommitLen args ≤ req.kvCommittedLen := by
  unfold cacheCommitLen
  split
  · exact min_le_left _ _
  · exact le_rfl

theorem free_nil (A : KVAllocator) : A.free [] = A := by
  simp [KVAllocator.free, TokenToKVPoolAllocator.free, PagedTokenToKVPoolAllocator.free]

/-- The store of a release, with or without an insertion: the tree takes the pages from `j` on. -/
theorem Books.storeFinished (hb : Books cfg args t holders S) (hr : r ∈ holders)
    (hidx : (S.reqs r).reqPoolIdx = some idx) {toks : List Token}
    (htoks : toks <+: (S.reqs r).tokenIds) (hle : toks.length ≤ (S.reqs r).kvAllocatedLen)
    (hkeep : (S.reqs r).cacheProtectedLen ≤ ((S.reqs r).radixKey cfg toks).len)
    (isInsert : Bool) :
    ∃ a j l t₁ c₁, (S.reqs r).cacheProtectedLen = cfg.pageSize * a ∧
      ((S.reqs r).radixKey cfg toks).len = cfg.pageSize * l ∧ a ≤ j ∧ j ≤ l ∧
      (S.modifyReq r fun x => { x with kvCommittedFreed := true }).storeFinished cfg r isInsert
          ((S.reqs r).radixKey cfg toks) (S.pool.row idx toks.length)
        = some (({ S with cache := c₁ }.modifyReq r fun x => { x with kvCommittedFreed := true }).free
            (((S.pool.row idx toks.length).take (cfg.pageSize * j)).drop (cfg.pageSize * a))) ∧
      Inv cfg t₁ (holders.map S.heldNode) c₁ ∧ PagedTree cfg.pageSize t₁ c₁ ∧
      Keeps cfg S.cache c₁ ∧
      treePages cfg.pageSize t₁ c₁ = treePages cfg.pageSize t S.cache
        + (heads cfg.pageSize (((S.pool.row idx toks.length).take (cfg.pageSize * l)).drop
            (cfg.pageSize * j)) : List ℕ) := by
  obtain ⟨a, l, ha, hl, hal⟩ := hb.cut hr hkeep
  have hlen := radixKey_len_eq cfg (S.reqs r) toks
  rw [hl] at hlen
  cases isInsert with
  | false =>
    refine ⟨a, l, l, t, S.cache, ha, hlen, hal, le_rfl, ?_, hb.inv, hb.pagedTree,
      fun _ _ _ h _ => h, ?_⟩
    · simp [KVSystem.storeFinished, hlen, ha]
    · rw [drop_eq_nil_of_le (by simp), heads_nil cfg.pageSize_pos, Multiset.coe_nil, add_zero]
  | true =>
    obtain ⟨j, t₁, c₁, hins, hst, haj, hjl⟩ := hb.insert_row hr hidx htoks hle rfl ha hl hal
      ((S.reqs r).priority.getD 0) false
    refine ⟨a, j, l, t₁, c₁, ha, hlen, haj, hjl, ?_, hst.inv, hst.pagedTree, hst.retains.keeps, ?_⟩
    · rw [storeFinished_true (by rw [modifyReq_self]; exact hins), modifyReq_self, ← ha]
      rfl
    · rw [hst.treePages, hlen]

/-- `cache_finished_req` of a holder: the duplicates are freed, and what is behind the last whole
page of the key. -/
theorem Books.cacheFinishedReq (hb : Books cfg args t holders S) (hr : r ∈ holders)
    (hidx : (S.reqs r).reqPoolIdx = some idx) {toks : List Token}
    (htoks : (S.reqs r).tokenIds.take ((S.reqs r).cacheCommitLen args) = toks)
    (hle : toks.length ≤ (S.reqs r).kvAllocatedLen)
    (hkeep : (S.reqs r).cacheProtectedLen ≤ ((S.reqs r).radixKey cfg toks).len)
    (isInsert : Bool) :
    ∃ a j l t₁ c₁, (S.reqs r).cacheProtectedLen = cfg.pageSize * a ∧
      cfg.pageSize * l ≤ toks.length ∧ a ≤ j ∧ j ≤ l ∧
      S.cacheFinishedReq cfg args r isInsert
        = some (([((S.pool.row idx toks.length).take (cfg.pageSize * j)).drop (cfg.pageSize * a),
            (S.pool.row idx toks.length).drop (cfg.pageSize * l)].foldl free
              { S with cache := c₁ }).modifyReq r fun x => { x with kvCommittedFreed := true }) ∧
      Inv cfg t₁ ((holders.map S.heldNode).erase (S.heldNode r)) c₁ ∧
      PagedTree cfg.pageSize t₁ c₁ ∧ Keeps cfg S.cache c₁ ∧
      treePages cfg.pageSize t₁ c₁ = treePages cfg.pageSize t S.cache
        + (heads cfg.pageSize (((S.pool.row idx toks.length).take (cfg.pageSize * l)).drop
            (cfg.pageSize * j)) : List ℕ) := by
  have hpre : toks <+: (S.reqs r).tokenIds := htoks ▸ take_prefix _ _
  obtain ⟨a, j, l, t₁, c₁, ha, hlen, haj, hjl, hstore, hi₁, hp₁, hk₁, htree⟩ :=
    hb.storeFinished hr hidx hpre hle hkeep (if cfg.disableFinishedInsert then false else isInsert)
  obtain ⟨c₂, d, hdec, hre, hi₂⟩ := decLockRef_inv hi₁ (mem_map_of_mem hr)
  have hkeyle := radixKey_len_le cfg (S.reqs r) toks
  refine ⟨a, j, l, t₁, c₂, ha, hlen ▸ hkeyle, haj, hjl, ?_, hi₂, hre.pagedTree hp₁,
    fun n w vs h hin => ?_, by rw [treePages_congr hre.slots, htree]⟩
  · rw [cacheFinishedReq_eq ((hb.holders_iff r).mp hr).2 hidx htoks, hstore, hlen]
    refine (unlockLast_some (n := S.heldNode r) ?_ hdec).trans rfl
    rw [free_reqs, free_reqs, modifyReq_self]
    exact (hb.holds r hr).lastNode_eq
  · refine hre.retains hi₁.represents _ _ _ (hk₁ n w vs h ?_)
    exact hi₁.represents.inTree_iff.mpr (hi₂.represents.inTree_iff.mp hin)

/-- `release_kv_cache` once `cache_finished_req` has returned; the range behind the committed part
begins with a page. -/
theorem releaseKvCache_eq {isInsert : Bool} {S₁ : KVSystem}
    (hidx : (S.reqs r).reqPoolIdx = some idx) (hfreed : (S.reqs r).kvOverallocatedFreed = false)
    (hspec : args.speculativeAlgorithm = false → args.stripThinkingCache = false →
      (S.reqs r).cacheCommitLen args = (S.reqs r).kvAllocatedLen)
    (hfin : S.cacheFinishedReq cfg args r (isInsert && !(S.reqs r).skipRadixCacheInsert)
      = some (S₁.modifyReq r fun x => { x with kvCommittedFreed := true }))
    (hreqs : S₁.reqs = S.reqs) (hpool : S₁.pool = S.pool) :
    S.releaseKvCache cfg args r isInsert
      = some ({ S₁.free ((S.pool.row idx (S.reqs r).kvAllocatedLen).drop
            (cfg.pageSize * pageCount cfg.pageSize ((S.reqs r).cacheCommitLen args))) with
          pool := { S.pool with freeSlots := S.pool.freeSlots ++ [idx] } }.modifyReq r
        fun x => { x with kvCommittedFreed := true, kvOverallocatedFreed := true,
                          reqPoolIdx := none }) := by
  generalize hS₂ : (S₁.modifyReq r fun x => { x with kvCommittedFreed := true }) = S₂ at hfin
  have hself : S₂.reqs r = { S.reqs r with kvCommittedFreed := true } := by
    rw [← hS₂, modifyReq_self, hreqs]
  have hidx₂ : (S₂.reqs r).reqPoolIdx = some idx := by rw [hself]; exact hidx
  have hfreed₂ : (S₂.reqs r).kvOverallocatedFreed = false := by rw [hself]; exact hfreed
  have hcl : (S₂.reqs r).cacheCommitLen args = (S.reqs r).cacheCommitLen args := by rw [hself]; rfl
  have hend : (S₂.reqs r).kvAllocatedLen = (S.reqs r).kvAllocatedLen := by rw [hself]
  have hpool₂ : S₂.pool = S.pool := by rw [← hS₂, modifyReq_pool, hpool]
  have hstart : (if cfg.pageSize > 1 then ((S.reqs r).cacheCommitLen args + cfg.pageSize - 1)
        / cfg.pageSize * cfg.pageSize else (S.reqs r).cacheCommitLen args)
      = cfg.pageSize * pageCount cfg.pageSize ((S.reqs r).cacheCommitLen args) := by
    split
    · exact Nat.mul_comm _ _
    · have h1 : cfg.pageSize = 1 := Nat.le_antisymm (Nat.not_lt.mp ‹_›) cfg.pageSize_pos
      rw [h1, pageCount_one, Nat.one_mul]
  simp only [KVSystem.releaseKvCache, hidx, hfin, hidx₂, hfreed₂, hcl, hend, hstart,
    bind_eq_bind, bind_some, Bool.false_eq_true, if_false]
  rw [if_neg fun h => h.2.2 (hspec h.1 h.2.1)]
  generalize cfg.pageSize * pageCount cfg.pageSize ((S.reqs r).cacheCommitLen args) = startP
  have hfree : (if startP < (S.reqs r).kvAllocatedLen then
        (S₂.modifyReq r fun x => { x with kvOverallocatedFreed := true }).free
          (((S₂.modifyReq r fun x => { x with kvOverallocatedFreed := true }).pool.row idx
            (S.reqs r).kvAllocatedLen).drop startP)
        else S₂.modifyReq r fun x => { x with kvOverallocatedFreed := true })
      = (S₂.modifyReq r fun x => { x with kvOverallocatedFreed := true }).free
          ((S.pool.row idx (S.reqs r).kvAllocatedLen).drop startP) := by
    split
    · rw [modifyReq_pool, hpool₂]
    · rw [drop_eq_nil_of_le (by simpa using Nat.not_lt.mp ‹_›), free, free_nil]
  rw [hfree, ← hS₂]
  simp [modifyReq, free, hpool]

/-- **A released request** gives everything back: the tree takes the pages from `j` to `l`, and
the allocator the rest of what the request owned. -/
theorem Books.releaseKvCache (hb : Books cfg args t holders S) (hr : r ∈ holders)
    (hidx : (S.reqs r).reqPoolIdx = some idx)
    (hcommit : (S.reqs r).kvCommittedLen ≤ (S.reqs r).tokenIds.length)
    (hsafe : StripSafe cfg args (S.reqs r)) (isInsert : Bool) :
    ∃ t' S', S.releaseKvCache cfg args r isInsert = some S' ∧
      Books cfg args t' (holders.erase r) S' := by
  have hp := cfg.pageSize_pos
  have hh := hb.holds r hr
  have hrun := hh.running idx hidx
  generalize htoks : (S.reqs r).tokenIds.take ((S.reqs r).cacheCommitLen args) = toks
  have hlen : toks.length = (S.reqs r).cacheCommitLen args := by
    rw [← htoks, length_take, min_eq_left ((cacheCommitLen_le args _).trans hcommit)]
  have hle : toks.length ≤ (S.reqs r).kvAllocatedLen := by
    rw [hlen]
    exact (cacheCommitLen_le args _).trans hrun.committed_le
  obtain ⟨a, j, l, t₁, c₁, ha, hl, haj, hjl, hfin, hi₁, hp₁, hk₁, htree⟩ :=
    hb.cacheFinishedReq hr hidx htoks hle (htoks ▸ hsafe.keep_le hrun)
      (isInsert && !(S.reqs r).skipRadixCacheInsert)
  have hrel := releaseKvCache_eq hidx hh.not_freed (fun h1 h2 => by
    rw [cacheCommitLen, if_neg (by simp [h2]), hrun.no_spec h1]) hfin
    (by rw [foldl_free_eq]) (by rw [foldl_free_eq])
  rw [← hlen] at hrel
  -- the pages, cut at `a ≤ j ≤ l ≤ m`
  obtain ⟨hrow, hnd⟩ := hb.rowPages_eq hidx ha
  generalize hH : heads cfg.pageSize (S.pool.row idx (S.reqs r).kvAllocatedLen) = H at hrow hnd
  generalize hm : pageCount cfg.pageSize toks.length = m at hrel
  have hlm : l ≤ m := by
    rw [← hm, ← pageCount_mul hp l]
    exact pageCount_mono _ hl
  have hjt : cfg.pageSize * j ≤ toks.length := (Nat.mul_le_mul_left _ hjl).trans hl
  have hf₁ : heads cfg.pageSize (((S.pool.row idx toks.length).take (cfg.pageSize * j)).drop
      (cfg.pageSize * a)) = (H.take j).drop a := by
    rw [row_take hjt, heads_row_slice S.pool hp (hjt.trans hle), hH, pageCount_mul hp]
  have hf₂ : heads cfg.pageSize ((S.pool.row idx toks.length).drop (cfg.pageSize * l))
      = (H.take m).drop l := by rw [heads_row_slice S.pool hp hle, hH, hm]
  have hf₃ : heads cfg.pageSize ((S.pool.row idx (S.reqs r).kvAllocatedLen).drop
      (cfg.pageSize * m)) = H.drop m := by rw [heads_drop hp, hH]
  have hst : heads cfg.pageSize (((S.pool.row idx toks.length).take (cfg.pageSize * l)).drop
      (cfg.pageSize * j)) = (H.take l).drop j := by
    rw [row_take hl, heads_row_slice S.pool hp (hl.trans hle), hH, pageCount_mul hp]
  have hcut : (H.drop a : Multiset ℕ) = ((H.take l).drop j : List ℕ)
        + ((H.take j).drop a ++ ((H.take m).drop l ++ H.drop m) : List ℕ) := by
    rw [take_drop_append hlm, ← take_drop_append haj, ← take_drop_append hjl, ← Multiset.coe_add,
      ← Multiset.coe_add, ← Multiset.coe_add]
    abel
  generalize hfr : [((S.pool.row idx toks.length).take (cfg.pageSize * j)).drop (cfg.pageSize * a),
      (S.pool.row idx toks.length).drop (cfg.pageSize * l),
      (S.pool.row idx (S.reqs r).kvAllocatedLen).drop (cfg.pageSize * m)] = freed
  have hflat : freed.flatMap (heads cfg.pageSize)
      = (H.take j).drop a ++ ((H.take m).drop l ++ H.drop m) := by
    rw [← hfr]
    simp [hf₁, hf₂, hf₃]
  have hpaged : ∀ value ∈ freed, Paged cfg.pageSize value := by
    rw [← hfr]
    have h1 := hb.paged_row hr hidx hle
    simp only [forall_mem_cons, not_mem_nil, false_imp_iff, implies_true, and_true]
    exact ⟨(h1.take _).drop hp a, h1.drop hp l, hrun.paged.drop hp m⟩
  obtain ⟨hpages, hkind⟩ := KVAllocator.pages_foldl_free (A := S.allocator)
    (by rw [hb.pageSize]; exact hp) hb.no_group (by rw [hb.pageSize]; exact hpaged) (by
      rw [hb.pageSize, hflat]
      rw [← Multiset.coe_nodup, hcut] at hnd
      exact Multiset.coe_nodup.mp (Multiset.nodup_of_le (Multiset.le_add_left _ _) hnd))
  rw [hb.pageSize, hflat] at hpages
  generalize hS' : (KVSystem.modifyReq _ _ _ : KVSystem) = S' at hrel
  have hself : S'.reqs r = { S.reqs r with
      kvCommittedFreed := true
      kvOverallocatedFreed := true
      reqPoolIdx := none } := by
    rw [← hS', modifyReq_self]
    rfl
  have hother : ∀ x, x ≠ r → S'.reqs x = S.reqs x := by
    intro x hx
    rw [← hS', modifyReq_ne _ _ hx]
    rfl
  have hcache : S'.cache = c₁ := by rw [← hS']; rfl
  have hpool : S'.pool = { S.pool with freeSlots := S.pool.freeSlots ++ [idx] } := by
    rw [← hS']
    rfl
  have halloc : S'.allocator = freed.foldl KVAllocator.free S.allocator := by
    rw [← hS', ← hfr]
    rfl
  have hout : r ∉ holders.erase r := fun h => ((List.Nodup.mem_erase_iff hb.nodup).mp h).1 rfl
  refine ⟨t₁, S', hrel, hb.change (r := r) (hb.nodup.erase r)
    (fun x hx => mem_erase_of_ne hx) ?_ hother ?_ ?_ ?_ ?_ ?_ ?_ (fun h => absurd h hout) ?_ ?_
    ?_ ?_⟩
  · rw [hself]
    simp [hout]
  · rw [halloc]
    exact hkind
  · have h1 := held_perm hb.nodup hr fun x hx => show S'.heldNode x = S.heldNode x by
      rw [heldNode, hother x hx, heldNode]
    have h2 := ((perm_cons_erase hr).map S'.heldNode).symm.trans h1
    rw [hcache]
    exact hi₁.perm (List.Perm.cons_inv h2).symm
  · rw [hcache]
    exact hp₁
  · rw [hcache]
    exact hk₁
  · rw [hself]
    exact hb.tokens r
  · intro _
    rw [hself]
  · intro x hx idx' hidx'
    rw [hself, hpool]
    exact ⟨rfl, (some_ne_none _).symm⟩
  · rw [hpool]
    refine nodup_append.mpr ⟨hb.slots_nodup, nodup_singleton _, ?_⟩
    intro x hx y hy
    rw [mem_singleton] at hy
    rintro rfl
    exact hb.slots_free x hx r (hy ▸ hidx)
  · intro idx' h x
    rw [hpool, mem_append, mem_singleton] at h
    by_cases hx : x = r
    · rw [hx, hself]
      exact (some_ne_none _).symm
    · rw [hother x hx]
      rcases h with h | rfl
      · exact hb.slots_free idx' h x
      · exact fun h' => hx (hb.rows_inj x r _ h' hidx)
  · have h0 : rowPages cfg S'.pool (S'.reqs r) = 0 := by rw [rowPages, hself]
    rw [h0, halloc, hpages, hcache, htree, hst, hrow, hcut]
    abel

end KVSystem

end Sglang
