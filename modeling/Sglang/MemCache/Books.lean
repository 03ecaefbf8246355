/-
# Who owns which page

`Books cfg args t holders S` is the invariant of a server that keeps its books: the pages of the
allocator, those of the nodes of the tree and those that the live requests hold behind their
`cache_protected_len` are together the pages `1 .. num_pages`, each one once.  `holders` are the
requests that hold a lock, from their admission to their release.

What makes the moves between the four places come out right is kept for each holder in `Holds`:
the first `cache_protected_len` slots of its row are those of the path to its `last_node`, that
path is spelled by its own tokens, and the row reads whole pages.  So an insertion of its tokens
finds at least that much, every slot it finds beyond is a duplicate the request owns, and every
bound at which a row is cut is a page boundary.
-/
import Sglang.MemCache.TreePages

namespace Sglang

open Lib List Finset

/-! ## 1. The path of a request -/

namespace Req

variable {cfg : CacheConfig} {req : Req} {toks toks' : List Token}

/-- The pages of all tokens of a request. -/
def path (cfg : CacheConfig) (req : Req) : List RadixKey.TaggedPage :=
  (req.radixKey cfg req.tokenIds).label cfg.pageSize

theorem radixKey_label_mono (h : toks' <+: toks) :
    (req.radixKey cfg toks').label cfg.pageSize <+: (req.radixKey cfg toks).label cfg.pageSize := by
  rw [radixKey, radixKey, RadixKey.label_pageAligned cfg.pageSize_pos,
    RadixKey.label_pageAligned cfg.pageSize_pos]
  refine List.IsPrefix.map _ (chunks_prefix_mono _ ?_)
  unfold RadixKey.iter
  cases cfg.isEagle with
  | false => exact h.map _
  | true =>
    rw [prefix_iff_eq_take] at h
    rw [h]
    cases toks'.length with
    | zero => simp
    | succ n =>
      rw [RadixKey.zipWith_tail_take]
      exact take_prefix _ _

theorem radixKey_len_eq (cfg : CacheConfig) (req : Req) (toks : List Token) :
    (req.radixKey cfg toks).len
      = cfg.pageSize * ((req.radixKey cfg toks).label cfg.pageSize).length :=
  (radixKey_fits cfg req toks).len_eq

theorem radixKey_len_mono (h : toks' <+: toks) :
    (req.radixKey cfg toks').len ≤ (req.radixKey cfg toks).len := by
  rw [radixKey_len_eq, radixKey_len_eq]
  exact Nat.mul_le_mul_left _ (radixKey_label_mono h).length_le

theorem le_radixKey_len {a : ℕ} (ha : cfg.pageSize ∣ a) (hlt : a < toks.length) :
    a ≤ (req.radixKey cfg toks).len := by
  obtain ⟨j, rfl⟩ := ha
  have hle : cfg.pageSize * j ≤ (⟨toks, req.extraKey, cfg.isEagle⟩ : RadixKey).len := by
    unfold RadixKey.len
    split
    · exact Nat.le_sub_one_of_lt hlt
    · exact hlt.le
  rw [radixKey, RadixKey.len_pageAligned, Nat.mul_comm]
  refine Nat.mul_le_mul_right _ ((Nat.le_div_iff_mul_le cfg.pageSize_pos).mpr ?_)
  rwa [Nat.mul_comm]

/-- The start of the path, read off a part of the tokens. -/
theorem path_take {k : ℕ} (h : toks' <+: req.tokenIds)
    (hk : cfg.pageSize * k ≤ (req.radixKey cfg toks').len) :
    (req.path cfg).take k = ((req.radixKey cfg toks').label cfg.pageSize).take k := by
  have hpre : (req.radixKey cfg toks').label cfg.pageSize <+: req.path cfg :=
    radixKey_label_mono h
  rw [radixKey_len_eq] at hk
  have hk' := Nat.le_of_mul_le_mul_left hk cfg.pageSize_pos
  obtain ⟨a, ha⟩ := hpre
  rw [← ha, take_append_of_le_length hk']

end Req

namespace KVSystem

open RadixCache

/-! ## 2. The invariant -/

/-- A request with a row. -/
structure Running (cfg : CacheConfig) (args : ServerArgs) (P : ReqToTokenPool) (req : Req)
    (idx : ℕ) : Prop where
  fill : req.fillIds <+: req.tokenIds
  keep_le : req.cacheProtectedLen ≤ (req.radixKey cfg req.fillIds).len
  fill_le : req.fillIds.length ≤ req.kvCommittedLen
  committed_le : req.kvCommittedLen ≤ req.kvAllocatedLen
  no_spec : args.speculativeAlgorithm = false → req.kvCommittedLen = req.kvAllocatedLen
  pre_le : req.prefixIndices.length ≤ req.kvAllocatedLen
  pre_eq : P.row idx req.prefixIndices.length = req.prefixIndices
  paged : Paged cfg.pageSize (P.row idx req.kvAllocatedLen)

/-- A request that holds a lock. -/
structure Holds (cfg : CacheConfig) (args : ServerArgs) (c : RadixCache ℕ) (P : ReqToTokenPool)
    (req : Req) : Prop where
  node : ∃ n, req.lastNode = some n ∧
    Spells cfg c n ((req.path cfg).take (req.cacheProtectedLen / cfg.pageSize))
      (req.prefixIndices.take req.cacheProtectedLen)
  aligned : cfg.pageSize ∣ req.cacheProtectedLen
  keep_le : req.cacheProtectedLen ≤ req.prefixIndices.length
  keep_le_path : req.cacheProtectedLen ≤ (req.radixKey cfg req.tokenIds).len
  not_freed : req.kvOverallocatedFreed = false
  idle : req.reqPoolIdx = none → req.prefixIndices.length = req.cacheProtectedLen
  running : ∀ idx, req.reqPoolIdx = some idx → Running cfg args P req idx

/-- The node a request holds. -/
def heldNode (S : KVSystem) (r : ReqId) : NodeId := (S.reqs r).lastNode.getD 0

/-- The pages a request owns: those of its row behind the part that is the tree's. -/
def rowPages (cfg : CacheConfig) (P : ReqToTokenPool) (req : Req) : Multiset ℕ :=
  match req.reqPoolIdx with
  | none => 0
  | some idx => heads cfg.pageSize ((P.row idx req.kvAllocatedLen).drop req.cacheProtectedLen)

/-- **The books balance.** -/
structure Books (cfg : CacheConfig) (args : ServerArgs) (t : RootedTree NodeId)
    (holders : List ReqId) (S : KVSystem) : Prop where
  pageSize : S.allocator.pageSize = cfg.pageSize
  no_group : S.allocator.isNotInFreeGroup = true
  nodup : holders.Nodup
  holders_iff : ∀ r, r ∈ holders ↔
    (S.reqs r).lastNode.isSome = true ∧ (S.reqs r).kvCommittedFreed = false
  inv : Inv cfg t (holders.map S.heldNode) S.cache
  pagedTree : PagedTree cfg.pageSize t S.cache
  tokens : ∀ r, TokensOk cfg (S.reqs r).tokenIds
  no_row : ∀ r, r ∉ holders → (S.reqs r).reqPoolIdx = none
  holds : ∀ r ∈ holders, Holds cfg args S.cache S.pool (S.reqs r)
  rows_inj : ∀ r r' idx, (S.reqs r).reqPoolIdx = some idx → (S.reqs r').reqPoolIdx = some idx →
    r = r'
  slots_nodup : S.pool.freeSlots.Nodup
  slots_free : ∀ idx ∈ S.pool.freeSlots, ∀ r, (S.reqs r).reqPoolIdx ≠ some idx
  ledger : S.allocator.pages + treePages cfg.pageSize t S.cache
      + (holders.map fun r => rowPages cfg S.pool (S.reqs r)).sum
    = (Finset.Icc 1 S.allocator.numPages).val

section Books

variable {cfg : CacheConfig} {args : ServerArgs} {t t' : RootedTree NodeId}
  {holders : List ReqId} {S S' : KVSystem} {r : ReqId} {c c' : RadixCache ℕ}
  {P : ReqToTokenPool} {req : Req}

theorem Holds.of_keeps (h : Holds cfg args c P req) (hk : Keeps cfg c c')
    (hin : ∀ n, req.lastNode = some n → InTree cfg c' n) : Holds cfg args c' P req := by
  obtain ⟨n, hn, hsp⟩ := h.node
  exact { h with node := ⟨n, hn, hk n _ _ hsp (hin n hn)⟩ }

/-- What a holder's lock refers to. -/
theorem Holds.lastNode_eq (h : Holds cfg args S.cache S.pool (S.reqs r)) :
    (S.reqs r).lastNode = some (S.heldNode r) := by
  obtain ⟨n, hn, -⟩ := h.node
  rw [heldNode, hn]
  rfl

/-- The tree and the allocator may change as long as pages only move between the two. -/
theorem Books.of_cache (hb : Books cfg args t holders S) {A' : KVAllocator}
    (hi : Inv cfg t' (holders.map S.heldNode) c') (hp : PagedTree cfg.pageSize t' c')
    (hk : Keeps cfg S.cache c') (hkind : S.allocator.SameKind A')
    (hled : A'.pages + treePages cfg.pageSize t' c'
      = S.allocator.pages + treePages cfg.pageSize t S.cache) :
    Books cfg args t' holders { S with cache := c', allocator := A' } where
  pageSize := hkind.pageSize.trans hb.pageSize
  no_group := hkind.isNotInFreeGroup.trans hb.no_group
  nodup := hb.nodup
  holders_iff := hb.holders_iff
  inv := hi
  pagedTree := hp
  tokens := hb.tokens
  no_row := hb.no_row
  holds := fun r hr => (hb.holds r hr).of_keeps hk fun n hn => by
    rw [(hb.holds r hr).lastNode_eq] at hn
    cases hn
    exact hi.represents.inTree_iff.mpr (hi.locks_mem _ (List.mem_map_of_mem hr))
  rows_inj := hb.rows_inj
  slots_nodup := hb.slots_nodup
  slots_free := hb.slots_free
  ledger := by
    rw [hled, hkind.numPages]
    exact hb.ledger

theorem Books.nodup_ledger (hb : Books cfg args t holders S) :
    (S.allocator.pages + treePages cfg.pageSize t S.cache
      + (holders.map fun r => rowPages cfg S.pool (S.reqs r)).sum).Nodup := by
  rw [hb.ledger]
  exact Finset.nodup _

theorem Books.nodup_tree (hb : Books cfg args t holders S) :
    (treePages cfg.pageSize t S.cache).Nodup :=
  Multiset.nodup_of_le ((Multiset.le_add_left _ _).trans (Multiset.le_add_right _ _))
    hb.nodup_ledger

/-- What the holders own, with one request set apart; a request without a lock owns nothing. -/
theorem sum_rowPages (hnd : holders.Nodup) (hno : r ∉ holders → (S.reqs r).reqPoolIdx = none) :
    (holders.map fun x => rowPages cfg S.pool (S.reqs x)).sum = rowPages cfg S.pool (S.reqs r)
        + ∑ x ∈ holders.toFinset.erase r, rowPages cfg S.pool (S.reqs x) := by
  rw [← sum_toFinset _ hnd]
  by_cases hr : r ∈ holders
  · exact (add_sum_erase _ _ (mem_toFinset.mpr hr)).symm
  · have h0 : rowPages cfg S.pool (S.reqs r) = 0 := by rw [rowPages, hno hr]
    rw [erase_eq_of_notMem (fun h => hr (mem_toFinset.mp h)), h0, zero_add]

/-- **One request at a time.**  A step of the request `r` may change its record, its row, the tree
and the allocator; the books balance again if the locks are right, the paths of the other holders
stay, and pages only move between the tree, the allocator and `r`. -/
theorem Books.change (hb : Books cfg args t holders S) {holders' : List ReqId}
    (hnd : holders'.Nodup) (hmem : ∀ x, x ≠ r → (x ∈ holders' ↔ x ∈ holders))
    (hself : r ∈ holders' ↔ (S'.reqs r).lastNode.isSome = true ∧
      (S'.reqs r).kvCommittedFreed = false)
    (hother : ∀ x, x ≠ r → S'.reqs x = S.reqs x) (hkind : S.allocator.SameKind S'.allocator)
    (hi : Inv cfg t' (holders'.map S'.heldNode) S'.cache) (hp : PagedTree cfg.pageSize t' S'.cache)
    (hk : Keeps cfg S.cache S'.cache) (htok : TokensOk cfg (S'.reqs r).tokenIds)
    (hno : r ∉ holders' → (S'.reqs r).reqPoolIdx = none)
    (hholds : r ∈ holders' → Holds cfg args S'.cache S'.pool (S'.reqs r))
    (hrows : ∀ x, x ≠ r → ∀ idx, (S.reqs x).reqPoolIdx = some idx →
      S'.pool.reqToToken idx = S.pool.reqToToken idx ∧ (S'.reqs r).reqPoolIdx ≠ some idx)
    (hsnd : S'.pool.freeSlots.Nodup)
    (hfree : ∀ idx ∈ S'.pool.freeSlots, ∀ x, (S'.reqs x).reqPoolIdx ≠ some idx)
    (hled : S'.allocator.pages + treePages cfg.pageSize t' S'.cache
        + rowPages cfg S'.pool (S'.reqs r)
      = S.allocator.pages + treePages cfg.pageSize t S.cache + rowPages cfg S.pool (S.reqs r)) :
    Books cfg args t' holders' S' where
  pageSize := hkind.pageSize.trans hb.pageSize
  no_group := hkind.isNotInFreeGroup.trans hb.no_group
  nodup := hnd
  holders_iff := by
    intro x
    by_cases hx : x = r
    · rw [hx]; exact hself
    · rw [hother x hx, hmem x hx]; exact hb.holders_iff x
  inv := hi
  pagedTree := hp
  tokens := by
    intro x
    by_cases hx : x = r
    · rw [hx]; exact htok
    · rw [hother x hx]; exact hb.tokens x
  no_row := by
    intro x hx'
    by_cases hx : x = r
    · rw [hx] at hx' ⊢; exact hno hx'
    · rw [hother x hx]; exact hb.no_row x fun h => hx' ((hmem x hx).mpr h)
  holds := by
    intro x hx'
    by_cases hx : x = r
    · rw [hx] at hx' ⊢; exact hholds hx'
    · have hh := hb.holds x ((hmem x hx).mp hx')
      rw [hother x hx]
      have hh' := hh.of_keeps hk fun n hn => by
        rw [hh.lastNode_eq] at hn
        cases hn
        refine hi.represents.inTree_iff.mpr (hi.locks_mem _ (List.mem_map.mpr ⟨x, hx', ?_⟩))
        rw [heldNode, hother x hx, heldNode]
      refine { hh' with running := fun idx hidx => ?_ }
      have hrun := hh'.running idx hidx
      have hrow := ReqToTokenPool.row_congr (hrows x hx idx hidx).1
      exact { hrun with
        pre_eq := by rw [hrow]; exact hrun.pre_eq
        paged := by rw [hrow]; exact hrun.paged }
  rows_inj := by
    intro x y idx h1 h2
    by_cases hx : x = r <;> by_cases hy : y = r
    · rw [hx, hy]
    · rw [hother y hy] at h2
      rw [hx] at h1
      exact absurd h1 (hrows y hy idx h2).2
    · rw [hother x hx] at h1
      rw [hy] at h2
      exact absurd h2 (hrows x hx idx h1).2
    · rw [hother x hx] at h1
      rw [hother y hy] at h2
      exact hb.rows_inj x y idx h1 h2
  slots_nodup := hsnd
  slots_free := hfree
  ledger := by
    have hset : holders'.toFinset.erase r = holders.toFinset.erase r := by
      ext x
      rw [mem_erase, mem_erase, mem_toFinset, mem_toFinset]
      exact and_congr_right fun hx => hmem x hx
    have hrest : ∑ x ∈ holders.toFinset.erase r, rowPages cfg S'.pool (S'.reqs x)
        = ∑ x ∈ holders.toFinset.erase r, rowPages cfg S.pool (S.reqs x) := by
      refine sum_congr rfl fun x hx => ?_
      have hne := ne_of_mem_erase hx
      rw [hother x hne, rowPages, rowPages]
      cases hidx : (S.reqs x).reqPoolIdx with
      | none => rfl
      | some idx =>
        simp only
        rw [ReqToTokenPool.row_congr (hrows x hne idx hidx).1]
    rw [sum_rowPages hnd hno, hset, hrest, ← add_assoc, hled, hkind.numPages, ← hb.ledger,
      sum_rowPages hb.nodup (hb.no_row r), ← add_assoc]

/-! ## 3. Eviction and admission -/

/-- **An eviction** moves pages from the tree to the allocator. -/
theorem Books.evict (hb : Books cfg args t holders S) (numTokens : ℕ) :
    ∃ t' S', S.evict cfg numTokens = some S' ∧ Books cfg args t' holders S' ∧
      S'.pool = S.pool ∧ S'.reqs = S.reqs := by
  obtain ⟨t', c', freed, heq, hev, -⟩ := evict_spec hb.inv.toBase numTokens
  have htree := hev.treePages
  obtain ⟨hp', hpaged⟩ := hev.pagedTree hb.pagedTree
  have hnd : (freed.flatMap (heads cfg.pageSize)).Nodup := by
    have := hb.nodup_tree
    rw [htree] at this
    exact Multiset.coe_nodup.mp (Multiset.nodup_of_le (Multiset.le_add_left _ _) this)
  rw [← hb.pageSize] at hpaged hnd
  obtain ⟨hpages, hkind⟩ := KVAllocator.pages_foldl_free
    (by rw [hb.pageSize]; exact cfg.pageSize_pos) hb.no_group hpaged hnd
  refine ⟨t', { S with cache := c', allocator := freed.foldl KVAllocator.free S.allocator }, ?_,
    hb.of_cache (hev.inv hb.inv) hp' (hev.keeps hb.inv.toBase) hkind ?_, rfl, rfl⟩
  · simp [KVSystem.evict, heq, foldl_free_eq]
  · rw [hpages, htree, hb.pageSize]
    abel

theorem Books.evictFromTreeCache (hb : Books cfg args t holders S) (numTokens : ℕ) :
    ∃ t' S', S.evictFromTreeCache cfg numTokens = some S' ∧ Books cfg args t' holders S' ∧
      S'.pool = S.pool ∧ S'.reqs = S.reqs := by
  unfold KVSystem.evictFromTreeCache
  split
  · exact hb.evict numTokens
  · exact ⟨t, S, rfl, hb, rfl, rfl⟩

theorem matchTokenIds_initial (req : Req) : req.matchTokenIds <+: req.tokenIds := by
  unfold Req.matchTokenIds
  simp only
  split
  · exact nil_prefix
  · exact take_prefix _ _

/-- The key of a lookup is that of the same tokens in the mode of the cache. -/
theorem pages_plain (cfg : CacheConfig) (req : Req) (toks : List Token) :
    pages cfg ⟨toks, req.extraKey, false⟩ = (req.radixKey cfg toks).label cfg.pageSize := by
  rw [pages, normKey, Req.radixKey]
  cases cfg.isEagle <;> rfl

/-- A request that is not live: it has never run, or it has been reset. -/
structure Fresh (req : Req) : Prop where
  lastNode : req.lastNode = none
  not_freed : req.kvCommittedFreed = false
  not_freed' : req.kvOverallocatedFreed = false

theorem Books.not_holder (hb : Books cfg args t holders S) (hf : (S.reqs r).lastNode = none) :
    r ∉ holders := by
  rw [hb.holders_iff, hf]
  rintro ⟨h, -⟩
  cases h

/-- **The admission** of a request locks the path it found. -/
theorem Books.admitReq (hb : Books cfg args t holders S) (hf : Fresh (S.reqs r)) :
    ∃ t' S', S.admitReq cfg r = some S' ∧ Books cfg args t' (r :: holders) S' := by
  have hnot := hb.not_holder hf.lastNode
  have hmode : ModeOk cfg ⟨(S.reqs r).matchTokenIds, (S.reqs r).extraKey, false⟩ :=
    fun h => nomatch h
  obtain ⟨j, vs, t', c₁, node, hmatch, hreach⟩ := matchPrefix_spec hb.inv.toBase hmode
  obtain ⟨hsp, hvs⟩ := hreach.spells hb.inv.toBase
  have hi₁ := hreach.reshape.inv hb.inv
  obtain ⟨c₂, delta, hinc, hre, hi₂⟩ := incLockRef_inv hi₁ hreach.mem
  generalize hS' : ({ S with cache := c₂ } : KVSystem).modifyReq r (fun x => { x with
    fillIds := x.tokenIds
    prefixIndices := vs
    lastNode := some node
    cacheProtectedLen := vs.length }) = S'
  have hself : S'.reqs r = { S.reqs r with
      fillIds := (S.reqs r).tokenIds
      prefixIndices := vs
      lastNode := some node
      cacheProtectedLen := vs.length } := by rw [← hS', modifyReq_self]
  have hother : ∀ x, x ≠ r → S'.reqs x = S.reqs x := by
    intro x hne
    rw [← hS', modifyReq_ne _ _ hne]
  have hcache : S'.cache = c₂ := by rw [← hS']; rfl
  have hpool : S'.pool = S.pool := by rw [← hS']; rfl
  have halloc : S'.allocator = S.allocator := by rw [← hS']; rfl
  have hidx : (S'.reqs r).reqPoolIdx = none := by rw [hself]; exact hb.no_row r hnot
  have hlabel := pages_plain cfg (S.reqs r) (S.reqs r).matchTokenIds
  have hpath : (S.reqs r).matchTokenIds <+: (S.reqs r).tokenIds := matchTokenIds_initial _
  have hkeep : cfg.pageSize * j ≤ ((S.reqs r).radixKey cfg (S.reqs r).matchTokenIds).len := by
    rw [Req.radixKey_len_eq]
    refine Nat.mul_le_mul_left _ ?_
    rw [← hlabel]
    exact hreach.le
  refine ⟨t', S', ?_, hb.change (r := r) (nodup_cons.mpr ⟨hnot, hb.nodup⟩) ?_ ?_ hother
    (by rw [halloc]; exact ⟨rfl, rfl, rfl⟩) ?_ ?_ ?_ ?_ (fun _ => hidx) (fun _ => ?_) ?_
    (by rw [hpool]; exact hb.slots_nodup) ?_ ?_⟩
  · simp only [KVSystem.admitReq, hmatch, hinc, Option.bind_eq_bind, Option.bind_some]
    rw [← hS']
    rfl
  · exact fun x hx => List.mem_cons.trans (or_iff_right hx)
  · rw [hself]
    simp [hf.not_freed]
  · have hheld : (r :: holders).map S'.heldNode = node :: holders.map S.heldNode := by
      rw [List.map_cons]
      congr 1
      · rw [heldNode, hself]; rfl
      · refine map_congr_left fun x hx => ?_
        rw [heldNode, hother x (fun e => hnot (e ▸ hx)), heldNode]
    rw [hheld, hcache]
    exact hi₂
  · rw [hcache]
    exact hre.pagedTree (hreach.reshape.pagedTree hb.pagedTree)
  · rw [hcache]
    exact ((hreach.reshape.retains hb.inv.represents).trans (hre.retains hi₁.represents)).keeps
  · rw [hself]
    exact hb.tokens r
  · rw [hself, hcache]
    refine ⟨⟨node, rfl, ?_⟩, by rw [hvs]; exact Dvd.intro _ rfl, le_rfl, ?_, hf.not_freed',
      fun _ => rfl, fun idx h => ?_⟩
    · have hdiv : vs.length / cfg.pageSize = j := by
        rw [hvs, Nat.mul_div_cancel_left _ cfg.pageSize_pos]
      have h1 := (S.reqs r).path_take hpath hkeep
      rw [← hlabel] at h1
      simp only [take_length]
      rw [hdiv]
      exact (congrArg (fun w => Spells cfg c₂ node w vs) h1).mpr
        (hre.retains hi₁.represents _ _ _ hsp)
    · rw [hvs]
      exact hkeep.trans (Req.radixKey_len_mono hpath)
    · rw [hself] at hidx
      rw [hidx] at h
      cases h
  · intro x _ idx _
    rw [hidx, hpool]
    exact ⟨rfl, (Option.some_ne_none _).symm⟩
  · intro idx h x
    rw [hpool] at h
    by_cases hx : x = r
    · rw [hx, hidx]; exact (Option.some_ne_none _).symm
    · rw [hother x hx]; exact hb.slots_free idx h x
  · have h0 : rowPages cfg S.pool (S.reqs r) = 0 := by rw [rowPages, hb.no_row r hnot]
    have h1 : rowPages cfg S'.pool (S'.reqs r) = 0 := by rw [rowPages, hidx]
    rw [h0, h1, halloc, hcache, treePages_congr hre.slots, hreach.reshape.treePages hb.inv.toBase]

end Books

end KVSystem

end Sglang
