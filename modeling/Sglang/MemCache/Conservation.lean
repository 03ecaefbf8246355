/-
# Every page is in exactly one place

A run of the server is any interleaving of the life cycles of any number of requests with
evictions.  In every state of a run whose releases are safe, each of the pages `1 .. num_pages` is
in exactly one place: in one of the two free lists, in the value of one node of the tree, or in the
row of one live request behind its `cache_protected_len`.

A release is safe if the key it is stored under covers what the tree already owns of the row.
That fails for a request that has thought, with `strip_thinking_cache`, after it was retracted and
prefilled again: its answer was stored then, and is freed as if it were still its own.  `reclaimed`
is such a run.
-/
import Sglang.Lib.Ledger
import Sglang.MemCache.BooksBatch

namespace Sglang

open Lib List Option Finset

namespace KVSystem

open RadixCache

variable {cfg : CacheConfig} {args : ServerArgs} {t : RootedTree NodeId}
  {holders : List ReqId} {S S' : KVSystem} {r : ReqId} {idx : ℕ}

/-! ## 1. Steps that move no page -/

/-- A lookup changes no record; a request that is not admitted is matched again. -/
def lookup (cfg : CacheConfig) (S : KVSystem) (key : RadixKey) : Option KVSystem := do
  let (_, cache) ← S.cache.matchPrefix cfg key
  return { S with cache := cache }

theorem Books.lookup (hb : Books cfg args t holders S) {key : RadixKey} (hmode : ModeOk cfg key) :
    ∃ t' S', S.lookup cfg key = some S' ∧ Books cfg args t' holders S' := by
  obtain ⟨j, vs, t', c₁, node, hmatch, hreach⟩ := matchPrefix_spec hb.inv.toBase hmode
  have hkind : S.allocator.SameKind S.allocator := ⟨rfl, rfl, rfl⟩
  refine ⟨t', { S with cache := c₁ }, by simp [KVSystem.lookup, hmatch], hb.of_cache
    (hreach.reshape.inv hb.inv) (hreach.reshape.pagedTree hb.pagedTree)
    (hreach.reshape.retains hb.inv.represents).keeps hkind ?_⟩
  rw [hreach.reshape.treePages hb.inv.toBase]

/-- The record of a running request after more output. -/
theorem Books.output (hb : Books cfg args t holders S) (hr : r ∈ holders)
    (hidx : (S.reqs r).reqPoolIdx = some idx) {tokens : List Token} {k n : ℕ}
    (htok : TokensOk cfg tokens) (hn : (S.reqs r).kvCommittedLen ≤ n)
    (hn' : n ≤ (S.reqs r).kvAllocatedLen)
    (hno : args.speculativeAlgorithm = false → n = (S.reqs r).kvAllocatedLen) {S' : KVSystem}
    (hS' : S.modifyReq r (fun x => { x with
      outputIds := x.outputIds ++ tokens
      reasoningTokens := x.reasoningTokens + k
      kvCommittedLen := n }) = S') : Books cfg args t holders S' := by
  have hh := hb.holds r hr
  have hrun := hh.running idx hidx
  have hself : S'.reqs r = { S.reqs r with
      outputIds := (S.reqs r).outputIds ++ tokens
      reasoningTokens := (S.reqs r).reasoningTokens + k
      kvCommittedLen := n } := by rw [← hS', modifyReq_self]
  have hother : ∀ x, x ≠ r → S'.reqs x = S.reqs x := by
    intro x hx
    rw [← hS', modifyReq_ne _ _ hx]
  have hcache : S'.cache = S.cache := by rw [← hS']; rfl
  have hpool : S'.pool = S.pool := by rw [← hS']; rfl
  have halloc : S'.allocator = S.allocator := by rw [← hS']; rfl
  have htoks : (S'.reqs r).tokenIds = (S.reqs r).tokenIds ++ tokens := by
    rw [hself]
    simp [Req.tokenIds]
  have hkey : (S'.reqs r).radixKey cfg = (S.reqs r).radixKey cfg := by rw [hself]; rfl
  have hpre : (S.reqs r).tokenIds <+: (S'.reqs r).tokenIds := by
    rw [htoks]
    exact prefix_append _ _
  have hidx' : (S'.reqs r).reqPoolIdx = some idx := by rw [hself]; exact hidx
  refine hb.change (r := r) hb.nodup (fun _ _ => Iff.rfl) ?_ hother
    (by rw [halloc]; exact ⟨rfl, rfl, rfl⟩) ?_ (by rw [hcache]; exact hb.pagedTree)
    (by rw [hcache]; exact fun _ _ _ h _ => h) ?_ (fun h => absurd hr h) (fun _ => ?_) ?_
    (by rw [hpool]; exact hb.slots_nodup) ?_ ?_
  · rw [hself]
    exact hb.holders_iff r
  · have hheld : ∀ x, S'.heldNode x = S.heldNode x := by
      intro x
      by_cases hx : x = r
      · rw [hx, heldNode, hself, heldNode]
      · rw [heldNode, hother x hx, heldNode]
    rw [hcache, map_congr_left fun x _ => hheld x]
    exact hb.inv
  · intro hon x hx
    rw [htoks, mem_append] at hx
    rcases hx with hx | hx
    · exact hb.tokens r hon x hx
    · exact htok hon x hx
  · have hkeep : (S'.reqs r).cacheProtectedLen = (S.reqs r).cacheProtectedLen := by rw [hself]
    have hind : (S'.reqs r).prefixIndices = (S.reqs r).prefixIndices := by rw [hself]
    have hlast : (S'.reqs r).lastNode = (S.reqs r).lastNode := by rw [hself]
    have hfill : (S'.reqs r).fillIds = (S.reqs r).fillIds := by rw [hself]
    have halen : (S'.reqs r).kvAllocatedLen = (S.reqs r).kvAllocatedLen := by rw [hself]
    have hclen : (S'.reqs r).kvCommittedLen = n := by rw [hself]
    rw [hcache, hpool]
    refine ⟨?_, by rw [hkeep]; exact hh.aligned, by rw [hkeep, hind]; exact hh.keep_le, ?_,
      by rw [hself]; exact hh.not_freed, fun h => ?_, fun i h => ?_⟩
    · have hpath : ((S'.reqs r).path cfg).take ((S.reqs r).cacheProtectedLen / cfg.pageSize)
          = ((S.reqs r).path cfg).take ((S.reqs r).cacheProtectedLen / cfg.pageSize) := by
        rw [Req.path_take hpre, hkey]
        · rfl
        · rw [hkey, Nat.mul_div_cancel' hh.aligned]
          exact hh.keep_le_path
      rw [hkeep, hind, hlast, hpath]
      exact hh.node
    · have hmono : ((S'.reqs r).radixKey cfg (S.reqs r).tokenIds).len
          ≤ ((S'.reqs r).radixKey cfg (S'.reqs r).tokenIds).len := Req.radixKey_len_mono hpre
      rw [hkeep]
      rw [hkey] at hmono ⊢
      exact hh.keep_le_path.trans hmono
    · rw [hidx'] at h
      cases h
    · rw [hidx'] at h
      cases h
      refine ⟨by rw [hfill]; exact hrun.fill.trans hpre, by rw [hkeep, hfill, hkey]; exact hrun.keep_le,
        by rw [hfill, hclen]; exact hrun.fill_le.trans hn, by rw [hclen, halen]; exact hn',
        fun h => by rw [hclen, halen]; exact hno h, by rw [hind, halen]; exact hrun.pre_le,
        by rw [hind]; exact hrun.pre_eq, by rw [halen]; exact hrun.paged⟩
  · intro x hx i hi
    refine ⟨by rw [hpool], ?_⟩
    rw [hidx']
    intro e
    cases e
    exact hx (hb.rows_inj x r _ hi hidx)
  · intro i hi x
    rw [hpool] at hi
    by_cases hx : x = r
    · rw [hx, hself]
      exact hb.slots_free i hi r
    · rw [hother x hx]
      exact hb.slots_free i hi x
  · have hrow : rowPages cfg S'.pool (S'.reqs r) = rowPages cfg S.pool (S.reqs r) := by
      rw [rowPages, rowPages, hself, hpool]
    rw [hrow, halloc, hcache]

/-- A released request starts over. -/
theorem Books.reset (hb : Books cfg args t holders S) (hr : r ∉ holders) :
    Books cfg args t holders (S.modifyReq r Req.resetForRetract) := by
  generalize hS' : S.modifyReq r Req.resetForRetract = S'
  have hself : S'.reqs r = (S.reqs r).resetForRetract := by rw [← hS', modifyReq_self]
  have hother : ∀ x, x ≠ r → S'.reqs x = S.reqs x := by
    intro x hx
    rw [← hS', modifyReq_ne _ _ hx]
  have hcache : S'.cache = S.cache := by rw [← hS']; rfl
  have hpool : S'.pool = S.pool := by rw [← hS']; rfl
  have halloc : S'.allocator = S.allocator := by rw [← hS']; rfl
  have hidx : (S'.reqs r).reqPoolIdx = none := by rw [hself]; exact hb.no_row r hr
  refine hb.change (r := r) hb.nodup (fun _ _ => Iff.rfl) ?_ hother
    (by rw [halloc]; exact ⟨rfl, rfl, rfl⟩) ?_ (by rw [hcache]; exact hb.pagedTree)
    (by rw [hcache]; exact fun _ _ _ h _ => h) ?_ (fun _ => hidx) (fun h => absurd h hr) ?_
    (by rw [hpool]; exact hb.slots_nodup) ?_ ?_
  · rw [hself]
    simp [Req.resetForRetract, hr]
  · have hheld : ∀ x ∈ holders, S'.heldNode x = S.heldNode x := by
      intro x hx
      rw [heldNode, hother x fun e => hr (e ▸ hx), heldNode]
    rw [hcache, map_congr_left hheld]
    exact hb.inv
  · intro hon x hx
    refine hb.tokens r hon x ?_
    rw [hself] at hx
    simp only [Req.tokenIds, Req.resetForRetract, mem_append] at hx ⊢
    rcases hx with hx | hx
    · exact .inl hx
    · split at hx
      · cases hx
      · exact .inr hx
  · intro x hx i hi
    rw [hpool, hidx]
    exact ⟨rfl, (some_ne_none _).symm⟩
  · intro i hi x
    rw [hpool] at hi
    by_cases hx : x = r
    · rw [hx, hidx]
      exact (some_ne_none _).symm
    · rw [hother x hx]
      exact hb.slots_free i hi x
  · have h0 : rowPages cfg S.pool (S.reqs r) = 0 := by rw [rowPages, hb.no_row r hr]
    have h1 : rowPages cfg S'.pool (S'.reqs r) = 0 := by rw [rowPages, hidx]
    rw [h0, h1, halloc, hcache]

/-- **A retracted request.** -/
theorem Books.releaseReq (hb : Books cfg args t holders S) (hr : r ∈ holders)
    (hidx : (S.reqs r).reqPoolIdx = some idx)
    (hcommit : (S.reqs r).kvCommittedLen ≤ (S.reqs r).tokenIds.length)
    (hsafe : StripSafe cfg args (S.reqs r)) (numTokens : ℕ) :
    ∃ t' S', S.releaseReq cfg args r numTokens = some S' ∧
      Books cfg args t' (holders.erase r) S' := by
  obtain ⟨t₁, S₁, h₁, hb₁⟩ := hb.releaseKvCache hr hidx hcommit hsafe false
  obtain ⟨t₂, S₂, h₂, hb₂, -, -⟩ := hb₁.evictFromTreeCache numTokens
  have hout : r ∉ holders.erase r := fun h => ((List.Nodup.mem_erase_iff hb.nodup).mp h).1 rfl
  exact ⟨t₂, _, by simp [KVSystem.releaseReq, h₁, h₂], hb₂.reset hout⟩

/-! ## 2. Runs -/

/-- A server that has just started, with requests that have not run. -/
structure Initial (cfg : CacheConfig) (S : KVSystem) : Prop where
  cache : ∃ c : RadixCache ℕ, S.cache = c.reset cfg
  allocator : ∃ A : KVAllocator, S.allocator = A.clear
  pageSize : S.allocator.pageSize = cfg.pageSize
  slots : S.pool.freeSlots.Nodup
  fresh : ∀ r, Fresh (S.reqs r)
  no_row : ∀ r, (S.reqs r).reqPoolIdx = none
  tokens : ∀ r, TokensOk cfg (S.reqs r).tokenIds

/-- One step of the server.  `safe` is what is asked of a request when it is released.  A request
is released when at most the token of the batch in flight is missing from its output, so that what
is committed is no longer than its tokens; tokens are 32 bit numbers if they are hashed. -/
inductive Step (cfg : CacheConfig) (args : ServerArgs) (safe : Req → Prop) (S S' : KVSystem) : Prop
  | lookup (key : RadixKey) : ModeOk cfg key → S.lookup cfg key = some S' → Step cfg args safe S S'
  | admission (r : ReqId) : Fresh (S.reqs r) → S.admitReq cfg r = some S' → Step cfg args safe S S'
  | extend (batch : List (ReqId × ℕ)) : (batch.map Prod.fst).Nodup →
    (∀ b ∈ batch, Extendable S b) → S.extendBatch cfg batch = some S' → Step cfg args safe S S'
  | cacheUnfinished (r : ReqId) (chunked : Bool) : Decodable S r →
    S.cacheUnfinishedReq cfg r chunked = some S' → Step cfg args safe S S'
  | decode (reqs : List ReqId) : args.speculativeAlgorithm = false → reqs.Nodup →
    (∀ r ∈ reqs, Decodable S r) → S.prepareForDecode cfg reqs = some S' → Step cfg args safe S S'
  | specDecode (reqs : List ReqId) (allocLenPerDecode : ℕ) : args.speculativeAlgorithm = true →
    0 < allocLenPerDecode → reqs.Nodup → (∀ r ∈ reqs, Decodable S r) →
    S.prepareForSpecDecode cfg reqs allocLenPerDecode = some S' → Step cfg args safe S S'
  | output (r : ReqId) (tokens : List Token) (k : ℕ) : Decodable S r → TokensOk cfg tokens →
    S.appendOutput r tokens k = S' → Step cfg args safe S S'
  | accept (r : ReqId) (tokens : List Token) (k : ℕ) : args.speculativeAlgorithm = true →
    Decodable S r → TokensOk cfg tokens → tokens ≠ [] →
    (S.reqs r).kvCommittedLen + tokens.length - 1 ≤ (S.reqs r).kvAllocatedLen →
    S.acceptTokens r tokens k = S' → Step cfg args safe S S'
  | release (r : ReqId) (isInsert : Bool) : Decodable S r →
    (S.reqs r).kvCommittedLen ≤ (S.reqs r).tokenIds.length → safe (S.reqs r) →
    S.releaseKvCache cfg args r isInsert = some S' → Step cfg args safe S S'
  | retract (r : ReqId) (numTokens : ℕ) : Decodable S r →
    (S.reqs r).kvCommittedLen ≤ (S.reqs r).tokenIds.length → safe (S.reqs r) →
    S.releaseReq cfg args r numTokens = some S' → Step cfg args safe S S'
  | evict (numTokens : ℕ) : S.evict cfg numTokens = some S' → Step cfg args safe S S'

/-- A run, of any length, from a server that has just started. -/
inductive Run (cfg : CacheConfig) (args : ServerArgs) (safe : Req → Prop) : KVSystem → Prop
  | init {S : KVSystem} : Initial cfg S → Run cfg args safe S
  | step {S S' : KVSystem} : Run cfg args safe S → Step cfg args safe S S' → Run cfg args safe S'

theorem Initial.books (h : Initial cfg S) : ∃ t, Books cfg args t [] S := by
  obtain ⟨c, hc⟩ := h.cache
  obtain ⟨A, hA⟩ := h.allocator
  have hnot : ∀ r, (S.reqs r).lastNode = none := fun r => (h.fresh r).lastNode
  refine ⟨rootTree c.counter, h.pageSize, by rw [hA]; rfl, nodup_nil, ?_, ?_, ?_, h.tokens,
    fun r _ => h.no_row r, nofun, ?_, h.slots, ?_, ?_⟩
  · intro r
    simp [hnot r]
  · rw [hc]
    exact reset_inv cfg c
  · intro n hn hr
    exact absurd (Finset.mem_singleton.mp hn) hr
  · intro r r' idx hr
    rw [h.no_row r] at hr
    cases hr
  · intro idx _ r
    rw [h.no_row r]
    exact (some_ne_none _).symm
  · have htree : treePages cfg.pageSize (rootTree c.counter) S.cache = 0 := by
      simp [treePages, RootedTree.total, rootTree]
    have hpages : S.allocator.pages = (List.range' 1 S.allocator.numPages : Multiset ℕ) := by
      rw [hA]
      simp [KVAllocator.pages, KVAllocator.clear, KVAllocator.numPages]
    rw [htree, hpages, Nat.Icc_eq_range']
    simp

/-- **A step keeps the books.** -/
theorem Step.books (h : Step cfg args (StripSafe cfg args) S S')
    (hb : Books cfg args t holders S) : ∃ t' holders', Books cfg args t' holders' S' := by
  cases h with
  | lookup key hmode heq =>
    obtain ⟨t', S₁, h₁, hb₁⟩ := hb.lookup hmode
    cases heq.symm.trans h₁
    exact ⟨t', _, hb₁⟩
  | admission r hf heq =>
    obtain ⟨t', S₁, h₁, hb₁⟩ := hb.admitReq hf
    cases heq.symm.trans h₁
    exact ⟨t', _, hb₁⟩
  | extend batch hnd hext heq =>
    obtain ⟨t', hb'⟩ := hb.extendBatch hnd hext heq
    exact ⟨t', _, hb'⟩
  | cacheUnfinished r chunked hr heq =>
    obtain ⟨idx, hidx⟩ := isSome_iff_exists.mp hr.2
    obtain ⟨t', S₁, h₁, hb₁⟩ := hb.cacheUnfinishedReq (hb.live_iff.mp hr.1) hidx chunked
    cases heq.symm.trans h₁
    exact ⟨t', _, hb₁⟩
  | decode reqs hspec hnd hdec heq =>
    obtain ⟨t', hb'⟩ := hb.prepareForDecode hspec hnd hdec heq
    exact ⟨t', _, hb'⟩
  | specDecode reqs k hspec hk hnd hdec heq =>
    obtain ⟨t', hb'⟩ := hb.prepareForSpecDecode hspec hk hnd hdec heq
    exact ⟨t', _, hb'⟩
  | output r tokens k hr htok heq =>
    obtain ⟨idx, hidx⟩ := isSome_iff_exists.mp hr.2
    have hrun := (hb.holds r (hb.live_iff.mp hr.1)).running idx hidx
    exact ⟨t, _, hb.output (hb.live_iff.mp hr.1) hidx htok le_rfl hrun.committed_le hrun.no_spec heq⟩
  | accept r tokens k hspec hr htok hne hle heq =>
    obtain ⟨idx, hidx⟩ := isSome_iff_exists.mp hr.2
    have hpos := length_pos_iff.mpr hne
    refine ⟨t, _, hb.output (hb.live_iff.mp hr.1) hidx (k := k) htok
      (show (S.reqs r).kvCommittedLen ≤ (S.reqs r).kvCommittedLen + tokens.length - 1 by omega) hle
      (fun h => ?_) ?_⟩
    · rw [hspec] at h
      cases h
    · rw [← heq]
      simp [acceptTokens, appendOutput, modifyReq]
  | release r isInsert hr hcommit hsafe heq =>
    obtain ⟨idx, hidx⟩ := isSome_iff_exists.mp hr.2
    obtain ⟨t', S₁, h₁, hb₁⟩ := hb.releaseKvCache (hb.live_iff.mp hr.1) hidx hcommit hsafe isInsert
    cases heq.symm.trans h₁
    exact ⟨t', _, hb₁⟩
  | retract r numTokens hr hcommit hsafe heq =>
    obtain ⟨idx, hidx⟩ := isSome_iff_exists.mp hr.2
    obtain ⟨t', S₁, h₁, hb₁⟩ := hb.releaseReq (hb.live_iff.mp hr.1) hidx hcommit hsafe numTokens
    cases heq.symm.trans h₁
    exact ⟨t', _, hb₁⟩
  | evict numTokens heq =>
    obtain ⟨t', S₁, h₁, hb₁, -, -⟩ := hb.evict numTokens
    cases heq.symm.trans h₁
    exact ⟨t', _, hb₁⟩

/-- **The books balance in every state of a run.** -/
theorem Run.books (h : Run cfg args (StripSafe cfg args) S) :
    ∃ t holders, Books cfg args t holders S := by
  induction h with
  | init h =>
    obtain ⟨t, hb⟩ := h.books
    exact ⟨t, [], hb⟩
  | step _ hs ih =>
    obtain ⟨t, holders, hb⟩ := ih
    exact hs.books hb

/-! ## 3. Places -/

/-- Where a page can be. -/
inductive Place
  | freePages
  | releasePages
  | node (n : NodeId)
  | row (r : ReqId)
deriving DecidableEq

/-- The page `q` is in the place. -/
def LiesIn (cfg : CacheConfig) (S : KVSystem) (q : ℕ) : Place → Prop
  | .freePages => q ∈ S.allocator.freePages
  | .releasePages => q ∈ S.allocator.releasePages
  | .node n => InTree cfg S.cache n ∧ ∃ slot ∈ S.cache.slots n, slot / cfg.pageSize = q
  | .row r => ∃ idx k, (S.reqs r).reqPoolIdx = some idx ∧ (S.reqs r).cacheProtectedLen ≤ k ∧
      k < (S.reqs r).kvAllocatedLen ∧ S.pool.reqToToken idx k / cfg.pageSize = q

/-- **Conservation**: the pages `1 .. num_pages` are each in exactly one place, the free lists hold
no page twice, and no other page is anywhere. -/
structure Conserved (cfg : CacheConfig) (S : KVSystem) : Prop where
  place : ∀ q, 1 ≤ q → q ≤ S.allocator.numPages → ∃! place, LiesIn cfg S q place
  freePages : S.allocator.freePages.Nodup
  releasePages : S.allocator.releasePages.Nodup
  bounds : ∀ q place, LiesIn cfg S q place → 1 ≤ q ∧ q ≤ S.allocator.numPages

/-- The pages in a place, once for every time they are there. -/
def account (cfg : CacheConfig) (S : KVSystem) : Place → Multiset ℕ
  | .freePages => S.allocator.freePages
  | .releasePages => S.allocator.releasePages
  | .node n => heads cfg.pageSize (S.cache.slots n)
  | .row r => rowPages cfg S.pool (S.reqs r)

/-- The places of a server. -/
def places (t : RootedTree NodeId) (holders : List ReqId) : Finset Place :=
  {.freePages, .releasePages} ∪ ((t.nodes.erase t.root).image .node ∪ holders.toFinset.image .row)

variable {q : ℕ}

theorem mem_rowPages (hb : Books cfg args t holders S) :
    q ∈ rowPages cfg S.pool (S.reqs r) ↔ LiesIn cfg S q (.row r) := by
  rw [rowPages, LiesIn]
  cases hidx : (S.reqs r).reqPoolIdx with
  | none => simp
  | some idx =>
    have hr : r ∈ holders := by
      by_contra h
      rw [hb.no_row r h] at hidx
      cases hidx
    have hh := hb.holds r hr
    obtain ⟨a, ha⟩ := hh.aligned
    have hpaged := (hh.running idx hidx).paged.drop cfg.pageSize_pos a
    rw [← ha] at hpaged
    rw [Multiset.mem_coe, ← List.mem_toFinset, hpaged.toFinset_heads cfg.pageSize_pos, mem_pagesOf]
    constructor
    · rintro ⟨slot, hslot, rfl⟩
      obtain ⟨i, hi, hget⟩ := mem_iff_getElem.mp hslot
      rw [length_drop, ReqToTokenPool.length_row] at hi
      refine ⟨idx, (S.reqs r).cacheProtectedLen + i, rfl, Nat.le_add_right _ _, by omega, ?_⟩
      rw [← hget]
      simp [ReqToTokenPool.row]
    · rintro ⟨_, k, ⟨rfl⟩, hk, hk', rfl⟩
      refine ⟨_, mem_iff_getElem.mpr ⟨k - (S.reqs r).cacheProtectedLen, ?_, rfl⟩, ?_⟩
      · rw [length_drop, ReqToTokenPool.length_row]
        omega
      · simp [ReqToTokenPool.row, Nat.add_sub_cancel' hk]

theorem mem_nodePages (hb : Books cfg args t holders S) {n : NodeId} :
    n ∈ t.nodes.erase t.root ∧ q ∈ (heads cfg.pageSize (S.cache.slots n) : Multiset ℕ)
      ↔ LiesIn cfg S q (.node n) := by
  rw [LiesIn, hb.inv.represents.inTree_iff, mem_erase]
  have hpages : n ∈ t.nodes → n ≠ t.root → (q ∈ (heads cfg.pageSize (S.cache.slots n) : Multiset ℕ)
        ↔ ∃ slot ∈ S.cache.slots n, slot / cfg.pageSize = q) := by
    intro hn hr
    rw [Multiset.mem_coe, ← List.mem_toFinset,
      (hb.pagedTree n hn hr).toFinset_heads cfg.pageSize_pos, mem_pagesOf]
  constructor
  · rintro ⟨⟨hr, hn⟩, hq⟩
    exact ⟨hn, (hpages hn hr).mp hq⟩
  · rintro ⟨hn, slot, hs, hq⟩
    -- the root holds no slot
    have hr : n ≠ t.root := by
      rintro rfl
      rw [slots, hb.inv.root_value] at hs
      cases hs
    exact ⟨⟨hr, hn⟩, (hpages hn hr).mpr ⟨slot, hs, hq⟩⟩

theorem liesIn_iff (hb : Books cfg args t holders S) {place : Place} :
    LiesIn cfg S q place ↔ place ∈ places t holders ∧ q ∈ account cfg S place := by
  cases place with
  | freePages => simp [LiesIn, places, account]
  | releasePages => simp [LiesIn, places, account]
  | node n =>
    rw [← mem_nodePages hb, account]
    simp [places]
  | row r =>
    rw [← mem_rowPages hb]
    have hplace : Place.row r ∈ places t holders ↔ r ∈ holders := by simp [places]
    rw [hplace]
    constructor
    · intro h
      refine ⟨?_, h⟩
      by_contra hr
      rw [rowPages, hb.no_row r hr] at h
      simp at h
    · exact fun h => h.2

theorem Books.sum_account (hb : Books cfg args t holders S) :
    ∑ place ∈ places t holders, account cfg S place = (Finset.Icc 1 S.allocator.numPages).val := by
  rw [← hb.ledger, places, sum_union, sum_union, sum_image (fun _ _ _ _ h => Place.node.inj h),
    sum_image (fun _ _ _ _ h => Place.row.inj h), ← sum_toFinset _ hb.nodup, treePages,
    Finset.sum_pair (by simp), ← add_assoc]
  · rfl
  · rw [Finset.disjoint_left]
    intro place h
    obtain ⟨n, -, rfl⟩ := mem_image.mp h
    simp
  · rw [Finset.disjoint_left]
    simp

theorem Books.conserved (hb : Books cfg args t holders S) : Conserved cfg S := by
  have hsum := hb.sum_account
  have hfree : (account cfg S .freePages).Nodup := account_nodup hsum (by simp [places])
  have hrel : (account cfg S .releasePages).Nodup := account_nodup hsum (by simp [places])
  refine ⟨fun q h1 h2 => ?_, Multiset.coe_nodup.mp hfree, Multiset.coe_nodup.mp hrel,
    fun q place h => ?_⟩
  · obtain ⟨place, hpl, huniq⟩ := existsUnique_account hsum (mem_Icc.mpr ⟨h1, h2⟩)
    exact ⟨place, (liesIn_iff hb).mpr hpl, fun y hy => huniq y ((liesIn_iff hb).mp hy)⟩
  · obtain ⟨hp, hq⟩ := (liesIn_iff hb).mp h
    exact mem_Icc.mp (mem_of_account hsum hp hq)

/-- **KV slots are conserved** in every run whose releases are safe. -/
theorem kvSlots_conserved (h : Run cfg args (StripSafe cfg args) S) : Conserved cfg S := by
  obtain ⟨t, holders, hb⟩ := h.books
  exact hb.conserved

/-! ## 4. A run that frees what the tree owns -/

/-- A server with four pages of two slots, one row and requests for the prompt `1, 2`. -/
def start : KVSystem where
  cache := RadixCache.init (smallConfig false)
  allocator := (⟨8, 2, false, [], [], true, []⟩ : KVAllocator).clear
  pool := ⟨fun _ _ => 0, [0]⟩
  reqs := fun _ => ⟨[1, 2], [], [], none, none, false, false, -1, false, false, 0, 0, none, [], none,
    0, 0, 0, false, false⟩

/-- `strip_thinking_cache` without a speculative algorithm. -/
def stripArgs : ServerArgs := ⟨false, true⟩

def admitted : KVSystem := (start.admitReq (smallConfig false) 0).getD start

def prefilled : KVSystem := (admitted.extendBatch (smallConfig false) [(0, 2)]).getD start

/-- The request has thought for two tokens. -/
def thought : KVSystem :=
  (((prefilled.appendOutput 0 [3] 1).prepareForDecode (smallConfig false) [0]).getD start)
    |>.appendOutput 0 [4] 1

def retracted : KVSystem := (thought.releaseReq (smallConfig false) stripArgs 0 0).getD start

def readmitted : KVSystem := (retracted.admitReq (smallConfig false) 0).getD start

/-- The prompt and the thoughts are prefilled together. -/
def reprefilled : KVSystem := (readmitted.extendBatch (smallConfig false) [(0, 4)]).getD start

/-- The thoughts are the tree's now. -/
def stashed : KVSystem :=
  ((reprefilled.cacheUnfinishedReq (smallConfig false) 0 false).getD start).appendOutput 0 [5] 0

def reclaimed : KVSystem := (stashed.releaseKvCache (smallConfig false) stripArgs 0 true).getD start

theorem eq_getD {o : Option KVSystem} (h : o.isSome = true) : o = some (o.getD start) := by
  obtain ⟨S, rfl⟩ := isSome_iff_exists.mp h
  rfl

theorem tokensOk_small (tokens : List Token) : TokensOk (smallConfig false) tokens := nofun

theorem start_initial : Initial (smallConfig false) start :=
  ⟨⟨_, rfl⟩, ⟨_, rfl⟩, rfl, by decide, fun _ => ⟨rfl, rfl, rfl⟩, fun _ => rfl,
    fun _ => tokensOk_small _⟩

/-- The run up to the second prefill; the retraction is asked to be safe. -/
theorem run_stashed {safe : Req → Prop} (hsafe : safe (thought.reqs 0)) :
    Run (smallConfig false) stripArgs safe stashed := by
  have h₁ : Run (smallConfig false) stripArgs safe admitted :=
    .step (.init start_initial) (.admission 0 ⟨rfl, rfl, rfl⟩ (eq_getD (by decide +kernel)))
  have h₂ : Run (smallConfig false) stripArgs safe prefilled :=
    .step h₁ (.extend [(0, 2)] (by decide) (by
      intro b hb
      rw [List.mem_singleton.mp hb]
      exact ⟨⟨by decide +kernel, by decide +kernel⟩, by decide +kernel, by decide +kernel,
        by decide +kernel⟩) (eq_getD (by decide +kernel)))
  have h₃ : Run (smallConfig false) stripArgs safe thought := by
    refine .step (.step (.step h₂ (.output 0 [3] 1 ⟨⟨?_, ?_⟩, ?_⟩ (tokensOk_small _) rfl))
      (.decode [0] rfl (by decide) (fun r hr => ?_) (eq_getD ?_)))
      (.output 0 [4] 1 ⟨⟨?_, ?_⟩, ?_⟩ (tokensOk_small _) rfl)
    case refine_4 =>
      rw [List.mem_singleton.mp hr]
      exact ⟨⟨by decide +kernel, by decide +kernel⟩, by decide +kernel⟩
    all_goals decide +kernel
  have h₄ : Run (smallConfig false) stripArgs safe retracted :=
    .step h₃ (.retract 0 0 ⟨⟨by decide +kernel, by decide +kernel⟩, by decide +kernel⟩
      (by decide +kernel) hsafe (eq_getD (by decide +kernel)))
  have h₅ : Run (smallConfig false) stripArgs safe readmitted :=
    .step h₄ (.admission 0 ⟨by decide +kernel, by decide +kernel, by decide +kernel⟩
      (eq_getD (by decide +kernel)))
  have h₆ : Run (smallConfig false) stripArgs safe reprefilled :=
    .step h₅ (.extend [(0, 4)] (by decide) (by
      intro b hb
      rw [List.mem_singleton.mp hb]
      exact ⟨⟨by decide +kernel, by decide +kernel⟩, by decide +kernel, by decide +kernel,
        by decide +kernel⟩) (eq_getD (by decide +kernel)))
  refine .step (.step h₆ (.cacheUnfinished 0 false ⟨⟨?_, ?_⟩, ?_⟩ (eq_getD ?_)))
    (.output 0 [5] 0 ⟨⟨?_, ?_⟩, ?_⟩ (tokensOk_small _) rfl)
  all_goals decide +kernel

/-- The theorem on a run: after the second prefill two pages are free and two are the tree's. -/
theorem kvSlots_conserved_stashed :
    Run (smallConfig false) stripArgs (StripSafe (smallConfig false) stripArgs) stashed ∧
      stashed.allocator.freePages = [3, 4] ∧ Conserved (smallConfig false) stashed := by
  have hrun : Run (smallConfig false) stripArgs (StripSafe (smallConfig false) stripArgs) stashed :=
    run_stashed fun _ _ => by decide +kernel
  exact ⟨hrun, by decide +kernel, kvSlots_conserved hrun⟩

/-- **The release then frees the page of the thoughts**, and the tree still holds it. -/
theorem kvSlots_reclaimed : ∃ S : KVSystem,
    Run (smallConfig false) stripArgs (fun _ => True) S ∧ ¬ Conserved (smallConfig false) S := by
  have hrun : Run (smallConfig false) stripArgs (fun _ => True) reclaimed :=
    .step (run_stashed trivial) (.release 0 true
      ⟨⟨by decide +kernel, by decide +kernel⟩, by decide +kernel⟩ (by decide +kernel) trivial
      (eq_getD (by decide +kernel)))
  refine ⟨reclaimed, hrun, fun h => ?_⟩
  have hfree : LiesIn (smallConfig false) reclaimed 1 .freePages := by
    show 1 ∈ reclaimed.allocator.freePages
    decide +kernel
  have h1 : (reclaimed.cache.nodes reclaimed.cache.rootNode).children.lookup (.plain (.toks [1, 2]))
      = some 2 := by decide +kernel
  have h2 : (reclaimed.cache.nodes 2).children.lookup (.plain (.toks [3, 4])) = some 1 := by
    decide +kernel
  have htree : LiesIn (smallConfig false) reclaimed 1 (.node 1) :=
    ⟨⟨_, _, .child (.child .root h1) h2⟩, 2, by decide +kernel, by decide⟩
  obtain ⟨place, -, huniq⟩ := h.place 1 le_rfl (by decide +kernel)
  exact Place.noConfusion ((huniq _ hfree).trans (huniq _ htree).symm)

/-! ## 5. No assertion fails -/

/-- The calls that allocate nothing go through. -/
structure GoesThrough (cfg : CacheConfig) (args : ServerArgs) (S : KVSystem) : Prop where
  lookup : ∀ key, ModeOk cfg key → (S.lookup cfg key).isSome
  admission : ∀ r, Fresh (S.reqs r) → (S.admitReq cfg r).isSome
  evict : ∀ n, (S.evict cfg n).isSome
  cacheUnfinished : ∀ r chunked, Decodable S r → (S.cacheUnfinishedReq cfg r chunked).isSome
  release : ∀ r isInsert n, Decodable S r →
    (S.reqs r).kvCommittedLen ≤ (S.reqs r).tokenIds.length → StripSafe cfg args (S.reqs r) →
    (S.releaseKvCache cfg args r isInsert).isSome ∧ (S.releaseReq cfg args r n).isSome

theorem isSome_of_spec {P : RootedTree NodeId → KVSystem → Prop} {o : Option KVSystem}
    (h : ∃ t S, o = some S ∧ P t S) : o.isSome := by
  obtain ⟨_, _, rfl, -⟩ := h
  rfl

/-- **No assertion fails** in a run: none of the cache's, nor those of a release. -/
theorem run_goesThrough (h : Run cfg args (StripSafe cfg args) S) : GoesThrough cfg args S := by
  obtain ⟨t, holders, hb⟩ := h.books
  refine ⟨fun _ hm => isSome_of_spec (hb.lookup hm), fun _ hf => isSome_of_spec (hb.admitReq hf),
    fun n => isSome_of_spec (hb.evict n), fun r chunked hr => ?_, fun r isInsert n hr hcommit hsafe => ?_⟩ <;>
    obtain ⟨idx, hidx⟩ := isSome_iff_exists.mp hr.2 <;> have hmem := hb.live_iff.mp hr.1
  · exact isSome_of_spec (hb.cacheUnfinishedReq hmem hidx chunked)
  · exact ⟨isSome_of_spec (hb.releaseKvCache hmem hidx hcommit hsafe isInsert),
      isSome_of_spec (hb.releaseReq hmem hidx hcommit hsafe n)⟩

theorem run_goesThrough_stashed : GoesThrough (smallConfig false) stripArgs stashed :=
  run_goesThrough (run_stashed fun _ _ => by decide +kernel)

end KVSystem

end Sglang
