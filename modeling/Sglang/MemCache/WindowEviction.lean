/-
# Window eviction of one request

A transcription of `maybe_evict_swa` and `_evict_swa` of `schedule_batch.py`, of the key that
`cache_finished_req` of `swa_radix_cache.py` builds, and of what the end of `_insert_helper` does with
the suffix that the tree does not hold yet.

Section 3 is the life of one request between its admission and its end or retraction, which gives its
row back and starts another life: chunks of its prompt, `cache_unfinished_req`, decode batches with and
without overlap, several tokens a batch, and what other requests do in between.  Sessions, which hand a
row from one request to the next, are left out.
-/
import Sglang.MemCache.Request
import Sglang.MemCache.SWAAllocator

namespace Sglang

open List

/-- What the two functions read of the tree cache, the batch and the server; `windowMultiple` is
`int(sliding_window_size * SGLANG_SWA_EVICTION_INTERVAL_MULTIPLIER)`. -/
structure SwaConfig where
  pageSize : ℕ
  slidingWindowSize : ℕ
  windowMultiple : ℤ
  isEagle : Bool
  isChunkCache : Bool
  enableOverlap : Bool
  chunkedPrefillSize : ℤ
  args : ServerArgs
  splitLeafOnInsert : Bool
  pageSize_pos : 0 < pageSize

/-- `Req` with the fields about the window. -/
structure SwaReq extends Req where
  swaEvictedSeqlen : ℕ
  extendBatchIdx : ℕ
  decodeBatchIdx : ℕ

/-- `seqlen`. -/
def SwaReq.seqlen (r : SwaReq) : ℕ := r.originInputIds.length + r.outputIds.length

/-- One call of `_evict_swa` that frees slots: its arguments and the positions `start, .., stop - 1`. -/
structure SwaEviction where
  preLen : ℤ
  protectedLen : ℕ
  start : ℕ
  stop : ℕ

/-- The positions a call frees. -/
def SwaEviction.positions (e : SwaEviction) : List ℕ := List.range' e.start (e.stop - e.start)

/-- How far a request is: chunks of the prompt are still to come, the last chunk runs, its result
has been processed. -/
inductive SwaPhase where
  | prefill
  | launched
  | decode
deriving DecidableEq

/-- The request, its row of `req_to_token`, the allocator, the number of its batches that run and carry
a token, and the calls of `_evict_swa` so far that freed something. -/
structure SwaLife where
  req : SwaReq
  row : List ℕ
  allocator : SWATokenToKVPoolAllocator
  phase : SwaPhase
  inFlight : ℕ
  evictions : List SwaEviction

namespace SwaLife

variable {cfg : SwaConfig} {s s' : SwaLife}

/-! ## 1. The frontier -/

/-- The frontier `_evict_swa` moves to. -/
def newSwaEvictedSeqlen (cfg : SwaConfig) (swaEvictedSeqlen : ℕ) (preLen : ℤ) : ℕ :=
  let new := max (swaEvictedSeqlen : ℤ) (preLen - cfg.slidingWindowSize - cfg.pageSize)
  (if cfg.pageSize > 1 then new / cfg.pageSize * cfg.pageSize else new).toNat

/-- `_evict_swa`; `none` is the assertion, or a slot out of range. -/
def evictSwa (cfg : SwaConfig) (s : SwaLife) (preLen : ℤ) : Option SwaLife :=
  if s.req.cacheProtectedLen % cfg.pageSize ≠ 0 then none
  else
    let evicted := max s.req.swaEvictedSeqlen s.req.cacheProtectedLen
    let new := newSwaEvictedSeqlen cfg evicted preLen
    if new > evicted then do
      let A ← s.allocator.freeSwa ((s.row.take new).drop evicted)
      return { s with
        req := { s.req with swaEvictedSeqlen := new }
        allocator := A
        evictions := s.evictions ++ [⟨preLen, s.req.cacheProtectedLen, evicted, new⟩] }
    else some { s with req := { s.req with swaEvictedSeqlen := evicted } }

/-- `eviction_interval`. -/
def evictionInterval (cfg : SwaConfig) : ℤ :=
  max (cfg.pageSize : ℤ) cfg.windowMultiple / cfg.pageSize * cfg.pageSize

/-- `maybe_evict_swa` of a batch that decodes, for one request.  The release of the leaf lock that
follows touches the tree only. -/
def maybeEvictSwaDecode (cfg : SwaConfig) (s : SwaLife) : Option SwaLife :=
  if (s.req.decodeBatchIdx : ℤ) % evictionInterval cfg = 1 then
    evictSwa cfg s ((s.req.seqlen : ℤ) - 1)
  else some s

/-- `maybe_evict_swa` of a batch that extends, for one request; `preLen` is `prefix_lens[idx]`. -/
def maybeEvictSwaExtend (cfg : SwaConfig) (s : SwaLife) (preLen : ℤ) : Option SwaLife :=
  if cfg.isChunkCache then
    if cfg.enableOverlap then
      if s.req.extendBatchIdx < 2 then some s
      else evictSwa cfg s
        (if cfg.chunkedPrefillSize > 0 then preLen - cfg.chunkedPrefillSize else preLen)
    else evictSwa cfg s preLen
  else some s

/-! ## 2. What the request inserts -/

/-- The key `cache_finished_req` inserts. -/
def insertKey (cfg : SwaConfig) (r : SwaReq) : RadixKey :=
  (⟨r.tokenIds.take (r.cacheCommitLen cfg.args), r.extraKey, cfg.isEagle⟩ : RadixKey).pageAligned
    cfg.pageSize

/-- The slots it inserts. -/
def insertValues (cfg : SwaConfig) (s : SwaLife) : List ℕ :=
  (s.row.take (s.req.cacheCommitLen cfg.args)).take (insertKey cfg s.req).len

/-- `strip_thinking_cache` applies to the request. -/
def Stripped (cfg : SwaConfig) (r : SwaReq) : Prop :=
  cfg.args.stripThinkingCache = true ∧ r.reasoningTokens > 0

/-- A node that `_insert_helper` adds below the matched part. -/
structure SuffixNode where
  key : RadixKey
  value : List ℕ
  swaTombstone : Bool
deriving DecidableEq

/-- `_maybe_split_leaf_for_swa_lock` of a new leaf: the nodes it leaves, upper node first. -/
def splitLeafForSwaLock (cfg : SwaConfig) (leaf : SuffixNode) : List SuffixNode :=
  let tailSize := (cfg.slidingWindowSize + cfg.pageSize - 1) / cfg.pageSize * cfg.pageSize
  let splitAt := leaf.value.length - tailSize
  if leaf.value.length = 0 ∨ leaf.value.length ≤ tailSize ∨ splitAt = 0
      ∨ splitAt ≥ leaf.value.length
      ∨ cfg.pageSize > 1 ∧ (splitAt % cfg.pageSize ≠ 0 ∨ leaf.value.length % cfg.pageSize ≠ 0) then
    [leaf]
  else [⟨leaf.key.takeTo splitAt, leaf.value.take splitAt, leaf.swaTombstone⟩,
    ⟨leaf.key.dropTo splitAt, leaf.value.drop splitAt, leaf.swaTombstone⟩]

/-- The end of `_insert_helper`: `key` and `value` are what the tree does not hold, behind
`totalPrefixLength` that it holds.  The slots it frees, and the nodes it adds from the top down. -/
def insertSuffix (cfg : SwaConfig) (swaEvictedSeqlen totalPrefixLength : ℕ) (key : RadixKey)
    (value : List ℕ) : List ℕ × List SuffixNode :=
  let leaf := fun key value =>
    if cfg.splitLeafOnInsert then splitLeafForSwaLock cfg ⟨key, value, false⟩
    else [⟨key, value, false⟩]
  if key.len = 0 then ([], [])
  else if swaEvictedSeqlen = totalPrefixLength + key.len then (value, [])
  else if swaEvictedSeqlen > totalPrefixLength ∧ swaEvictedSeqlen < totalPrefixLength + key.len then
    let swaTombstoneLen := swaEvictedSeqlen - totalPrefixLength
    ([], ⟨key.takeTo swaTombstoneLen, value.take swaTombstoneLen, true⟩
      :: leaf (key.dropTo swaTombstoneLen) (value.drop swaTombstoneLen))
  else ([], leaf key value)

/-! ## 3. The life of a request -/

/-- The mapping entry of a slot. -/
def swaSlot? (A : SWATokenToKVPoolAllocator) (slot : ℕ) : Option ℤ := A.fullToSwaIndexMapping[slot]?

/-- The slot has a slot in the window pool. -/
def Held (A : SWATokenToKVPoolAllocator) (slot : ℕ) : Prop := ∃ v : ℤ, 0 < v ∧ swaSlot? A slot = some v

/-- What an allocation for a request with the row `row` gives: new slots, each with a slot in the
window pool, and nothing else about the row is touched. -/
structure Served (A : SWATokenToKVPoolAllocator) (row slots : List ℕ)
    (A' : SWATokenToKVPoolAllocator) : Prop where
  nodup : slots.Nodup
  fresh : ∀ x ∈ slots, x ∉ row
  held : ∀ x ∈ slots, Held A' x
  frame : ∀ x ∈ row, swaSlot? A' x = swaSlot? A x

/-- One step of the request, or of the others. -/
inductive Step (cfg : SwaConfig) : SwaLife → SwaLife → Prop
  /-- `prepare_for_extend`: a chunk of the prompt, the last one when it reaches the end. -/
  | prepareForExtend {s s₁ : SwaLife} {slots : List ℕ} {A : SWATokenToKVPoolAllocator}
    (hphase : s.phase = .prefill) (hslots : slots ≠ [])
    (hfill : s.row.length + slots.length ≤ s.req.seqlen)
    (hevict : maybeEvictSwaExtend cfg s s.row.length = some s₁)
    (halloc : Served s₁.allocator s₁.row slots A) :
    Step cfg s { s₁ with
      req := { s₁.req with
        extendBatchIdx := s₁.req.extendBatchIdx + 1
        kvCommittedLen := s₁.row.length + slots.length
        kvAllocatedLen := s₁.row.length + slots.length }
      row := s₁.row ++ slots
      allocator := A
      phase := if s.row.length + slots.length = s.req.seqlen then .launched else .prefill
      inFlight := if s.row.length + slots.length = s.req.seqlen then 1 else 0 }
  /-- `cache_unfinished_req`: the row gets the slots of the tree up to what a new match returns. -/
  | cacheUnfinishedReq {s : SwaLife} {newIndices : List ℕ} {A : SWATokenToKVPoolAllocator}
    (hcache : cfg.isChunkCache = false) (hphase : s.phase ≠ .decode)
    (hold : s.req.cacheProtectedLen ≤ newIndices.length) (hpage : cfg.pageSize ∣ newIndices.length)
    (hnew : newIndices.length ≤ s.req.kvCommittedLen)
    (hframe : ∀ x ∈ s.row.drop newIndices.length, swaSlot? A x = swaSlot? s.allocator x) :
    Step cfg s { s with
      req := { s.req with cacheProtectedLen := newIndices.length }
      row := s.row.take s.req.cacheProtectedLen ++ newIndices.drop s.req.cacheProtectedLen
        ++ s.row.drop newIndices.length
      allocator := A }
  /-- `process_batch_result_prefill` of the last chunk. -/
  | processBatchResultPrefill {s : SwaLife} {token : Token} (hphase : s.phase = .launched)
    (hflight : 0 < s.inFlight) :
    Step cfg s { s with
      req := { s.req with outputIds := s.req.outputIds ++ [token] }
      phase := .decode
      inFlight := s.inFlight - 1 }
  /-- `prepare_for_decode`; with overlap the batch before may still run. -/
  | prepareForDecode {s s₁ : SwaLife} {slots : List ℕ} {A : SWATokenToKVPoolAllocator}
    (hphase : s.phase ≠ .prefill) (hflight : s.inFlight ≤ if cfg.enableOverlap then 1 else 0)
    (hevict : maybeEvictSwaDecode cfg s = some s₁)
    (halloc : Served s₁.allocator s₁.row slots A)
    (hroom : s₁.req.kvCommittedLen + 1 ≤ s₁.row.length + slots.length) :
    Step cfg s { s₁ with
      req := { s₁.req with
        decodeBatchIdx := s₁.req.decodeBatchIdx + 1
        kvCommittedLen := s₁.req.kvCommittedLen + 1
        kvAllocatedLen := s₁.row.length + slots.length }
      row := s₁.row ++ slots
      allocator := A
      inFlight := s₁.inFlight + 1 }
  /-- `process_batch_result_decode`: one token, or the accepted ones of a speculative decoder, that
  frees the slots of the others. -/
  | processBatchResultDecode {s : SwaLife} {tokens : List Token} {kept reasoningTokens : ℕ}
    (hphase : s.phase = .decode) (hflight : 0 < s.inFlight) (htokens : tokens ≠ [])
    (hkept : s.req.kvCommittedLen + (tokens.length - 1) ≤ kept) (hrow : kept ≤ s.row.length) :
    Step cfg s { s with
      req := { s.req with
        outputIds := s.req.outputIds ++ tokens
        kvCommittedLen := s.req.kvCommittedLen + (tokens.length - 1)
        kvAllocatedLen := kept
        reasoningTokens := reasoningTokens }
      row := s.row.take kept
      inFlight := s.inFlight - 1 }
  /-- Other requests allocate and free; the tree may free the window slots of what it holds. -/
  | others {s : SwaLife} {A : SWATokenToKVPoolAllocator}
    (hframe : ∀ x ∈ s.row.drop s.req.cacheProtectedLen, swaSlot? A x = swaSlot? s.allocator x) :
    Step cfg s { s with allocator := A }

/-- An admitted request: its row is the matched prefix, with something left to compute. -/
structure Admitted (cfg : SwaConfig) (s : SwaLife) : Prop where
  phase : s.phase = .prefill
  inFlight : s.inFlight = 0
  evictions : s.evictions = []
  evicted : s.req.swaEvictedSeqlen = 0
  decodeBatchIdx : s.req.decodeBatchIdx = 0
  committed : s.req.kvCommittedLen = 0
  protected_eq : s.req.cacheProtectedLen = s.row.length
  page : cfg.pageSize ∣ s.row.length
  chunkCache : cfg.isChunkCache = true → s.row = []
  short : s.row.length < s.req.seqlen

/-- The states of the request, from its admission on. -/
inductive Reached (cfg : SwaConfig) : SwaLife → Prop
  | admitted {s : SwaLife} : Admitted cfg s → Reached cfg s
  | step {s s' : SwaLife} : Reached cfg s → Step cfg s s' → Reached cfg s'

/-! ## 4. One call -/

variable {A : SWATokenToKVPoolAllocator} {evicted : ℕ} {preLen : ℤ}

theorem mapM_tensorIndex {values : List ℤ} : ∀ {slots : List ℕ},
    (∀ x ∈ slots, ∃ v, values[x]? = some v) →
    (slots.map fun i : ℕ => (i : ℤ)).mapM (SWATokenToKVPoolAllocator.tensorIndex values)
      = some (slots.map fun x => values.getD x 0)
  | [], _ => rfl
  | x :: slots, h => by
    obtain ⟨v, hv⟩ := h x mem_cons_self
    have ih := mapM_tensorIndex fun y (hy : y ∈ slots) => h y (mem_cons_of_mem _ hy)
    have hx : SWATokenToKVPoolAllocator.tensorIndex values (x : ℤ) = some (values.getD x 0) := by
      simp [SWATokenToKVPoolAllocator.tensorIndex, hv]
    simp [mapM_cons, hx, ih]

theorem getElem?_foldl_set (slots : List ℕ) : ∀ (values : List ℤ) (x : ℕ),
    ((slots.zip (slots.map fun _ => (0 : ℤ))).foldl (fun m w => m.set w.1 w.2) values)[x]?
      = if x ∈ slots ∧ x < values.length then some 0 else values[x]? := by
  induction slots with
  | nil => simp
  | cons y slots ih =>
    intro values x
    grind

/-- **`free_swa`** of slots that the mapping covers: their entries become 0, and the window pool gets
the entries they had. -/
theorem freeSwa_spec {slots : List ℕ} (h : ∀ x ∈ slots, ∃ v, swaSlot? A x = some v) :
    ∃ A', A.freeSwa slots = some A' ∧
      (∀ x, swaSlot? A' x = if x ∈ slots then some 0 else swaSlot? A x) ∧
      A'.swaAttnAllocator = A.swaAttnAllocator.free
        (((slots.map fun x => A.fullToSwaIndexMapping.getD x 0).filter (0 < ·)).map Int.toNat) := by
  have hlt : ∀ x ∈ slots, x < A.fullToSwaIndexMapping.length := by
    intro x hx
    obtain ⟨v, hv⟩ := h x hx
    exact (List.getElem?_eq_some_iff.mp hv).1
  have hfree : A.freeSwa slots = some { A with
      swaAttnAllocator := A.swaAttnAllocator.free
        (((slots.map fun x => A.fullToSwaIndexMapping.getD x 0).filter (0 < ·)).map Int.toNat)
      fullToSwaIndexMapping := (slots.zip (slots.map fun _ => (0 : ℤ))).foldl
        (fun m w => m.set w.1 w.2) A.fullToSwaIndexMapping } := by
    simp only [SWATokenToKVPoolAllocator.freeSwa, SWATokenToKVPoolAllocator.translateLocFromFullToSwa,
      mapM_tensorIndex h, Option.bind_eq_bind, Option.bind_some, SWATokenToKVPoolAllocator.setMapping]
    rw [if_pos ⟨by simp, hlt⟩]
  refine ⟨_, hfree, fun x => ?_, rfl⟩
  simp only [swaSlot?, getElem?_foldl_set]
  by_cases hx : x ∈ slots
  · simp [hx, hlt x hx]
  · simp [hx]

/-- **Slots whose window slots are gone** give the window pool nothing. -/
theorem freeSwa_dead {slots : List ℕ} (h : ∀ x ∈ slots, swaSlot? A x = some 0) :
    ∃ A', A.freeSwa slots = some A' ∧ A'.swaAttnAllocator = A.swaAttnAllocator := by
  obtain ⟨A', hfree, -, hpool⟩ := freeSwa_spec fun x hx => ⟨0, h x hx⟩
  have hnone : (slots.map fun x => A.fullToSwaIndexMapping.getD x 0).filter (0 < ·) = [] := by
    simp only [filter_eq_nil_iff, mem_map, forall_exists_index, and_imp, forall_apply_eq_imp_iff₂]
    intro x hx
    have hx' : A.fullToSwaIndexMapping[x]? = some 0 := h x hx
    simp [hx']
  refine ⟨A', hfree, ?_⟩
  rw [hpool, hnone]
  simp [KVAllocator.free, TokenToKVPoolAllocator.free, PagedTokenToKVPoolAllocator.free]

theorem dvd_newSwaEvictedSeqlen : cfg.pageSize ∣ newSwaEvictedSeqlen cfg evicted preLen := by
  have hp := cfg.pageSize_pos
  unfold newSwaEvictedSeqlen
  simp only
  split
  · set q := max (evicted : ℤ) (preLen - cfg.slidingWindowSize - cfg.pageSize) / cfg.pageSize
    have hq : 0 ≤ q := Int.ediv_nonneg (by positivity) (by positivity)
    obtain ⟨n, hn⟩ := Int.eq_ofNat_of_zero_le hq
    refine ⟨n, ?_⟩
    rw [hn, ← Int.natCast_mul, Int.toNat_natCast, Nat.mul_comm]
  · have hone : cfg.pageSize = 1 := by omega
    simp [hone]

/-- **A frontier that moves** stays a page and a window behind `preLen`. -/
theorem newSwaEvictedSeqlen_le (h : evicted < newSwaEvictedSeqlen cfg evicted preLen) :
    (newSwaEvictedSeqlen cfg evicted preLen : ℤ) + cfg.slidingWindowSize + cfg.pageSize ≤ preLen := by
  set new := max (evicted : ℤ) (preLen - cfg.slidingWindowSize - cfg.pageSize) with hnew
  have hle : (newSwaEvictedSeqlen cfg evicted preLen : ℤ) ≤ new := by
    unfold newSwaEvictedSeqlen
    have h0 : 0 ≤ new := le_trans (by positivity) (le_max_left _ _)
    split
    · have hround := Int.ediv_mul_le new (b := (cfg.pageSize : ℤ)) (by positivity)
      rw [Int.toNat_of_nonneg (by positivity)]
      exact hround
    · rw [Int.toNat_of_nonneg h0]
  rcases max_choice (evicted : ℤ) (preLen - cfg.slidingWindowSize - cfg.pageSize) with hm | hm
  · rw [hnew] at hle
    omega
  · rw [hnew] at hle
    omega

/-- Where the frontier stands before the comparison of a call. -/
def base (s : SwaLife) : ℕ := max s.req.swaEvictedSeqlen s.req.cacheProtectedLen

/-- What a call of `_evict_swa` can do. -/
inductive EvictOutcome (cfg : SwaConfig) (s : SwaLife) (preLen : ℤ) : SwaLife → Prop
  | kept : EvictOutcome cfg s preLen { s with req := { s.req with swaEvictedSeqlen := s.base } }
  | moved {new : ℕ} {A : SWATokenToKVPoolAllocator} (hlt : s.base < new)
    (hle : (new : ℤ) + cfg.slidingWindowSize + cfg.pageSize ≤ preLen) (hdvd : cfg.pageSize ∣ new)
    (hmap : ∀ x, swaSlot? A x
      = if x ∈ (s.row.take new).drop s.base then some 0 else swaSlot? s.allocator x) :
    EvictOutcome cfg s preLen { s with
      req := { s.req with swaEvictedSeqlen := new }
      allocator := A
      evictions := s.evictions ++ [⟨preLen, s.req.cacheProtectedLen, s.base, new⟩] }

/-- **One call** with an aligned protected length, where the mapping covers what lies behind the
frontier: it returns. -/
theorem evictSwa_spec (hprot : cfg.pageSize ∣ s.req.cacheProtectedLen)
    (hcov : ∀ x ∈ s.row.drop s.base, ∃ v, swaSlot? s.allocator x = some v) (preLen : ℤ) :
    ∃ s', evictSwa cfg s preLen = some s' ∧ EvictOutcome cfg s preLen s' := by
  unfold evictSwa
  rw [if_neg (by simpa using Nat.mod_eq_zero_of_dvd hprot)]
  change ∃ s', (if newSwaEvictedSeqlen cfg s.base preLen > s.base then _ else _) = some s' ∧ _
  by_cases hmove : newSwaEvictedSeqlen cfg s.base preLen > s.base
  · have hsub : ∀ x ∈ (s.row.take (newSwaEvictedSeqlen cfg s.base preLen)).drop s.base,
        ∃ v, swaSlot? s.allocator x = some v := by
      intro x hx
      rw [drop_take] at hx
      exact hcov x (mem_of_mem_take hx)
    obtain ⟨A, hfree, hmap, -⟩ := freeSwa_spec hsub
    rw [if_pos hmove]
    refine ⟨_, ?_, .moved hmove (newSwaEvictedSeqlen_le hmove) dvd_newSwaEvictedSeqlen hmap⟩
    change (s.allocator.freeSwa _).bind _ = _
    rw [base] at hfree
    rw [hfree]
    rfl
  · rw [if_neg hmove]
    exact ⟨_, rfl, .kept⟩

end SwaLife

end Sglang
