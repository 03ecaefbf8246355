/-
# Requests and the KV slots they hold

The life cycle of a request as far as its KV slots go: a transcription of `cache_finished_req`,
`cache_unfinished_req` and `evict` of `radix_cache.py`, of `ReqToTokenPool`, of the allocation and
release functions of `mem_cache/common.py`, of the parts of `Req` and `ScheduleBatch` that keep the
lengths (`schedule_batch.py`), and of `prepare_for_decode` of the second speculative decoder
(`eagle_info_v2.py`).

`KVSystem` is the tree, the allocator, the pool of rows and the requests.  A row is a function of
the position: its end, `max_context_len`, is checked when a request is received.  A function that
can raise returns an `Option`, where `none` stands for the exception, an allocation that does not
fit among them.  `batch.seq_lens` of a batch that decodes is `kv_committed_len` of its requests,
since both are set to the length of the prompt by `prepare_for_extend` and counted up together by
`prepare_for_decode`; `extend_input_len` is what `set_extend_input_len` last stored, the length of
`fill_ids` behind `prefix_indices`.  Left out are the window, Mamba, encoder and diffusion
variants, sessions, and the environment variable that forces misses.
-/
import Sglang.MemCache.Allocator
import Sglang.MemCache.RadixCache

namespace Sglang

/-- The server arguments the release of a request looks at; `speculativeAlgorithm` is whether one
is set. -/
structure ServerArgs where
  speculativeAlgorithm : Bool
  stripThinkingCache : Bool

/-- The identity of a request object. -/
abbrev ReqId := ℕ

/-- `Req`, the fields about KV slots; `positionalEmbedOverrides` and `inputEmbeds` are whether the
request carries any. -/
structure Req where
  originInputIds : List Token
  outputIds : List Token
  fillIds : List Token
  extraKey : Option String
  priority : Option ℤ
  skipRadixCacheInsert : Bool
  returnLogprob : Bool
  logprobStartLen : ℤ
  positionalEmbedOverrides : Bool
  inputEmbeds : Bool
  reasoningTokens : ℕ
  isChunked : ℕ
  reqPoolIdx : Option ℕ
  prefixIndices : List ℕ
  lastNode : Option NodeId
  cacheProtectedLen : ℕ
  kvCommittedLen : ℕ
  kvAllocatedLen : ℕ
  kvCommittedFreed : Bool
  kvOverallocatedFreed : Bool

/-- `ReqToTokenPool`; `reqToToken i k` is position `k` of row `i`. -/
structure ReqToTokenPool where
  reqToToken : ℕ → ℕ → ℕ
  freeSlots : List ℕ

/-- The tree, the allocator, the rows and the requests. -/
structure KVSystem where
  cache : RadixCache ℕ
  allocator : KVAllocator
  pool : ReqToTokenPool
  reqs : ReqId → Req

/-! ## 1. `Req` -/

namespace Req

/-- `origin_input_ids + output_ids`. -/
def tokenIds (r : Req) : List Token := r.originInputIds ++ r.outputIds

/-- `_cache_commit_len`: with `strip_thinking_cache` a request that has thought reports its prompt
only. -/
def cacheCommitLen (args : ServerArgs) (r : Req) : ℕ :=
  if args.stripThinkingCache ∧ r.reasoningTokens > 0 then
    min r.kvCommittedLen r.originInputIds.length
  else r.kvCommittedLen

/-- The tokens `init_next_round_input` looks up: all but the last, or fewer when log
probabilities of the prompt are asked for, or none. -/
def matchTokenIds (r : Req) : List Token :=
  let maxPrefixLen : ℤ := (r.tokenIds.length : ℤ) - 1
  let maxPrefixLen := if r.returnLogprob ∧ r.logprobStartLen ≥ 0 then
    min maxPrefixLen r.logprobStartLen else maxPrefixLen
  let tokenIds := r.tokenIds.take (max maxPrefixLen 0).toNat
  if r.positionalEmbedOverrides then [] else tokenIds

/-- `reset_for_retract`. -/
def resetForRetract (r : Req) : Req :=
  { r with
    prefixIndices := []
    lastNode := none
    cacheProtectedLen := 0
    isChunked := 0
    kvAllocatedLen := 0
    kvCommittedLen := 0
    kvCommittedFreed := false
    kvOverallocatedFreed := false
    outputIds := if r.inputEmbeds then [] else r.outputIds }

/-- The key of a list of the request's tokens, as the cache methods build it. -/
def radixKey (cfg : CacheConfig) (r : Req) (tokenIds : List Token) : RadixKey :=
  (⟨tokenIds, r.extraKey, cfg.isEagle⟩ : RadixKey).pageAligned cfg.pageSize

end Req

/-! ## 2. `ReqToTokenPool` -/

namespace ReqToTokenPool

/-- `req_to_token[idx, :n]`. -/
def row (P : ReqToTokenPool) (idx n : ℕ) : List ℕ := (List.range n).map (P.reqToToken idx)

/-- `write((idx, slice(start, start + len(values))), values)`. -/
def write (P : ReqToTokenPool) (idx start : ℕ) (values : List ℕ) : ReqToTokenPool :=
  { P with reqToToken := Function.update P.reqToToken idx fun k =>
      if start ≤ k ∧ k < start + values.length then values.getD (k - start) 0
      else P.reqToToken idx k }

end ReqToTokenPool

namespace KVSystem

variable (cfg : CacheConfig) (args : ServerArgs)

/-- An update of one request object. -/
def modifyReq (S : KVSystem) (r : ReqId) (f : Req → Req) : KVSystem :=
  { S with reqs := Function.update S.reqs r (f (S.reqs r)) }

/-- `token_to_kv_pool_allocator.free`. -/
def free (S : KVSystem) (freeIndex : List ℕ) : KVSystem :=
  { S with allocator := S.allocator.free freeIndex }

/-! ## 3. The cache methods on requests -/

/-- `evict`: the slots of every evicted leaf are freed. -/
def evict (S : KVSystem) (numTokens : ℕ) : Option KVSystem := do
  let (_, freed, cache) ← S.cache.evict cfg numTokens
  return freed.foldl free { S with cache := cache }

/-- The part of `cache_finished_req` that depends on `is_insert`: the committed slots up to whole
pages go to the tree, less the duplicates, or are freed. -/
def storeFinished (S : KVSystem) (r : ReqId) (isInsert : Bool) (radixKey : RadixKey)
    (kvIndices : List ℕ) : Option KVSystem :=
  let req := S.reqs r
  if isInsert then do
    let (prefixLen, cache) ← S.cache.insert cfg radixKey (kvIndices.take radixKey.len)
      (req.priority.getD 0) false
    return { S with cache := cache }.free ((kvIndices.take prefixLen).drop req.cacheProtectedLen)
  else some (S.free ((kvIndices.take radixKey.len).drop req.cacheProtectedLen))

/-- `if req.last_node is not None: self.dec_lock_ref(req.last_node)`. -/
def unlockLast (S : KVSystem) (r : ReqId) : Option KVSystem :=
  match (S.reqs r).lastNode with
  | none => some S
  | some n => do
    let (cache, _) ← S.cache.decLockRef n
    return { S with cache := cache }

/-- `cache_finished_req`. -/
def cacheFinishedReq (S : KVSystem) (r : ReqId) (isInsert : Bool) : Option KVSystem := do
  let req := S.reqs r
  let isInsert := if cfg.disableFinishedInsert then false else isInsert
  -- `pop_committed_kv_cache` asserts that it is called once
  if req.kvCommittedFreed then none
  let S := S.modifyReq r fun x => { x with kvCommittedFreed := true }
  let tokenIds := req.tokenIds.take (req.cacheCommitLen args)
  let idx ← req.reqPoolIdx
  let kvIndices := S.pool.row idx tokenIds.length
  let radixKey := req.radixKey cfg tokenIds
  let S ← S.storeFinished cfg r isInsert radixKey kvIndices
  let S := S.free (kvIndices.drop radixKey.len)
  S.unlockLast r

/-- `cache_unfinished_req`. -/
def cacheUnfinishedReq (S : KVSystem) (r : ReqId) (chunked : Bool) : Option KVSystem := do
  let req := S.reqs r
  let idx ← req.reqPoolIdx
  let kvIndices := S.pool.row idx req.fillIds.length
  let radixKey := req.radixKey cfg req.fillIds
  let (newPrefixLen, cache) ← S.cache.insert cfg radixKey (kvIndices.take radixKey.len)
    (req.priority.getD 0) chunked
  let S := { S with cache := cache }.free
    ((kvIndices.take newPrefixLen).drop req.cacheProtectedLen)
  let (matchResult, cache) ← S.cache.matchPrefix cfg radixKey
  let newIndices := matchResult.deviceIndices
  let newLastNode := matchResult.lastDeviceNode
  if newIndices.length ≠ radixKey.len then none
  let pool := S.pool.write idx req.cacheProtectedLen (newIndices.drop req.cacheProtectedLen)
  let (cache, _) ← cache.decLockRef (← req.lastNode)
  let (cache, _) ← cache.incLockRef newLastNode
  let S := { S with cache := cache, pool := pool }
  return S.modifyReq r fun x => { x with
    cacheProtectedLen := newIndices.length
    prefixIndices :=
      if newIndices.length < kvIndices.length then newIndices ++ kvIndices.drop newIndices.length
      else newIndices
    lastNode := some newLastNode }

/-! ## 4. Allocation -/

/-- `evict_from_tree_cache`. -/
def evictFromTreeCache (S : KVSystem) (numTokens : ℕ) : Option KVSystem :=
  if S.allocator.availableSize < numTokens then S.evict cfg numTokens else some S

/-- `alloc_token_slots`; out of memory raises. -/
def allocTokenSlots (S : KVSystem) (numTokens : ℕ) : Option (List ℕ × KVSystem) := do
  let S ← S.evictFromTreeCache cfg numTokens
  let (out, allocator) ← S.allocator.alloc numTokens
  return (out, { S with allocator := allocator })

/-- `alloc_paged_token_slots_extend`: one page for each request is asked for on top. -/
def allocPagedTokenSlotsExtend (S : KVSystem) (batch : List ExtendItem) (extendNumTokens : ℕ) :
    Option (List ℕ × KVSystem) := do
  let S ← S.evictFromTreeCache cfg (extendNumTokens + batch.length * S.allocator.pageSize)
  let (out, allocator) ← PagedTokenToKVPoolAllocator.allocExtend S.allocator batch extendNumTokens
  return (out, { S with allocator := allocator })

/-- The slots of an extend batch: `alloc_for_extend` and `prepare_for_decode` of the speculative
decoder choose the allocator by the page size. -/
def allocExtend (S : KVSystem) (batch : List ExtendItem) : Option (List ℕ × KVSystem) :=
  let extendNumTokens := (batch.map fun it => it.seqLen - it.prefixLen).sum
  if cfg.pageSize = 1 then S.allocTokenSlots cfg extendNumTokens
  else S.allocPagedTokenSlotsExtend cfg batch extendNumTokens

/-- `ReqToTokenPool.alloc`: requests without a row take one from the front.  The requests that
reuse their row must have committed slots or be chunked, and the rows must suffice. -/
def allocReqSlots (S : KVSystem) (reqs : List ReqId) : Option KVSystem :=
  let reusing := reqs.filter fun r => (S.reqs r).reqPoolIdx.isSome
  let fresh := reqs.filter fun r => (S.reqs r).reqPoolIdx.isNone
  if reusing.all fun r => (S.reqs r).isChunked > 0 ∨ (S.reqs r).kvCommittedLen > 0 then
    if fresh.length > S.pool.freeSlots.length then none
    else
      let assigned := fresh.zip S.pool.freeSlots
      some { S with
        pool := { S.pool with freeSlots := S.pool.freeSlots.drop fresh.length }
        reqs := assigned.foldl
          (fun reqs a => Function.update reqs a.1 { reqs a.1 with reqPoolIdx := some a.2 }) S.reqs }
  else none

/-- `write_cache_indices`: the cached prefix and behind it the new slots of each request. -/
def writeCacheIndices (S : KVSystem) : List ReqId → List ℕ → KVSystem
  | [], _ => S
  | r :: reqs, out =>
    let req := S.reqs r
    let idx := req.reqPoolIdx.getD 0
    let extendLen := req.fillIds.length - req.prefixIndices.length
    let pool := (S.pool.write idx 0 req.prefixIndices).write idx req.prefixIndices.length
      (out.take extendLen)
    writeCacheIndices { S with pool := pool } reqs (out.drop extendLen)

/-- What `alloc_for_extend` asks the allocator for. -/
def extendItem (S : KVSystem) (r : ReqId) : ExtendItem where
  prefixLen := (S.reqs r).prefixIndices.length
  seqLen := (S.reqs r).fillIds.length
  lastLoc := ((S.reqs r).prefixIndices.getLast?.map fun s : ℕ => (s : ℤ)).getD (-1)

/-- `ScheduleBatch.prepare_for_extend`: `alloc_for_extend`, then the lengths. -/
def prepareForExtend (S : KVSystem) (reqs : List ReqId) : Option KVSystem := do
  let S ← S.allocReqSlots reqs
  let (out, S) ← S.allocExtend cfg (reqs.map S.extendItem)
  let S := S.writeCacheIndices reqs out
  return reqs.foldl (fun S r => S.modifyReq r fun x => { x with
    kvCommittedLen := x.fillIds.length
    kvAllocatedLen := x.fillIds.length }) S

/-- `req_to_token_pool.write((req_pool_indices, locs), out_cache_loc)`. -/
def writeNext (S : KVSystem) : List ReqId → List ℕ → KVSystem
  | [], _ => S
  | r :: reqs, out =>
    let req := S.reqs r
    let pool := S.pool.write (req.reqPoolIdx.getD 0) req.kvCommittedLen (out.take 1)
    writeNext { S with pool := pool } reqs (out.drop 1)

/-- The slot at the end of the committed part of a row. -/
def lastLoc (S : KVSystem) (r : ReqId) (len : ℕ) : ℤ :=
  if len > 0 then S.pool.reqToToken ((S.reqs r).reqPoolIdx.getD 0) (len - 1) else -1

/-- `alloc_paged_token_slots_decode`. -/
def allocPagedTokenSlotsDecode (S : KVSystem) (batch : List (ℕ × ℤ)) :
    Option (List ℕ × KVSystem) := do
  let S ← S.evictFromTreeCache cfg (batch.length * S.allocator.pageSize)
  let (out, allocator) ← PagedTokenToKVPoolAllocator.allocDecode S.allocator batch
  return (out, { S with allocator := allocator })

/-- `ScheduleBatch.prepare_for_decode` without a speculative algorithm: `alloc_for_decode` with
one token a request, then the lengths. -/
def prepareForDecode (S : KVSystem) (reqs : List ReqId) : Option KVSystem := do
  let (out, S) ← (if cfg.pageSize = 1 then S.allocTokenSlots cfg reqs.length
    else S.allocPagedTokenSlotsDecode cfg (reqs.map fun r =>
      ((S.reqs r).kvCommittedLen + 1, S.lastLoc r (S.reqs r).kvCommittedLen)))
  let S := S.writeNext reqs out
  return reqs.foldl (fun S r => S.modifyReq r fun x => { x with
    kvCommittedLen := x.kvCommittedLen + 1
    kvAllocatedLen := x.kvAllocatedLen + 1 }) S

/-- `assign_req_to_token_pool_func`: each row from the old to the new allocated length. -/
def assignReqToTokenPool (S : KVSystem) : List (ReqId × ℕ × ℕ) → List ℕ → KVSystem
  | [], _ => S
  | (r, cur, nxt) :: spans, out =>
    let pool := S.pool.write ((S.reqs r).reqPoolIdx.getD 0) cur (out.take (nxt - cur))
    assignReqToTokenPool { S with pool := pool } spans (out.drop (nxt - cur))

/-- `EagleDraftInput.prepare_for_decode`: each row is extended to twice `alloc_len_per_decode`
behind the committed part, never backwards, and one slot counts as committed already. -/
def prepareForSpecDecode (S : KVSystem) (reqs : List ReqId) (allocLenPerDecode : ℕ) :
    Option KVSystem := do
  let nxt (r : ReqId) : ℕ := max (S.reqs r).kvAllocatedLen
    ((S.reqs r).kvCommittedLen + (allocLenPerDecode + allocLenPerDecode))
  let spans := reqs.map fun r => (r, (S.reqs r).kvAllocatedLen, nxt r)
  let items := reqs.map fun r =>
    { prefixLen := (S.reqs r).kvAllocatedLen, seqLen := nxt r
      lastLoc := S.lastLoc r (S.reqs r).kvAllocatedLen : ExtendItem }
  let S := spans.foldl (fun S s => S.modifyReq s.1 fun x => { x with
    kvAllocatedLen := s.2.2
    kvCommittedLen := x.kvCommittedLen + 1 }) S
  let (out, S) ← S.allocExtend cfg items
  return S.assignReqToTokenPool spans out

/-! ## 5. The life cycle -/

/-- A request is admitted: `init_next_round_input` matches its tokens in the tree, and
`_req_inc_lock_ref` locks the node the match ends at. -/
def admitReq (S : KVSystem) (r : ReqId) : Option KVSystem := do
  let req := S.reqs r
  let (matchResult, cache) ← S.cache.matchPrefix cfg ⟨req.matchTokenIds, req.extraKey, false⟩
  let (cache, _) ← cache.incLockRef matchResult.lastDeviceNode
  return { S with cache := cache }.modifyReq r fun x => { x with
    fillIds := x.tokenIds
    prefixIndices := matchResult.deviceIndices
    lastNode := some matchResult.lastDeviceNode
    cacheProtectedLen := matchResult.deviceIndices.length }

/-- A prefill batch: each request is given the first `n` of its tokens, cut to the chunk by
`PrefillAdder`, and the batch is prepared. -/
def extendBatch (S : KVSystem) (batch : List (ReqId × ℕ)) : Option KVSystem :=
  (batch.foldl (fun S b => S.modifyReq b.1 fun x => { x with fillIds := x.tokenIds.take b.2 }) S)
    |>.prepareForExtend cfg (batch.map Prod.fst)

/-- New output tokens of a request, `k` of them counted as reasoning. -/
def appendOutput (S : KVSystem) (r : ReqId) (tokens : List Token) (k : ℕ) : KVSystem :=
  S.modifyReq r fun x => { x with
    outputIds := x.outputIds ++ tokens
    reasoningTokens := x.reasoningTokens + k }

/-- `_resolve_spec_overlap_token_ids` and the output processing of one request: one slot was
claimed by `prepare_for_decode` already. -/
def acceptTokens (S : KVSystem) (r : ReqId) (tokens : List Token) (k : ℕ) : KVSystem :=
  (S.modifyReq r fun x => { x with kvCommittedLen := x.kvCommittedLen + tokens.length - 1 })
    |>.appendOutput r tokens k

/-- `release_kv_cache`; `none` also stands for a request without a row. -/
def releaseKvCache (S : KVSystem) (r : ReqId) (isInsert : Bool) : Option KVSystem := do
  let _ ← (S.reqs r).reqPoolIdx
  let S ← S.cacheFinishedReq cfg args r (isInsert && !(S.reqs r).skipRadixCacheInsert)
  let req := S.reqs r
  let idx ← req.reqPoolIdx
  -- `pop_overallocated_kv_cache`
  if req.kvOverallocatedFreed then none
  let S := S.modifyReq r fun x => { x with kvOverallocatedFreed := true }
  let startP := req.cacheCommitLen args
  let endP := req.kvAllocatedLen
  if args.speculativeAlgorithm = false ∧ args.stripThinkingCache = false ∧ startP ≠ endP then none
  let startP := if cfg.pageSize > 1 then (startP + cfg.pageSize - 1) / cfg.pageSize * cfg.pageSize
    else startP
  let S := if startP < endP then S.free ((S.pool.row idx endP).drop startP) else S
  -- `req_to_token_pool.free`
  return { S with pool := { S.pool with freeSlots := S.pool.freeSlots ++ [idx] } }.modifyReq r
    fun x => { x with reqPoolIdx := none }

/-- `release_req`: a retracted request gives everything back and starts over. -/
def releaseReq (S : KVSystem) (r : ReqId) (numTokens : ℕ) : Option KVSystem := do
  let S ← S.releaseKvCache cfg args r false
  let S ← S.evictFromTreeCache cfg numTokens
  return S.modifyReq r Req.resetForRetract

end KVSystem

end Sglang
