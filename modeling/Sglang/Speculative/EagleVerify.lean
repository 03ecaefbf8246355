/-
# What is kept of a verified draft

A transcription of `EagleVerifyInput.prepare_for_verify` and of the part of `verify` behind the sampling
(`eagle_info.py`), with the kernels they launch (`spec_utils.py`) and `move_kv_cache` (`memory_pool.py`):
the loop over the accepted tokens, the release of the other slots in one of three ways, the rows of
`req_to_token`, and the `out_cache_loc` that the draft extend is given.

A tensor with an entry for each request is a function of the request's number, below `bs`, and a tensor a
kernel stores to is a function of the address.  The programs of a launch run one after another in an order
that `LaunchEnv` gives, masked-off lanes of a load hold `maskedLane`, and an empty tensor holds anything.  A
slot of the KV cache holds one value, whatever layers and bytes it is made of.  The statistics of the
requests are left out, and so are the hidden states and the logits.
-/
import Sglang.Lib.ChunkCopy
import Sglang.MemCache.Allocator
import Sglang.Speculative.DraftCache

namespace Sglang

open Lib Finset

namespace EagleVerify

/-! ## 1. The arguments -/

/-- The batch and the settings of the draft. -/
structure VerifyBatch where
  bs : ℕ
  reqPoolIndices : ℕ → ℕ
  seqLens : ℕ → ℕ
  kvCommittedLen : ℕ → ℕ
  draftTokenNum : ℕ
  topk : ℕ
  pageSize : ℕ

/-- The launches of one round. -/
inductive Launch
  | assignDraft
  | align
  | target
  | assignAccepted
  | filter

/-- What the code does not decide: the order of the programs of each launch, the contents of an empty
tensor, and the configuration of the copy. -/
structure LaunchEnv (bs : ℕ) where
  order : Launch → List ℕ
  empty : ℕ → ℕ
  nativeMoveKvCache : Bool
  numLocsUpper : ℕ
  perm_order : ∀ l, (order l).Perm (List.range bs)
  numLocsUpper_pos : 0 < numLocsUpper

/-- The rows, the slots of the batch, the cached values and the allocator. -/
structure KVMemory (β : Type) where
  reqToToken : ℕ → ℕ → ℕ
  outCacheLoc : List ℕ
  kv : ℕ → β
  allocator : KVAllocator

/-- `t[mask]`. -/
def maskSelect (l : List ℕ) (mask : ℕ → Bool) : List ℕ :=
  ((List.range l.length).filter mask).map (l.getD · 0)

/-- `t[index]`. -/
def indexSelect (l : List ℕ) (index : List ℕ) : List ℕ := index.map (l.getD · 0)

/-- The contents of a tensor that a kernel has filled. -/
def contents (size : ℕ) (m : ℕ → ℕ) : List ℕ := (List.range size).map m

variable {β ρ : Type} (B : VerifyBatch)

/-! ## 2. The kernels -/

/-- The assumption on a load without `other`, for which Triton leaves the masked-off lanes undefined. -/
def maskedLane : ℕ := 0

/-- `tl.sum` of a load of the entries before `pid`. -/
def sumBefore (values : ℕ → ℕ) (pid : ℕ) : ℕ :=
  ∑ j ∈ range (nextPowerOf2 B.bs), if j < pid then values j else maskedLane

/-- One program of `assign_req_to_token_pool`. -/
def assignProgram (startOffset endOffset : ℕ → ℕ) (outCacheLoc : ℕ → ℕ) (rows : ℕ → ℕ → ℕ) (pid : ℕ) :
    ℕ → ℕ → ℕ :=
  let kvStart := startOffset pid
  let kvEnd := endOffset pid
  let outOffset := sumBefore B (fun j => endOffset j - startOffset j) pid
  Function.update rows (B.reqPoolIndices pid)
    (storeBlocks 32 (kvEnd - kvStart) kvStart (fun o => outCacheLoc (outOffset + o))
      (rows (B.reqPoolIndices pid)))

/-- `assign_req_to_token_pool_func`. -/
def assignReqToTokenPool (order : List ℕ) (startOffset endOffset : ℕ → ℕ) (outCacheLoc : List ℕ)
    (rows : ℕ → ℕ → ℕ) : ℕ → ℕ → ℕ :=
  order.foldl (assignProgram B startOffset endOffset (outCacheLoc.getD · 0)) rows

/-- One program of `align_evict_mask_to_page_size`. -/
def alignProgram (mask : ℕ → Bool) (bid : ℕ) : ℕ → Bool :=
  let seqLen : ℤ := B.seqLens bid
  let numTrues := ∑ t ∈ range (nextPowerOf2 B.draftTokenNum),
    if t < B.draftTokenNum ∧ mask (bid * B.draftTokenNum + t) then 1 else 0
  let numFalse : ℤ := B.draftTokenNum - (numTrues : ℕ)
  let start : ℤ := (seqLen + numFalse - 1) / B.pageSize * B.pageSize - seqLen
  let first := max start 0
  (List.range' first.toNat (min (start + B.pageSize) B.draftTokenNum - first).toNat).foldl
    (fun mask i => Function.update mask (bid * B.draftTokenNum + i) false) mask

/-- `align_evict_mask_to_page_size`. -/
def alignEvictMask (order : List ℕ) (mask : ℕ → Bool) : ℕ → Bool := order.foldl (alignProgram B) mask

/-- `to_free_num_slots` of `get_src_tgt_cache_loc`. -/
def toFreeNumSlots (numAcceptedDrafts : ℕ → ℕ) (i : ℕ) : ℕ :=
  let extendedLen := B.seqLens i + B.draftTokenNum
  let keepLen := min ((B.seqLens i + numAcceptedDrafts i + 1 + B.pageSize - 1) / B.pageSize * B.pageSize)
    extendedLen
  extendedLen - keepLen

/-- The two tensors of `get_target_cache_loc`. -/
structure TargetBuffers where
  tgtCacheLoc : ℕ → ℕ
  toFreeSlots : ℕ → ℕ

/-- One program of `get_target_cache_loc`. -/
def targetProgram (numAcceptedDrafts toFreeNumSlots : ℕ → ℕ) (outCacheLoc : ℕ → ℕ) (bufs : TargetBuffers)
    (bid : ℕ) : TargetBuffers :=
  let width := nextPowerOf2 B.draftTokenNum
  let tgtCacheLocStart := sumBefore B numAcceptedDrafts bid + bid
  let copyLen := numAcceptedDrafts bid + 1
  let tgtCacheLoc := storeLanes width (fun o => tgtCacheLocStart + o) (fun o => o < copyLen)
    (fun o => outCacheLoc (bid * B.draftTokenNum + o)) bufs.tgtCacheLoc
  let toFreeNumSlotsCur := toFreeNumSlots bid
  let outCacheLocStart := B.draftTokenNum - toFreeNumSlotsCur
  let toFreeSlotsStart := sumBefore B toFreeNumSlots bid
  let toFreeSlots := storeLanes width (fun o => toFreeSlotsStart + o) (fun o => o < toFreeNumSlotsCur)
    (fun o => outCacheLoc (bid * B.draftTokenNum + outCacheLocStart + o)) bufs.toFreeSlots
  ⟨tgtCacheLoc, toFreeSlots⟩

/-- `get_target_cache_loc`. -/
def getTargetCacheLoc (order : List ℕ) (numAcceptedDrafts toFreeNumSlots : ℕ → ℕ) (outCacheLoc : ℕ → ℕ)
    (bufs : TargetBuffers) : TargetBuffers :=
  order.foldl (targetProgram B numAcceptedDrafts toFreeNumSlots outCacheLoc) bufs

/-- One program of `filter_finished_cache_loc_kernel`. -/
def filterProgram (tgtCacheLoc : ℕ → ℕ) (numAcceptedDrafts numAcceptedDraftsFilter : ℕ → ℕ)
    (outCacheLoc : ℕ → ℕ) (bid : ℕ) : ℕ → ℕ :=
  let oldStart := sumBefore B numAcceptedDrafts bid + bid
  let newStart := sumBefore B numAcceptedDraftsFilter bid
  let copyLen := numAcceptedDraftsFilter bid
  storeLanes (nextPowerOf2 B.draftTokenNum) (fun o => newStart + o) (fun o => o < copyLen)
    (fun o => tgtCacheLoc (oldStart + o)) outCacheLoc

/-- `filter_finished_cache_loc_kernel`. -/
def filterFinishedCacheLoc (order : List ℕ) (tgtCacheLoc : ℕ → ℕ)
    (numAcceptedDrafts numAcceptedDraftsFilter : ℕ → ℕ) (outCacheLoc : ℕ → ℕ) : ℕ → ℕ :=
  order.foldl (filterProgram B tgtCacheLoc numAcceptedDrafts numAcceptedDraftsFilter) outCacheLoc

/-- `create_num_accepted_drafts_filter`. -/
def createNumAcceptedDraftsFilter (numAcceptedDrafts : ℕ → ℕ) (unfinishedIndex : List ℕ) (i : ℕ) : ℕ :=
  if i ∈ unfinishedIndex then numAcceptedDrafts i + 1 else 0

/-- `move_kv_cache`: all at once, or in chunks of `num_locs_upper` cells, each of which is read before it is
written. -/
def moveKvCache {bs : ℕ} (env : LaunchEnv bs) (tgtLoc srcLoc : List ℕ) (kv : ℕ → β) : ℕ → β :=
  let pairs := tgtLoc.zip srcLoc
  if env.nativeMoveKvCache then copyAll pairs kv
  else copyChunks ((List.range ((pairs.length + env.numLocsUpper - 1) / env.numLocsUpper)).map fun i =>
    (pairs.drop (i * env.numLocsUpper)).take env.numLocsUpper) kv

/-! ## 3. `prepare_for_verify` -/

/-- `get_last_loc`. -/
def lastLoc (mem : KVMemory β) (i : ℕ) : ℤ :=
  if B.seqLens i > 0 then (mem.reqToToken (B.reqPoolIndices i) (B.seqLens i - 1) : ℕ) else -1

/-- What `alloc_extend` is given for the batch. -/
def extendItems (mem : KVMemory β) : List ExtendItem :=
  (List.range B.bs).map fun i => ⟨B.seqLens i, B.seqLens i + B.draftTokenNum, lastLoc B mem i⟩

/-- `prepare_for_verify`: slots for the draft tokens, which become the next entries of the rows; `none` is
the exception when there is no room. -/
def prepareForVerify (env : LaunchEnv B.bs) (mem : KVMemory β) : Option (KVMemory β) := do
  let (outCacheLoc, allocator) ←
    if B.pageSize = 1 then mem.allocator.alloc (B.bs * B.draftTokenNum)
    else PagedTokenToKVPoolAllocator.allocExtend mem.allocator (extendItems B mem) (B.bs * B.draftTokenNum)
  return { mem with
    reqToToken := assignReqToTokenPool B (env.order .assignDraft) B.seqLens
      (fun i => B.seqLens i + B.draftTokenNum) outCacheLoc mem.reqToToken
    outCacheLoc := outCacheLoc
    allocator := allocator }

/-! ## 4. The accepted tokens -/

/-- A request as the loop sees it: a token is appended, with the checks and the grammar behind it, and the
request has finished or not. -/
structure ReqOps (ρ : Type) where
  append : ρ → ℤ → ρ
  finished : ρ → Bool

/-- What the loop leaves of one request: the request, its row of `accept_index`, the entries it has gone
through, and whether it has met the end. -/
structure RowCheck (ρ : Type) where
  req : ρ
  row : List ℤ
  taken : List ℤ
  hasFinished : Bool

/-- The loop over one row of `accept_index`. -/
def checkRow (ops : ReqOps ρ) (predict : ℕ → ℤ) : ρ → List ℤ → RowCheck ρ
  | req, [] => ⟨req, [], [], false⟩
  | req, idx :: rest =>
    if idx = -1 then ⟨req, idx :: rest, [], false⟩
    else
      let req := ops.append req (predict idx.toNat)
      if ops.finished req then ⟨req, idx :: rest.map fun _ => -1, [idx], true⟩
      else
        let r := checkRow ops predict req rest
        { r with row := idx :: r.row, taken := idx :: r.taken }

/-- The entries of a row that are not `-1`. -/
def acceptedOf (row : List ℤ) : List ℕ := (row.filter (· ≠ -1)).map Int.toNat

/-! ## 5. The release -/

/-- What the release leaves: the slots it frees, the cached values, and `tgt_cache_loc`. -/
structure Release (β : Type) where
  freed : List ℕ
  kv : ℕ → β
  tgtCacheLoc : List ℕ

/-- The slots of the tokens that are not accepted: one by one, page by page, or from the end of each row
after the accepted ones have been moved to its front. -/
def release (env : LaunchEnv B.bs) (mem : KVMemory β) (acceptIndex : List ℕ)
    (numAcceptedDrafts : ℕ → ℕ) : Release β :=
  let evictMask : ℕ → Bool := fun a => !acceptIndex.contains a
  if B.pageSize = 1 then ⟨maskSelect mem.outCacheLoc evictMask, mem.kv, []⟩
  else if B.topk = 1 then
    ⟨maskSelect mem.outCacheLoc (alignEvictMask B (env.order .align) evictMask), mem.kv, []⟩
  else
    let srcCacheLoc := indexSelect mem.outCacheLoc acceptIndex
    let toFreeNumSlots := toFreeNumSlots B numAcceptedDrafts
    let bufs := getTargetCacheLoc B (env.order .target) numAcceptedDrafts toFreeNumSlots
      (mem.outCacheLoc.getD · 0) ⟨env.empty, env.empty⟩
    let tgtCacheLoc := contents srcCacheLoc.length bufs.tgtCacheLoc
    ⟨contents (∑ i ∈ range B.bs, toFreeNumSlots i) bufs.toFreeSlots,
      moveKvCache env tgtCacheLoc srcCacheLoc mem.kv, tgtCacheLoc⟩

/-! ## 6. `verify` -/

/-- `EagleDraftExtendInput`; the idle one has no entry. -/
structure DraftExtendInput where
  inputIds : List ℤ
  numAcceptedDrafts : List ℕ
  seqLens : List ℕ
  reqPoolIndices : List ℕ

/-- `EagleDraftExtendInput.create_idle_input`. -/
def idleInput : DraftExtendInput := ⟨[], [], [], []⟩

/-- What `verify` leaves. -/
structure VerifyOutput (ρ β : Type) where
  reqs : ℕ → ρ
  kvCommittedLen : ℕ → ℕ
  kvAllocatedLen : ℕ → ℕ
  numAcceptedDrafts : ℕ → ℕ
  acceptTokens : List ℤ
  freed : List ℕ
  mem : KVMemory β
  seqLens : ℕ → ℕ
  draftExtendInput : DraftExtendInput

/-- `verify`, from the rows of accepted indices on. -/
def verify (env : LaunchEnv B.bs) (ops : ReqOps ρ) (predict : ℕ → ℤ) (acceptIndex : ℕ → List ℤ)
    (numAcceptedDrafts : ℕ → ℕ) (reqs : ℕ → ρ) (mem : KVMemory β) : VerifyOutput ρ β :=
  let checks := fun i => checkRow ops predict (reqs i) (acceptIndex i)
  let hasFinished := (List.range B.bs).any fun i => (checks i).hasFinished
  let unfinishedIndex := (List.range B.bs).filter fun i => !ops.finished (checks i).req
  let unfinishedAcceptIndex := unfinishedIndex.flatMap fun i => (checks i).taken.map Int.toNat
  let numAcceptedDrafts := if hasFinished then fun i => (acceptedOf (checks i).row).length - 1
    else numAcceptedDrafts
  let acceptIndex := (List.range B.bs).flatMap fun i => acceptedOf (checks i).row
  let rel := release B env mem acceptIndex numAcceptedDrafts
  let slotwise : Prop := B.pageSize = 1 ∨ B.topk = 1
  let acceptedLoc := indexSelect mem.outCacheLoc acceptIndex
  let endOffset := fun i => B.seqLens i + numAcceptedDrafts i + 1
  let reqToToken := if slotwise then
      assignReqToTokenPool B (env.order .assignAccepted) B.seqLens endOffset acceptedLoc mem.reqToToken
    else mem.reqToToken
  let outCacheLoc :=
    if !hasFinished then if slotwise then acceptedLoc else rel.tgtCacheLoc
    else if unfinishedIndex = [] then mem.outCacheLoc
    else if slotwise then indexSelect mem.outCacheLoc unfinishedAcceptIndex
    else contents (unfinishedIndex.length + (unfinishedIndex.map numAcceptedDrafts).sum)
      (filterFinishedCacheLoc B (env.order .filter) (rel.tgtCacheLoc.getD · 0) numAcceptedDrafts
        (createNumAcceptedDraftsFilter numAcceptedDrafts unfinishedIndex) env.empty)
  let seqLens := if !hasFinished ∨ slotwise ∨ unfinishedIndex ≠ [] then endOffset else B.seqLens
  let draftExtendInput : DraftExtendInput :=
    if !hasFinished then ⟨acceptIndex.map predict, (List.range B.bs).map numAcceptedDrafts,
      (List.range B.bs).map seqLens, (List.range B.bs).map B.reqPoolIndices⟩
    else if unfinishedIndex = [] then idleInput
    else ⟨unfinishedAcceptIndex.map predict, unfinishedIndex.map numAcceptedDrafts,
      unfinishedIndex.map seqLens, unfinishedIndex.map B.reqPoolIndices⟩
  { reqs := fun i => (checks i).req
    kvCommittedLen := fun i => B.kvCommittedLen i + (checks i).taken.length
    kvAllocatedLen := fun i => B.kvCommittedLen i + (checks i).taken.length
    numAcceptedDrafts := numAcceptedDrafts
    acceptTokens := acceptIndex.map predict
    freed := rel.freed
    mem := ⟨reqToToken, outCacheLoc, rel.kv, mem.allocator.free rel.freed⟩
    seqLens := seqLens
    draftExtendInput := draftExtendInput }

/-- The `out_cache_loc` of the draft extend: `forward_draft_extend_after_decode` makes the batch idle when
the draft extend has no input. -/
def VerifyOutput.draftExtendCacheLoc (out : VerifyOutput ρ β) : List ℕ :=
  if out.draftExtendInput.inputIds.length = 0 then [] else out.mem.outCacheLoc

end EagleVerify

end Sglang
