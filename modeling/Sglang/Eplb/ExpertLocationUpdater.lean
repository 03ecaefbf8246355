/-
# Moving expert weights to new locations

A transcription of `update_expert_weights_single_layer`.  Every rank runs it with the same two maps from
physical to logical experts and finds out by itself which of its slots change, where the new weights
come from and to whom it has to send what it has.  It posts all of its operations as one batch, waits,
and copies what has arrived from the temporary buffers over its weights.

A tensor is read and written by rows, one for each local slot, so the memory of a rank is a function of
the tensor and the row.  `none` is an exception: an index that is not there, a value that is not in a
list, a division by zero, a failed assertion.
-/
import Mathlib.Tactic

namespace Sglang

/-! ## 1. Chunks -/

/-- `list.index`. -/
def index {α : Type} [DecidableEq α] (l : List α) (a : α) : Option ℕ :=
  if a ∈ l then some (l.idxOf a) else none

/-- `_ChunkUtils`. -/
structure ChunkUtils where
  chunkValues : List ℕ
  elementValues : List ℕ

namespace ChunkUtils

/-- `_chunk_index_from_element_index`. -/
def chunkIndexFromElementIndex (numElements numChunks elementIndex : ℕ) : Option ℕ :=
  if numChunks = 0 then none
  else
    let shortChunkSize := numElements / numChunks
    let numLongChunks := numElements % numChunks
    let numElementsForLongChunks := numLongChunks * (shortChunkSize + 1)
    if elementIndex < numElementsForLongChunks then some (elementIndex / (shortChunkSize + 1))
    else if shortChunkSize = 0 then none
    else some (numLongChunks + (elementIndex - numElementsForLongChunks) / shortChunkSize)

/-- `_element_slice_from_chunk_index`: start and end. -/
def elementSliceFromChunkIndex (numElements numChunks chunkIndex : ℕ) : Option (ℕ × ℕ) :=
  if numChunks = 0 then none
  else
    let shortChunkSize := numElements / numChunks
    let numLongChunks := numElements % numChunks
    let start := chunkIndex * shortChunkSize + min chunkIndex numLongChunks
    some (start, start + shortChunkSize + if chunkIndex < numLongChunks then 1 else 0)

variable (c : ChunkUtils)

/-- `chunk_value_from_element_value`. -/
def chunkValueFromElementValue (elementValue : ℕ) : Option ℕ := do
  let elementIndex ← index c.elementValues elementValue
  let chunkIndex ← chunkIndexFromElementIndex c.elementValues.length c.chunkValues.length elementIndex
  c.chunkValues[chunkIndex]?

/-- `element_values_from_chunk_value`. -/
def elementValuesFromChunkValue (chunkValue : ℕ) : Option (List ℕ) :=
  if c.elementValues.length = 0 then some []
  else do
    let chunkIndex ← index c.chunkValues chunkValue
    let (start, stop) ←
      elementSliceFromChunkIndex c.elementValues.length c.chunkValues.length chunkIndex
    return (c.elementValues.take stop).drop start

end ChunkUtils

/-- `_deduplicate_ordered`. -/
def deduplicateOrdered (arr : List ℕ) : List ℕ :=
  arr.foldl (fun output item =>
    if output.getLast? = some item then output else output ++ [item]) []

/-! ## 2. The arguments -/

/-- The two directions of a `P2POp`. -/
inductive P2PDirection
  | isend
  | irecv
deriving DecidableEq

/-- A `P2POp`: a send reads a row of the weights, a receive writes a row of the temporary buffers. -/
structure P2POp where
  op : P2PDirection
  tensorIndex : ℕ
  row : ℕ
  peer : ℕ
deriving DecidableEq

/-- A row of a tensor: the tensor's index and the local slot. -/
abbrev Cell := ℕ × ℕ

/-- The arguments that all ranks share; `activeRanks` is there when expert parallelism is elastic. -/
structure ExpertUpdate where
  numTensors : ℕ
  oldPhysicalToLogicalMap : List ℤ
  newPhysicalToLogicalMap : List ℤ
  numLocalPhysicalExperts : ℕ
  numGpuPerNode : ℕ
  activeRanks : Option (ℕ → Bool)

/-- `same_node_mapping`, `cross_node_mapping`, `need_comm_self_node_dst_ranks`. -/
structure CommInfo where
  sameNodeMapping : ChunkUtils
  crossNodeMapping : ChunkUtils
  needCommSelfNodeDstRanks : List ℕ

/-- An entry of `p2p_op_infos`. -/
abbrev P2POpInfo := ℤ × List P2POp

/-- What `_handle_recv` works on. -/
structure RecvState (α : Type) where
  tempBuffers : Cell → α
  buffer2weightCopyInfos : List (ℕ × ℕ)
  p2pOpInfos : List P2POpInfo

/-- `for i in range(num_tensors): dst[i][dst_row].copy_(src[i][src_row])`. -/
def copyRows {α : Type} (numTensors : ℕ) (src : Cell → α) (srcRow : ℕ) (dst : Cell → α)
    (dstRow : ℕ) : Cell → α :=
  fun c => if c.1 < numTensors ∧ c.2 = dstRow then src (c.1, srcRow) else dst c

namespace ExpertUpdate

variable (u : ExpertUpdate) (rank : ℕ) {α : Type}

/-- `range(*local_expert_location_range)`. -/
def localRange : List ℕ := List.range' (rank * u.numLocalPhysicalExperts) u.numLocalPhysicalExperts

/-- `_get_local_expert_location`. -/
def getLocalExpertLocation (expertLocation : ℕ) : Option ℕ :=
  if rank * u.numLocalPhysicalExperts ≤ expertLocation ∧
      expertLocation < (rank + 1) * u.numLocalPhysicalExperts then
    some (expertLocation % u.numLocalPhysicalExperts)
  else none

/-! ## 3. Who sends to whom -/

/-- The ranks of the locations of `map` that hold `logicalExpertId`. -/
def ranksOf (map : List ℤ) (logicalExpertId : ℤ) : List ℕ :=
  ((List.range u.oldPhysicalToLogicalMap.length).filter fun x => map[x]? = some logicalExpertId).map
    (· / u.numLocalPhysicalExperts)

/-- `all_src_ranks`. -/
def allSrcRanks (logicalExpertId : ℤ) : List ℕ :=
  deduplicateOrdered (u.ranksOf u.oldPhysicalToLogicalMap logicalExpertId)

/-- `need_comm_dst_ranks`. -/
def needCommDstRanks (logicalExpertId : ℤ) : List ℕ :=
  deduplicateOrdered ((u.ranksOf u.newPhysicalToLogicalMap logicalExpertId).filter
    (· ∉ u.allSrcRanks logicalExpertId))

/-- `_compute_comm_info`. -/
def computeCommInfo (logicalExpertId : ℤ) : CommInfo :=
  let selfNodeId := rank / u.numGpuPerNode
  let allSrcRanks := u.allSrcRanks logicalExpertId
  let allSrcNodes := allSrcRanks.map (· / u.numGpuPerNode)
  let selfNodeSrcRanks := allSrcRanks.filter (· / u.numGpuPerNode = selfNodeId)
  let needCommDstRanks := u.needCommDstRanks logicalExpertId
  let needCommSelfNodeDstRanks :=
    if selfNodeSrcRanks.length > 0 then needCommDstRanks.filter (· / u.numGpuPerNode = selfNodeId)
    else []
  let needCommCrossNodeDstRanks := needCommDstRanks.filter (· / u.numGpuPerNode ∉ allSrcNodes)
  ⟨⟨selfNodeSrcRanks, needCommSelfNodeDstRanks⟩, ⟨allSrcRanks, needCommCrossNodeDstRanks⟩,
    needCommSelfNodeDstRanks⟩

/-! ## 4. Receiving -/

/-- `_create_p2p_recv_and_buffer2weight_copy`. -/
def createP2pRecvAndBuffer2weightCopy (s : RecvState α) (logicalExpertId : ℤ) (srcRank : ℕ)
    (dstExpertLocation : ℕ) : Option (RecvState α) := do
  let ops ← (List.range u.numTensors).mapM fun i => do
    let row ← u.getLocalExpertLocation rank dstExpertLocation
    return (⟨.irecv, i, row, srcRank⟩ : P2POp)
  return { s with
    p2pOpInfos := s.p2pOpInfos ++ [(logicalExpertId, ops)]
    buffer2weightCopyInfos := s.buffer2weightCopyInfos ++ [(dstExpertLocation, dstExpertLocation)] }

/-- `_handle_recv_of_dst_expert_location`: unchanged, from the same rank, from a slot of this rank that
gets the same expert, from the same node, from another node. -/
def handleRecvOfDstExpertLocation (weights : Cell → α) (s : RecvState α) (dstExpertLocation : ℕ) :
    Option (RecvState α) := do
  let logicalExpertId ← u.newPhysicalToLogicalMap[dstExpertLocation]?
  let oldLogicalExpertId ← u.oldPhysicalToLogicalMap[dstExpertLocation]?
  if oldLogicalExpertId = logicalExpertId then return s
  else
    match (u.localRange rank).find? (fun x => u.oldPhysicalToLogicalMap[x]? = some logicalExpertId) with
    | some srcExpertLocation => do
      let dstRow ← u.getLocalExpertLocation rank dstExpertLocation
      let srcRow ← u.getLocalExpertLocation rank srcExpertLocation
      return { s with
        tempBuffers := copyRows u.numTensors weights srcRow s.tempBuffers dstRow
        buffer2weightCopyInfos :=
          s.buffer2weightCopyInfos ++ [(dstExpertLocation, dstExpertLocation)] }
    | none =>
      match (List.range' (rank * u.numLocalPhysicalExperts)
          (dstExpertLocation - rank * u.numLocalPhysicalExperts)).find?
          (fun x => u.newPhysicalToLogicalMap[x]? = some logicalExpertId) with
      | some srcExpertLocation =>
        return { s with
          buffer2weightCopyInfos :=
            s.buffer2weightCopyInfos ++ [(srcExpertLocation, dstExpertLocation)] }
      | none =>
        let info := u.computeCommInfo rank logicalExpertId
        if rank ∈ info.needCommSelfNodeDstRanks then do
          let chosenSrcRank ← info.sameNodeMapping.chunkValueFromElementValue rank
          u.createP2pRecvAndBuffer2weightCopy rank s logicalExpertId chosenSrcRank dstExpertLocation
        else do
          let chosenSrcRank ← info.crossNodeMapping.chunkValueFromElementValue rank
          u.createP2pRecvAndBuffer2weightCopy rank s logicalExpertId chosenSrcRank dstExpertLocation

/-- `_handle_recv`. -/
def handleRecv (weights tempBuffers : Cell → α) : Option (RecvState α) :=
  (u.localRange rank).foldlM (u.handleRecvOfDstExpertLocation rank weights) ⟨tempBuffers, [], []⟩

/-! ## 5. Sending -/

/-- `_create_isend_ops_of_logical_expert_id`. -/
def createIsendOpsOfLogicalExpertId (logicalExpertId : ℤ) (srcExpertLocation : ℕ) :
    Option P2POpInfo := do
  let info := u.computeCommInfo rank logicalExpertId
  let sameNodeDstRanks ← info.sameNodeMapping.elementValuesFromChunkValue rank
  let crossNodeDstRanks ← info.crossNodeMapping.elementValuesFromChunkValue rank
  let allDstRanks := sameNodeDstRanks ++ crossNodeDstRanks
  let row ← u.getLocalExpertLocation rank srcExpertLocation
  return (logicalExpertId, allDstRanks.flatMap fun dstRank =>
    (List.range u.numTensors).map fun i => ⟨.isend, i, row, dstRank⟩)

/-- A round of `_create_isend_ops`: an expert is sent from the first slot that has it. -/
def createIsendOpsRound (s : List ℤ × List P2POpInfo) (srcExpertLocation : ℕ) :
    Option (List ℤ × List P2POpInfo) := do
  let logicalExpertId ← u.oldPhysicalToLogicalMap[srcExpertLocation]?
  if logicalExpertId ∈ s.1 then return s
  else
    let info ← u.createIsendOpsOfLogicalExpertId rank logicalExpertId srcExpertLocation
    return (s.1 ++ [logicalExpertId], s.2 ++ [info])

/-- `_create_isend_ops`. -/
def createIsendOps (p2pOpInfos : List P2POpInfo) : Option (List P2POpInfo) :=
  ((u.localRange rank).foldlM (u.createIsendOpsRound rank) ([], p2pOpInfos)).map Prod.snd

/-! ## 6. The batch -/

/-- A round of `_filter_p2p_ops`: what is left of an entry, and the expert if it will be missing. -/
def filterP2pOp (isActive : ℕ → Bool) (info : P2POpInfo) : Option (P2POpInfo × List ℤ) :=
  let hasIsend := info.2.any (·.op = .isend)
  let hasIrecv := info.2.any (·.op = .irecv)
  if hasIsend ∧ hasIrecv then none
  else if hasIsend then some ((info.1, info.2.filter (isActive ·.peer)), [])
  else if hasIrecv ∧ info.2.any (!isActive ·.peer) then some ((info.1, []), [info.1])
  else some (info, [])

/-- `_filter_p2p_ops`: the entries, and the experts that will be missing. -/
def filterP2pOps (p2pOpInfos : List P2POpInfo) : Option (List P2POpInfo × List ℤ) :=
  match u.activeRanks with
  | none => some (p2pOpInfos, [])
  | some isActive => do
    let l ← p2pOpInfos.mapM (filterP2pOp isActive)
    return (l.map Prod.fst, (l.map Prod.snd).flatten)

/-- What a rank has when it posts its batch. -/
structure Prepared (α : Type) where
  tempBuffers : Cell → α
  buffer2weightCopyInfos : List (ℕ × ℕ)
  sortedInfos : List P2POpInfo
  missingLogicalExperts : List ℤ

/-- `_entrypoint` up to the batch. -/
def prepare (weights tempBuffers : Cell → α) : Option (Prepared α) := do
  let s ← u.handleRecv rank weights tempBuffers
  let p2pOpInfos ← u.createIsendOps rank s.p2pOpInfos
  let (p2pOpInfos, missing) ← u.filterP2pOps p2pOpInfos
  return ⟨s.tempBuffers, s.buffer2weightCopyInfos,
    p2pOpInfos.mergeSort fun a b => decide (a.1 ≤ b.1), missing⟩

/-- `_execute_buffer2weight_copies`. -/
def executeBuffer2weightCopies (tempBuffers weights : Cell → α) (infos : List (ℕ × ℕ)) :
    Option (Cell → α) :=
  infos.foldlM (fun weights info => do
    let srcRow ← u.getLocalExpertLocation rank info.1
    let dstRow ← u.getLocalExpertLocation rank info.2
    return copyRows u.numTensors tempBuffers srcRow weights dstRow) weights

end ExpertUpdate

end Sglang
