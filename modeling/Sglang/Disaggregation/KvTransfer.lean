/-
# Sending the KV of a request from prefill ranks to a decode rank

The buffers of a rank are its K layers and then its V layers, each a row of bytes: a page is
`page_size` tokens, a token the heads of the rank, a head `head_dim * dtype_size` bytes.  Between
groups of one size whole runs of pages are sent.  Otherwise each token's heads are sliced, and
either every slice is written into the decode buffers, or the slices are gathered into a staging
buffer, written into the decode rank's staging region at the writer's offset, and scattered.  An
element (`dtype_size`) has 1, 2 or 4 bytes: the gather and scatter kernels take any other for 2.
-/
import Sglang.Lib.BlockCopy
import Sglang.Disaggregation.HeadSlices

namespace Sglang.Disaggregation

open Lib

abbrev Byte := BitVec 8

/-- The KV buffers of a rank, in the order of `kv_data_ptrs`. -/
abbrev Buffers := Store Nat Byte

/-- The part of `KVArgs` that a transfer reads. -/
structure KVArgs where
  engineRank : Nat
  kvItemLens : List Nat
  pageSize : Nat
  kvHeadNum : Nat
  totalKvHeadNum : Nat

/-- The shape of `kv_buffer_tensors`. -/
structure KvBufferTensors where
  numLayers : Nat
  headNum : Nat
  headDim : Nat
  dtypeSize : Nat
  pageSize : Nat

/-- `none` where the source raises. -/
def resolveTotalKvHeads (kvArgs : KVArgs) (attnTpSize : Nat) : Option Nat :=
  if kvArgs.totalKvHeadNum > 0 then some kvArgs.totalKvHeadNum
  else if kvArgs.kvHeadNum > 0 then some (kvArgs.kvHeadNum * attnTpSize)
  else none

/-! ## 1. Whole pages -/

/-- Runs of pages that are consecutive on both sides. -/
def groupConcurrentContiguous (srcIndices dstIndices : List Nat) :
    List (List Nat) × List (List Nat) :=
  let groups := (srcIndices.zip dstIndices).splitBy fun p q => q.1 == p.1 + 1 && q.2 == p.2 + 1
  (groups.map (·.map Prod.fst), groups.map (·.map Prod.snd))

def sendKvcache (kvArgs : KVArgs) (mem : Buffers) (prefillKvIndices dstKvIndices : List Nat) :
    List (Write Nat Byte) :=
  let (prefillKvBlocks, dstKvBlocks) :=
    groupConcurrentContiguous prefillKvIndices dstKvIndices
  (List.range (2 * (kvArgs.kvItemLens.length / 2))).flatMap fun i =>
    let itemLen := kvArgs.kvItemLens.getD i 0
    (prefillKvBlocks.zip dstKvBlocks).map fun (prefillIndex, decodeIndex) =>
      { buffer := i
        start := decodeIndex.headD 0 * itemLen
        length := itemLen * prefillIndex.length
        cell := fun x => mem i (prefillIndex.headD 0 * itemLen + x) }

/-! ## 2. Slices of heads -/

/-- `none` where the source reports that a slice does not fit. -/
def sendKvcacheSlice (kvArgs : KVArgs) (attnTpSize : Nat) (mem : Buffers)
    (prefillKvIndices dstKvIndices : List Nat) (dstTpRank dstAttnTpSize dstKvItemLen : Nat) :
    Option (List (Write Nat Byte)) :=
  let localTpRankInGroup := kvArgs.engineRank % attnTpSize
  let srcKvItemLen := kvArgs.kvItemLens.headD 0
  let dstTpRankInGroup := dstTpRank % dstAttnTpSize
  let pageSize := kvArgs.pageSize
  let totalKvHeads :=
    if kvArgs.totalKvHeadNum ≤ 0 then kvArgs.kvHeadNum * attnTpSize else kvArgs.totalKvHeadNum
  let srcHeadsPerRank := max 1 (totalKvHeads / attnTpSize)
  let dstHeadsPerRank := max 1 (totalKvHeads / dstAttnTpSize)
  let bytesPerHeadSliceToSend := dstKvItemLen / pageSize / dstHeadsPerRank
  let srcReplication := max 1 (attnTpSize / totalKvHeads)
  let slice : HeadSlice :=
    if attnTpSize > dstAttnTpSize then
      let uniqueHeadIdx := localTpRankInGroup / srcReplication
      ⟨0, srcHeadsPerRank, (uniqueHeadIdx * srcHeadsPerRank) % dstHeadsPerRank⟩
    else
      ⟨(dstTpRankInGroup * dstHeadsPerRank) % srcHeadsPerRank, dstHeadsPerRank, 0⟩
  let srcHeadSliceOffset := slice.srcHeadStart * bytesPerHeadSliceToSend
  let dstHeadSliceOffset := slice.dstHeadStart * bytesPerHeadSliceToSend
  let headsBytesPerTokenToSend := slice.numHeadsToSend * bytesPerHeadSliceToSend
  if headsBytesPerTokenToSend > dstKvItemLen / pageSize then none
  else
    let bytesPerTokenOnPrefill := srcKvItemLen / pageSize
    let bytesPerTokenOnDecode := dstKvItemLen / pageSize
    some <| (List.range (2 * (kvArgs.kvItemLens.length / 2))).flatMap fun i =>
      rowMajor prefillKvIndices.length pageSize fun page token =>
        { buffer := i
          start := dstKvIndices.getD page 0 * dstKvItemLen +
            (token * bytesPerTokenOnDecode + dstHeadSliceOffset)
          length := headsBytesPerTokenToSend
          cell := fun x => mem i (prefillKvIndices.getD page 0 * srcKvItemLen +
            (token * bytesPerTokenOnPrefill + srcHeadSliceOffset) + x) }

/-- The transfer that the worker makes when no staging region is used. -/
def transferKv (kvArgs : KVArgs) (attnTpSize : Nat) (mem : Buffers)
    (prefillKvIndices dstKvIndices : List Nat) (dstTpRank dstAttnTpSize dstKvItemLen : Nat) :
    Option (List (Write Nat Byte)) :=
  if attnTpSize = dstAttnTpSize then
    some (sendKvcache kvArgs mem prefillKvIndices dstKvIndices)
  else
    sendKvcacheSlice kvArgs attnTpSize mem prefillKvIndices dstKvIndices dstTpRank dstAttnTpSize
      dstKvItemLen

/-! ## 3. Through staging buffers -/

/-- The token slots of a list of pages. -/
def tokenIndices (pageIndices : List Nat) (pageSize : Nat) : List Nat :=
  if pageSize = 1 then pageIndices
  else rowMajor pageIndices.length pageSize fun page token =>
    pageIndices.getD page 0 * pageSize + token

/-- What `gather_all_layers_to_staging` writes into the prefill rank's staging buffer. -/
def gatherAllLayersToStaging (tensors : KvBufferTensors) (mem : Buffers)
    (pageIndices : List Nat) (srcHeadStart numHeads pageSize : Nat) : List (Write Unit Byte) :=
  let headBytes := tensors.headDim * tensors.dtypeSize
  let numTokens := pageIndices.length * pageSize
  let perLayerBytes := numTokens * numHeads * tensors.headDim * tensors.dtypeSize
  let slots := tokenIndices pageIndices pageSize
  (List.range (2 * tensors.numLayers)).flatMap fun i =>
    (List.range numTokens).map fun t =>
      { buffer := ()
        start := i * perLayerBytes + t * (numHeads * headBytes)
        length := numHeads * headBytes
        cell := fun x => mem i
          (slots.getD t 0 * (tensors.headNum * headBytes) + srcHeadStart * headBytes + x) }

/-- The write into the decode staging buffer; `none` where the source falls back to slices. -/
def sendKvcacheStaged (kvArgs : KVArgs) (tensors : KvBufferTensors) (attnTpSize : Nat)
    (mem : Buffers) (staging : Store Unit Byte) (stagingSize : Nat) (prefillKvIndices : List Nat)
    (dstStagingPtr dstStagingSize dstTpRank dstAttnTpSize : Nat) : Option (Write Unit Byte) :=
  (resolveTotalKvHeads kvArgs attnTpSize).bind fun totalKvHeads =>
    let localTpRank := kvArgs.engineRank % attnTpSize
    let slice := computeHeadSliceParams attnTpSize dstAttnTpSize localTpRank dstTpRank totalKvHeads
    let numTokens := prefillKvIndices.length * tensors.pageSize
    let perLayerBytes :=
      numTokens * slice.numHeadsToSend * tensors.headDim * tensors.dtypeSize
    let perRankBytes := perLayerBytes * tensors.numLayers * 2
    let (writers, writerRankBytes, totalStagingNeeded) :=
      computeStagingLayout attnTpSize dstAttnTpSize dstTpRank totalKvHeads numTokens
        (tensors.headDim * tensors.dtypeSize) tensors.numLayers
    let writerIdx := if writers > 1 then localTpRank % writers else 0
    let rankOffset := (writerRankBytes.take writerIdx).sum
    if ¬ perRankBytes ≤ stagingSize then none
    else if dstStagingSize < totalStagingNeeded then none
    else
      let gathered := writeAll staging (gatherAllLayersToStaging tensors mem prefillKvIndices
        slice.srcHeadStart slice.numHeadsToSend tensors.pageSize)
      some ⟨(), dstStagingPtr + rankOffset, perRankBytes, fun x => gathered () x⟩

/-- What `scatter_staging_to_kv` writes into the decode buffers. -/
def scatterStagingToKv (tensors : KvBufferTensors) (stagingView : Nat → Byte)
    (pageIndices : List Nat)
    (pageSize prefillAttnTpSize decodeAttnTpSize dstTpRank totalKvHeads : Nat) :
    List (Write Nat Byte) :=
  let headBytes := tensors.headDim * tensors.dtypeSize
  let numTokens := pageIndices.length * pageSize
  let slots := tokenIndices pageIndices pageSize
  (List.range (numWriters prefillAttnTpSize decodeAttnTpSize)).flatMap fun writerRank =>
    let slice := computeHeadSliceParams prefillAttnTpSize decodeAttnTpSize writerRank dstTpRank
      totalKvHeads
    let perLayerBytes :=
      numTokens * slice.numHeadsToSend * tensors.headDim * tensors.dtypeSize
    let perRankBytes := perLayerBytes * tensors.numLayers * 2
    let rankBase := writerRank * perRankBytes
    (List.range (2 * tensors.numLayers)).flatMap fun i =>
      (List.range numTokens).map fun t =>
        { buffer := i
          start := slots.getD t 0 * (tensors.headNum * headBytes) + slice.dstHeadStart * headBytes
          length := slice.numHeadsToSend * headBytes
          cell := fun x => stagingView
            (rankBase + i * perLayerBytes + t * (slice.numHeadsToSend * headBytes) + x) }

end Sglang.Disaggregation
