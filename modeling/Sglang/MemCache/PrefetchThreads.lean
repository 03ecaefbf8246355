/-
# A prefetch and the three threads that work on it

`prefetch_from_storage` takes host slots, enters the request in `ongoing_prefetch` and queues an
operation.  From there on three threads act on the slots.  The prefetch thread asks the backend how many
pages it has; it revokes the operation or gives the tail of its slots back and hands the rest over.  The
IO thread fetches the pages batch by batch and gives back what did not arrive.  The scheduler ends the
prefetch: it takes the pages that arrived into the tree (`check_prefetch_progress`), gives them back
(`release_aborted_request`) or forgets a prefetch that was revoked (`drain_storage_control_queues`).

A step is what one thread does between two reads or writes that another thread can see: one page put in
the release queue, one `increment`, one look at the queues.  The steps may come in any order and for any
number of prefetches.  That a thread takes its operations one at a time and in the order of its queue is
not asked for.
-/
import Sglang.Lib.Ledger
import Sglang.MemCache.HostInsert

namespace Sglang

open Lib

/-! ## 1. Operations -/

/-- How far the threads have got with an operation. -/
inductive Stage
  /-- In `prefetch_queue`. -/
  | queued
  /-- The revocation is out; the slots follow, page by page. -/
  | revoking (pages : List (List ℕ))
  /-- `hash_value` is set; the slots of the pages that were not hit follow. -/
  | trimming (pages : List (List ℕ))
  /-- In `prefetch_buffer`. -/
  | buffered
  /-- In the batch that starts with page `start`; `prev` tokens were complete before it. -/
  | transferring (start prev : ℕ)
  /-- The transfer is over; the slots that were not filled follow. -/
  | releasing (pages : List (List ℕ))
  /-- No thread has it any more. -/
  | finished
deriving DecidableEq

/-- `PrefetchOperation`; of `hash_value` only the length is kept, since `_storage_hit_query` determines
the hashes. -/
structure PrefetchOperation where
  hostIndices : List ℕ
  tokenLen : ℕ
  hashLen : ℕ
  completedTokens : ℕ
  terminated : Bool
  stage : Stage

/-- `storage_batch_size`. -/
def storageBatchSize : ℕ := 128

/-- `host_indices.split(page_size)`. -/
def splitPages (pageSize : ℕ) (hostIndices : List ℕ) : List (List ℕ) :=
  (pageStarts hostIndices.length pageSize).map fun start => (hostIndices.drop start).take pageSize

namespace PrefetchOperation

variable (op : PrefetchOperation) (pageSize : ℕ)

/-- A new operation, as it is queued. -/
def new (hostIndices : List ℕ) (tokenLen : ℕ) : PrefetchOperation :=
  ⟨hostIndices, tokenLen, 0, 0, false, .queued⟩

/-- `increment`: refused once the operation is terminated. -/
def increment (numTokens : ℕ) : PrefetchOperation :=
  if op.terminated then op else { op with completedTokens := op.completedTokens + numTokens }

/-- `mark_terminate`. -/
def markTerminate : PrefetchOperation := { op with terminated := true }

/-- Too few hits: all slots are to be released. -/
def revoke : PrefetchOperation := { op with stage := .revoking (splitPages pageSize op.hostIndices) }

/-- Enough hits: the slots of the pages that were not hit are to be released. -/
def trim (storageHitCount hitPages : ℕ) : PrefetchOperation :=
  let tail := op.hostIndices.drop storageHitCount
  { op with hashLen := hitPages, stage := .trimming (splitPages pageSize tail) }

/-- `operation.host_indices = operation.host_indices[:storage_hit_count]`, and into the buffer. -/
def handOver (storageHitCount : ℕ) : PrefetchOperation :=
  { op with hostIndices := op.hostIndices.take storageHitCount, stage := .buffered }

/-- After `_page_transfer`: the slots that were not filled are to be released. -/
def releaseRest : PrefetchOperation :=
  let rest := op.hostIndices.drop op.completedTokens
  { op with stage := .releasing (splitPages pageSize rest) }

/-- The loop of `_page_transfer`: the next batch, or the end. -/
def startBatch (start : ℕ) : PrefetchOperation :=
  if start < op.hashLen then { op with stage := .transferring start op.completedTokens }
  else op.releaseRest pageSize

/-- The tokens of the batch that starts with page `start`. -/
def batchTokens (start : ℕ) : ℕ := min storageBatchSize (op.hashLen - start) * pageSize

end PrefetchOperation

/-- The cache, the operations by request, and the two control queues beside the release queue. -/
structure PrefetchSystem where
  cache : HiRadixCache
  operations : ℕ → PrefetchOperation
  prefetchRevokeQueue : List ℕ
  ackBackupQueue : List NodeId

namespace PrefetchSystem

variable (cfg : HiConfig)

/-- The entry of a request in `ongoing_prefetch`. -/
def entry (s : PrefetchSystem) (reqId : ℕ) : Option Prefetch :=
  s.cache.ongoingPrefetch.find? (·.reqId = reqId)

/-- An update of an operation. -/
def setOp (s : PrefetchSystem) (reqId : ℕ) (op : PrefetchOperation) : PrefetchSystem :=
  { s with operations := Function.update s.operations reqId op }

/-- One page for `host_mem_release_queue`. -/
def putPage (s : PrefetchSystem) (page : List ℕ) : PrefetchSystem :=
  { s with cache := { s.cache with
      hostMemReleaseQueue := s.cache.hostMemReleaseQueue ++ [page] } }

/-! ## 2. The prefetch thread and the IO thread -/

/-- The prefetch thread takes the operation and knows how many pages are there, on every rank. -/
def query (s : PrefetchSystem) (reqId hits : ℕ) : PrefetchSystem :=
  let op := s.operations reqId
  match op.stage with
  | .queued =>
    let hitPages := min hits (pageStarts op.tokenLen cfg.pageSize).length
    let storageHitCount := hitPages * cfg.pageSize
    if storageHitCount < max cfg.prefetchThreshold cfg.pageSize then
      { s.setOp reqId (op.revoke s.cache.host.pageSize) with
        prefetchRevokeQueue := s.prefetchRevokeQueue ++ [reqId] }
    else s.setOp reqId (op.trim s.cache.host.pageSize storageHitCount hitPages)
  | _ => s

/-- The next thing that the thread which has the operation does, where it does not depend on the
backend: it puts a page, hands the operation over, or takes it from the buffer. -/
def advance (s : PrefetchSystem) (reqId : ℕ) : PrefetchSystem :=
  let op := s.operations reqId
  match op.stage with
  | .revoking (page :: pages) => (s.setOp reqId { op with stage := .revoking pages }).putPage page
  | .revoking [] => s.setOp reqId { op with stage := .finished }
  | .trimming (page :: pages) => (s.setOp reqId { op with stage := .trimming pages }).putPage page
  | .trimming [] => s.setOp reqId (op.handOver (op.hashLen * cfg.pageSize))
  | .buffered => s.setOp reqId (op.startBatch s.cache.host.pageSize 0)
  | .releasing (page :: pages) => (s.setOp reqId { op with stage := .releasing pages }).putPage page
  | .releasing [] => s.setOp reqId { op with stage := .finished }
  | _ => s

/-- `numPages` more pages of the batch are there; a batch has only so many. -/
def fetch (s : PrefetchSystem) (reqId numPages : ℕ) : PrefetchSystem :=
  let op := s.operations reqId
  match op.stage with
  | .transferring start prev =>
    if op.completedTokens + numPages * cfg.pageSize ≤ prev + op.batchTokens cfg.pageSize start then
      s.setOp reqId (op.increment (numPages * cfg.pageSize))
    else s
  | _ => s

/-- The end of a batch of `_page_transfer`. -/
def endBatch (s : PrefetchSystem) (reqId : ℕ) : PrefetchSystem :=
  let op := s.operations reqId
  match op.stage with
  | .transferring start prev =>
    if op.completedTokens ≠ prev + op.batchTokens cfg.pageSize start then
      s.setOp reqId (op.markTerminate.releaseRest s.cache.host.pageSize)
    else s.setOp reqId (op.startBatch s.cache.host.pageSize (start + storageBatchSize))
  | _ => s

/-! ## 3. The scheduler -/

/-- `terminate_prefetch`. -/
def terminatePrefetch (s : PrefetchSystem) (reqId : ℕ) : PrefetchSystem :=
  match s.entry reqId with
  | none => s
  | some _ => s.setOp reqId (s.operations reqId).markTerminate

/-- `check_prefetch_progress`; `canTerminate` is the answer of the stop policy, `otherPages` the least
number of pages that arrived on another rank. -/
def checkPrefetchProgress (s : PrefetchSystem) (reqId : ℕ) (canTerminate : Bool) (otherPages : ℕ) :
    Option PrefetchSystem :=
  match s.entry reqId with
  | none => some s
  | some _ =>
    if canTerminate then do
      let s := s.setOp reqId (s.operations reqId).markTerminate
      let op := s.operations reqId
      let minCompleted := min op.completedTokens (otherPages * cfg.pageSize)
      let cache ← s.cache.checkPrefetchProgress cfg reqId op.hashLen op.completedTokens minCompleted
      return { s with cache := cache }
    else some s

/-- `release_aborted_request`. -/
def releaseAbortedRequest (s : PrefetchSystem) (reqId : ℕ) : Option PrefetchSystem :=
  match s.entry reqId with
  | none => some s
  | some _ => do
    let s := s.setOp reqId (s.operations reqId).markTerminate
    let cache ← s.cache.releaseAbortedRequest reqId (s.operations reqId).completedTokens
    return { s with cache := cache }

/-- `drain_storage_control_queues` with the numbers of entries that are there on every rank. -/
def drain (s : PrefetchSystem) (numRevoke numBackup numRelease : ℕ) : Option PrefetchSystem := do
  let cache ← (s.prefetchRevokeQueue.take numRevoke).foldlM (·.drainRevoke ·) s.cache
  let cache ← (s.ackBackupQueue.take numBackup).foldlM (·.drainBackup ·) cache
  return { s with
    cache := cache.drainRelease numRelease
    prefetchRevokeQueue := s.prefetchRevokeQueue.drop numRevoke
    ackBackupQueue := s.ackBackupQueue.drop numBackup }

/-! ## 4. Runs -/

/-- A step of one of the threads. -/
inductive Step
  | query (reqId hits : ℕ)
  | advance (reqId : ℕ)
  | fetch (reqId numPages : ℕ)
  | endBatch (reqId : ℕ)
  | terminatePrefetch (reqId : ℕ)
  | checkPrefetchProgress (reqId : ℕ) (canTerminate : Bool) (otherPages : ℕ)
  | releaseAbortedRequest (reqId : ℕ)
  /-- The backup thread acknowledges a copy to the storage. -/
  | ackBackup (node : NodeId)
  | drain (numRevoke numBackup numRelease : ℕ)
deriving DecidableEq

/-- What a step does; `none` is an exception. -/
def step (s : PrefetchSystem) : Step → Option PrefetchSystem
  | .query reqId hits => some (s.query cfg reqId hits)
  | .advance reqId => some (s.advance cfg reqId)
  | .fetch reqId numPages => some (s.fetch cfg reqId numPages)
  | .endBatch reqId => some (s.endBatch cfg reqId)
  | .terminatePrefetch reqId => some (s.terminatePrefetch reqId)
  | .checkPrefetchProgress reqId canTerminate otherPages =>
    s.checkPrefetchProgress cfg reqId canTerminate otherPages
  | .releaseAbortedRequest reqId => s.releaseAbortedRequest reqId
  | .ackBackup node => some { s with ackBackupQueue := s.ackBackupQueue ++ [node] }
  | .drain numRevoke numBackup numRelease => s.drain numRevoke numBackup numRelease

/-- A run. -/
def run (s : PrefetchSystem) (steps : List Step) : Option PrefetchSystem :=
  steps.foldlM (step cfg) s

end PrefetchSystem

end Sglang
