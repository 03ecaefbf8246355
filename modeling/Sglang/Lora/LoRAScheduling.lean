/-
# Scheduling passes over a pool of adapters

The part of the scheduler that decides which adapters are in a batch: `validate_lora_batch` and
`fetch_new_loras` of `lora_manager.py`, the overlap loader of `lora_overlap_loader.py`, and the
passes of `scheduler.py` that merge the last prefill batch, carry a chunked request over and admit
requests from the waiting queue.

A set of adapters is a list without duplicates, and `SetOrder` is the order in which one is
iterated.  What the rest of the scheduler decides (memory, priorities, prefetches, the drainer) is
an input to the pass, and so is the waiting queue.  The adapters that are loaded do not change
during a run; one pass is one micro batch.
-/
import Sglang.Lora.LoRAMemoryPool

namespace Sglang

open Lib Lib.SlotPool

namespace Lora

/-- The order in which a set is iterated. -/
structure SetOrder where
  order : List Uid → List Uid
  perm : ∀ l, (order l).Perm l

theorem lawfulBEq_uid : LawfulBEq Uid := inferInstance

attribute [local instance] lawfulBEq_uid

/-! ## 1. The manager -/

structure LoRAManager where
  maxLorasPerBatch : ℕ
  loraRefs : List LoRARef
  numPinnedLoras : ℕ
  memoryPool : LoRAMemoryPool

namespace LoRAManager

/-- `none` where an assertion fails. -/
def validateLoraBatch (manager : LoRAManager) (loraIds : List Uid) : Option Bool :=
  if loraIds.length > manager.maxLorasPerBatch then some false
  else if manager.numPinnedLoras = 0 then some true
  else if ¬ ∀ uid ∈ loraIds, isLoaded manager.loraRefs uid = true then none
  else
    let pinnedLorasInBatch := loraIds.countP (isPinned manager.loraRefs)
    if pinnedLorasInBatch > manager.numPinnedLoras then none
    else
      let requiredSlots : ℤ := loraIds.length - pinnedLorasInBatch
      let memPoolVacancy : ℤ := manager.maxLorasPerBatch - manager.numPinnedLoras
      some (decide (requiredSlots ≤ memPoolVacancy))

/-- `none` where an assertion fails or no slot can be found. -/
def fetchNewLoras (iter : SetOrder) (manager : LoRAManager) (newLoras runningLoras : List Uid) :
    Option LoRAManager :=
  let curUids := newLoras ∪ runningLoras
  if curUids.length ≤ manager.maxLorasPerBatch then
    (manager.memoryPool.prepareLoraBatch manager.loraRefs (iter.order curUids)).map fun pool =>
      { manager with memoryPool := pool }
  else none

/-! ## 2. The overlap loader -/

/-- `_try_start_overlap_load`, with the adapters whose load has been started. -/
def tryStartOverlapLoad (iter : SetOrder) (manager : LoRAManager) (events : List Uid) (uid : Uid)
    (runningLoras : List Uid) : Option (LoRAManager × List Uid) :=
  let lorasToBeLoaded := runningLoras ∪ events
  (manager.validateLoraBatch (lorasToBeLoaded.insert uid)).bind fun valid =>
    if valid then
      (manager.fetchNewLoras iter [uid] lorasToBeLoaded).map fun manager =>
        (manager, events ++ [uid])
    else some (manager, events)

/-- `try_overlap_load_lora`; `query` is what the adapter's event says when it is asked. -/
def tryOverlapLoadLora (iter : SetOrder) (manager : LoRAManager) (events : List Uid) (uid : Uid)
    (runningLoras : List Uid) (query : Bool) : Option (Bool × LoRAManager × List Uid) :=
  if uid ∈ events then
    if query then some (true, manager, events.erase uid) else some (false, manager, events)
  else
    (manager.tryStartOverlapLoad iter events uid runningLoras).map fun (manager, events) =>
      (false, manager, events)

end LoRAManager

/-! ## 3. The scheduler -/

structure Req where
  rid : ℕ
  loraId : Uid
  deriving DecidableEq

/-- What the rest of the scheduler says of one waiting request: whether the drainer lets it in, what
the event of its adapter says, whether the batch is full, whether a prefetch is going on, and what
`add_one_req` does. -/
structure Verdict where
  canSchedule : Bool
  query : Bool
  batchIsFull : Bool
  prefetching : Bool
  added : Bool
  truncated : Bool
  goOn : Bool

/-- The rest of what a pass depends on. -/
structure PassInput where
  waitingQueue : List (Req × Verdict)
  finished : Req → Bool
  preempted : Req → Bool
  retracted : Req → Bool
  chunkScheduled : Bool
  chunkTruncated : Bool
  mixed : Bool

/-- `lastBatch` holds the requests of the last batch while they are still to be merged. -/
structure Scheduler where
  loraManager : LoRAManager
  enableLoraOverlapLoading : Bool
  overlapLoadEvents : List Uid
  runningBatch : List Req
  lastBatch : List Req
  chunkedReq : Option Req

/-- The state of the loop over the waiting queue. -/
structure Adder where
  loraManager : LoRAManager
  overlapLoadEvents : List Uid
  runningLoras : List Uid
  canRunList : List Req
  newChunkedReq : Option Req

def canScheduleLoraReq (iter : SetOrder) (overlap : Bool) (adder : Adder) (req : Req)
    (verdict : Verdict) : Option (Bool × LoRAManager × List Uid) :=
  if ¬ verdict.canSchedule then some (false, adder.loraManager, adder.overlapLoadEvents)
  else if req.loraId ∈ adder.runningLoras then
    some (true, adder.loraManager, adder.overlapLoadEvents)
  else if overlap then
    adder.loraManager.tryOverlapLoadLora iter adder.overlapLoadEvents req.loraId adder.runningLoras
      verdict.query
  else
    (adder.loraManager.validateLoraBatch (adder.runningLoras.insert req.loraId)).map fun valid =>
      (valid, adder.loraManager, adder.overlapLoadEvents)

/-- `add_one_req`, with the lines after it that the pass reads. -/
def Adder.addOneReq (adder : Adder) (req : Req) (verdict : Verdict) : Adder :=
  { adder with
    runningLoras := adder.runningLoras.insert req.loraId
    canRunList := if verdict.added then adder.canRunList ++ [req] else adder.canRunList
    newChunkedReq :=
      if verdict.added && verdict.truncated then adder.newChunkedReq.or (some req)
      else adder.newChunkedReq }

def scanWaitingQueue (iter : SetOrder) (overlap : Bool) :
    Adder → List (Req × Verdict) → Option Adder
  | adder, [] => some adder
  | adder, (req, verdict) :: queue =>
    (canScheduleLoraReq iter overlap adder req verdict).bind fun (ok, manager, events) =>
      let adder := { adder with loraManager := manager, overlapLoadEvents := events }
      if ¬ ok then scanWaitingQueue iter overlap adder queue
      else if verdict.batchIsFull then some adder
      else if verdict.prefetching then scanWaitingQueue iter overlap adder queue
      else
        let adder := adder.addOneReq req verdict
        if verdict.goOn then scanWaitingQueue iter overlap adder queue else some adder

/-- The adapters of a list of requests. -/
def loraIds (reqs : List Req) : List Uid := (reqs.map Req.loraId).dedup

namespace Scheduler

/-- The merge of the last prefill batch at the start of `get_next_batch_to_run`. -/
def mergeLastBatch (s : Scheduler) (input : PassInput) : Scheduler :=
  { s with
    runningBatch := s.runningBatch ++
      s.lastBatch.filter fun req => !input.finished req && decide (some req ≠ s.chunkedReq)
    lastBatch := [] }

/-- What `add_chunked_req` schedules and what stays to be carried over. -/
def addChunkedReq (s : Scheduler) (input : PassInput) : List Req × Option Req :=
  match s.chunkedReq with
  | none => ([], none)
  | some req =>
    if input.chunkScheduled then ([req], if input.chunkTruncated then some req else none)
    else ([], some req)

def getNewBatchPrefill (iter : SetOrder) (s : Scheduler) (input : PassInput) :
    Option (Scheduler × List Req) :=
  let (canRunList, chunkedReq) := s.addChunkedReq input
  (scanWaitingQueue iter s.enableLoraOverlapLoading
    { loraManager := s.loraManager
      overlapLoadEvents := s.overlapLoadEvents
      runningLoras := loraIds s.runningBatch
      canRunList := canRunList
      newChunkedReq := chunkedReq } input.waitingQueue).map fun adder =>
    ({ s with
        loraManager := adder.loraManager
        overlapLoadEvents := adder.overlapLoadEvents
        runningBatch := s.runningBatch.filter fun req => !input.preempted req
        chunkedReq := adder.newChunkedReq }, adder.canRunList)

/-- The batch of a pass; no batch runs when it is empty. -/
def getNextBatchToRun (iter : SetOrder) (s : Scheduler) (input : PassInput) :
    Option (Scheduler × List Req) :=
  ((s.mergeLastBatch input).getNewBatchPrefill iter input).map fun (s, canRunList) =>
    if canRunList = [] then
      let running := s.runningBatch.filter fun req => !input.finished req && !input.retracted req
      ({ s with runningBatch := running }, running)
    else if input.mixed then
      let running := s.runningBatch.filter fun req => !input.finished req
      ({ s with runningBatch := [], lastBatch := canRunList ++ running }, canRunList ++ running)
    else ({ s with lastBatch := canRunList }, canRunList)

/-- What `ForwardBatch.init_new` does for the adapters of the batch. -/
def forward (iter : SetOrder) (s : Scheduler) (batch : List Req) : Option Scheduler :=
  if batch = [] then some s
  else if s.enableLoraOverlapLoading then some s
  else (s.loraManager.fetchNewLoras iter (loraIds batch) []).map fun manager =>
    { s with loraManager := manager }

end Scheduler

/-- What the server is started with: distinct adapters, and a place in the pool that is not pinned,
as `validate_new_adapter` requires of each pinned adapter. -/
structure ServerConfig where
  maxLorasPerBatch : ℕ
  enableLoraOverlapLoading : Bool
  evictionKind : EvictionKind
  loraRefs : List LoRARef
  maxLoras_pos : 0 < maxLorasPerBatch
  nodup : (loraRefs.map LoRARef.loraId).Nodup
  pinned_lt : loraRefs.countP LoRARef.pinned < maxLorasPerBatch

/-- The scheduler at the start, with the base model in the pool. -/
def ServerConfig.start (iter : SetOrder) (config : ServerConfig) : Option Scheduler :=
  (LoRAManager.fetchNewLoras iter
    { maxLorasPerBatch := config.maxLorasPerBatch
      loraRefs := config.loraRefs
      numPinnedLoras := config.loraRefs.countP LoRARef.pinned
      memoryPool :=
        { bufferIdToUid := List.replicate config.maxLorasPerBatch none
          uidToBufferId := fun _ => none
          weights := fun _ => none
          evictionPolicy := ⟨config.evictionKind, []⟩ } } [none] []).map fun manager =>
    { loraManager := manager
      enableLoraOverlapLoading := config.enableLoraOverlapLoading
      overlapLoadEvents := []
      runningBatch := []
      lastBatch := []
      chunkedReq := none }

end Lora

end Sglang
