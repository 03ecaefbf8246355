/-
# The scheduling pass

A transcription of `_get_new_batch_prefill_raw` and of what it calls to queue a request
(`scheduler.py`), without disaggregation and without mixed chunks.

The state are the containers a request can be in: the waiting queue, the running batch and the
chunked request.  `availableRows` is the size of the request pool, which grows when a request is
released.  `aborted` collects the abort outputs that were sent, with their message.  `none` is an
exception: the assertion on the chunked request, and `max` of an empty queue.

The pass is cut in three: `enterPass` goes up to the loop over the waiting queue, `admitLoop` is
that loop, `finishPass` is what follows it.
-/
import Sglang.Managers.PrefillAdder

namespace Sglang

/-- The parameters of the scheduler.  `noPrefillBs` is the batch size above which the tests of
retraction skip the prefill. -/
structure SchedulerConfig where
  adder : AdderConfig
  policy : Policy
  enablePriorityScheduling : Bool
  enablePriorityPreemption : Bool
  abortOnPriorityWhenDisabled : Bool
  maxQueuedRequests : Option ℕ
  enableLora : Bool
  enableHierarchicalCache : Bool
  enableHicacheStorage : Bool
  ppMaxMicroBatchSize : ℤ
  maxPrefillTokens : ℤ
  chunkedPrefillSize : Option ℤ
  truncationAlignSize : Option ℤ
  noPrefillBs : Option ℕ

/-- The state of the scheduler. -/
structure Scheduler where
  reqs : ReqId → SchedReq
  waitingQueue : List ReqId
  runningBatch : List ReqId
  batchIsFull : Bool
  chunkedReq : Option ReqId
  availableRows : ℤ
  aborted : List (ReqId × String)

namespace Scheduler

open PrefillAdder

variable (cfg : SchedulerConfig) (env : PassEnv)

/-- An update of one request. -/
def modifyReq (S : Scheduler) (r : ReqId) (f : SchedReq → SchedReq) : Scheduler :=
  { S with reqs := Function.update S.reqs r (f (S.reqs r)) }

/-- An abort output. -/
def sendAbort (S : Scheduler) (r : ReqId) (message : String) : Scheduler :=
  { S with aborted := S.aborted ++ [(r, message)] }

/-! ## 1. Queueing a request -/

/-- `_set_or_validate_priority`. -/
def setOrValidatePriority (S : Scheduler) (r : ReqId) : Bool × Scheduler :=
  if cfg.enablePriorityScheduling ∧ (S.reqs r).priority = none then
    (true, S.modifyReq r fun x => { x with
      priority := some (if cfg.adder.scheduleLowPriorityValuesFirst then 2 ^ 63 - 1 else -2 ^ 63) })
  else if cfg.enablePriorityScheduling = false ∧ (S.reqs r).priority ≠ none ∧
      cfg.abortOnPriorityWhenDisabled then
    (false, S.sendAbort r
      "Using priority is disabled for this server. Please send a new request without a priority.")
  else (true, S)

/-- `max(enumerate(waiting_queue), key=...)`: the first of the least preferred requests. -/
def leastPreferred (reqs : ReqId → SchedReq) (direction : ℤ) : List ReqId → Option ReqId
  | [] => none
  | r :: rest =>
    let key (x : ReqId) : ℤ × ℚ :=
      (direction * (reqs x).priority.getD 0, (reqs x).waitQueueEntryTime)
    some (rest.foldl (fun best x =>
      if SchedulePolicy.lexLe (key x) (key best) then best else x) r)

/-- `_abort_on_queued_limit`: whether the incoming request is aborted. -/
def abortOnQueuedLimit (S : Scheduler) (recvReq : ReqId) : Option (Bool × Scheduler) :=
  if cfg.maxQueuedRequests.all (S.waitingQueue.length + 1 ≤ ·) then some (false, S)
  else if cfg.enablePriorityScheduling then do
    let direction : ℤ := if cfg.adder.scheduleLowPriorityValuesFirst then 1 else -1
    let candidate ← leastPreferred S.reqs direction S.waitingQueue
    if direction * (S.reqs recvReq).priority.getD 0
        < direction * (S.reqs candidate).priority.getD 0 then
      return (decide (candidate = recvReq),
        { S with waitingQueue := S.waitingQueue.erase candidate }.sendAbort candidate
          "The request is aborted by a higher priority request.")
    else return (true, S.sendAbort recvReq "The request queue is full.")
  else some (true, S.sendAbort recvReq "The request queue is full.")

/-- `_add_request_to_queue`. -/
def addRequestToQueue (S : Scheduler) (r : ReqId) : Option Scheduler :=
  match setOrValidatePriority cfg S r with
  | (false, S) => some S
  | (true, S) =>
    match abortOnQueuedLimit cfg S r with
    | none => none
    | some (true, S) => some S
    | some (false, S) => some ({ S with waitingQueue := S.waitingQueue ++ [r] }.modifyReq r
        fun x => { x with waitQueueEntryTime := env.now r })

/-! ## 2. The loop -/

/-- `get_num_allocatable_reqs(len(running_batch.reqs))`. -/
def getNumAllocatableReqs (S : Scheduler) : ℤ :=
  min (cfg.ppMaxMicroBatchSize - S.runningBatch.length) S.availableRows

/-- `init_next_round_input`, with the lookup of a waiting request or without. -/
def initNextRoundInput (S : Scheduler) (r : ReqId) (lookup : Bool) : Scheduler :=
  S.modifyReq r fun x =>
    let x := if lookup then { x with
      prefixLen := (env.nextRound r).prefixLen
      hostHitLength := (env.nextRound r).hostHitLength
      lastNode := (env.nextRound r).lastNode } else x
    { x with extendInputLen := x.numOriginInputIds + x.numOutputIds - x.prefixLen }

/-- What `preempt_to_schedule` does to the batch: the victims are released and filtered out. -/
def preempt (S : Scheduler) (found : List ReqId) : Scheduler :=
  { S with
    runningBatch := S.runningBatch.filter (· ∉ found)
    availableRows := S.availableRows + (S.runningBatch.filter (· ∈ found)).length }

/-- `preempt_to_schedule`, with `none` for `False`. -/
def preemptToSchedule (S : Scheduler) (a : PrefillAdder) (r : ReqId) :
    Option (Scheduler × PrefillAdder) :=
  (victims cfg.adder env S.reqs a S.runningBatch r).map fun found =>
    (S.preempt found, a.preempt cfg.adder env S.reqs S.runningBatch found)

/-- Room for one more request, made by a preemption if the batch is full. -/
def makeRoom (S : Scheduler) (a : PrefillAdder) (r : ReqId) : Option (Scheduler × PrefillAdder) :=
  if S.batchIsFull then
    if cfg.enablePriorityPreemption then preemptToSchedule cfg env S a r else none
  else some (S, a)

/-- The batch is marked full when no further request can be allocated. -/
def markFull (S : Scheduler) (a : PrefillAdder) : Scheduler :=
  if a.canRunList.length ≥ S.getNumAllocatableReqs cfg then { S with batchIsFull := true } else S

/-- What a result other than `CONTINUE` does to the batch. -/
def markNoToken (S : Scheduler) (a : PrefillAdder) (res : AddReqResult) : Scheduler :=
  if res = .noToken then { S with
    batchIsFull := if cfg.enableHierarchicalCache then
      decide (a.canRunList ≠ [] ∨ S.runningBatch ≠ []) else true }
  else S

/-- `adder.add_one_req(req, ...)`. -/
def addOne (S : Scheduler) (a : PrefillAdder) (r : ReqId) : AddReqResult × PrefillAdder :=
  addOneReq cfg.adder env S.reqs a S.runningBatch r cfg.truncationAlignSize

/-- The loop over the waiting queue. -/
def admitLoop : List ReqId → Scheduler → PrefillAdder → Scheduler × PrefillAdder
  | [], S, a => (S, a)
  | r :: rest, S, a =>
    if cfg.enableLora ∧ env.canScheduleLora r = false then admitLoop rest S a
    else
      let S := markFull cfg S a
      match makeRoom cfg env S a r with
      | none => (S, a)
      | some (S, a) =>
        if cfg.enableHicacheStorage ∧ env.prefetchDone r = false then admitLoop rest S a
        else
          let S := initNextRoundInput env S r true
          let (res, a) := addOne cfg env S a r
          if res = .continue then admitLoop rest S a else (markNoToken cfg S a res, a)

/-! ## 3. The pass -/

/-- The order of the queue, the adder and the chunked request. -/
def startAdder (S : Scheduler) : Scheduler × PrefillAdder :=
  let chunkedPrefillSize :=
    if S.chunkedReq.isSome ∧ env.dynamicSize.isSome then env.dynamicSize else cfg.chunkedPrefillSize
  let a := PrefillAdder.init cfg.adder S.reqs S.runningBatch cfg.maxPrefillTokens chunkedPrefillSize
  match S.chunkedReq with
  | none => (S, a)
  | some c =>
    let S := initNextRoundInput env S c false
    let (chunkedReq, a) := addChunkedReq cfg.adder env S.reqs a c
    ({ S with chunkedReq := chunkedReq }, a)

/-- The queue in the order of the policy. -/
def sortQueue (S : Scheduler) : Scheduler :=
  let (waitingQueue, reqs) := SchedulePolicy.calcPriority env S.reqs cfg.policy
    cfg.enablePriorityScheduling (if cfg.adder.scheduleLowPriorityValuesFirst then 1 else -1)
    S.runningBatch S.waitingQueue
  { S with waitingQueue := waitingQueue, reqs := reqs }

/-- Up to the loop; without an adder the pass returns `None` early. -/
def enterPass (S : Scheduler) : Option (Scheduler × Option PrefillAdder) := do
  let S ← env.readyGrammarRequests.foldlM (addRequestToQueue cfg env) S
  let S := if cfg.enablePriorityPreemption ∨ cfg.adder.isHybridSwa then
    { S with batchIsFull := false } else S
  if (S.batchIsFull ∨ S.waitingQueue = []) ∧ S.chunkedReq = none then some (S, none)
  else if S.getNumAllocatableReqs cfg ≤ 0 ∧ S.chunkedReq = none ∧
      cfg.enablePriorityPreemption = false then some ({ S with batchIsFull := true }, none)
  else
    let S := sortQueue cfg env S
    if cfg.noPrefillBs.any (S.runningBatch.length > ·) then some (S, none)
    else
      let (S, a) := startAdder cfg env S
      some (S, some a)

/-- After the loop: the batch, if there is one, and the requests that were preempted for it. -/
def finishPass (S : Scheduler) (a : PrefillAdder) : Option (Scheduler × Option (List ReqId)) :=
  if a.canRunList = [] then some (S, none)
  else do
    let S ← a.preemptList.foldlM (addRequestToQueue cfg env)
      { S with waitingQueue := S.waitingQueue.filter (· ∉ a.canRunList) }
    match a.newChunkedReq with
    | none => return (S, some a.canRunList)
    | some c =>
      if S.chunkedReq = none then return ({ S with chunkedReq := some c }, some a.canRunList)
      else none

/-- `_get_new_batch_prefill_raw`. -/
def getNewBatchPrefillRaw (S : Scheduler) : Option (Scheduler × Option (List ReqId)) := do
  match ← enterPass cfg env S with
  | (S, none) => return (S, none)
  | (S, some a) =>
    let (S, a) := admitLoop cfg env S.waitingQueue S a
    finishPass cfg env S a

end Scheduler

end Sglang
