/-
# `PrefillAdder`

A transcription of `PrefillAdder` (`schedule_policy.py`): the budgets of one pass, the admission of
the chunked request and of waiting requests, and the preemption of running ones.

The lemma about admissions that everything else uses is `addOneReq_spec`: a request is put at the
end of `can_run_list`, or nothing is and the result is not `CONTINUE`.
-/
import Sglang.Lib.FloatOps
import Sglang.Managers.SchedulePolicy

namespace Sglang

open List Lib

/-- `AddReqResult`. -/
inductive AddReqResult
  | continue
  | noToken
  | other
deriving DecidableEq

/-- The parameters of a `PrefillAdder`.  `onePrefill` is whether context parallelism allows only
one request in a prefill batch, `treeCacheDisabled` is `tree_cache.disable`. -/
structure AdderConfig where
  float : FloatOps
  pageSize : ℤ
  newTokenRatio : ℚ
  clipMaxNewTokens : ℤ
  preemptionThreshold : ℤ
  prefillMaxRequests : Option ℕ
  isHybridSwa : Bool
  slidingWindowSize : ℤ
  onePrefill : Bool
  treeCacheDisabled : Bool
  scheduleLowPriorityValuesFirst : Bool

/-- The state of a `PrefillAdder`. -/
structure PrefillAdder where
  remInputTokens : ℤ
  remChunkTokens : Option ℤ
  remTotalTokenOffset : ℚ
  curRemTokenOffset : ℤ
  remSwaTokenOffset : ℤ
  reqStates : Option (List (ℚ × ℤ))
  canRunList : List ReqId
  preemptList : List ReqId
  newChunkedReq : Option ReqId

namespace PrefillAdder

variable (cfg : AdderConfig) (env : PassEnv) (reqs : ReqId → SchedReq)

/-! ## 1. Budgets -/

/-- `_get_running_request_total_token_offset`. -/
def getRunningRequestTotalTokenOffset (r : ReqId) : ℚ :=
  cfg.float.mul
    (cfg.float.ofInt (min ((reqs r).maxNewTokens - (reqs r).numOutputIds) cfg.clipMaxNewTokens))
    cfg.newTokenRatio

/-- `__init__`, without mixed chunks. -/
def init (runningBatch : List ReqId) (remInputTokens : ℤ) (remChunkTokens : Option ℤ) :
    PrefillAdder where
  remInputTokens := remInputTokens
  remChunkTokens := remChunkTokens
  remTotalTokenOffset :=
    cfg.float.sum (runningBatch.map (getRunningRequestTotalTokenOffset cfg reqs))
  curRemTokenOffset := 0
  remSwaTokenOffset := 0
  reqStates := none
  canRunList := []
  preemptList := []
  newChunkedReq := none

/-- `rem_total_tokens`. -/
def remTotalTokens (a : PrefillAdder) (r : ReqId) (m : Moment) : ℚ :=
  cfg.float.sub (cfg.float.ofInt (env.availableAndEvictable r m)) a.remTotalTokenOffset

/-- `rem_swa_tokens`. -/
def remSwaTokens (a : PrefillAdder) (r : ReqId) (m : Moment) : ℤ :=
  env.swaAvailableAndEvictable r m - a.remSwaTokenOffset

/-- `cur_rem_tokens`. -/
def curRemTokens (a : PrefillAdder) (r : ReqId) (m : Moment) : ℤ :=
  env.availableAndEvictable r m - a.curRemTokenOffset

/-- `_swa_budget_for_req`. -/
def swaBudgetForReq (a : PrefillAdder) (extendInputLen : ℤ) : ℤ :=
  let alloc := match a.remChunkTokens with
    | some remChunk => min extendInputLen remChunk
    | none => extendInputLen
  max alloc cfg.slidingWindowSize + cfg.pageSize

/-- `ceil_paged_tokens`. -/
def ceilPagedTokens (tokens : ℤ) : ℤ := -(-tokens / cfg.pageSize) * cfg.pageSize

/-- `budget_state`. -/
def budgetState (a : PrefillAdder) (r : ReqId) : AddReqResult :=
  if a.remTotalTokens cfg env r .added ≤ 0 ∨ a.curRemTokens env r .added ≤ 0 ∨
      (cfg.isHybridSwa ∧ a.remSwaTokens env r .added ≤ 0) then .noToken
  else if a.remInputTokens ≤ 0 then .other
  else if a.remChunkTokens.any (· ≤ 0) then .other
  else .continue

/-- `_update_prefill_budget`. -/
def updatePrefillBudget (a : PrefillAdder) (extendInputLen maxNewTokens : ℤ) : PrefillAdder :=
  let extendInputLen := ceilPagedTokens cfg extendInputLen
  { a with
    remTotalTokenOffset := cfg.float.add a.remTotalTokenOffset
      (cfg.float.ofInt (extendInputLen + maxNewTokens + cfg.pageSize))
    curRemTokenOffset := a.curRemTokenOffset + (extendInputLen + cfg.pageSize)
    remInputTokens := a.remInputTokens - extendInputLen
    remSwaTokenOffset := if cfg.isHybridSwa then
      a.remSwaTokenOffset + swaBudgetForReq cfg a extendInputLen else a.remSwaTokenOffset
    remChunkTokens := a.remChunkTokens.map (· - extendInputLen) }

/-- A request joins the batch; with `chunk` only a part of it does. -/
def append (a : PrefillAdder) (r : ReqId) (chunk : Bool) : PrefillAdder :=
  { a with
    canRunList := a.canRunList ++ [r]
    newChunkedReq := if chunk then some r else a.newChunkedReq }

/-! ## 2. Admission -/

/-- `add_chunked_req`; the request is returned if it is not finished.  The chunk size is set when
there is a chunked request, so `rem_chunk_tokens` is not `None`. -/
def addChunkedReq (a : PrefillAdder) (r : ReqId) : Option ReqId × PrefillAdder :=
  let remChunk := a.remChunkTokens.getD 0
  let remTokens := min remChunk (FloatOps.truncate (a.remTotalTokens cfg env r .unlocked))
  let remTokens := if cfg.isHybridSwa then
    min remTokens (a.remSwaTokens env r .unlocked - cfg.pageSize) else remTokens
  if remTokens ≤ 0 ∧ cfg.isHybridSwa then (some r, a)
  else
    let remTokens := if remTokens ≤ 0 then remChunk else remTokens
    let truncated := (reqs r).extendInputLen > remTokens
    let extendInputLen := min (reqs r).extendInputLen remTokens
    let a := (a.append r false).updatePrefillBudget cfg extendInputLen
      (if truncated then 0 else min (reqs r).maxNewTokens cfg.clipMaxNewTokens)
    (if truncated then some r else none, a)

/-- `add_req_state`: what a request will still use and what it holds, if it goes on at all. -/
def addReqState (r : ReqId) (insertSort : Bool) (states : List (ℚ × ℤ)) : List (ℚ × ℤ) :=
  let ratio : ℚ := if (reqs r).ignoreEos then 1 else cfg.newTokenRatio
  let tokensLeft : ℚ := cfg.float.sub (cfg.float.mul (cfg.float.ofInt (reqs r).maxNewTokens) ratio)
    (cfg.float.ofInt (reqs r).numOutputIds)
  let tokensOccupied : ℤ := (reqs r).numOriginInputIds + (reqs r).numOutputIds
  if tokensLeft ≤ 0 then states
  else if insertSort then
    -- without an entry to stop at, the loop leaves `i` at the last one
    let i := match states.findIdx? (fun s => tokensLeft ≤ s.1) with
      | some i => i
      | none => states.length - 1
    states.take i ++ (tokensLeft, tokensOccupied) :: states.drop i
  else states ++ [(tokensLeft, tokensOccupied)]

/-- The loop over `req_states`: at each end of a request the rest must still fit. -/
def fitsStates (fl : FloatOps) (curRemTokens : ℤ) : ℤ → List (ℚ × ℤ) → Bool
  | _, [] => true
  | tokensFreed, (tokensLeft, tokensOccupied) :: states =>
    let bs : ℤ := states.length + 1
    let minFreeTokens :=
      fl.sub (fl.ofInt (curRemTokens + tokensFreed)) (fl.mul tokensLeft (fl.ofInt bs))
    if minFreeTokens ≤ (1 * bs : ℤ) then false
    else fitsStates fl curRemTokens (tokensFreed + tokensOccupied) states

/-- `req_states` with the request: collected from all requests the first time. -/
def nextReqStates (a : PrefillAdder) (runningBatch : List ReqId) (r : ReqId) : List (ℚ × ℤ) :=
  match a.reqStates with
  | none => SchedulePolicy.sortBy (fun x y => decide (x.1 ≤ y.1))
      ((r :: runningBatch ++ a.canRunList).foldl
        (fun states x => addReqState cfg reqs x false states) [])
  | some states => addReqState cfg reqs r true states

/-- `add_one_req_ignore_eos`. -/
def addOneReqIgnoreEos (a : PrefillAdder) (runningBatch : List ReqId) (r : ReqId) :
    AddReqResult × PrefillAdder :=
  let req := reqs r
  let pagedInput := ceilPagedTokens cfg req.extendInputLen
  if pagedInput
      > min (a.curRemTokens env r .unlocked : ℚ) (a.remTotalTokens cfg env r .unlocked) then
    (.noToken, a)
  else if cfg.isHybridSwa ∧ swaBudgetForReq cfg a req.extendInputLen
      > a.remSwaTokens env r .unlocked then (.noToken, a)
  else
    let states := nextReqStates cfg reqs a runningBatch r
    let a := { a with reqStates := some states }
    if cfg.isHybridSwa = false ∧
        fitsStates cfg.float (a.curRemTokens env r .unlocked - pagedInput) 0 states = false then (.noToken, a)
    else if env.allowPrefill = false then (.other, a)
    else
      match a.remChunkTokens with
      | some remChunk =>
        if req.extendInputLen ≤ remChunk then
          let a := (a.append r false).updatePrefillBudget cfg req.extendInputLen
            (min req.maxNewTokens cfg.clipMaxNewTokens)
          (a.budgetState cfg env r, a)
        else if remChunk ≤ 0 then (.other, a)
        else
          let a := (a.append r true).updatePrefillBudget cfg remChunk 0
          (a.budgetState cfg env r, a)
      | none =>
        let a := (a.append r false).updatePrefillBudget cfg req.extendInputLen
          (min req.maxNewTokens cfg.clipMaxNewTokens)
        (a.budgetState cfg env r, a)

/-- The length a request is cut to, or `None` when nothing of it fits. -/
def truncLen (remChunk prefixLen : ℤ) (truncationAlignSize : Option ℤ) : Option ℤ := do
  let truncLen := remChunk / cfg.pageSize * cfg.pageSize
  if truncLen ≤ 0 then none
  let truncLen ← match truncationAlignSize with
    | none => some truncLen
    | some align => if truncLen < align then none else some (align * (truncLen / align))
  let nowInputLen := (truncLen + prefixLen) / cfg.pageSize * cfg.pageSize
  if nowInputLen - prefixLen ≤ 0 then none
  return nowInputLen - prefixLen

/-- The part of `add_one_req` under the lock on the matched node. -/
def addLocked (a : PrefillAdder) (r : ReqId) (totalTokens : ℤ) (truncationAlignSize : Option ℤ) :
    AddReqResult × PrefillAdder :=
  let req := reqs r
  if totalTokens ≥ a.remTotalTokens cfg env r .locked then (.noToken, a)
  else if cfg.isHybridSwa ∧ swaBudgetForReq cfg a req.extendInputLen
      ≥ a.remSwaTokens env r .locked then (.noToken, a)
  else
    -- `init_load_back`
    let loaded := if req.hostHitLength > 0 then env.loadedBack r else 0
    let prefixLen := req.prefixLen + loaded
    let extendInputLen := req.extendInputLen - loaded
    let inputTokens := ceilPagedTokens cfg extendInputLen
    if inputTokens ≥ a.remInputTokens ∧ a.canRunList ≠ [] then (.other, a)
    else if a.remChunkTokens.all (inputTokens ≤ ·) then
      let a := (a.append r false).updatePrefillBudget cfg inputTokens
        (min req.maxNewTokens cfg.clipMaxNewTokens)
      (a.budgetState cfg env r, a)
    else
      match truncLen cfg (a.remChunkTokens.getD 0) prefixLen truncationAlignSize with
      | none => (.other, a)
      | some truncLen =>
        let a := (a.append r true).updatePrefillBudget cfg truncLen 0
        (a.budgetState cfg env r, a)

/-- `add_one_req`. -/
def addOneReq (a : PrefillAdder) (runningBatch : List ReqId) (r : ReqId)
    (truncationAlignSize : Option ℤ) : AddReqResult × PrefillAdder :=
  let req := reqs r
  if env.allowPrefill = false then (.other, a)
  else if cfg.onePrefill ∧ a.canRunList.length ≥ 1 then (.other, a)
  else if cfg.prefillMaxRequests.any (a.canRunList.length ≥ ·) then (.other, a)
  else if req.ignoreEos ∧ cfg.treeCacheDisabled then addOneReqIgnoreEos cfg env reqs a runningBatch r
  else
    let maxNew := min (max (req.maxNewTokens - req.numOutputIds) 0) cfg.clipMaxNewTokens
    let totalTokens := req.extendInputLen + maxNew + cfg.pageSize
    let realInputTokens := ceilPagedTokens cfg (req.extendInputLen - req.hostHitLength)
    if totalTokens ≥ a.remTotalTokens cfg env r .unlocked then (.noToken, a)
    else if cfg.isHybridSwa ∧ swaBudgetForReq cfg a req.extendInputLen
        ≥ a.remSwaTokens env r .unlocked then (.noToken, a)
    else if realInputTokens ≥ a.remInputTokens ∧ a.canRunList ≠ [] then (.other, a)
    else addLocked cfg env reqs a r totalTokens truncationAlignSize

/-! ## 3. Preemption -/

/-- The loop of `preempt_to_schedule`: running requests are taken until enough tokens would be
free, or one is too important. -/
def preemptible (priority : ℤ) (prioritySign : ℤ) : List ReqId → ℚ → List ReqId × ℚ
  | [], minTokensToRemove => ([], minTokensToRemove)
  | x :: rest, minTokensToRemove =>
    if (priority - (reqs x).priority.getD 0) * (-prioritySign) > cfg.preemptionThreshold then
      let minTokensToRemove :=
        cfg.float.sub minTokensToRemove (getRunningRequestTotalTokenOffset cfg reqs x)
      if minTokensToRemove ≤ 0 then ([x], minTokensToRemove)
      else
        let (found, minTokensToRemove) := preemptible priority prioritySign rest minTokensToRemove
        (x :: found, minTokensToRemove)
    else ([], minTokensToRemove)

/-- The requests `preempt_to_schedule` would take for `r`, or none if they do not suffice. -/
def victims (a : PrefillAdder) (runningBatch : List ReqId) (r : ReqId) : Option (List ReqId) :=
  let prioritySign : ℤ := if cfg.scheduleLowPriorityValuesFirst then 1 else -1
  let valid := runningBatch.filter fun x => x ∉ a.preemptList ∧ (reqs x).finished = false
  let sorted := SchedulePolicy.sortBy (fun x y => SchedulePolicy.lexLe
    ((reqs x).priority.getD 0 * (-prioritySign), -(reqs x).waitQueueEntryTime)
    ((reqs y).priority.getD 0 * (-prioritySign), -(reqs y).waitQueueEntryTime)) valid
  let minTokensToRemove := cfg.float.sub
    (cfg.float.ofInt ((reqs r).extendInputLen + min (reqs r).maxNewTokens cfg.clipMaxNewTokens))
    (a.remTotalTokens cfg env r .preempt)
  let (found, minTokensToRemove) := preemptible cfg reqs ((reqs r).priority.getD 0) prioritySign
    sorted minTokensToRemove
  if found = [] ∨ minTokensToRemove > 0 then none else some found

/-- What `preempt_to_schedule` does to the adder when it takes `found`. -/
def preempt (a : PrefillAdder) (runningBatch found : List ReqId) : PrefillAdder :=
  { a with
    remTotalTokenOffset := (runningBatch.filter (· ∈ found)).foldl
      (fun offset x => cfg.float.sub offset (getRunningRequestTotalTokenOffset cfg reqs x))
      a.remTotalTokenOffset
    preemptList := a.preemptList ++ env.setOrder found }

/-! ## 4. What an admission does to the lists -/

section Spec

variable {cfg : AdderConfig} {env : PassEnv} {reqs : ReqId → SchedReq} {a : PrefillAdder} {r : ReqId}

/-- The request was put at the end of the batch, or refused. -/
def Admits (a : PrefillAdder) (r : ReqId) (out : AddReqResult × PrefillAdder) : Prop :=
  out.2.preemptList = a.preemptList ∧
    ((out.2.canRunList = a.canRunList ++ [r] ∧
        (out.2.newChunkedReq = a.newChunkedReq ∨ out.2.newChunkedReq = some r)) ∨
      (out.1 ≠ .continue ∧ out.2.canRunList = a.canRunList ∧
        out.2.newChunkedReq = a.newChunkedReq))

theorem admits_refuse {res : AddReqResult} {a' : PrefillAdder} (hres : res ≠ .continue)
    (hp : a'.preemptList = a.preemptList) (hc : a'.canRunList = a.canRunList)
    (hn : a'.newChunkedReq = a.newChunkedReq) : Admits a r (res, a') :=
  ⟨hp, .inr ⟨hres, hc, hn⟩⟩

theorem admits_append (res : AddReqResult) (chunk : Bool) (n m : ℤ) {b : PrefillAdder}
    (hp : b.preemptList = a.preemptList) (hc : b.canRunList = a.canRunList)
    (hn : b.newChunkedReq = a.newChunkedReq) :
    Admits a r (res, (b.append r chunk).updatePrefillBudget cfg n m) := by
  refine ⟨hp, .inl ⟨?_, ?_⟩⟩
  · show b.canRunList ++ [r] = a.canRunList ++ [r]
    rw [hc]
  · cases chunk with
    | true => exact .inr rfl
    | false => exact .inl hn

theorem addOneReqIgnoreEos_spec (runningBatch : List ReqId) :
    Admits a r (addOneReqIgnoreEos cfg env reqs a runningBatch r) := by
  unfold addOneReqIgnoreEos
  simp only
  split
  · exact admits_refuse (by decide) rfl rfl rfl
  split
  · exact admits_refuse (by decide) rfl rfl rfl
  split
  · exact admits_refuse (by decide) rfl rfl rfl
  split
  · exact admits_refuse (by decide) rfl rfl rfl
  split
  · split
    · exact admits_append _ _ _ _ rfl rfl rfl
    split
    · exact admits_refuse (by decide) rfl rfl rfl
    · exact admits_append _ _ _ _ rfl rfl rfl
  · exact admits_append _ _ _ _ rfl rfl rfl

theorem addLocked_spec (totalTokens : ℤ) (truncationAlignSize : Option ℤ) :
    Admits a r (addLocked cfg env reqs a r totalTokens truncationAlignSize) := by
  unfold addLocked
  simp only
  generalize (if (reqs r).hostHitLength > 0 then env.loadedBack r else 0) = loaded
  split
  · exact admits_refuse (by decide) rfl rfl rfl
  split
  · exact admits_refuse (by decide) rfl rfl rfl
  split
  · exact admits_refuse (by decide) rfl rfl rfl
  split
  · exact admits_append _ _ _ _ rfl rfl rfl
  split
  · exact admits_refuse (by decide) rfl rfl rfl
  · exact admits_append _ _ _ _ rfl rfl rfl

/-- **An admission** puts the request at the end of `can_run_list` or refuses it. -/
theorem addOneReq_spec (runningBatch : List ReqId) (truncationAlignSize : Option ℤ) :
    Admits a r (addOneReq cfg env reqs a runningBatch r truncationAlignSize) := by
  unfold addOneReq
  simp only
  split
  · exact admits_refuse (by decide) rfl rfl rfl
  split
  · exact admits_refuse (by decide) rfl rfl rfl
  split
  · exact admits_refuse (by decide) rfl rfl rfl
  split
  · exact addOneReqIgnoreEos_spec runningBatch
  split
  · exact admits_refuse (by decide) rfl rfl rfl
  split
  · exact admits_refuse (by decide) rfl rfl rfl
  split
  · exact admits_refuse (by decide) rfl rfl rfl
  · exact addLocked_spec _ truncationAlignSize

/-- **The chunked request** is added, or carried over without being added; it is carried over if it
is not finished. -/
theorem addChunkedReq_spec :
    (addChunkedReq cfg env reqs a r).2.preemptList = a.preemptList ∧
    (addChunkedReq cfg env reqs a r).2.newChunkedReq = a.newChunkedReq ∧
    ((addChunkedReq cfg env reqs a r = (some r, a)) ∨
      ((addChunkedReq cfg env reqs a r).2.canRunList = a.canRunList ++ [r] ∧
        ∀ x, (addChunkedReq cfg env reqs a r).1 = some x → x = r)) := by
  unfold addChunkedReq
  simp only
  generalize (if cfg.isHybridSwa = true then min (min (a.remChunkTokens.getD 0)
    (FloatOps.truncate (a.remTotalTokens cfg env r .unlocked))) (a.remSwaTokens env r .unlocked - cfg.pageSize)
    else min (a.remChunkTokens.getD 0) (FloatOps.truncate (a.remTotalTokens cfg env r .unlocked))) = remTokens
  split
  · exact ⟨rfl, rfl, .inl rfl⟩
  · generalize (if remTokens ≤ 0 then a.remChunkTokens.getD 0 else remTokens) = remTokens
    refine ⟨rfl, rfl, .inr ⟨rfl, fun x hx => ?_⟩⟩
    split at hx
    · exact (Option.some.inj hx).symm
    · cases hx

theorem preemptible_subset (priority prioritySign : ℤ) : ∀ (l : List ReqId) (m : ℚ),
    ∀ x ∈ (preemptible cfg reqs priority prioritySign l m).1, x ∈ l
  | [], _ => by simp [preemptible]
  | y :: l, m => by
    intro x hx
    rw [preemptible] at hx
    split at hx
    · simp only at hx
      split at hx
      · exact mem_cons.mpr (.inl (mem_singleton.mp hx))
      · rcases mem_cons.mp hx with rfl | hx
        · exact mem_cons_self
        · exact mem_cons_of_mem _ (preemptible_subset priority prioritySign l _ x hx)
    · cases hx

/-- **The victims of a preemption** run and have not finished. -/
theorem victims_subset {runningBatch found : List ReqId}
    (h : victims cfg env reqs a runningBatch r = some found) :
    found ≠ [] ∧ ∀ x ∈ found, x ∈ runningBatch ∧ (reqs x).finished = false := by
  unfold victims at h
  simp only at h
  generalize (if cfg.scheduleLowPriorityValuesFirst = true then (1 : ℤ) else -1) = sign at h
  split at h
  · cases h
  · rename_i hne
    cases h
    refine ⟨fun e => hne (.inl e), fun x hx => ?_⟩
    have hmem := preemptible_subset _ _ _ _ x hx
    rw [SchedulePolicy.sortBy, mem_mergeSort, mem_filter] at hmem
    exact ⟨hmem.1, (of_decide_eq_true hmem.2).2⟩

end Spec

end PrefillAdder

end Sglang
