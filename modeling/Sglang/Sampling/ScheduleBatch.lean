/-
# Batches

A transcription of what `ScheduleBatch` does to the columns of a batch: it is formed for a prefill, its output
tokens are sampled, it is prepared for decoding, filtered and merged.  A run is a sequence of such steps on
any number of batches, without overlap and without speculative decoding, as the scheduler takes them.

A request that leaves a batch may be admitted again, with the output it has.  What it has besides its
parameters is its state (`ReqState`).  Memory, images, encoders and mamba are not modelled.
-/
import Sglang.Sampling.SamplingBatchInfo

namespace Sglang

open Lib Lib.Columns

namespace Sampling

/-! ## 1. A batch -/

structure ScheduleBatch (R : Type) where
  reqs : List (Req R)
  samplingInfo : SamplingBatchInfo R
  reqPoolIndices : List ℕ
  seqLens : List ℕ
  seqLensCpu : List ℕ
  origSeqLens : List ℕ
  outputIds : Option (List ℕ) := none
  returnLogprob : Bool
  topLogprobsNums : Option (List ℕ) := none
  tokenIdsLogprobs : Option (List (Option (List ℕ))) := none

/-- A request that is to be prefilled: how long its input is, how much of that is to be filled, and its row
of the pool. -/
structure Extend (R : Type) where
  req : Req R
  originInputLen : ℕ
  fillLen : ℕ
  reqPoolIdx : ℕ

variable {R : Type} [Ring R] [DecidableEq R]

namespace ScheduleBatch

/-- `init_new` and `prepare_for_extend`. -/
def prepareForExtend (args : GlobalServerArgs) (entries : List (Extend R)) : ScheduleBatch R :=
  let reqs := entries.map (·.req)
  let returnLogprob := reqs.any (·.returnLogprob)
  { reqs := reqs
    returnLogprob := returnLogprob
    reqPoolIndices := entries.map (·.reqPoolIdx)
    seqLens := entries.map (·.fillLen)
    seqLensCpu := entries.map (·.fillLen)
    origSeqLens := entries.map fun entry => max entry.fillLen entry.originInputLen
    topLogprobsNums := if returnLogprob then some (reqs.map (·.topLogprobsNum)) else none
    tokenIdsLogprobs := if returnLogprob then some (reqs.map (·.tokenIdsLogprob)) else none
    samplingInfo := SamplingBatchInfo.fromScheduleBatch args reqs }

/-- The places that are kept if none are given: of requests that have not finished, and are not excluded. -/
def keepIndices (b : ScheduleBatch R) (finished : ℕ → Bool) (chunkedReqToExclude : List ℕ) : List ℕ :=
  (List.range b.reqs.length).filter fun i =>
    b.reqs[i]?.any fun req => !finished req.rid && !chunkedReqToExclude.contains req.rid

/-- `filter_batch`, to the given places. -/
def filterTo (b : ScheduleBatch R) (keepIndices : List ℕ) : ScheduleBatch R :=
  if keepIndices.length = 0 then { b with reqs := [] }
  else if keepIndices.length = b.reqs.length then b
  else
    let reqs := gather b.reqs keepIndices
    let returnLogprob := reqs.any (·.returnLogprob)
    { reqs := reqs
      reqPoolIndices := gather b.reqPoolIndices keepIndices
      seqLens := gather b.seqLens keepIndices
      seqLensCpu := gather b.seqLensCpu keepIndices
      origSeqLens := gather b.origSeqLens keepIndices
      outputIds := b.outputIds.map (gather · keepIndices)
      returnLogprob := returnLogprob
      topLogprobsNums := if returnLogprob then b.topLogprobsNums.map (gather · keepIndices) else none
      tokenIdsLogprobs := if returnLogprob then b.tokenIdsLogprobs.map (gather · keepIndices) else none
      samplingInfo := b.samplingInfo.filterBatch reqs keepIndices }

/-- `filter_batch`. -/
def filterBatch (b : ScheduleBatch R) (finished : ℕ → Bool) (chunkedReqToExclude : List ℕ)
    (keepIndices : Option (List ℕ)) : ScheduleBatch R :=
  b.filterTo (keepIndices.getD (b.keepIndices finished chunkedReqToExclude))

/-- How `merge_batch` puts two lists of logprob settings behind one another. -/
def mergeLogprobs {α : Type} (b other : ScheduleBatch R) (default : α) (lhs rhs : Option (List α)) :
    Option (List α) :=
  match b.returnLogprob, other.returnLogprob with
  | true, true => lhs.map (· ++ rhs.getD [])
  | true, false => lhs.map (· ++ List.replicate other.reqs.length default)
  | false, true => some (List.replicate b.reqs.length default ++ rhs.getD [])
  | false, false => lhs

/-- `merge_batch`. -/
def mergeBatch (b other : ScheduleBatch R) : ScheduleBatch R where
  reqs := b.reqs ++ other.reqs
  reqPoolIndices := b.reqPoolIndices ++ other.reqPoolIndices
  seqLens := b.seqLens ++ other.seqLens
  seqLensCpu := b.seqLensCpu ++ other.seqLensCpu
  origSeqLens := b.origSeqLens ++ other.origSeqLens
  outputIds := b.outputIds.map (· ++ other.outputIds.getD [])
  returnLogprob := b.returnLogprob || other.returnLogprob
  topLogprobsNums := b.mergeLogprobs other 0 b.topLogprobsNums other.topLogprobsNums
  tokenIdsLogprobs := b.mergeLogprobs other none b.tokenIdsLogprobs other.tokenIdsLogprobs
  samplingInfo := b.samplingInfo.mergeBatch other.samplingInfo b.reqs other.reqs

/-- `prepare_for_decode`, with the output tokens of the last step. -/
def prepareForDecode (b : ScheduleBatch R) (outputIds : List ℕ) : ScheduleBatch R :=
  let penalizers := b.samplingInfo.penalizerOrchestrator
  { b with
    samplingInfo :=
      { b.samplingInfo with
        penalizerOrchestrator :=
          if penalizers.isRequired then penalizers.cumulateOutputTokens outputIds else penalizers }
    outputIds := none
    seqLens := b.seqLens.map (· + 1)
    seqLensCpu := b.seqLensCpu.map (· + 1)
    origSeqLens := b.origSeqLens.map (· + 1) }

def rids (b : ScheduleBatch R) : List ℕ := b.reqs.map (·.rid)

end ScheduleBatch

/-! ## 2. Runs -/

/-- What a request has: its output, what of it there was when it was admitted and what has been cumulated
since, the token that was sampled last, whether it waits for its next chunk, its lengths and its row. -/
structure ReqState where
  outputIds : List ℕ := []
  kept : List ℕ := []
  cumulated : List ℕ := []
  sampled : ℕ := 0
  isChunked : Bool := false
  kvCommittedLen : ℕ := 0
  origSeqLen : ℕ := 0
  reqPoolIdx : ℕ := 0

/-- The requests, the batches and the states of the requests.  A batch that has been merged into another one is
left without requests. -/
structure BatchSystem (R : Type) where
  batches : List (ScheduleBatch R) := []
  states : ℕ → ReqState := fun _ => {}

inductive BatchOp (R : Type)
  | start (entries : List (Extend R))
  | sample (i : ℕ) (tokens : List ℕ) (chunked : List ℕ)
  | prepareForDecode (i : ℕ)
  | filter (i : ℕ) (finished chunkedReqToExclude : List ℕ) (keepIndices : Option (List ℕ))
  | merge (i j : ℕ)

/-- The state of a request that is admitted: it keeps its output. -/
def ReqState.admitted (s : ReqState) (entry : Extend R) : ReqState :=
  { outputIds := s.outputIds
    kept := s.outputIds
    kvCommittedLen := entry.fillLen
    origSeqLen := max entry.fillLen entry.originInputLen
    reqPoolIdx := entry.reqPoolIdx }

/-- A token has been sampled; a request that waits for its next chunk does not take it. -/
def ReqState.sample (s : ReqState) (token : ℕ) (chunked : Bool) : ReqState :=
  { s with
    outputIds := if chunked then s.outputIds else s.outputIds ++ [token]
    sampled := token
    isChunked := chunked }

/-- The token that was sampled last is cumulated. -/
def ReqState.decode (s : ReqState) : ReqState :=
  { s with
    cumulated := s.cumulated ++ [s.sampled]
    kvCommittedLen := s.kvCommittedLen + 1
    origSeqLen := s.origSeqLen + 1 }

namespace BatchSystem

def admitted (states : ℕ → ReqState) (entries : List (Extend R)) (rid : ℕ) : ReqState :=
  match entries.find? fun entry => entry.req.rid = rid with
  | none => states rid
  | some entry => (states rid).admitted entry

def sampled (states : ℕ → ReqState) (tokens : List (ℕ × ℕ)) (chunked : List ℕ) (rid : ℕ) : ReqState :=
  match tokens.lookup rid with
  | none => states rid
  | some token => (states rid).sample token (chunked.contains rid)

def decoded (states : ℕ → ReqState) (rids : List ℕ) (rid : ℕ) : ReqState :=
  if rid ∈ rids then (states rid).decode else states rid

/-- One step.  Requests are admitted that are in no batch; a batch is run when it has been prepared, and
prepared when it has been run and its chunked requests have been excluded; batches that have requests are
merged, both before or both after they have been run. -/
def step (args : GlobalServerArgs) (s : BatchSystem R) : BatchOp R → BatchSystem R
  | .start entries =>
    if (entries.map (·.req.rid)).Nodup ∧ ∀ b ∈ s.batches, ∀ entry ∈ entries, entry.req.rid ∉ b.rids then
      { batches := s.batches ++ [ScheduleBatch.prepareForExtend args entries]
        states := admitted s.states entries }
    else s
  | .sample i tokens chunked =>
    match s.batches[i]? with
    | none => s
    | some b =>
      if b.outputIds = none ∧ tokens.length = b.reqs.length then
        { batches := s.batches.set i { b with outputIds := some tokens }
          states := sampled s.states (b.rids.zip tokens) chunked }
      else s
  | .prepareForDecode i =>
    match s.batches[i]? with
    | none => s
    | some b =>
      match b.outputIds with
      | none => s
      | some outputIds =>
        if ∀ rid ∈ b.rids, (s.states rid).isChunked = false then
          { batches := s.batches.set i (b.prepareForDecode outputIds)
            states := decoded s.states b.rids }
        else s
  | .filter i finished chunkedReqToExclude keepIndices =>
    match s.batches[i]? with
    | none => s
    | some b =>
      if (keepIndices.getD []).Nodup ∧ ∀ k ∈ keepIndices.getD [], k < b.reqs.length then
        { s with
          batches := s.batches.set i (b.filterBatch finished.contains chunkedReqToExclude keepIndices) }
      else s
  | .merge i j =>
    match s.batches[i]?, s.batches[j]? with
    | some b, some other =>
      if i ≠ j ∧ b.reqs.length ≠ 0 ∧ other.reqs.length ≠ 0 ∧ b.outputIds.isSome = other.outputIds.isSome then
        { s with batches := (s.batches.set i (b.mergeBatch other)).set j { other with reqs := [] } }
      else s
    | _, _ => s

def run (args : GlobalServerArgs) (ops : List (BatchOp R)) : BatchSystem R := ops.foldl (step args) {}

end BatchSystem

end Sampling

end Sglang
