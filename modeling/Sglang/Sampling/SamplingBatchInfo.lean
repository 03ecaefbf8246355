/-
# What a batch is sampled with

A transcription of `SamplingBatchInfo`: its columns, how they are made from the requests of a batch, filtered
and merged.  A custom logit processor is named by its text, where the code takes the hash of the text, and
the empty text, which is no processor, does not occur.

The flags that say whether any request needs some way of sampling, and the masks of grammars, are not
modelled.
-/
import Sglang.Sampling.PenalizerRows
import Sglang.Lib.AssocList

namespace Sglang

open Lib Lib.Columns

namespace Sampling

/-! ## 1. The columns -/

/-- The server arguments that are read. -/
structure GlobalServerArgs where
  enableDeterministicInference : Bool := false
  enableCustomLogitProcessor : Bool := false

structure SamplingBatchInfo (R : Type) where
  temperatures : List R
  topPs : List R
  topKs : List ℤ
  minPs : List R
  penalizerOrchestrator : Orchestrator R
  hasCustomLogitProcessor : Bool
  customParams : Option (List (Option String))
  customLogitProcessor : Option (List (String × List Bool))
  samplingSeed : Option (List ℤ)
  logitBias : Option (List (ℕ → R))

variable {R : Type} [Ring R] [DecidableEq R]

/-- The seed of a request. -/
def Req.seed (req : Req R) : ℤ := req.samplingParams.samplingSeed.getD 42

/-- The row of a request in `logit_bias`: zero where it sets nothing. -/
def Req.biasRow (req : Req R) : ℕ → R :=
  (req.samplingParams.logitBias.getD []).foldl (fun row entry => Function.update row entry.1 entry.2) 0

/-- The requests that use a processor. -/
def processorMask (reqs : List (Req R)) (processor : String) : List Bool :=
  reqs.map fun req => decide (req.customLogitProcessor = some processor)

namespace SamplingBatchInfo

/-- `from_schedule_batch`. -/
def fromScheduleBatch (args : GlobalServerArgs) (reqs : List (Req R)) : SamplingBatchInfo R :=
  let hasCustomLogitProcessor :=
    args.enableCustomLogitProcessor && reqs.any fun req => req.customLogitProcessor.isSome
  { temperatures := reqs.map (·.samplingParams.temperature)
    topPs := reqs.map (·.samplingParams.topP)
    topKs := reqs.map (·.samplingParams.topK)
    minPs := reqs.map (·.samplingParams.minP)
    samplingSeed := if args.enableDeterministicInference then some (reqs.map Req.seed) else none
    logitBias :=
      if reqs.any fun req => req.samplingParams.logitBias.isSome then some (reqs.map Req.biasRow) else none
    hasCustomLogitProcessor := hasCustomLogitProcessor
    customLogitProcessor :=
      if hasCustomLogitProcessor then
        some ((reqs.filterMap (·.customLogitProcessor)).dedup.map fun k => (k, processorMask reqs k))
      else none
    customParams :=
      if hasCustomLogitProcessor then some (reqs.map (·.samplingParams.customParams)) else none
    penalizerOrchestrator := Orchestrator.ofReqs reqs }

/-- The masks of the requests that are kept, without those that are all false. -/
def filterProcessors (processors : List (String × List Bool)) (keepIndices : List ℕ) :
    List (String × List Bool) :=
  (processors.map fun entry => (entry.1, gather entry.2 keepIndices)).filter fun entry => entry.2.any id

/-- `_filter_batch_custom_logit_processor`. -/
def filterBatchCustomLogitProcessor (info : SamplingBatchInfo R) (keepIndices : List ℕ) :
    SamplingBatchInfo R :=
  let processors := filterProcessors (info.customLogitProcessor.getD []) keepIndices
  if processors = [] then
    { info with customLogitProcessor := none, customParams := none, hasCustomLogitProcessor := false }
  else
    { info with
      customLogitProcessor := some processors
      customParams := info.customParams.map (gather · keepIndices) }

/-- `filter_batch`, for the requests that are kept. -/
def filterBatch (info : SamplingBatchInfo R) (reqs : List (Req R)) (keepIndices : List ℕ) :
    SamplingBatchInfo R :=
  let info := { info with penalizerOrchestrator := info.penalizerOrchestrator.filter reqs keepIndices }
  let info := if info.hasCustomLogitProcessor then info.filterBatchCustomLogitProcessor keepIndices else info
  { info with
    temperatures := gather info.temperatures keepIndices
    topPs := gather info.topPs keepIndices
    topKs := gather info.topKs keepIndices
    minPs := gather info.minPs keepIndices
    samplingSeed := info.samplingSeed.map (gather · keepIndices)
    logitBias := info.logitBias.map (gather · keepIndices) }

/-- `merge_custom_logit_processor`. -/
def mergeCustomLogitProcessor (lhs rhs : Option (List (String × List Bool))) (bs1 bs2 : ℕ) :
    Option (List (String × List Bool)) :=
  if lhs.isNone && rhs.isNone then none
  else
    let lhs := lhs.getD []
    let rhs := rhs.getD []
    let keys := (lhs.map (·.1) ++ rhs.map (·.1)).dedup
    some (keys.map fun k =>
      (k, (lhs.lookup k).getD (List.replicate bs1 false) ++ (rhs.lookup k).getD (List.replicate bs2 false)))

/-- `merge_bias_tensor`, with zero as the default. -/
def mergeBiasTensor (lhs rhs : Option (List (ℕ → R))) (bs1 bs2 : ℕ) : Option (List (ℕ → R)) :=
  if lhs.isNone && rhs.isNone then none
  else some (lhs.getD (List.replicate bs1 0) ++ rhs.getD (List.replicate bs2 0))

/-- `merge_batch`, for the requests of both batches. -/
def mergeBatch (info other : SamplingBatchInfo R) (reqs otherReqs : List (Req R)) : SamplingBatchInfo R :=
  let bs1 := info.temperatures.length
  let bs2 := other.temperatures.length
  let custom := info.hasCustomLogitProcessor || other.hasCustomLogitProcessor
  { temperatures := info.temperatures ++ other.temperatures
    topPs := info.topPs ++ other.topPs
    topKs := info.topKs ++ other.topKs
    minPs := info.minPs ++ other.minPs
    samplingSeed :=
      match info.samplingSeed, other.samplingSeed with
      | some seeds, some otherSeeds => some (seeds ++ otherSeeds)
      | seeds, _ => seeds
    logitBias := mergeBiasTensor info.logitBias other.logitBias bs1 bs2
    hasCustomLogitProcessor := custom
    customLogitProcessor :=
      if custom then
        mergeCustomLogitProcessor info.customLogitProcessor other.customLogitProcessor bs1 bs2
      else info.customLogitProcessor
    customParams :=
      if custom then
        some (info.customParams.getD (List.replicate bs1 none)
          ++ other.customParams.getD (List.replicate bs2 none))
      else info.customParams
    penalizerOrchestrator := info.penalizerOrchestrator.merge other.penalizerOrchestrator reqs otherReqs }

end SamplingBatchInfo

end Sampling

end Sglang
