/-
# Penalizers

A transcription of `penaltylib`: the orchestrator of a batch and its four penalizers.  A penalizer is a
family with three members (`Penalizer`): whether a request needs it, its row for a request, and what a token
does to a row.  The batched penalizer holds one row for each request, or none while it is not prepared.

Numbers are those of a ring, without rounding, and minus infinity is `⊥`.  The scaling penalties are
kept, but what they do to logits is not modelled, and neither is the expansion of penalties for draft tokens.
-/
import Mathlib.Algebra.Order.Monoid.WithTop
import Mathlib.Data.Nat.Cast.Basic
import Sglang.Lib.Columns

namespace Sglang

open Lib Lib.Columns

namespace Sampling

/-! ## 1. Requests -/

structure SamplingParams (R : Type) where
  temperature : R
  topP : R
  topK : ℤ
  minP : R
  frequencyPenalty : R
  presencePenalty : R
  repetitionPenalty : R
  minNewTokens : ℕ := 0
  stopTokenIds : Option (List ℕ) := none
  logitBias : Option (List (ℕ × R)) := none
  samplingSeed : Option ℤ := none
  customParams : Option String := none

/-- What the rows of a batch are made of. -/
structure Req (R : Type) where
  rid : ℕ
  samplingParams : SamplingParams R
  additionalStopTokenIds : Option (List ℕ) := none
  eosTokenId : ℕ := 0
  returnLogprob : Bool := false
  topLogprobsNum : ℕ := 0
  tokenIdsLogprob : Option (List ℕ) := none
  customLogitProcessor : Option String := none

/-- The stop tokens of a request, and those of its tokenizer. -/
def Req.stopTokens {R : Type} (req : Req R) : List ℕ :=
  req.samplingParams.stopTokenIds.getD [] ++ req.additionalStopTokenIds.getD [] ++ [req.eosTokenId]

/-! ## 2. A batched penalizer -/

/-- What the subclasses of `_BatchedPenalizer` define. -/
structure Penalizer (R Row : Type) where
  isRequired : Req R → Bool
  row : Req R → Row
  cumulate : Row → ℕ → Row

/-- The rows of a penalizer that is prepared. -/
abbrev BatchedPenalizer (Row : Type) := Option (List Row)

namespace Penalizer

variable {R Row : Type} (p : Penalizer R Row)

/-- `_is_required`, for a batch. -/
def required (reqs : List (Req R)) : Bool := reqs.any p.isRequired

/-- `prepare`. -/
def prepare (reqs : List (Req R)) (batched : BatchedPenalizer Row) : List Row :=
  batched.getD (reqs.map p.row)

/-- `prepare_if_required`, of a penalizer that is not prepared. -/
def prepareIfRequired (reqs : List (Req R)) : BatchedPenalizer Row :=
  if p.required reqs then some (p.prepare reqs none) else none

/-- `cumulate_output_tokens`. -/
def cumulateOutputTokens (outputIds : List ℕ) (batched : BatchedPenalizer Row) : BatchedPenalizer Row :=
  batched.map fun rows => List.zipWith p.cumulate rows outputIds

/-- The penalizer is filtered if it is required, and torn down otherwise. -/
def filter (reqs : List (Req R)) (keepIndices : List ℕ) (batched : BatchedPenalizer Row) :
    BatchedPenalizer Row :=
  if p.required reqs then batched.map (gather · keepIndices) else none

/-- `merge`. -/
def merge (reqs theirReqs : List (Req R)) (batched their : BatchedPenalizer Row) : BatchedPenalizer Row :=
  if batched.isNone && their.isNone then none
  else some (p.prepare reqs batched ++ p.prepare theirReqs their)

end Penalizer

/-! ## 3. The four penalizers -/

/-- The penalty of a request, and what has been cumulated for each token. -/
structure PenaltyRow (R : Type) where
  penalty : R
  cumulated : ℕ → R

structure MinNewTokensRow where
  minNewTokens : ℕ
  stopTokens : List ℕ
  lenOutputTokens : ℕ

variable {R : Type} [Ring R] [DecidableEq R]

def frequencyPenalizer : Penalizer R (PenaltyRow R) where
  isRequired := fun req => req.samplingParams.frequencyPenalty ≠ 0
  row := fun req => ⟨req.samplingParams.frequencyPenalty, fun _ => 0⟩
  cumulate := fun row token =>
    { row with cumulated := Function.update row.cumulated token (row.cumulated token + row.penalty) }

def presencePenalizer : Penalizer R (PenaltyRow R) where
  isRequired := fun req => req.samplingParams.presencePenalty ≠ 0
  row := fun req => ⟨req.samplingParams.presencePenalty, fun _ => 0⟩
  cumulate := fun row token => { row with cumulated := Function.update row.cumulated token row.penalty }

def repetitionPenalizer : Penalizer R (PenaltyRow R) where
  isRequired := fun req => req.samplingParams.repetitionPenalty ≠ 1
  row := fun req => ⟨req.samplingParams.repetitionPenalty, fun _ => 1⟩
  cumulate := fun row token => { row with cumulated := Function.update row.cumulated token row.penalty }

def minNewTokensPenalizer : Penalizer R MinNewTokensRow where
  isRequired := fun req => 0 < req.samplingParams.minNewTokens
  row := fun req => ⟨req.samplingParams.minNewTokens, req.stopTokens, 0⟩
  cumulate := fun row _ => { row with lenOutputTokens := row.lenOutputTokens + 1 }

/-! ## 4. The orchestrator -/

/-- `BatchedPenalizerOrchestrator`. -/
structure Orchestrator (R : Type) where
  frequency : BatchedPenalizer (PenaltyRow R)
  minNewTokens : BatchedPenalizer MinNewTokensRow
  presence : BatchedPenalizer (PenaltyRow R)
  repetition : BatchedPenalizer (PenaltyRow R)
  isRequired : Bool

namespace Orchestrator

/-- Whether one of the penalizers is required. -/
def anyRequired (reqs : List (Req R)) : Bool :=
  frequencyPenalizer.required reqs || minNewTokensPenalizer.required reqs
    || presencePenalizer.required reqs || repetitionPenalizer.required reqs

/-- `__init__`. -/
def ofReqs (reqs : List (Req R)) : Orchestrator R where
  frequency := frequencyPenalizer.prepareIfRequired reqs
  minNewTokens := minNewTokensPenalizer.prepareIfRequired reqs
  presence := presencePenalizer.prepareIfRequired reqs
  repetition := repetitionPenalizer.prepareIfRequired reqs
  isRequired := anyRequired reqs

/-- `cumulate_output_tokens`. -/
def cumulateOutputTokens (o : Orchestrator R) (outputIds : List ℕ) : Orchestrator R :=
  { o with
    frequency := frequencyPenalizer.cumulateOutputTokens outputIds o.frequency
    minNewTokens := minNewTokensPenalizer (R := R) |>.cumulateOutputTokens outputIds o.minNewTokens
    presence := presencePenalizer.cumulateOutputTokens outputIds o.presence
    repetition := repetitionPenalizer.cumulateOutputTokens outputIds o.repetition }

/-- `filter`, for the requests that are kept. -/
def filter (o : Orchestrator R) (reqs : List (Req R)) (keepIndices : List ℕ) : Orchestrator R :=
  if !o.isRequired then o
  else if keepIndices.length = 0 then ⟨none, none, none, none, false⟩
  else
    { frequency := frequencyPenalizer.filter reqs keepIndices o.frequency
      minNewTokens := minNewTokensPenalizer.filter reqs keepIndices o.minNewTokens
      presence := presencePenalizer.filter reqs keepIndices o.presence
      repetition := repetitionPenalizer.filter reqs keepIndices o.repetition
      isRequired := anyRequired reqs }

/-- `merge`, for the requests of both batches. -/
def merge (o their : Orchestrator R) (reqs theirReqs : List (Req R)) : Orchestrator R :=
  if !o.isRequired && !their.isRequired then o
  else
    { frequency := frequencyPenalizer.merge reqs theirReqs o.frequency their.frequency
      minNewTokens := minNewTokensPenalizer.merge reqs theirReqs o.minNewTokens their.minNewTokens
      presence := presencePenalizer.merge reqs theirReqs o.presence their.presence
      repetition := repetitionPenalizer.merge reqs theirReqs o.repetition their.repetition
      isRequired := true }

end Orchestrator

/-! ## 5. Logits -/

/-- The logits of one request, token by token. -/
abbrev Logits (R : Type) := ℕ → WithBot R

/-- `_apply` of the frequency and of the presence penalizer. -/
def applyCumulated (batched : BatchedPenalizer (PenaltyRow R)) (logits : List (Logits R)) : List (Logits R) :=
  match batched with
  | none => logits
  | some rows =>
    List.zipWith (fun logit row token => logit token + ((-row.cumulated token : R) : WithBot R)) logits rows

/-- `_apply` of the penalizer of stop tokens. -/
def applyStopTokens (batched : BatchedPenalizer MinNewTokensRow) (logits : List (Logits R)) :
    List (Logits R) :=
  match batched with
  | none => logits
  | some rows =>
    List.zipWith (fun logit row token =>
      if row.lenOutputTokens < row.minNewTokens ∧ token ∈ row.stopTokens then logit token + ⊥
      else logit token) logits rows

/-- `accumulate_additive_penalties`. -/
def Orchestrator.accumulateAdditivePenalties (o : Orchestrator R) (logits : List (Logits R)) :
    List (Logits R) :=
  applyCumulated o.presence (applyStopTokens o.minNewTokens (applyCumulated o.frequency logits))

/-- What the penalizers do in `apply_logits_bias`, apart from scaling. -/
def Orchestrator.applyAdditive (o : Orchestrator R) (logits : List (Logits R)) : List (Logits R) :=
  if o.isRequired then o.accumulateAdditivePenalties logits else logits

end Sampling

end Sglang
