/-
# Rows and requests

In every run a batch that has requests has one row for each of them in every column, in order, and the row is
the request's own (`ScheduleBatch.Fits`).  The steps are taken one at a time: what each does to the rows of
one batch, and then that it leaves the other batches alone.

A batch from which all requests have been filtered keeps its columns (`rows_not_fit`); the scheduler drops
such a batch.
-/
import Sglang.Sampling.SamplingRows
import Sglang.Sampling.ScheduleBatch

namespace Sglang

open Lib Lib.Columns List Option

namespace Sampling

variable {R : Type} [Ring R] [DecidableEq R] {args : GlobalServerArgs} {states : ℕ → ReqState}

/-! ## 1. One batch -/

/-- Every column that is there has one entry for each request, and it is the request's own.  A request that
returns no logprobs may have the defaults in place of its settings. -/
structure ScheduleBatch.Fits (args : GlobalServerArgs) (states : ℕ → ReqState) (b : ScheduleBatch R) :
    Prop where
  reqPoolIndices : List.Forall₂ (fun req v => v = (states req.rid).reqPoolIdx) b.reqs b.reqPoolIndices
  seqLens : List.Forall₂ (fun req v => v = (states req.rid).kvCommittedLen) b.reqs b.seqLens
  seqLensCpu : List.Forall₂ (fun req v => v = (states req.rid).kvCommittedLen) b.reqs b.seqLensCpu
  origSeqLens : List.Forall₂ (fun req v => v = (states req.rid).origSeqLen) b.reqs b.origSeqLens
  outputIds : ∀ ids, b.outputIds = some ids →
    List.Forall₂ (fun req v => v = (states req.rid).sampled) b.reqs ids
  hasTopLogprobs : b.topLogprobsNums.isSome = b.returnLogprob
  hasTokenIds : b.tokenIdsLogprobs.isSome = b.returnLogprob
  topLogprobsNums : ∀ nums, b.topLogprobsNums = some nums → List.Forall₂
    (fun req v => v = req.topLogprobsNum ∨ req.returnLogprob = false ∧ v = 0) b.reqs nums
  tokenIdsLogprobs : ∀ ids, b.tokenIdsLogprobs = some ids → List.Forall₂
    (fun req v => v = req.tokenIdsLogprob ∨ req.returnLogprob = false ∧ v = none) b.reqs ids
  noLogprob : b.returnLogprob = false → ∀ req ∈ b.reqs, req.returnLogprob = false
  samplingInfo : b.samplingInfo.Fits args (fun rid => (states rid).cumulated) b.reqs

namespace ScheduleBatch

variable {b other : ScheduleBatch R}

omit [Ring R] [DecidableEq R] in
theorem mem_rids {req : Req R} (h : req ∈ b.reqs) : req.rid ∈ b.rids := List.mem_map_of_mem h

variable {states' : ℕ → ReqState}

/-- Only the states of its own requests matter to a batch. -/
theorem Fits.congr (h : b.Fits args states)
    (hsame : ∀ rid ∈ b.rids, states' rid = states rid) : b.Fits args states' := by
  have hreq : ∀ req ∈ b.reqs, states' req.rid = states req.rid := fun req hreq => hsame _ (mem_rids hreq)
  exact
    { h with
      reqPoolIndices := forall₂_imp_mem h.reqPoolIndices fun req hmem v hv => (hreq req hmem).symm ▸ hv
      seqLens := forall₂_imp_mem h.seqLens fun req hmem v hv => (hreq req hmem).symm ▸ hv
      seqLensCpu := forall₂_imp_mem h.seqLensCpu fun req hmem v hv => (hreq req hmem).symm ▸ hv
      origSeqLens := forall₂_imp_mem h.origSeqLens fun req hmem v hv => (hreq req hmem).symm ▸ hv
      outputIds := fun ids hids =>
        forall₂_imp_mem (h.outputIds ids hids) fun req hmem v hv => (hreq req hmem).symm ▸ hv
      samplingInfo := h.samplingInfo.congr fun req hmem => congrArg ReqState.cumulated (hreq req hmem) }

theorem fits_prepareForExtend (args : GlobalServerArgs) {entries : List (Extend R)}
    (hstates : ∀ entry ∈ entries, ∃ old : ReqState, states entry.req.rid = old.admitted entry) :
    (prepareForExtend args entries).Fits args states := by
  have hcol : ∀ {α : Type} (f : ReqState → α) (g : Extend R → α),
      (∀ (old : ReqState) entry, f (old.admitted entry) = g entry) →
      List.Forall₂ (fun req v => v = f (states req.rid)) (entries.map (·.req)) (entries.map g) := by
    intro α f g hfg
    refine forall₂_map_left_iff.mpr (forall₂_map fun entry hentry => ?_)
    obtain ⟨old, hold⟩ := hstates entry hentry
    rw [hold, hfg]
  exact
    { reqPoolIndices := hcol ReqState.reqPoolIdx _ fun _ _ => rfl
      seqLens := hcol ReqState.kvCommittedLen _ fun _ _ => rfl
      seqLensCpu := hcol ReqState.kvCommittedLen _ fun _ _ => rfl
      origSeqLens := hcol ReqState.origSeqLen _ fun _ _ => rfl
      outputIds := fun _ h => by cases h
      hasTopLogprobs := isSome_when _ _
      hasTokenIds := isSome_when _ _
      topLogprobsNums := fun nums hnums => by
        rw [(eq_of_when hnums).2]
        exact forall₂_map fun _ _ => Or.inl rfl
      tokenIdsLogprobs := fun ids hids => by
        rw [(eq_of_when hids).2]
        exact forall₂_map fun _ _ => Or.inl rfl
      noLogprob := fun hnone req hreq => Bool.eq_false_iff.mpr (List.any_eq_false.mp hnone req hreq)
      samplingInfo := SamplingBatchInfo.fits_fromScheduleBatch args fun req hreq => by
        obtain ⟨entry, hentry, rfl⟩ := List.mem_map.mp hreq
        obtain ⟨old, hold⟩ := hstates entry hentry
        rw [hold]
        rfl }

variable {α : Type} {S : Req R → α → Prop} {col : Option (List α)} {c : List α}

omit [Ring R] [DecidableEq R] in
/-- A column of logprob settings that is kept if one of the requests returns logprobs. -/
theorem forall₂_keepLogprobs {reqs : List (Req R)}
    (h : ∀ c, col = some c → List.Forall₂ S reqs c) (keepIndices : List ℕ) {returnLogprob : Bool}
    (hc : (if returnLogprob then col.map (gather · keepIndices) else none) = some c) :
    List.Forall₂ S (gather reqs keepIndices) c := by
  split at hc
  · obtain ⟨old, hold, rfl⟩ := map_eq_some_iff.mp hc
    exact forall₂_gather (h old hold) keepIndices
  · cases hc

omit [Ring R] [DecidableEq R] in
theorem isSome_keepLogprobs {reqs : List (Req R)} {has : Bool}
    (hcol : col.isSome = has) (hnone : has = false → ∀ req ∈ reqs, req.returnLogprob = false)
    (keepIndices : List ℕ) :
    (if (gather reqs keepIndices).any (·.returnLogprob) then col.map (gather · keepIndices)
      else none).isSome = (gather reqs keepIndices).any (·.returnLogprob) := by
  cases hany : (gather reqs keepIndices).any (·.returnLogprob) with
  | false => rfl
  | true =>
    rw [if_pos rfl, isSome_map, hcol]
    by_contra hoff
    obtain ⟨req, hreq, hlogprob⟩ := List.any_eq_true.mp hany
    have hfalse := hnone (Bool.not_eq_true _ ▸ hoff) req (mem_of_mem_gather hreq)
    exact absurd (hfalse.symm.trans hlogprob) Bool.false_ne_true

theorem fits_filterTo (h : b.Fits args states) (keepIndices : List ℕ) :
    (b.filterTo keepIndices).reqs = [] ∨ (b.filterTo keepIndices).Fits args states := by
  rw [filterTo]
  split
  · exact Or.inl rfl
  · rename_i hlen
    right
    split
    · exact h
    · exact
        { reqPoolIndices := forall₂_gather h.reqPoolIndices keepIndices
          seqLens := forall₂_gather h.seqLens keepIndices
          seqLensCpu := forall₂_gather h.seqLensCpu keepIndices
          origSeqLens := forall₂_gather h.origSeqLens keepIndices
          outputIds := fun ids hids => by
            obtain ⟨old, hold, rfl⟩ := map_eq_some_iff.mp hids
            exact forall₂_gather (h.outputIds old hold) keepIndices
          hasTopLogprobs := isSome_keepLogprobs h.hasTopLogprobs h.noLogprob keepIndices
          hasTokenIds := isSome_keepLogprobs h.hasTokenIds h.noLogprob keepIndices
          topLogprobsNums := fun nums hnums => forall₂_keepLogprobs h.topLogprobsNums keepIndices hnums
          tokenIdsLogprobs := fun ids hids => forall₂_keepLogprobs h.tokenIdsLogprobs keepIndices hids
          noLogprob := fun hnone req hreq => Bool.eq_false_iff.mpr (List.any_eq_false.mp hnone req hreq)
          samplingInfo := h.samplingInfo.filterBatch fun hnil => hlen (hnil ▸ rfl) }

variable {d : α} {lhs rhs : Option (List α)}

omit [Ring R] [DecidableEq R] in
theorem forall₂_mergeLogprobs
    (hlhs : ∀ c, lhs = some c → List.Forall₂ S b.reqs c) (hrhs : ∀ c, rhs = some c → List.Forall₂ S other.reqs c)
    (hhas : lhs.isSome = b.returnLogprob) (hhas' : rhs.isSome = other.returnLogprob)
    (hd : b.returnLogprob = false → ∀ req ∈ b.reqs, S req d)
    (hd' : other.returnLogprob = false → ∀ req ∈ other.reqs, S req d)
    (hc : b.mergeLogprobs other d lhs rhs = some c) : List.Forall₂ S (b.reqs ++ other.reqs) c := by
  rw [mergeLogprobs] at hc
  split at hc
  · rename_i hleft hright
    rw [hright] at hhas'
    obtain ⟨r, rfl⟩ := isSome_iff_exists.mp hhas'
    obtain ⟨l, rfl, rfl⟩ := map_eq_some_iff.mp hc
    exact forall₂_append (hlhs l rfl) (hrhs r rfl)
  · rename_i hleft hright
    obtain ⟨l, rfl, rfl⟩ := map_eq_some_iff.mp hc
    exact forall₂_append (hlhs l rfl) (forall₂_replicate (hd' hright))
  · rename_i hleft hright
    rw [hright] at hhas'
    obtain ⟨r, rfl⟩ := isSome_iff_exists.mp hhas'
    exact Option.some.inj hc ▸ forall₂_append (forall₂_replicate (hd hleft)) (hrhs r rfl)
  · rename_i hleft hright
    rw [hleft, hc] at hhas
    cases hhas

omit [Ring R] [DecidableEq R] in
theorem isSome_mergeLogprobs (hhas : lhs.isSome = b.returnLogprob) :
    (b.mergeLogprobs other d lhs rhs).isSome = (b.returnLogprob || other.returnLogprob) := by
  rw [mergeLogprobs]
  split
  · rename_i hleft hright
    rw [isSome_map, hhas, hleft]
    rfl
  · rename_i hleft hright
    rw [isSome_map, hhas, hleft]
    rfl
  · rename_i hleft hright
    rw [hleft, hright]
    rfl
  · rename_i hleft hright
    rw [hhas, hleft, hright]
    rfl

theorem fits_mergeBatch (h : b.Fits args states) (h' : other.Fits args states)
    (houtput : b.outputIds.isSome = other.outputIds.isSome) : (b.mergeBatch other).Fits args states where
  reqPoolIndices := forall₂_append h.reqPoolIndices h'.reqPoolIndices
  seqLens := forall₂_append h.seqLens h'.seqLens
  seqLensCpu := forall₂_append h.seqLensCpu h'.seqLensCpu
  origSeqLens := forall₂_append h.origSeqLens h'.origSeqLens
  outputIds := fun ids hids => by
    obtain ⟨l, hl, rfl⟩ := map_eq_some_iff.mp hids
    rw [hl] at houtput
    obtain ⟨r, hr⟩ := isSome_iff_exists.mp houtput.symm
    rw [hr]
    exact forall₂_append (h.outputIds l hl) (h'.outputIds r hr)
  hasTopLogprobs := isSome_mergeLogprobs h.hasTopLogprobs
  hasTokenIds := isSome_mergeLogprobs h.hasTokenIds
  topLogprobsNums := fun nums hnums => forall₂_mergeLogprobs h.topLogprobsNums h'.topLogprobsNums
    h.hasTopLogprobs h'.hasTopLogprobs (fun hoff req hreq => Or.inr ⟨h.noLogprob hoff req hreq, rfl⟩)
    (fun hoff req hreq => Or.inr ⟨h'.noLogprob hoff req hreq, rfl⟩) hnums
  tokenIdsLogprobs := fun ids hids => forall₂_mergeLogprobs h.tokenIdsLogprobs h'.tokenIdsLogprobs
    h.hasTokenIds h'.hasTokenIds (fun hoff req hreq => Or.inr ⟨h.noLogprob hoff req hreq, rfl⟩)
    (fun hoff req hreq => Or.inr ⟨h'.noLogprob hoff req hreq, rfl⟩) hids
  noLogprob := fun hoff req hreq => by
    obtain ⟨hleft, hright⟩ := Bool.or_eq_false_iff.mp hoff
    exact (mem_append.mp hreq).elim (h.noLogprob hleft req) (h'.noLogprob hright req)
  samplingInfo := h.samplingInfo.mergeBatch h'.samplingInfo

/-- One token for each request. -/
theorem fits_sample (h : b.Fits args states) {tokens : List ℕ}
    (htokens : List.Forall₂ (fun req v => ∃ chunked, states' req.rid = (states req.rid).sample v chunked)
      b.reqs tokens) : Fits args states' { b with outputIds := some tokens } := by
  have hreq : ∀ req ∈ b.reqs, ∃ token chunked, states' req.rid = (states req.rid).sample token chunked :=
    fun req hmem => by
      obtain ⟨token, -, chunked, hchunked⟩ := exists_mem_of_forall₂ htokens hmem
      exact ⟨token, chunked, hchunked⟩
  have hkeep : ∀ {α : Type} {f : ReqState → α} {col : List α},
      (∀ s token chunked, f (ReqState.sample s token chunked) = f s) →
      List.Forall₂ (fun req v => v = f (states req.rid)) b.reqs col →
      List.Forall₂ (fun req v => v = f (states' req.rid)) b.reqs col := by
    intro α f col hf hcol
    refine forall₂_imp_mem hcol fun req hmem v hv => ?_
    obtain ⟨token, chunked, hsample⟩ := hreq req hmem
    rw [hsample, hf]
    exact hv
  exact
    { h with
      reqPoolIndices := hkeep (f := ReqState.reqPoolIdx) (fun _ _ _ => rfl) h.reqPoolIndices
      seqLens := hkeep (f := ReqState.kvCommittedLen) (fun _ _ _ => rfl) h.seqLens
      seqLensCpu := hkeep (f := ReqState.kvCommittedLen) (fun _ _ _ => rfl) h.seqLensCpu
      origSeqLens := hkeep (f := ReqState.origSeqLen) (fun _ _ _ => rfl) h.origSeqLens
      outputIds := fun ids hids => by
        obtain rfl : tokens = ids := Option.some.inj hids
        refine htokens.imp fun req v hv => ?_
        obtain ⟨chunked, hsample⟩ := hv
        rw [hsample]
        rfl
      samplingInfo := h.samplingInfo.congr fun req hmem => by
        obtain ⟨token, chunked, hsample⟩ := hreq req hmem
        rw [hsample]
        rfl }

/-- The tokens that were sampled last are cumulated, and all lengths grow by one. -/
theorem fits_prepareForDecode (h : b.Fits args states) {outputIds : List ℕ}
    (houtput : b.outputIds = some outputIds)
    (hstates : ∀ req ∈ b.reqs, states' req.rid = (states req.rid).decode) :
    (b.prepareForDecode outputIds).Fits args states' := by
  have hgrow : ∀ {f : ReqState → ℕ} {col : List ℕ}, (∀ s, f (ReqState.decode s) = f s + 1) →
      List.Forall₂ (fun req v => v = f (states req.rid)) b.reqs col →
      List.Forall₂ (fun req v => v = f (states' req.rid)) b.reqs (col.map (· + 1)) := by
    intro f col hf hcol
    refine forall₂_map_right_iff.mpr (forall₂_imp_mem hcol fun req hmem v hv => ?_)
    rw [hstates req hmem, hf, hv]
  have hpenalizers : (b.prepareForDecode outputIds).samplingInfo.penalizerOrchestrator.Fits
      (fun rid => (states' rid).cumulated) b.reqs := by
    rw [ScheduleBatch.prepareForDecode]
    split
    · refine h.samplingInfo.penalizers.cumulate (fun rid => (states rid).sampled)
        (h.outputIds outputIds houtput) fun req hmem => ?_
      rw [hstates req hmem]
      rfl
    · rename_i hoff
      exact h.samplingInfo.penalizers.skip (Bool.eq_false_iff.mpr hoff) _
  exact
    { h with
      reqPoolIndices := forall₂_imp_mem h.reqPoolIndices fun req hmem v hv => by
        rw [hstates req hmem]
        exact hv
      seqLens := hgrow (fun _ => rfl) h.seqLens
      seqLensCpu := hgrow (fun _ => rfl) h.seqLensCpu
      origSeqLens := hgrow (fun _ => rfl) h.origSeqLens
      outputIds := fun _ hids => by cases hids
      samplingInfo := { h.samplingInfo with penalizers := hpenalizers } }

end ScheduleBatch

end Sampling

end Sglang
