/-
# The columns of a batch

The columns that a batch is sampled with have one entry for each request, in order, and the entry is the
request's own (`SamplingBatchInfo.Fits`): when they are made, when they are filtered, and when they are
merged, whichever of them one of the batches is without.
-/
import Mathlib.Data.List.Dedup
import Sglang.Sampling.SamplingBatchInfo

namespace Sglang

open Lib Lib.Columns List Option

namespace Sampling

variable {R : Type}

/-! ## 1. Custom logit processors -/

/-- One mask for each processor that is used, and an entry for each request in each of them. -/
structure ProcessorsFit (reqs : List (Req R)) (processors : List (String × List Bool)) : Prop where
  keys : (processors.map (·.1)).Nodup
  masks : ∀ entry ∈ processors, List.Forall₂
    (fun req used => used = decide (req.customLogitProcessor = some entry.1)) reqs entry.2
  used : ∀ req ∈ reqs, ∀ k, req.customLogitProcessor = some k → k ∈ processors.map (·.1)

namespace ProcessorsFit

variable {reqs otherReqs : List (Req R)}

theorem of_reqs (reqs : List (Req R)) :
    ProcessorsFit reqs ((reqs.filterMap (·.customLogitProcessor)).dedup.map fun k =>
      (k, processorMask reqs k)) where
  keys := by
    rw [List.map_map]
    exact (List.map_id' _).symm ▸ nodup_dedup _
  masks := fun entry hentry => by
    obtain ⟨k, -, rfl⟩ := List.mem_map.mp hentry
    exact forall₂_map fun _ _ => rfl
  used := fun req hreq k hk => by
    rw [List.map_map]
    exact List.mem_map.mpr ⟨k, mem_dedup.mpr (mem_filterMap.mpr ⟨req, hreq, hk⟩), rfl⟩

/-- A processor is dropped when none of the requests that are kept uses it. -/
theorem filter {processors : List (String × List Bool)} (h : ProcessorsFit reqs processors)
    (keepIndices : List ℕ) :
    ProcessorsFit (gather reqs keepIndices) (SamplingBatchInfo.filterProcessors processors keepIndices) := by
  have hmasks : ∀ entry ∈ processors, List.Forall₂
      (fun req used => used = decide (req.customLogitProcessor = some entry.1)) (gather reqs keepIndices)
      (gather entry.2 keepIndices) := fun entry hentry => forall₂_gather (h.masks entry hentry) keepIndices
  refine ⟨?_, fun entry hentry => ?_, fun req hreq k hk => ?_⟩
  · have hsub : ((SamplingBatchInfo.filterProcessors processors keepIndices).map (·.1)).Sublist
        ((processors.map fun entry => (entry.1, gather entry.2 keepIndices)).map (·.1)) :=
      filter_sublist.map _
    rw [List.map_map] at hsub
    exact h.keys.sublist hsub
  · obtain ⟨old, hold, rfl⟩ := List.mem_map.mp (mem_filter.mp hentry).1
    exact hmasks old hold
  · obtain ⟨entry, hentry, rfl⟩ := List.mem_map.mp (h.used req (mem_of_mem_gather hreq) k hk)
    obtain ⟨used, hmem, hused⟩ := exists_mem_of_forall₂ (hmasks entry hentry) hreq
    refine List.mem_map.mpr ⟨(entry.1, gather entry.2 keepIndices), mem_filter.mpr
      ⟨List.mem_map_of_mem hentry, List.any_eq_true.mpr ⟨used, hmem, ?_⟩⟩, rfl⟩
    rw [hused, hk]
    exact decide_eq_true rfl

/-- The mask of a processor, or the default of requests none of which uses it. -/
theorem mask {processors : List (String × List Bool)} (h : ProcessorsFit reqs processors) (k : String) :
    List.Forall₂ (fun req used => used = decide (req.customLogitProcessor = some k)) reqs
      ((processors.lookup k).getD (List.replicate reqs.length false)) := by
  rcases hlookup : processors.lookup k with _ | mask
  · refine forall₂_replicate fun req hreq => (decide_eq_false fun hk => ?_).symm
    exact AssocList.lookup_eq_none_iff.mp hlookup (h.used req hreq k hk)
  · exact h.masks (k, mask) (AssocList.mem_of_lookup hlookup)

theorem merge {lhs rhs : List (String × List Bool)} (h : ProcessorsFit reqs lhs)
    (h' : ProcessorsFit otherReqs rhs) :
    ProcessorsFit (reqs ++ otherReqs) ((lhs.map (·.1) ++ rhs.map (·.1)).dedup.map fun k =>
      (k, (lhs.lookup k).getD (List.replicate reqs.length false)
        ++ (rhs.lookup k).getD (List.replicate otherReqs.length false))) where
  keys := by
    rw [List.map_map]
    exact (List.map_id' _).symm ▸ nodup_dedup _
  masks := fun entry hentry => by
    obtain ⟨k, -, rfl⟩ := List.mem_map.mp hentry
    exact forall₂_append (h.mask k) (h'.mask k)
  used := fun req hreq k hk => by
    rw [List.map_map]
    refine List.mem_map.mpr ⟨k, mem_dedup.mpr (mem_append.mpr ?_), rfl⟩
    exact (mem_append.mp hreq).imp (fun hreq => h.used req hreq k hk) fun hreq =>
      h'.used req hreq k hk

theorem nil (hnone : ∀ req ∈ reqs, req.customLogitProcessor = none) : ProcessorsFit reqs [] where
  keys := nodup_nil
  masks := fun _ h => absurd h not_mem_nil
  used := fun req hreq k hk => absurd ((hnone req hreq).symm.trans hk) (some_ne_none k).symm

end ProcessorsFit

/-- The masks and parameters of a batch are there if one of its requests uses a processor.  A request that
uses none may have no parameters in its place. -/
structure CustomFits (args : GlobalServerArgs) (reqs : List (Req R)) (hasCustomLogitProcessor : Bool)
    (customLogitProcessor : Option (List (String × List Bool)))
    (customParams : Option (List (Option String))) : Prop where
  hasProcessor : customLogitProcessor.isSome = hasCustomLogitProcessor
  hasParams : customParams.isSome = hasCustomLogitProcessor
  enabled : hasCustomLogitProcessor = true → args.enableCustomLogitProcessor = true
  processors : ∀ processors, customLogitProcessor = some processors → ProcessorsFit reqs processors
  noProcessor : customLogitProcessor = none → args.enableCustomLogitProcessor = true →
    ∀ req ∈ reqs, req.customLogitProcessor = none
  params : ∀ params, customParams = some params → List.Forall₂
    (fun req v => v = req.samplingParams.customParams ∨ req.customLogitProcessor = none ∧ v = none) reqs params

namespace CustomFits

variable {args : GlobalServerArgs} {reqs otherReqs : List (Req R)} {has : Bool}
  {processors : Option (List (String × List Bool))} {params : Option (List (Option String))}

/-- The masks of a batch in which processors may be used. -/
theorem processorsFit (h : CustomFits args reqs has processors params)
    (henabled : args.enableCustomLogitProcessor = true) : ProcessorsFit reqs (processors.getD []) := by
  rcases hnone : processors with _ | l
  · exact ProcessorsFit.nil (h.noProcessor hnone henabled)
  · exact h.processors l hnone

theorem of_false (h : CustomFits args reqs false processors params) : processors = none ∧ params = none :=
  ⟨isNone_iff_eq_none.mp (isSome_eq_false_iff.mp h.hasProcessor),
    isNone_iff_eq_none.mp (isSome_eq_false_iff.mp h.hasParams)⟩

theorem none (hnone : args.enableCustomLogitProcessor = true → ∀ req ∈ reqs, req.customLogitProcessor = none) :
    CustomFits args reqs false none none where
  hasProcessor := rfl
  hasParams := rfl
  enabled := fun h => by cases h
  processors := fun _ h => by cases h
  noProcessor := fun _ => hnone
  params := fun _ h => by cases h

theorem some {l : List (String × List Bool)} {c : List (Option String)}
    (henabled : args.enableCustomLogitProcessor = true) (hl : ProcessorsFit reqs l)
    (hc : List.Forall₂ (fun req v =>
      v = req.samplingParams.customParams ∨ req.customLogitProcessor = Option.none ∧ v = Option.none) reqs c) :
    CustomFits args reqs true (Option.some l) (Option.some c) where
  hasProcessor := rfl
  hasParams := rfl
  enabled := fun _ => henabled
  processors := fun _ h => Option.some.inj h ▸ hl
  noProcessor := fun h => by cases h
  params := fun _ h => Option.some.inj h ▸ hc

end CustomFits

/-! ## 2. All columns -/

variable [Ring R] [DecidableEq R]

/-- Every column has one entry for each request, and it is the request's own. -/
structure SamplingBatchInfo.Fits (args : GlobalServerArgs) (tokens : ℕ → List ℕ) (reqs : List (Req R))
    (info : SamplingBatchInfo R) : Prop where
  temperatures : List.Forall₂ (fun req v => v = req.samplingParams.temperature) reqs info.temperatures
  topPs : List.Forall₂ (fun req v => v = req.samplingParams.topP) reqs info.topPs
  topKs : List.Forall₂ (fun req v => v = req.samplingParams.topK) reqs info.topKs
  minPs : List.Forall₂ (fun req v => v = req.samplingParams.minP) reqs info.minPs
  penalizers : info.penalizerOrchestrator.Fits tokens reqs
  custom : CustomFits args reqs info.hasCustomLogitProcessor info.customLogitProcessor info.customParams
  hasSeed : info.samplingSeed.isSome = args.enableDeterministicInference
  samplingSeed : ∀ seeds, info.samplingSeed = some seeds → List.Forall₂ (fun req v => v = req.seed) reqs seeds
  logitBias : ∀ rows, info.logitBias = some rows → List.Forall₂ (fun req v => v = req.biasRow) reqs rows
  noBias : info.logitBias = none → ∀ req ∈ reqs, req.samplingParams.logitBias = none

namespace SamplingBatchInfo

variable {args : GlobalServerArgs} {tokens : ℕ → List ℕ} {reqs otherReqs : List (Req R)}
  {info other : SamplingBatchInfo R}

theorem Fits.congr {tokens' : ℕ → List ℕ} (h : info.Fits args tokens reqs)
    (hsame : ∀ req ∈ reqs, tokens' req.rid = tokens req.rid) : info.Fits args tokens' reqs :=
  { h with penalizers := h.penalizers.congr hsame }

/-- **The columns of a new batch.** -/
theorem fits_fromScheduleBatch (args : GlobalServerArgs) (hnil : ∀ req ∈ reqs, tokens req.rid = []) :
    (fromScheduleBatch args reqs).Fits args tokens reqs where
  temperatures := forall₂_map fun _ _ => rfl
  topPs := forall₂_map fun _ _ => rfl
  topKs := forall₂_map fun _ _ => rfl
  minPs := forall₂_map fun _ _ => rfl
  penalizers := Orchestrator.fits_ofReqs hnil
  custom :=
    { hasProcessor := isSome_when _ _
      hasParams := isSome_when _ _
      enabled := fun hon => ((Bool.and_eq_true _ _).mp hon).1
      processors := fun processors hprocessors => by
        rw [(eq_of_when hprocessors).2]
        exact ProcessorsFit.of_reqs reqs
      noProcessor := fun hnone henabled req hreq => by
        have hany := eq_false_of_when hnone
        rw [henabled] at hany
        exact not_isSome_iff_eq_none.mp (List.any_eq_false.mp hany req hreq)
      params := fun params hparams => by
        rw [(eq_of_when hparams).2]
        exact forall₂_map fun _ _ => Or.inl rfl }
  hasSeed := isSome_when _ _
  samplingSeed := fun seeds hseeds => by
    rw [(eq_of_when hseeds).2]
    exact forall₂_map fun _ _ => rfl
  logitBias := fun rows hrows => by
    rw [(eq_of_when hrows).2]
    exact forall₂_map fun _ _ => rfl
  noBias := fun hnone req hreq => by
    have hany := eq_false_of_when hnone
    exact not_isSome_iff_eq_none.mp (List.any_eq_false.mp hany req hreq)

/-- The masks and parameters of the requests that are kept. -/
theorem customFits_filterBatch (h : info.Fits args tokens reqs) (keepIndices : List ℕ) :
    CustomFits args (gather reqs keepIndices)
      (info.filterBatch (gather reqs keepIndices) keepIndices).hasCustomLogitProcessor
      (info.filterBatch (gather reqs keepIndices) keepIndices).customLogitProcessor
      (info.filterBatch (gather reqs keepIndices) keepIndices).customParams := by
  rw [SamplingBatchInfo.filterBatch]
  split
  · rename_i hhas
    have hcustom := h.custom
    rw [hhas] at hcustom
    have henabled := hcustom.enabled rfl
    have hfit := (hcustom.processorsFit henabled).filter keepIndices
    obtain ⟨params, hparams⟩ := isSome_iff_exists.mp hcustom.hasParams
    rw [filterBatchCustomLogitProcessor]
    split
    · rename_i hnil
      rw [hnil] at hfit
      exact CustomFits.none fun _ req hreq => eq_none_iff_forall_ne_some.mpr fun k hk =>
        absurd (hfit.used req hreq k hk) not_mem_nil
    · dsimp only
      rw [hhas, hparams]
      exact CustomFits.some henabled hfit (forall₂_gather (hcustom.params params hparams) keepIndices)
  · rename_i hhas
    have hcustom := h.custom
    rw [Bool.eq_false_iff.mpr hhas] at hcustom ⊢
    obtain ⟨hprocessors, hparams⟩ := hcustom.of_false
    rw [hprocessors, hparams]
    exact CustomFits.none fun henabled req hreq =>
      hcustom.noProcessor hprocessors henabled req (mem_of_mem_gather hreq)

/-- **Filtering keeps the columns of the requests that are kept.** -/
theorem Fits.filterBatch (h : info.Fits args tokens reqs) {keepIndices : List ℕ} (hkeep : keepIndices ≠ []) :
    (info.filterBatch (gather reqs keepIndices) keepIndices).Fits args tokens (gather reqs keepIndices) := by
  have hcustom := customFits_filterBatch h keepIndices
  have hsame : ∃ has processors params, info.filterBatch (gather reqs keepIndices) keepIndices =
      { temperatures := gather info.temperatures keepIndices
        topPs := gather info.topPs keepIndices
        topKs := gather info.topKs keepIndices
        minPs := gather info.minPs keepIndices
        penalizerOrchestrator := info.penalizerOrchestrator.filter (gather reqs keepIndices) keepIndices
        hasCustomLogitProcessor := has
        customParams := params
        customLogitProcessor := processors
        samplingSeed := info.samplingSeed.map (gather · keepIndices)
        logitBias := info.logitBias.map (gather · keepIndices) } := by
    rw [SamplingBatchInfo.filterBatch, filterBatchCustomLogitProcessor]
    split
    · split
      · exact ⟨_, _, _, rfl⟩
      · exact ⟨_, _, _, rfl⟩
    · exact ⟨_, _, _, rfl⟩
  obtain ⟨has, processors, params, hsame⟩ := hsame
  rw [hsame] at hcustom ⊢
  exact
    { temperatures := forall₂_gather h.temperatures keepIndices
      topPs := forall₂_gather h.topPs keepIndices
      topKs := forall₂_gather h.topKs keepIndices
      minPs := forall₂_gather h.minPs keepIndices
      penalizers := h.penalizers.filter hkeep
      custom := hcustom
      hasSeed := isSome_map.trans h.hasSeed
      samplingSeed := fun seeds hseeds => by
        obtain ⟨old, hold, rfl⟩ := map_eq_some_iff.mp hseeds
        exact forall₂_gather (h.samplingSeed old hold) keepIndices
      logitBias := fun rows hrows => by
        obtain ⟨old, hold, rfl⟩ := map_eq_some_iff.mp hrows
        exact forall₂_gather (h.logitBias old hold) keepIndices
      noBias := fun hnone req hreq =>
        h.noBias (map_eq_none_iff.mp hnone) req (mem_of_mem_gather hreq) }

omit [DecidableEq R] in
theorem biasRow_of_none {req : Req R} (h : req.samplingParams.logitBias = none) : req.biasRow = 0 := by
  rw [Req.biasRow, h]
  rfl

theorem customFits_mergeBatch (h : info.Fits args tokens reqs) (h' : other.Fits args tokens otherReqs) :
    CustomFits args (reqs ++ otherReqs) (info.mergeBatch other reqs otherReqs).hasCustomLogitProcessor
      (info.mergeBatch other reqs otherReqs).customLogitProcessor
      (info.mergeBatch other reqs otherReqs).customParams := by
  have hlen : info.temperatures.length = reqs.length := h.temperatures.length_eq.symm
  have hlen' : other.temperatures.length = otherReqs.length := h'.temperatures.length_eq.symm
  rw [mergeBatch]
  split
  · rename_i hhas
    have henabled : args.enableCustomLogitProcessor = true :=
      ((Bool.or_eq_true _ _).mp hhas).elim h.custom.enabled h'.custom.enabled
    have hsome : (info.customLogitProcessor.isNone && other.customLogitProcessor.isNone) = false := by
      rw [← h.custom.hasProcessor, ← h'.custom.hasProcessor] at hhas
      rw [← not_isSome, ← not_isSome, ← Bool.not_or, hhas]
      rfl
    have hnone : ∀ {reqs : List (Req R)} {info : SamplingBatchInfo R}, info.Fits args tokens reqs →
        info.customParams = none → ∀ req ∈ reqs,
          (none : Option String) = req.samplingParams.customParams ∨
            req.customLogitProcessor = none ∧ (none : Option String) = none := by
      intro reqs info h hparams req hreq
      have hhas : info.hasCustomLogitProcessor = false := by
        rw [← h.custom.hasParams, hparams]
        rfl
      have hcustom := h.custom
      rw [hhas] at hcustom
      exact Or.inr ⟨h.custom.noProcessor hcustom.of_false.1 henabled req hreq, rfl⟩
    rw [hhas, mergeCustomLogitProcessor, hsome, hlen, hlen']
    refine CustomFits.some henabled
      ((h.custom.processorsFit henabled).merge (h'.custom.processorsFit henabled)) ?_
    exact forall₂_append (forall₂_getD rfl h.custom.params (hnone h))
      (forall₂_getD rfl h'.custom.params (hnone h'))
  · rename_i hhas
    have hhas := Bool.eq_false_iff.mpr hhas
    obtain ⟨hleft, hright⟩ := Bool.or_eq_false_iff.mp hhas
    have hcustom := h.custom
    have hcustom' := h'.custom
    rw [hleft] at hcustom
    rw [hright] at hcustom'
    rw [hhas, hcustom.of_false.1, hcustom.of_false.2]
    exact CustomFits.none fun henabled req hreq => (mem_append.mp hreq).elim
      (h.custom.noProcessor hcustom.of_false.1 henabled req)
      (h'.custom.noProcessor hcustom'.of_false.1 henabled req)

/-- **Merging puts the columns behind one another**, with defaults for what one of the batches is without. -/
theorem Fits.mergeBatch (h : info.Fits args tokens reqs) (h' : other.Fits args tokens otherReqs) :
    (info.mergeBatch other reqs otherReqs).Fits args tokens (reqs ++ otherReqs) where
  temperatures := forall₂_append h.temperatures h'.temperatures
  topPs := forall₂_append h.topPs h'.topPs
  topKs := forall₂_append h.topKs h'.topKs
  minPs := forall₂_append h.minPs h'.minPs
  penalizers := h.penalizers.merge h'.penalizers
  custom := customFits_mergeBatch h h'
  hasSeed := by
    rw [SamplingBatchInfo.mergeBatch]
    dsimp only
    rw [← h.hasSeed]
    split
    · rename_i hseeds _
      rw [hseeds]
      rfl
    · rfl
  samplingSeed := fun seeds hseeds => by
    rw [SamplingBatchInfo.mergeBatch] at hseeds
    dsimp only at hseeds
    split at hseeds
    · rename_i hleft hright
      exact Option.some.inj hseeds ▸ forall₂_append (h.samplingSeed _ hleft) (h'.samplingSeed _ hright)
    · rename_i hnot
      have hsome : other.samplingSeed.isSome = true := by
        rw [h'.hasSeed, ← h.hasSeed, hseeds]
        rfl
      obtain ⟨seeds', hseeds'⟩ := isSome_iff_exists.mp hsome
      exact (hnot seeds seeds' hseeds hseeds').elim
  logitBias := fun rows hrows => by
    rw [SamplingBatchInfo.mergeBatch] at hrows
    dsimp only at hrows
    rw [mergeBiasTensor] at hrows
    split at hrows
    · cases hrows
    · rw [← Option.some.inj hrows]
      exact forall₂_append
        (forall₂_getD h.temperatures.length_eq.symm h.logitBias fun hnone req hreq =>
          (biasRow_of_none (h.noBias hnone req hreq)).symm)
        (forall₂_getD h'.temperatures.length_eq.symm h'.logitBias fun hnone req hreq =>
          (biasRow_of_none (h'.noBias hnone req hreq)).symm)
  noBias := fun hnone req hreq => by
    rw [SamplingBatchInfo.mergeBatch] at hnone
    dsimp only at hnone
    rw [mergeBiasTensor] at hnone
    split at hnone
    · rename_i hboth
      rw [Bool.and_eq_true, isNone_iff_eq_none, isNone_iff_eq_none] at hboth
      exact (mem_append.mp hreq).elim (h.noBias hboth.1 req) (h'.noBias hboth.2 req)
    · cases hnone

end SamplingBatchInfo

end Sampling

end Sglang
