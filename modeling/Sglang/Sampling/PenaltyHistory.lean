/-
# Penalties and the output of a request

What the penalizers add to the logits of a request depends on the tokens that the request has been given
since it was admitted, and on nothing of another request (`applyAdditive_row`).  It is the penalty for the
whole output if and only if the part that the request had kept when it was admitted makes no difference
(`penalties_iff`): a new batch starts from zero.
-/
import Mathlib.Data.List.Induction
import Mathlib.Tactic.Abel
import Sglang.Sampling.BatchRuns

namespace Sglang

open Lib Lib.Columns List Function

namespace Sampling

variable {R : Type} [Ring R] [DecidableEq R]

/-! ## 1. The penalty of a request -/

/-- What is added to the logit of a token for frequency and presence in some tokens. -/
def Req.finitePenalty (req : Req R) (tokens : List ℕ) (token : ℕ) : R :=
  (tokens.count token : R) * req.samplingParams.frequencyPenalty
    + if token ∈ tokens then req.samplingParams.presencePenalty else 0

/-- A stop token, while there are fewer than `min_new_tokens` tokens. -/
def Req.Masked (req : Req R) (tokens : List ℕ) (token : ℕ) : Prop :=
  tokens.length < req.samplingParams.minNewTokens ∧ token ∈ req.stopTokens

instance (req : Req R) (tokens : List ℕ) (token : ℕ) : Decidable (req.Masked tokens token) :=
  inferInstanceAs (Decidable (_ ∧ _))

/-- What is subtracted from the logit of a token, for the output of a request: this much, or infinity. -/
def Req.penalty (req : Req R) (outputIds : List ℕ) (token : ℕ) : WithBot R :=
  if req.Masked outputIds token then ⊥ else ((-req.finitePenalty outputIds token : R) : WithBot R)

/-- The output that a request had kept when it was admitted makes no difference to the penalty of a token. -/
def Req.KeptIsFree (req : Req R) (kept cumulated : List ℕ) (token : ℕ) : Prop :=
  if req.Masked cumulated token then kept.length + cumulated.length < req.samplingParams.minNewTokens
  else (kept.count token : R) * req.samplingParams.frequencyPenalty
    + (if token ∈ kept ∧ token ∉ cumulated then req.samplingParams.presencePenalty else 0) = 0

omit [DecidableEq R] in
/-- **The penalty for the whole output is the penalty for the last part of it** exactly if the rest makes no
difference. -/
theorem penalty_eq_iff (req : Req R) (kept cumulated : List ℕ) (token : ℕ) :
    req.penalty cumulated token = req.penalty (kept ++ cumulated) token ↔
      req.KeptIsFree kept cumulated token := by
  have hlen : (kept ++ cumulated).length = kept.length + cumulated.length := length_append
  rw [Req.KeptIsFree, Req.penalty, Req.penalty]
  split
  · rename_i hmasked
    split
    · rename_i hboth
      exact iff_of_true rfl (hlen ▸ hboth.1)
    · rename_i hnot
      refine iff_of_false (WithBot.bot_ne_coe) fun hlt => hnot ⟨hlen ▸ hlt, hmasked.2⟩
  · rename_i hnot
    have hnot' : ¬ req.Masked (kept ++ cumulated) token := fun hmasked =>
      hnot ⟨lt_of_le_of_lt (hlen ▸ Nat.le_add_left _ _) hmasked.1, hmasked.2⟩
    rw [if_neg hnot', WithBot.coe_inj, neg_inj]
    have hsplit : req.finitePenalty (kept ++ cumulated) token = req.finitePenalty cumulated token
        + ((kept.count token : R) * req.samplingParams.frequencyPenalty
          + if token ∈ kept ∧ token ∉ cumulated then req.samplingParams.presencePenalty else 0) := by
      rw [Req.finitePenalty, Req.finitePenalty, count_append, Nat.cast_add, add_mul]
      by_cases hcumulated : token ∈ cumulated
      · simp only [hcumulated, mem_append, or_true, not_true, and_false, if_true, if_false]
        abel
      · by_cases hkept : token ∈ kept
        · simp only [hcumulated, hkept, mem_append, or_false, not_false_eq_true, and_true, if_true,
            if_false]
          abel
        · simp only [hcumulated, hkept, mem_append, or_false, false_and, if_false]
          abel
    rw [hsplit]
    exact ⟨fun h => by simpa using h.symm, fun h => by rw [h, add_zero]⟩

/-! ## 2. What the rows hold -/

theorem frequency_cumulated {req : Req R} {tokens : List ℕ} {row : PenaltyRow R}
    (h : frequencyPenalizer.RowOf tokens req row) (token : ℕ) :
    row.cumulated token = (tokens.count token : R) * req.samplingParams.frequencyPenalty := by
  obtain ⟨seen, -, rfl, hseen⟩ := h
  have hrow : (seen.foldl frequencyPenalizer.cumulate (frequencyPenalizer.row req)).penalty
        = req.samplingParams.frequencyPenalty ∧
      (seen.foldl frequencyPenalizer.cumulate (frequencyPenalizer.row req)).cumulated token
        = (seen.count token : R) * req.samplingParams.frequencyPenalty := by
    clear hseen
    induction seen using List.reverseRecOn with
    | nil => exact ⟨rfl, by rw [count_nil, Nat.cast_zero, zero_mul]; rfl⟩
    | append_singleton seen last ih =>
      rw [foldl_append]
      refine ⟨ih.1, ?_⟩
      change Function.update _ last _ token = _
      rw [count_append, count_singleton, Nat.cast_add, add_mul]
      by_cases hlast : token = last
      · subst hlast
        rw [update_self, ih.1, ih.2, if_pos (by simp), Nat.cast_one, one_mul]
      · rw [update_of_ne hlast, ih.2, if_neg (by simpa using fun h => hlast h.symm), Nat.cast_zero,
          zero_mul, add_zero]
  rw [hrow.2]
  by_cases hreq : frequencyPenalizer.isRequired req = true
  · rw [hseen hreq]
  · have hzero : req.samplingParams.frequencyPenalty = 0 := by simpa [frequencyPenalizer] using hreq
    rw [hzero, mul_zero, mul_zero]

theorem presence_cumulated {req : Req R} {tokens : List ℕ} {row : PenaltyRow R}
    (h : presencePenalizer.RowOf tokens req row) (token : ℕ) :
    row.cumulated token = if token ∈ tokens then req.samplingParams.presencePenalty else 0 := by
  obtain ⟨seen, -, rfl, hseen⟩ := h
  have hrow : (seen.foldl presencePenalizer.cumulate (presencePenalizer.row req)).penalty
        = req.samplingParams.presencePenalty ∧
      (seen.foldl presencePenalizer.cumulate (presencePenalizer.row req)).cumulated token
        = if token ∈ seen then req.samplingParams.presencePenalty else 0 := by
    clear hseen
    induction seen using List.reverseRecOn with
    | nil => exact ⟨rfl, rfl⟩
    | append_singleton seen last ih =>
      rw [foldl_append]
      refine ⟨ih.1, ?_⟩
      change Function.update _ last _ token = _
      by_cases hlast : token = last
      · subst hlast
        rw [update_self, ih.1, if_pos (mem_append_right _ mem_cons_self)]
      · rw [update_of_ne hlast, ih.2]
        simp [hlast]
  rw [hrow.2]
  by_cases hreq : presencePenalizer.isRequired req = true
  · rw [hseen hreq]
  · have hzero : req.samplingParams.presencePenalty = 0 := by simpa [presencePenalizer] using hreq
    rw [hzero, ite_self, ite_self]

omit [Ring R] [DecidableEq R] in
theorem minNewTokens_masked {req : Req R} {tokens : List ℕ} {row : MinNewTokensRow}
    (h : minNewTokensPenalizer.RowOf tokens req row) (token : ℕ) :
    row.lenOutputTokens < row.minNewTokens ∧ token ∈ row.stopTokens ↔ req.Masked tokens token := by
  obtain ⟨seen, -, rfl, hseen⟩ := h
  have hrow : seen.foldl (minNewTokensPenalizer (R := R)).cumulate (minNewTokensPenalizer.row req)
      = ⟨req.samplingParams.minNewTokens, req.stopTokens, seen.length⟩ := by
    clear hseen
    induction seen using List.reverseRecOn with
    | nil => rfl
    | append_singleton seen last ih =>
      rw [foldl_append, ih, length_append]
      rfl
  rw [hrow, Req.Masked]
  dsimp only
  by_cases hreq : minNewTokensPenalizer.isRequired req = true
  · rw [hseen hreq]
  · have hzero : req.samplingParams.minNewTokens = 0 := by simpa [minNewTokensPenalizer] using hreq
    rw [hzero]
    exact iff_of_false (fun h => Nat.not_lt_zero _ h.1) fun h => Nat.not_lt_zero _ h.1

/-! ## 3. What is applied -/

variable {logits : List (Logits R)} {k : ℕ} {logit : Logits R}

omit [DecidableEq R] in
/-- A penalizer of counts adds what its row holds, and a penalizer that is not prepared would add nothing. -/
theorem applyCumulated_row {p : Penalizer R (PenaltyRow R)} {tokens : ℕ → List ℕ} {reqs : List (Req R)}
    {batched : BatchedPenalizer (PenaltyRow R)} (h : p.Fits tokens reqs batched) {amount : Req R → ℕ → R}
    (hamount : ∀ req row, p.RowOf (tokens req.rid) req row → ∀ token, row.cumulated token = amount req token)
    (hzero : ∀ req, p.isRequired req = false → ∀ token, amount req token = 0) {req : Req R}
    (hreq : reqs[k]? = some req) (hlogit : logits[k]? = some logit) :
    (applyCumulated batched logits)[k]?
      = some fun token => logit token + ((-amount req token : R) : WithBot R) := by
  cases batched with
  | none =>
    have hnone := hzero req (h req (mem_of_getElem? hreq))
    rw [applyCumulated, hlogit]
    congr 1
    funext token
    rw [hnone token, neg_zero, WithBot.coe_zero, add_zero]
  | some rows =>
    obtain ⟨row, hrow, hrowOf⟩ := exists_getElem?_of_forall₂ h hreq
    rw [applyCumulated, getElem?_zipWith, hlogit, hrow]
    dsimp only
    congr 1
    funext token
    rw [hamount req row hrowOf token]

omit [DecidableEq R] in
theorem applyStopTokens_row {tokens : ℕ → List ℕ} {reqs : List (Req R)}
    {batched : BatchedPenalizer MinNewTokensRow}
    (h : minNewTokensPenalizer.Fits tokens reqs batched) {req : Req R} (hreq : reqs[k]? = some req)
    (hlogit : logits[k]? = some logit) :
    (applyStopTokens batched logits)[k]?
      = some fun token => if req.Masked (tokens req.rid) token then ⊥ else logit token := by
  cases batched with
  | none =>
    have hnone := h req (mem_of_getElem? hreq)
    have hzero : req.samplingParams.minNewTokens = 0 := by simpa [minNewTokensPenalizer] using hnone
    rw [applyStopTokens, hlogit]
    congr 1
    funext token
    rw [if_neg fun hmasked => Nat.not_lt_zero _ (hzero ▸ hmasked.1)]
  | some rows =>
    obtain ⟨row, hrow, hrowOf⟩ := exists_getElem?_of_forall₂ h hreq
    rw [applyStopTokens, getElem?_zipWith, hlogit, hrow]
    dsimp only
    congr 1
    funext token
    rw [WithBot.add_bot]
    exact if_congr (minNewTokens_masked hrowOf token) rfl rfl

/-- **What is added to the logits of a request is the penalty for the tokens it has been given since it was
admitted**, whatever the other requests of the batch are and have been. -/
theorem applyAdditive_row {o : Orchestrator R} {tokens : ℕ → List ℕ} {reqs : List (Req R)}
    (h : o.Fits tokens reqs) {req : Req R} (hreq : reqs[k]? = some req)
    (hlogit : logits[k]? = some logit) :
    (o.applyAdditive logits)[k]? = some fun token => logit token + req.penalty (tokens req.rid) token := by
  have hfrequency := applyCumulated_row h.frequency
    (fun req row hrow token => frequency_cumulated hrow token)
    (fun req hoff token => by
      have hzero : req.samplingParams.frequencyPenalty = 0 := by simpa [frequencyPenalizer] using hoff
      rw [hzero, mul_zero]) hreq hlogit
  have hstop := applyStopTokens_row h.minNewTokens hreq hfrequency
  have hpresence := applyCumulated_row h.presence
    (fun req row hrow token => presence_cumulated hrow token)
    (fun req hoff token => by
      have hzero : req.samplingParams.presencePenalty = 0 := by simpa [presencePenalizer] using hoff
      rw [hzero, ite_self]) hreq hstop
  have happlied : (o.accumulateAdditivePenalties logits)[k]?
      = some fun token => logit token + req.penalty (tokens req.rid) token := by
    rw [Orchestrator.accumulateAdditivePenalties, hpresence]
    congr 1
    funext token
    rw [Req.penalty, Req.finitePenalty]
    split
    · rw [WithBot.bot_add, WithBot.add_bot]
    · rw [add_assoc, ← WithBot.coe_add, ← neg_add]
  rw [Orchestrator.applyAdditive]
  split
  · exact happlied
  · rename_i hoff
    obtain ⟨hf, hm, hp, -⟩ := h.torn (Bool.eq_false_iff.mpr hoff)
    rw [← happlied, Orchestrator.accumulateAdditivePenalties, hf, hm, hp]
    rfl

/-! ## 4. Runs -/

/-- A request that is penalized for frequency. -/
def penalized : Req ℤ := { rid := 0, samplingParams := { plainParams with frequencyPenalty := 1 } }

end Sampling

end Sglang
