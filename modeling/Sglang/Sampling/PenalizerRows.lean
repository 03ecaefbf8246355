/-
# Rows of penalizers

The row of a request in a batched penalizer is what the tokens of the request make of its first row.  A
penalizer that is prepared late has not seen all of them, but then none of its requests needs it
(`Penalizer.RowOf`).
-/
import Sglang.Sampling.Penalizers

namespace Sglang

open Lib Lib.Columns List

namespace Sampling

variable {R Row : Type}

/-! ## 1. One penalizer -/

variable {tokens' : ℕ → List ℕ}

namespace Penalizer

variable {p : Penalizer R Row}

/-- The row of a request that has been given these tokens.  A row that the request does not need may have
been given only the last of them. -/
def RowOf (p : Penalizer R Row) (tokens : List ℕ) (req : Req R) (row : Row) : Prop :=
  ∃ seen, seen <:+ tokens ∧ row = seen.foldl p.cumulate (p.row req) ∧
    (p.isRequired req = true → seen = tokens)

/-- One row for each request, or no request that needs one. -/
def Fits (p : Penalizer R Row) (tokens : ℕ → List ℕ) (reqs : List (Req R))
    (batched : BatchedPenalizer Row) : Prop :=
  match batched with
  | none => ∀ req ∈ reqs, p.isRequired req = false
  | some rows => List.Forall₂ (fun req row => p.RowOf (tokens req.rid) req row) reqs rows

theorem not_required_iff {reqs : List (Req R)} :
    p.required reqs = false ↔ ∀ req ∈ reqs, p.isRequired req = false := by
  rw [required, any_eq_false]
  exact forall₂_congr fun _ _ => Bool.eq_false_iff.symm

theorem rowOf_nil (p : Penalizer R Row) (req : Req R) : p.RowOf [] req (p.row req) :=
  ⟨[], suffix_refl _, rfl, fun _ => rfl⟩

theorem rowOf_of_not_required {req : Req R} (h : p.isRequired req = false) (tokens : List ℕ) :
    p.RowOf tokens req (p.row req) :=
  ⟨[], nil_suffix, rfl, fun hreq => absurd (h.symm.trans hreq) Bool.false_ne_true⟩

theorem RowOf.snoc {tokens : List ℕ} {req : Req R} {row : Row} (h : p.RowOf tokens req row) (token : ℕ) :
    p.RowOf (tokens ++ [token]) req (p.cumulate row token) := by
  obtain ⟨seen, ⟨before, rfl⟩, rfl, hseen⟩ := h
  refine ⟨seen ++ [token], ⟨before, (append_assoc _ _ _).symm⟩, ?_, fun hreq => ?_⟩
  · rw [foldl_append]
    rfl
  · exact congrArg (· ++ [token]) (hseen hreq)

variable {batched : BatchedPenalizer Row}

theorem Fits.congr {tokens : ℕ → List ℕ} {reqs : List (Req R)}
    (h : p.Fits tokens reqs batched) (hsame : ∀ req ∈ reqs, tokens' req.rid = tokens req.rid) :
    p.Fits tokens' reqs batched := by
  cases batched with
  | none => exact h
  | some rows => exact forall₂_imp_mem h fun req hreq row hrow => (hsame req hreq).symm ▸ hrow

/-- When a batch is formed no token has been cumulated. -/
theorem fits_prepareIfRequired {tokens : ℕ → List ℕ} {reqs : List (Req R)}
    (hnil : ∀ req ∈ reqs, tokens req.rid = []) :
    p.Fits tokens reqs (p.prepareIfRequired reqs) := by
  rw [prepareIfRequired]
  split
  · exact forall₂_map fun req hreq => (hnil req hreq).symm ▸ p.rowOf_nil req
  · rename_i hreq
    exact not_required_iff.mp (Bool.eq_false_iff.mpr hreq)

theorem Fits.filter {tokens : ℕ → List ℕ} {reqs : List (Req R)}
    (h : p.Fits tokens reqs batched) (keepIndices : List ℕ) :
    p.Fits tokens (gather reqs keepIndices) (p.filter (gather reqs keepIndices) keepIndices batched) := by
  rw [Penalizer.filter]
  split
  · cases batched with
    | none => exact fun req hreq => h req (mem_of_mem_gather hreq)
    | some rows => exact forall₂_gather h keepIndices
  · rename_i hreq
    exact not_required_iff.mp (Bool.eq_false_iff.mpr hreq)

/-- A penalizer that has to be prepared for a merge is one that its requests do not need. -/
theorem Fits.prepare {tokens : ℕ → List ℕ} {reqs : List (Req R)} (h : p.Fits tokens reqs batched) :
    List.Forall₂ (fun req row => p.RowOf (tokens req.rid) req row) reqs (p.prepare reqs batched) := by
  cases batched with
  | none => exact forall₂_map fun req hreq => rowOf_of_not_required (h req hreq) _
  | some rows => exact h

theorem Fits.merge {tokens : ℕ → List ℕ} {reqs theirReqs : List (Req R)}
    {their : BatchedPenalizer Row} (h : p.Fits tokens reqs batched)
    (h' : p.Fits tokens theirReqs their) :
    p.Fits tokens (reqs ++ theirReqs) (p.merge reqs theirReqs batched their) := by
  rw [Penalizer.merge]
  split
  · rename_i hnone
    rw [Bool.and_eq_true, Option.isNone_iff_eq_none, Option.isNone_iff_eq_none] at hnone
    rw [hnone.1] at h
    rw [hnone.2] at h'
    exact fun req hreq => (mem_append.mp hreq).elim (h req) (h' req)
  · exact forall₂_append h.prepare h'.prepare

theorem Fits.cumulate {tokens : ℕ → List ℕ} {reqs : List (Req R)}
    (h : p.Fits tokens reqs batched) {outputIds : List ℕ} {sampled : ℕ → ℕ}
    (hids : List.Forall₂ (fun req id => id = sampled req.rid) reqs outputIds)
    (htokens : ∀ req ∈ reqs, tokens' req.rid = tokens req.rid ++ [sampled req.rid]) :
    p.Fits tokens' reqs (p.cumulateOutputTokens outputIds batched) := by
  cases batched with
  | none => exact h
  | some rows =>
    refine forall₂_zipWith h hids fun req hreq row id hrow hid => ?_
    rw [htokens req hreq, hid]
    exact hrow.snoc _

end Penalizer

/-! ## 2. The orchestrator -/

variable [Ring R] [DecidableEq R]

/-- The rows of all penalizers fit; if none is required, none is prepared. -/
structure Orchestrator.Fits (tokens : ℕ → List ℕ) (reqs : List (Req R)) (o : Orchestrator R) : Prop where
  frequency : frequencyPenalizer.Fits tokens reqs o.frequency
  minNewTokens : minNewTokensPenalizer.Fits tokens reqs o.minNewTokens
  presence : presencePenalizer.Fits tokens reqs o.presence
  repetition : repetitionPenalizer.Fits tokens reqs o.repetition
  torn : o.isRequired = false →
    o.frequency = none ∧ o.minNewTokens = none ∧ o.presence = none ∧ o.repetition = none

namespace Orchestrator

variable {tokens : ℕ → List ℕ} {reqs theirReqs : List (Req R)} {o their : Orchestrator R}

theorem Fits.congr (h : o.Fits tokens reqs)
    (hsame : ∀ req ∈ reqs, tokens' req.rid = tokens req.rid) : o.Fits tokens' reqs :=
  ⟨h.frequency.congr hsame, h.minNewTokens.congr hsame, h.presence.congr hsame, h.repetition.congr hsame,
    h.torn⟩

theorem not_anyRequired (h : anyRequired reqs = false) :
    frequencyPenalizer.required reqs = false ∧ minNewTokensPenalizer.required reqs = false ∧
      presencePenalizer.required reqs = false ∧ repetitionPenalizer.required reqs = false := by
  rw [anyRequired, Bool.or_eq_false_iff, Bool.or_eq_false_iff, Bool.or_eq_false_iff] at h
  exact ⟨h.1.1.1, h.1.1.2, h.1.2, h.2⟩

theorem fits_ofReqs (hnil : ∀ req ∈ reqs, tokens req.rid = []) : (ofReqs reqs).Fits tokens reqs where
  frequency := Penalizer.fits_prepareIfRequired hnil
  minNewTokens := Penalizer.fits_prepareIfRequired hnil
  presence := Penalizer.fits_prepareIfRequired hnil
  repetition := Penalizer.fits_prepareIfRequired hnil
  torn := fun hreq => by
    obtain ⟨hf, hm, hp, hr⟩ := not_anyRequired hreq
    simp [ofReqs, Penalizer.prepareIfRequired, hf, hm, hp, hr]

theorem fits_of_torn
    (hnone : o.frequency = none ∧ o.minNewTokens = none ∧ o.presence = none ∧ o.repetition = none)
    (hany : anyRequired reqs = false) (tokens : ℕ → List ℕ) : o.Fits tokens reqs := by
  obtain ⟨hf, hm, hp, hr⟩ := not_anyRequired hany
  refine ⟨?_, ?_, ?_, ?_, fun _ => hnone⟩
  · rw [hnone.1]
    exact Penalizer.not_required_iff.mp hf
  · rw [hnone.2.1]
    exact Penalizer.not_required_iff.mp hm
  · rw [hnone.2.2.1]
    exact Penalizer.not_required_iff.mp hp
  · rw [hnone.2.2.2]
    exact Penalizer.not_required_iff.mp hr

theorem Fits.not_required (h : o.Fits tokens reqs) (hreq : o.isRequired = false) :
    anyRequired reqs = false := by
  obtain ⟨hf, hm, hp, hr⟩ := h.torn hreq
  obtain ⟨hfreq, hmin, hpres, hrep, -⟩ := h
  rw [hf] at hfreq
  rw [hm] at hmin
  rw [hp] at hpres
  rw [hr] at hrep
  rw [anyRequired, Penalizer.not_required_iff.mpr hfreq, Penalizer.not_required_iff.mpr hmin,
    Penalizer.not_required_iff.mpr hpres, Penalizer.not_required_iff.mpr hrep]
  rfl

/-- While nothing is required, no row is looked at. -/
theorem Fits.skip (h : o.Fits tokens reqs) (hreq : o.isRequired = false) (tokens' : ℕ → List ℕ) :
    o.Fits tokens' reqs :=
  fits_of_torn (h.torn hreq) (h.not_required hreq) tokens'

theorem anyRequired_append :
    anyRequired (reqs ++ theirReqs) = (anyRequired reqs || anyRequired theirReqs) := by
  simp only [anyRequired, Penalizer.required, any_append]
  ac_rfl

theorem anyRequired_gather (h : anyRequired reqs = false) (keepIndices : List ℕ) :
    anyRequired (gather reqs keepIndices) = false := by
  obtain ⟨hf, hm, hp, hr⟩ := not_anyRequired h
  have hsub : ∀ {Row : Type} {p : Penalizer R Row}, p.required reqs = false →
      p.required (gather reqs keepIndices) = false := fun h =>
    Penalizer.not_required_iff.mpr fun req hreq => Penalizer.not_required_iff.mp h req (mem_of_mem_gather hreq)
  rw [anyRequired, hsub hf, hsub hm, hsub hp, hsub hr]
  rfl

/-- **Filtering keeps the rows of the requests that are kept.** -/
theorem Fits.filter (h : o.Fits tokens reqs) {keepIndices : List ℕ} (hkeep : keepIndices ≠ []) :
    (o.filter (gather reqs keepIndices) keepIndices).Fits tokens (gather reqs keepIndices) := by
  rw [Orchestrator.filter]
  split
  · rename_i hreq
    have hreq : o.isRequired = false := (Bool.not_eq_true' _).mp hreq
    exact fits_of_torn (h.torn hreq) (anyRequired_gather (h.not_required hreq) _) tokens
  · rw [if_neg fun hlen => hkeep (length_eq_zero_iff.mp hlen)]
    refine ⟨h.frequency.filter _, h.minNewTokens.filter _, h.presence.filter _, h.repetition.filter _,
      fun hreq => ?_⟩
    obtain ⟨hf, hm, hp, hr⟩ := not_anyRequired hreq
    simp [Penalizer.filter, hf, hm, hp, hr]

/-- **Merging puts the rows behind one another.** -/
theorem Fits.merge (h : o.Fits tokens reqs) (h' : their.Fits tokens theirReqs) :
    (o.merge their reqs theirReqs).Fits tokens (reqs ++ theirReqs) := by
  rw [Orchestrator.merge]
  split
  · rename_i hreq
    rw [Bool.and_eq_true, Bool.not_eq_true', Bool.not_eq_true'] at hreq
    refine fits_of_torn (h.torn hreq.1) ?_ tokens
    rw [anyRequired_append, h.not_required hreq.1, h'.not_required hreq.2]
    rfl
  · exact ⟨h.frequency.merge h'.frequency, h.minNewTokens.merge h'.minNewTokens,
      h.presence.merge h'.presence, h.repetition.merge h'.repetition, fun hreq => by cases hreq⟩

/-- A token for each request. -/
theorem Fits.cumulate (h : o.Fits tokens reqs) {outputIds : List ℕ} (sampled : ℕ → ℕ)
    (hids : List.Forall₂ (fun req id => id = sampled req.rid) reqs outputIds)
    (htokens : ∀ req ∈ reqs, tokens' req.rid = tokens req.rid ++ [sampled req.rid]) :
    (o.cumulateOutputTokens outputIds).Fits tokens' reqs where
  frequency := h.frequency.cumulate hids htokens
  minNewTokens := h.minNewTokens.cumulate hids htokens
  presence := h.presence.cumulate hids htokens
  repetition := h.repetition.cumulate hids htokens
  torn := fun hreq => by
    obtain ⟨hf, hm, hp, hr⟩ := h.torn hreq
    simp [Orchestrator.cumulateOutputTokens, Penalizer.cumulateOutputTokens, hf, hm, hp, hr]

end Orchestrator

end Sampling

end Sglang
