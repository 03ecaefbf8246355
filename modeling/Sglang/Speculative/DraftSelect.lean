/-
# The tokens that the draft model proposes

A transcription of `select_top_k_tokens` (`spec_utils.py`) and `organize_draft_results`
(`eagle_utils.py`) for one request.  Step `0` proposes `topk` tokens; every later step expands each of
the `topk` tokens kept last by `topk` tokens, and keeps `topk` of these.  A token is named by its place
in the concatenation of all steps: the first `topk`, and then blocks of `topk * topk`.  The quotient by
`topk` of such a place is where `parent_list` holds the place of the parent.

What `torch.topk` returns is part of the input: any choice of the largest.
-/
import Sglang.Lib.TopK
import Mathlib.Data.List.GetD

namespace Sglang

open Lib List

/-! ## 1. A step -/

/-- `tree_info` of a step: scores, tokens and parents. -/
structure TreeInfo where
  scores : List ℚ
  tokens : List ℕ
  parents : List ℤ
deriving DecidableEq

/-- The scores that are kept and the `tree_info` of a step.  The ids and hidden states for the next run
of the draft model are left out. -/
structure SelectResult where
  scores : List ℚ
  treeInfo : TreeInfo
deriving DecidableEq

/-- `_select_top_k_tokens_first`. -/
def selectTopKTokensFirst (topkP : List ℚ) (topkIndex : List ℕ) (topk : ℕ) : SelectResult :=
  ⟨topkP, topkP, topkIndex, (List.range (topk + 1)).map fun j : ℕ => (j : ℤ) - 1⟩

/-- `expand_scores`, flattened: the score of each token kept last times the probabilities behind it. -/
def expandScores (scores topkP : List ℚ) (topk : ℕ) : List ℚ :=
  (List.range (topk * topk)).map fun j => scores.getD (j / topk) 0 * topkP.getD j 0

/-- `_select_top_k_tokens_later`, with the indices `topkCsIndex` that `fast_topk` returns. -/
def selectTopKTokensLater (i : ℕ) (topkP : List ℚ) (topkIndex : List ℕ) (scores : List ℚ) (topk : ℕ)
    (topkCsIndex : List ℕ) : SelectResult :=
  let expanded := expandScores scores topkP topk
  ⟨topkCsIndex.map fun j => expanded.getD j 0,
    expanded, topkIndex, topkCsIndex.map fun j : ℕ => (j : ℤ) + (topk * topk * (i - 1) + topk : ℕ)⟩

/-- `select_top_k_tokens`. -/
def selectTopKTokens (i : ℕ) (topkP : List ℚ) (topkIndex : List ℕ) (scores : List ℚ) (topk : ℕ)
    (topkCsIndex : List ℕ) : SelectResult :=
  if i = 0 then selectTopKTokensFirst topkP topkIndex topk
  else selectTopKTokensLater i topkP topkIndex scores topk topkCsIndex

/-! ## 2. The steps of a draft -/

/-- What the draft model and `fast_topk` return in each step. -/
structure DraftLoop where
  topk : ℕ
  numSteps : ℕ
  topkP : ℕ → List ℚ
  topkIndex : ℕ → List ℕ
  topkCsIndex : ℕ → List ℕ

namespace DraftLoop

/-- The first steps of `draft_forward`: the scores kept, and the lists of `tree_info`. -/
def steps (d : DraftLoop) : ℕ → List ℚ × List TreeInfo
  | 0 => ([], [])
  | i + 1 =>
    let r := selectTopKTokens i (d.topkP i) (d.topkIndex i) (d.steps i).1 d.topk (d.topkCsIndex i)
    (r.scores, (d.steps i).2 ++ [r.treeInfo])

/-- The scores that a later step chooses from. -/
def expanded (d : DraftLoop) (i : ℕ) : List ℚ := expandScores (d.steps i).1 (d.topkP i) d.topk

/-- The `tree_info` of all steps. -/
def infos (d : DraftLoop) : List TreeInfo := (d.steps d.numSteps).2

/-- The number of tokens proposed. -/
def total (d : DraftLoop) : ℕ := d.topk + (d.numSteps - 1) * (d.topk * d.topk)

end DraftLoop

/-- A draft: probabilities between zero and one, `topk` of them behind every token kept, and `topk`
largest scores kept in each step. -/
structure EagleDraft extends DraftLoop where
  topk_pos : 0 < topk
  numSteps_pos : 0 < numSteps
  length_first : (topkP 0).length = topk
  length_later : ∀ i, 0 < i → i < numSteps → (topkP i).length = topk * topk
  probability : ∀ i, ∀ p ∈ topkP i, 0 ≤ p ∧ p ≤ 1
  nodup : ∀ i, 0 < i → i < numSteps → (topkCsIndex i).Nodup
  kept : ∀ i, 0 < i → i < numSteps → IsTopK (fun j => (toDraftLoop.expanded i).getD j 0)
    (topk * topk) topk (topkCsIndex i).toFinset

/-! ## 3. The results -/

/-- What `organize_draft_results` returns. -/
structure DraftResults where
  parentList : List ℤ
  topScoresIndex : List ℕ
  draftTokens : List ℕ
deriving DecidableEq

/-- `score_list`, concatenated and flattened. -/
def scoreList (infos : List TreeInfo) : List ℚ := infos.flatMap (·.scores)

/-- `parent_list`: the parents of all steps but the last. -/
def parentList (infos : List TreeInfo) : List ℤ :=
  if infos.length > 1 then infos.dropLast.flatMap (·.parents) else []

/-- `organize_draft_results`, with the indices `topScores` that `torch.topk` returns. -/
def organizeDraftResults (infos : List TreeInfo) (topScores : List ℕ) : DraftResults :=
  let topScoresIndex := topScores.mergeSort
  ⟨parentList infos, topScoresIndex,
    topScoresIndex.map fun j => (infos.flatMap (·.tokens)).getD j 0⟩

/-- `parent_list` of a draft. -/
def DraftLoop.parentList (d : DraftLoop) : List ℤ := Sglang.parentList d.infos

/-- The parent of a token: none for a token of step `0`. -/
def tokenParent (topk : ℕ) (parentList : List ℤ) (j : ℕ) : Option ℕ :=
  if j / topk = 0 then none else some (parentList.getD (j / topk) 0).toNat

/-! ## 4. Scores along the steps -/

namespace DraftLoop

theorem steps_succ (d : DraftLoop) (i : ℕ) :
    d.steps (i + 1) =
      let r := selectTopKTokens i (d.topkP i) (d.topkIndex i) (d.steps i).1 d.topk (d.topkCsIndex i)
      (r.scores, (d.steps i).2 ++ [r.treeInfo]) := rfl

@[simp] theorem length_steps (d : DraftLoop) (i : ℕ) : (d.steps i).2.length = i := by
  induction i with
  | zero => rfl
  | succ i ih => simp [steps_succ, ih]

end DraftLoop

theorem length_expandScores (scores topkP : List ℚ) (topk : ℕ) :
    (expandScores scores topkP topk).length = topk * topk := by
  simp [expandScores]

theorem getD_expandScores {scores topkP : List ℚ} {topk r : ℕ} (h : r < topk * topk) :
    (expandScores scores topkP topk).getD r 0 = scores.getD (r / topk) 0 * topkP.getD r 0 := by
  simp [expandScores, List.getD, h]

/-- What the first steps, at least one of them, have put together. -/
structure Drafted (topk i : ℕ) (scores : List ℚ) (infos : List TreeInfo) : Prop where
  length_scores : scores.length = topk
  length_scoreList : (scoreList infos).length = topk + (i - 1) * (topk * topk)
  length_parents : (infos.flatMap (·.parents)).length = topk * i + 1
  nonneg : ∀ s ∈ scores, 0 ≤ s
  /-- The tokens kept last are where the last parents point. -/
  kept : ∀ a < topk, ∃ p : ℕ, (infos.flatMap (·.parents))[1 + (i - 1) * topk + a]? = some (p : ℤ) ∧
    p < (scoreList infos).length ∧ scores.getD a 0 = (scoreList infos).getD p 0
  /-- A token of a later step has a parent before it, with at least its score. -/
  parent : ∀ j < (scoreList infos).length, topk ≤ j → j / topk < topk * (i - 1) + 1 ∧
    ∃ p : ℕ, (infos.flatMap (·.parents))[j / topk]? = some (p : ℤ) ∧ p < j ∧
      (scoreList infos).getD j 0 ≤ (scoreList infos).getD p 0

namespace EagleDraft

variable (d : EagleDraft)

theorem drafted_one : Drafted d.topk 1 (d.steps 1).1 (d.steps 1).2 := by
  have hscores : (d.steps 1).1 = d.topkP 0 := rfl
  have hlist : scoreList (d.steps 1).2 = d.topkP 0 := by
    change d.topkP 0 ++ [] = _
    simp
  have hparents : (d.steps 1).2.flatMap (·.parents) =
      (List.range (d.topk + 1)).map fun j : ℕ => (j : ℤ) - 1 := by
    change ((List.range (d.topk + 1)).map fun j : ℕ => (j : ℤ) - 1) ++ [] = _
    simp
  rw [hscores]
  refine ⟨d.length_first, by rw [hlist, d.length_first]; simp, by rw [hparents]; simp,
    fun s hs => (d.probability 0 s hs).1, fun a ha => ?_, fun j hj htop => ?_⟩
  · refine ⟨a, ?_, by rwa [hlist, d.length_first], by rw [hlist]⟩
    rw [hparents]
    have hlt : 1 + a < d.topk + 1 := by omega
    simp [getElem?_range hlt]
  · rw [hlist, d.length_first] at hj
    omega

variable {i j : ℕ}

/-- Where the tokens behind the first steps have their parents. -/
theorem block_index {topk : ℕ} (hk : 0 < topk) (hj : topk + (i - 1) * (topk * topk) ≤ j) :
    j / topk = 1 + (i - 1) * topk + (j - (topk + (i - 1) * (topk * topk))) / topk := by
  obtain ⟨r, rfl⟩ := Nat.exists_eq_add_of_le hj
  have hsum : topk + (i - 1) * (topk * topk) + r = r + topk * (1 + (i - 1) * topk) := by ring
  rw [Nat.add_sub_cancel_left, hsum, Nat.add_mul_div_left _ _ hk]
  omega

/-- **One more step.** -/
theorem drafted_succ (hi : 0 < i) (hlt : i < d.numSteps)
    (h : Drafted d.topk i (d.steps i).1 (d.steps i).2) :
    Drafted d.topk (i + 1) (d.steps (i + 1)).1 (d.steps (i + 1)).2 := by
  have hk := d.topk_pos
  have hkept := d.kept i hi hlt
  have hcs : (d.topkCsIndex i).length = d.topk := by
    rw [← toFinset_card_of_nodup (d.nodup i hi hlt)]
    exact hkept.card
  have hcslt : ∀ r ∈ d.topkCsIndex i, r < d.topk * d.topk := fun r hr =>
    hkept.lt r (mem_toFinset.mpr hr)
  obtain ⟨L, hL⟩ : ∃ L, d.topk + (i - 1) * (d.topk * d.topk) = L := ⟨_, rfl⟩
  have hoff : d.topk * d.topk * (i - 1) + d.topk = L := by rw [← hL]; ring
  have hlen := h.length_scoreList
  have hplen := h.length_parents
  rw [hL] at hlen
  have hexp : (d.expanded i).length = d.topk * d.topk := length_expandScores _ _ _
  have hstep : d.steps (i + 1) = ((d.topkCsIndex i).map fun j => (d.expanded i).getD j 0,
        (d.steps i).2 ++ [⟨d.expanded i, d.topkIndex i, (d.topkCsIndex i).map fun j : ℕ =>
            (j : ℤ) + (d.topk * d.topk * (i - 1) + d.topk : ℕ)⟩]) := by
    rw [DraftLoop.steps_succ, selectTopKTokens, if_neg hi.ne']
    rfl
  have hlist : scoreList (d.steps (i + 1)).2 = scoreList (d.steps i).2 ++ d.expanded i := by
    rw [hstep]
    simp [scoreList]
  have hparents : (d.steps (i + 1)).2.flatMap (·.parents) = (d.steps i).2.flatMap (·.parents) ++
      (d.topkCsIndex i).map fun j : ℕ => (j : ℤ) + (L : ℕ) := by
    rw [hstep, hoff]
    simp
  have hvalue : ∀ r < d.topk * d.topk, (d.expanded i).getD r 0 =
      (d.steps i).1.getD (r / d.topk) 0 * (d.topkP i).getD r 0 := fun r hr =>
    getD_expandScores hr
  have hprob : ∀ r < d.topk * d.topk, 0 ≤ (d.topkP i).getD r 0 ∧ (d.topkP i).getD r 0 ≤ 1 := by
    intro r hr
    rw [← d.length_later i hi hlt] at hr
    rw [getD_eq_getElem _ _ hr]
    exact d.probability i _ (getElem_mem hr)
  have hscore : ∀ a < d.topk, 0 ≤ (d.steps i).1.getD a 0 := by
    intro a ha
    rw [← h.length_scores] at ha
    rw [getD_eq_getElem _ _ ha]
    exact h.nonneg _ (getElem_mem ha)
  have hdiv : ∀ r < d.topk * d.topk, r / d.topk < d.topk := fun r hr =>
    Nat.div_lt_of_lt_mul hr
  have hold : ∀ j < L, (scoreList (d.steps (i + 1)).2).getD j 0 =
      (scoreList (d.steps i).2).getD j 0 := by
    intro j hj
    rw [hlist, getD_append _ _ _ _ (hlen ▸ hj)]
  have hnew : ∀ r, (scoreList (d.steps (i + 1)).2).getD (L + r) 0 = (d.expanded i).getD r 0 := by
    intro r
    rw [hlist, List.getD_append_right _ _ _ _ (by omega), hlen, Nat.add_sub_cancel_left]
  have hsucc : d.topk + (i + 1 - 1) * (d.topk * d.topk) = L + d.topk * d.topk := by
    rw [← hL, Nat.add_sub_cancel]
    conv_lhs => rw [← Nat.succ_pred_eq_of_pos hi, Nat.succ_mul]
    exact (Nat.add_assoc _ _ _).symm
  have htotal : (scoreList (d.steps (i + 1)).2).length = L + d.topk * d.topk := by
    rw [hlist, length_append, hlen, hexp]
  have hptotal : ((d.steps (i + 1)).2.flatMap (·.parents)).length = d.topk * (i + 1) + 1 := by
    rw [hparents, length_append, length_map, hplen, hcs]
    ring
  have hoffset : 1 + (i - 1) * d.topk + d.topk = d.topk * i + 1 := by
    conv_rhs => rw [← Nat.succ_pred_eq_of_pos hi, Nat.mul_succ]
    rw [Nat.pred_eq_sub_one, Nat.mul_comm (i - 1)]
    omega
  refine ⟨by rw [hstep, length_map, hcs], by rw [hsucc]; exact htotal, hptotal, ?_, ?_, ?_⟩
  · intro s hs
    rw [hstep, mem_map] at hs
    obtain ⟨r, hr, rfl⟩ := hs
    have hrlt := hcslt r hr
    rw [hvalue r hrlt]
    exact mul_nonneg (hscore _ (hdiv r hrlt)) (hprob r hrlt).1
  · intro a ha
    obtain ⟨r, hr⟩ : ∃ r, (d.topkCsIndex i)[a]? = some r :=
      ⟨_, getElem?_eq_getElem (hcs.symm ▸ ha)⟩
    have hrlt : r < d.topk * d.topk := hcslt r (mem_of_getElem? hr)
    have hidx : 1 + (i + 1 - 1) * d.topk + a = d.topk * i + 1 + a := by
      rw [Nat.add_sub_cancel, Nat.mul_comm]
      omega
    refine ⟨L + r, ?_, by omega, ?_⟩
    · rw [hidx, hparents, getElem?_append_right (by omega), hplen, Nat.add_sub_cancel_left,
        getElem?_map, hr]
      simp [add_comm]
    · rw [hnew, hstep]
      simp [List.getD, hr]
  · intro j hj htop
    by_cases hjL : j < L
    · obtain ⟨hquot, p, hp, hpj, hle⟩ := h.parent j (hlen ▸ hjL) htop
      have hmono : d.topk * (i - 1) ≤ d.topk * (i + 1 - 1) := Nat.mul_le_mul_left _ (by omega)
      refine ⟨by omega, p, ?_, hpj, ?_⟩
      · rw [hparents, getElem?_append_left (List.getElem?_eq_some_iff.mp hp).1]
        exact hp
      · rw [hold j hjL, hold p (hpj.trans hjL)]
        exact hle
    · rw [not_lt] at hjL
      obtain ⟨r, rfl⟩ := Nat.exists_eq_add_of_le hjL
      have hr : r < d.topk * d.topk := by omega
      have hquot := block_index hk (hL.symm ▸ hjL)
      rw [hL, Nat.add_sub_cancel_left] at hquot
      have ha := hdiv r hr
      obtain ⟨p, hp, hpL, hpscore⟩ := h.kept _ ha
      refine ⟨by rw [Nat.add_sub_cancel]; omega, p, ?_, by omega, ?_⟩
      · rw [hquot, hparents, getElem?_append_left (List.getElem?_eq_some_iff.mp hp).1]
        exact hp
      · rw [hnew, hold p (hlen ▸ hpL), ← hpscore, hvalue r hr]
        exact mul_le_of_le_one_right (hscore _ ha) (hprob r hr).2

/-- **All steps of the draft.** -/
theorem drafted (hi : 0 < i) (hle : i ≤ d.numSteps) :
    Drafted d.topk i (d.steps i).1 (d.steps i).2 := by
  induction i with
  | zero => exact absurd hi (lt_irrefl 0)
  | succ i ih =>
    by_cases h0 : i = 0
    · subst h0
      exact d.drafted_one
    · exact d.drafted_succ (Nat.pos_of_ne_zero h0) hle (ih (Nat.pos_of_ne_zero h0) (by omega))

theorem length_scoreList : (scoreList d.infos).length = d.total :=
  (d.drafted d.numSteps_pos le_rfl).length_scoreList

/-- **Every token of a later step has its parent before it**, where `parent_list` says, and the parent
has at least its score. -/
theorem exists_parent (hj : j < d.total) (htop : d.topk ≤ j) :
    ∃ p : ℕ, d.parentList[j / d.topk]? = some (p : ℤ) ∧ p < j ∧
      (scoreList d.infos).getD j 0 ≤ (scoreList d.infos).getD p 0 := by
  have hpos := d.numSteps_pos
  obtain ⟨hquot, p, hp, hpj, hle⟩ :=
    (d.drafted hpos le_rfl).parent j (d.length_scoreList.symm ▸ hj) htop
  refine ⟨p, ?_, hpj, hle⟩
  have htwo : 1 < d.numSteps := by
    by_contra hone
    have h1 : d.numSteps - 1 = 0 := by omega
    have hdiv : 0 < j / d.topk := Nat.div_pos htop d.topk_pos
    rw [h1] at hquot
    omega
  -- the last step only adds parents behind those that are kept
  obtain ⟨n, hn⟩ : ∃ n, d.numSteps = n + 1 := ⟨d.numSteps - 1, by omega⟩
  have hbefore := d.drafted (i := n) (by omega) (by omega)
  have hinfos : d.infos = (d.steps n).2 ++ [(selectTopKTokens n (d.topkP n) (d.topkIndex n)
      (d.steps n).1 d.topk (d.topkCsIndex n)).treeInfo] := by
    rw [DraftLoop.infos, hn]
    rfl
  have hlist : d.parentList = (d.steps n).2.flatMap (·.parents) := by
    rw [DraftLoop.parentList, parentList, if_pos (by rw [DraftLoop.infos, DraftLoop.length_steps]; exact htwo), hinfos,
      dropLast_concat]
  rw [hn, Nat.add_sub_cancel, ← hbefore.length_parents] at hquot
  rw [hlist]
  rw [DraftLoop.infos] at hinfos
  rw [hinfos, flatMap_append, getElem?_append_left hquot] at hp
  exact hp

end EagleDraft

end Sglang
