/-
# Whether the selected draft tokens form a tree

`organize_draft_results` keeps the tokens with the largest scores.  A token scores no more than its
parent, so a parent is only left out for the sake of a token with its own score: where the cut goes
through the tokens of that score, some choice of `torch.topk` takes a token without its parent, and then
the kernel searches for the parent in vain.  Without such a tie every choice is a tree, and the walk up
stays among the selected tokens and ends.
-/
import Sglang.Speculative.BuildTree

namespace Sglang

open Lib List

/-- The score of a token. -/
def EagleDraft.score (d : EagleDraft) (j : ℕ) : ℚ := (scoreList d.infos).getD j 0

/-- The indices `topScores` are some choice of the `k` largest scores. -/
structure EagleDraft.Chosen (d : EagleDraft) (k : ℕ) (topScores : List ℕ) : Prop where
  nodup : topScores.Nodup
  largest : IsTopK d.score d.total k topScores.toFinset

/-- The walks of a request end, and never leave its row of `selected_index`. -/
def BuildTreeInput.WalksEnd (inp : BuildTreeInput) (bid : ℕ) : Prop :=
  ∀ tid, 0 < tid → tid < inp.draftTokenNum → ∃ places,
    inp.ancestorWalk bid inp.draftTokenNum (tid - 1) = some places ∧
      ∀ c ∈ places, c < inp.draftTokenNum - 1

/-- Whatever `torch.topk` chooses, the selected tokens include their parents, and the kernel walks up
from each. -/
def FormsTree (d : EagleDraft) (k : ℕ) : Prop :=
  ∀ topScores, d.Chosen k topScores →
    ParentClosed (tokenParent d.topk (organizeDraftResults d.infos topScores).parentList)
      (organizeDraftResults d.infos topScores).topScoresIndex.toFinset ∧
    ∀ (inp : BuildTreeInput) bid,
      inp.Carries bid d (organizeDraftResults d.infos topScores).topScoresIndex → inp.WalksEnd bid

variable {d : EagleDraft} {inp : BuildTreeInput} {bid k : ℕ} {idx topScores : List ℕ}

/-- **A tree of tokens is walked up.** -/
theorem BuildTreeInput.Holds.walksEnd (h : inp.Holds bid d idx) : inp.WalksEnd bid := by
  intro tid hpos hlt
  obtain ⟨l, hl⟩ := Upward.exists_of_numbered h.numbered tid hlt
  have hlen := hl.length_le h.numbered hlt
  refine ⟨l.map (· - 1), h.ancestorWalk_eq hl hlt hpos _ (by omega), fun c hc => ?_⟩
  obtain ⟨j, hj, rfl⟩ := mem_map.mp hc
  have := hl.mem_le h.numbered hlt j hj
  omega

theorem toFinset_topScoresIndex (infos : List TreeInfo) (topScores : List ℕ) :
    (organizeDraftResults infos topScores).topScoresIndex.toFinset = topScores.toFinset := by
  ext j
  rw [mem_toFinset, mem_toFinset]
  exact mem_mergeSort

/-- The indices are put in order. -/
theorem sorted_topScoresIndex (infos : List TreeInfo) (hnd : topScores.Nodup) :
    (organizeDraftResults infos topScores).topScoresIndex.Pairwise (· < ·) := by
  have hperm : (organizeDraftResults infos topScores).topScoresIndex.Perm topScores :=
    mergeSort_perm _ _
  have hle : (organizeDraftResults infos topScores).topScoresIndex.Pairwise (· ≤ ·) := by
    refine (pairwise_mergeSort (fun a b c hab hbc => ?_) (fun a b => ?_) topScores).imp
      fun h => of_decide_eq_true h
    · rw [decide_eq_true_eq] at hab hbc ⊢
      exact hab.trans hbc
    · rw [Bool.or_eq_true, decide_eq_true_eq, decide_eq_true_eq]
      exact Nat.le_total a b
  exact (hle.and (hperm.nodup_iff.mpr hnd)).imp fun h => lt_of_le_of_ne h.1 h.2

theorem EagleDraft.parent_score (d : EagleDraft) {c p : ℕ} (hc : c < d.total)
    (hp : tokenParent d.topk d.parentList c = some p) : p < d.total ∧ d.score c ≤ d.score p := by
  rw [tokenParent] at hp
  split at hp
  · exact absurd hp (by simp)
  · rename_i hquot
    have htop : d.topk ≤ c := not_lt.mp fun hlt => hquot (Nat.div_eq_of_lt hlt)
    obtain ⟨q, hq, hqc, hle⟩ := d.exists_parent hc htop
    rw [getD_eq_getElem?_getD, hq, Option.getD_some, Option.some.injEq] at hp
    subst hp
    exact ⟨hqc.trans hc, hle⟩

/-- A choice that includes the parents is a tree to the kernel. -/
theorem EagleDraft.Chosen.holds (h : d.Chosen k topScores)
    (hclosed : ParentClosed (tokenParent d.topk d.parentList) topScores.toFinset)
    (hcarries : inp.Carries bid d (organizeDraftResults d.infos topScores).topScoresIndex) :
    inp.Holds bid d (organizeDraftResults d.infos topScores).topScoresIndex := by
  refine { hcarries with sorted := sorted_topScoresIndex _ h.nodup, lt := fun j hj => ?_, closed := ?_ }
  · refine h.largest.lt j ?_
    rw [← toFinset_topScoresIndex d.infos topScores]
    exact mem_toFinset.mpr hj
  · rw [toFinset_topScoresIndex]
    exact hclosed

/-- A set of indices as the answer of `torch.topk`. -/
theorem EagleDraft.chosen_toList (d : EagleDraft) {S : Finset ℕ} (h : IsTopK d.score d.total k S) :
    d.Chosen k S.toList :=
  ⟨S.nodup_toList, by rwa [Finset.toList_toFinset]⟩

/-- **The selected tokens form a tree for every choice exactly when no tie at the cut stands between a
token and its parent.** -/
theorem forms_tree_iff (d : EagleDraft) (k : ℕ) :
    FormsTree d k ↔ ¬ TieAtCut d.score d.total k (tokenParent d.topk d.parentList) := by
  rw [← closed_iff fun c hc p hp => d.parent_score hc hp]
  constructor
  · intro h S hS
    have hclosed := (h _ (d.chosen_toList hS)).1
    rw [toFinset_topScoresIndex, Finset.toList_toFinset] at hclosed
    exact hclosed
  · intro h topScores hchosen
    have hclosed := h _ hchosen.largest
    refine ⟨?_, fun inp bid hcarries => (hchosen.holds hclosed hcarries).walksEnd⟩
    rw [toFinset_topScoresIndex]
    exact hclosed

/-- Two tokens, each followed by one that is certain and one that is impossible. -/
def certainDraft : EagleDraft where
  topk := 2
  numSteps := 2
  topkP i := if i = 0 then [1 / 2, 1 / 2] else [1, 0, 1, 0]
  topkIndex _ := [0, 1, 2, 3]
  topkCsIndex _ := [0, 2]
  topk_pos := Nat.two_pos
  numSteps_pos := Nat.two_pos
  length_first := rfl
  length_later i hi _ := by rw [if_neg hi.ne']; rfl
  probability i p hp := by
    by_cases h0 : i = 0
    · rw [if_pos h0] at hp
      simp only [mem_cons, not_mem_nil, or_false, or_self] at hp
      rw [hp]
      norm_num
    · rw [if_neg h0] at hp
      simp only [mem_cons, not_mem_nil, or_false] at hp
      rcases hp with rfl | rfl | rfl | rfl <;> norm_num
  nodup _ _ _ := by decide
  kept i hi hlt := by
    obtain rfl : i = 1 := by omega
    refine ⟨rfl, by decide, by decide +kernel⟩

/-- Three of its six tokens without the parent of one of them: four tokens have the same score. -/
theorem certain_without_parent :
    certainDraft.Chosen 3 [0, 2, 4] ∧
    tokenParent certainDraft.topk certainDraft.parentList 4 = some 1 ∧
    ¬ FormsTree certainDraft 3 := by
  have hchosen : certainDraft.Chosen 3 [0, 2, 4] :=
    ⟨by decide, rfl, by decide, by decide +kernel⟩
  have hparent : tokenParent certainDraft.topk certainDraft.parentList 4 = some 1 := by decide +kernel
  refine ⟨hchosen, hparent, fun h => ?_⟩
  have hclosed := (h _ hchosen).1
  rw [toFinset_topScoresIndex] at hclosed
  exact absurd (hclosed 4 (by decide) 1 hparent) (by decide)

end Sglang
