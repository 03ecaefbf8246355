/-
# Selections of the k largest

`IsTopK f n k S` says that `S` is some choice of `k` largest among the values of `f` below `n`; among
equal values at the cut any choice will do.  When every index may have a parent whose value is at least
its own, a selection keeps the parents of its members as long as no tie at the cut stands between the
two: `closed_iff` says exactly when every choice does.
-/
import Mathlib.Tactic

namespace Lib

open Finset

variable {K : Type*} [LinearOrder K]

/-- `S` holds `k` indices below `n`, and no index outside has a larger value than one in it. -/
structure IsTopK (f : ℕ → K) (n k : ℕ) (S : Finset ℕ) : Prop where
  card : S.card = k
  lt : ∀ i ∈ S, i < n
  largest : ∀ i ∈ S, ∀ j < n, j ∉ S → f j ≤ f i

/-- The selection holds the parents of its members. -/
def ParentClosed (parent : ℕ → Option ℕ) (S : Finset ℕ) : Prop :=
  ∀ c ∈ S, ∀ p, parent c = some p → p ∈ S

/-- An index and its parent have the same value, the cut goes through the indices of that value, and
does not take all of them. -/
def TieAtCut (f : ℕ → K) (n k : ℕ) (parent : ℕ → Option ℕ) : Prop :=
  ∃ c < n, ∃ p < n, parent c = some p ∧ p ≠ c ∧ f c = f p ∧
    ((Finset.range n).filter (f c < f ·)).card < k ∧ k < ((Finset.range n).filter (f c ≤ f ·)).card

variable {f : ℕ → K} {n k : ℕ} {parent : ℕ → Option ℕ} {S : Finset ℕ}

theorem IsTopK.tie_of_missing (h : IsTopK f n k S) {c p : ℕ} (hc : c ∈ S) (hpar : parent c = some p)
    (hp : p < n) (hle : f c ≤ f p) (hmiss : p ∉ S) : TieAtCut f n k parent := by
  have heq : f c = f p := le_antisymm hle (h.largest c hc p hp hmiss)
  refine ⟨c, h.lt c hc, p, hp, hpar, fun hpc => hmiss (hpc ▸ hc), heq, ?_, ?_⟩
  · -- all larger ones are members, and so is the index itself
    have hsub : insert c ((Finset.range n).filter (f c < f ·)) ⊆ S := by
      intro j hj
      rw [mem_insert, mem_filter, mem_range] at hj
      rcases hj with rfl | ⟨hjn, hlt⟩
      · exact hc
      · by_contra hjS
        exact absurd (h.largest c hc j hjn hjS) (not_le.mpr hlt)
    have hcard := card_le_card hsub
    rw [card_insert_of_notMem (by simp), h.card] at hcard
    exact hcard
  · -- the members have at least this value, and so has the parent
    have hsub : insert p S ⊆ (Finset.range n).filter (f c ≤ f ·) := by
      intro j hj
      rw [mem_filter, mem_range]
      rcases mem_insert.mp hj with rfl | hjS
      · exact ⟨hp, hle⟩
      · exact ⟨h.lt j hjS, heq ▸ h.largest j hjS p hp hmiss⟩
    have hcard := card_le_card hsub
    rw [card_insert_of_notMem hmiss, h.card] at hcard
    exact hcard

/-- Where a tie stands between an index and its parent, some choice takes the one without the other. -/
theorem TieAtCut.exists_missing (h : TieAtCut f n k parent) :
    ∃ S, IsTopK f n k S ∧ ¬ ParentClosed parent S := by
  obtain ⟨c, hc, p, hp, hpar, hne, heq, hgt, hge⟩ := h
  obtain ⟨G, hG⟩ : ∃ G, (Finset.range n).filter (f c < f ·) = G := ⟨_, rfl⟩
  obtain ⟨E, hE⟩ : ∃ E, ((Finset.range n).filter (f · = f c)).erase c = E := ⟨_, rfl⟩
  have hmemG : ∀ j, j ∈ G ↔ j < n ∧ f c < f j := by simp [← hG]
  have hmemE : ∀ j, j ∈ E ↔ j ≠ c ∧ j < n ∧ f j = f c := by simp [← hE]
  have hpE : p ∈ E := (hmemE p).mpr ⟨hne, hp, heq.symm⟩
  -- the larger ones, the index, and the others of its value
  have hunion : (Finset.range n).filter (f c ≤ f ·) = insert c (G ∪ E) := by
    ext j
    simp only [mem_filter, mem_range, mem_insert, mem_union, hmemG, hmemE]
    constructor
    · rintro ⟨hj, hle⟩
      by_cases hjc : j = c
      · exact Or.inl hjc
      · exact Or.inr (hle.lt_or_eq.imp (fun hlt => ⟨hj, hlt⟩) fun he => ⟨hjc, hj, he.symm⟩)
    · rintro (rfl | ⟨hj, hlt⟩ | ⟨-, hj, he⟩)
      · exact ⟨hc, le_rfl⟩
      · exact ⟨hj, hlt.le⟩
      · exact ⟨hj, he.ge⟩
  have hcG : c ∉ G := by simp [hmemG]
  have hcE : c ∉ E := by simp [hmemE]
  have hdisj : Disjoint G E := disjoint_left.mpr fun j hj hj' =>
    ((hmemG j).mp hj).2.ne' ((hmemE j).mp hj').2.2
  rw [hG] at hgt
  rw [hunion, card_insert_of_notMem (by simp [hcG, hcE]), card_union_of_disjoint hdisj]
    at hge
  -- enough of the others to fill up, without the parent
  have hroom : k - G.card - 1 ≤ (E.erase p).card := by
    rw [card_erase_of_mem hpE]
    omega
  obtain ⟨T, hT, hTcard⟩ := exists_subset_card_eq hroom
  have hTE : T ⊆ E := hT.trans (erase_subset _ _)
  have hcT : c ∉ T := fun h => hcE (hTE h)
  have hdisjT : Disjoint G T := hdisj.mono_right hTE
  have hvalue : ∀ i ∈ insert c (G ∪ T), f c ≤ f i := by
    intro i hi
    rcases mem_insert.mp hi with rfl | hi
    · exact le_rfl
    rcases mem_union.mp hi with hi | hi
    · exact ((hmemG i).mp hi).2.le
    · exact ((hmemE i).mp (hTE hi)).2.2.ge
  refine ⟨insert c (G ∪ T), ⟨?_, fun i hi => ?_, fun i hi j hj hjS => ?_⟩, fun hclosed => ?_⟩
  · rw [card_insert_of_notMem (by simp [hcG, hcT]), card_union_of_disjoint hdisjT]
    omega
  · rcases mem_insert.mp hi with rfl | hi
    · exact hc
    rcases mem_union.mp hi with hi | hi
    · exact ((hmemG i).mp hi).1
    · exact ((hmemE i).mp (hTE hi)).2.1
  · have hnot : j ∉ G := fun hjG => hjS (mem_insert_of_mem (mem_union_left _ hjG))
    have hle : f j ≤ f c := not_lt.mp fun hlt => hnot ((hmemG j).mpr ⟨hj, hlt⟩)
    exact hle.trans (hvalue i hi)
  · have hmem := hclosed c (mem_insert_self _ _) p hpar
    rcases mem_insert.mp hmem with hpc | hmem
    · exact hne hpc
    rcases mem_union.mp hmem with hpG | hpT
    · exact absurd heq ((hmemG p).mp hpG).2.ne
    · exact (mem_erase.mp (hT hpT)).1 rfl

/-- **Every choice keeps the parents exactly when no tie at the cut stands between an index and its
parent.** -/
theorem closed_iff (hparent : ∀ c < n, ∀ p, parent c = some p → p < n ∧ f c ≤ f p) :
    (∀ S, IsTopK f n k S → ParentClosed parent S) ↔ ¬ TieAtCut f n k parent := by
  constructor
  · intro hall htie
    obtain ⟨S, hS, hopen⟩ := htie.exists_missing
    exact hopen (hall S hS)
  · intro htie S hS c hc p hpar
    obtain ⟨hp, hle⟩ := hparent c (hS.lt c hc) p hpar
    by_contra hmiss
    exact htie (hS.tie_of_missing hc hpar hp hle hmiss)

end Lib
