/-
# The pages of a verified batch

In a batch whose draft slots lie in their pages (`Prepared`), all three ways of the release come to the same:
without pages the slots of the tokens that are not accepted, and with pages the slots of the positions whose
page begins behind the last kept one (`mem_freed_iff`).  Where values are moved to the front of a row, they
are moved forward only, so that no value is lost (`kv_release`).
-/
import Sglang.Speculative.EagleVerifyRows

namespace Sglang

open Lib Finset

namespace EagleVerify

variable {β : Type} {B : VerifyBatch} {mem : KVMemory β} {i i' j k p p' s : ℕ} {len : ℕ → ℕ}
  {off : ℕ → ℕ → ℕ}

/-! ## 1. The layout -/

/-- The slot of a position of a request. -/
def slotOf (B : VerifyBatch) (rows : ℕ → ℕ → ℕ) (i p : ℕ) : ℕ := rows (B.reqPoolIndices i) p

/-- The slot of a draft token. -/
def draftSlot (B : VerifyBatch) (outCacheLoc : List ℕ) (i k : ℕ) : ℕ :=
  outCacheLoc.getD (i * B.draftTokenNum + k) 0

/-- A batch at verification: the draft tokens have the next positions of the rows, each slot has its place
in its page, a page that begins with the draft is no other one, and no draft slot is used twice. -/
structure Prepared (B : VerifyBatch) (mem : KVMemory β) : Prop where
  pageSize_pos : 0 < B.pageSize
  length : mem.outCacheLoc.length = B.bs * B.draftTokenNum
  pool : ∀ i < B.bs, ∀ i' < B.bs, B.reqPoolIndices i = B.reqPoolIndices i' → i = i'
  draft : ∀ i < B.bs, ∀ k < B.draftTokenNum,
    slotOf B mem.reqToToken i (B.seqLens i + k) = draftSlot B mem.outCacheLoc i k
  page : ∀ i < B.bs, ∀ p < B.seqLens i + B.draftTokenNum, ∀ p' < B.seqLens i + B.draftTokenNum,
    p / B.pageSize = p' / B.pageSize →
      slotOf B mem.reqToToken i p / B.pageSize = slotOf B mem.reqToToken i p' / B.pageSize
  fresh : ∀ i < B.bs, ∀ p < B.seqLens i + B.draftTokenNum, B.seqLens i ≤ p / B.pageSize * B.pageSize →
    ∀ i' < B.bs, ∀ p' < B.seqLens i' + B.draftTokenNum,
      slotOf B mem.reqToToken i p / B.pageSize = slotOf B mem.reqToToken i' p' / B.pageSize →
        i = i' ∧ p / B.pageSize = p' / B.pageSize
  apart : ∀ i < B.bs, ∀ p < B.seqLens i + B.draftTokenNum, B.seqLens i ≤ p →
    ∀ i' < B.bs, ∀ p' < B.seqLens i' + B.draftTokenNum,
      slotOf B mem.reqToToken i p = slotOf B mem.reqToToken i' p' → i = i' ∧ p = p'

theorem Prepared.draft_inj (h : Prepared B mem) (hi : i < B.bs) (hk : k < B.draftTokenNum)
    (hi' : i' < B.bs) {k' : ℕ} (hk' : k' < B.draftTokenNum)
    (heq : draftSlot B mem.outCacheLoc i k = draftSlot B mem.outCacheLoc i' k') : i = i' ∧ k = k' := by
  rw [← h.draft i hi k hk, ← h.draft i' hi' k' hk'] at heq
  obtain ⟨rfl, hp⟩ := h.apart i hi _ (by omega) (by omega) i' hi' _ (by omega) heq
  exact ⟨rfl, by omega⟩

/-! ## 2. What is freed -/

theorem mem_maskSelect (hlen : mem.outCacheLoc.length = B.bs * B.draftTokenNum) {mask : ℕ → Bool} :
    s ∈ maskSelect mem.outCacheLoc mask ↔ ∃ i < B.bs, ∃ k < B.draftTokenNum,
      mask (i * B.draftTokenNum + k) = true ∧ draftSlot B mem.outCacheLoc i k = s := by
  rw [maskSelect, List.mem_map]
  constructor
  · rintro ⟨a, ha, rfl⟩
    rw [List.mem_filter, List.mem_range, hlen] at ha
    have hD : 0 < B.draftTokenNum := by
      rcases Nat.eq_zero_or_pos B.draftTokenNum with h0 | h0
      · rw [h0] at ha
        omega
      · exact h0
    have hsplit : a / B.draftTokenNum * B.draftTokenNum + a % B.draftTokenNum = a := Nat.div_add_mod' _ _
    refine ⟨a / B.draftTokenNum, (Nat.div_lt_iff_lt_mul hD).mpr ha.1, a % B.draftTokenNum,
      Nat.mod_lt _ hD, ?_, ?_⟩
    · rw [hsplit]
      exact ha.2
    · rw [draftSlot, hsplit]
  · rintro ⟨i, hi, k, hk, hmask, rfl⟩
    refine ⟨i * B.draftTokenNum + k, List.mem_filter.mpr ⟨List.mem_range.mpr ?_, hmask⟩, rfl⟩
    have hmul := Nat.mul_le_mul_right B.draftTokenNum (Nat.succ_le_of_lt hi)
    rw [Nat.succ_mul] at hmul
    omega

/-- What `verify` frees, as a condition on the draft positions. -/
def Rejected (B : VerifyBatch) (len : ℕ → ℕ) (off : ℕ → ℕ → ℕ) (i k : ℕ) : Prop :=
  if B.pageSize = 1 then ∀ j < len i, off i j ≠ k
  else (B.seqLens i + len i - 1) / B.pageSize < (B.seqLens i + k) / B.pageSize

/-- The slots at the end of a row that are freed after the accepted ones have been moved to its front. -/
theorem toFreeNumSlots_iff (hp : 0 < B.pageSize) {acc : ℕ → ℕ} (hk : k < B.draftTokenNum) :
    B.draftTokenNum - toFreeNumSlots B acc i ≤ k ↔
      (B.seqLens i + (acc i + 1) - 1) / B.pageSize < (B.seqLens i + k) / B.pageSize := by
  have hceil : (B.seqLens i + acc i + 1 + B.pageSize - 1) / B.pageSize =
      (B.seqLens i + (acc i + 1) - 1) / B.pageSize + 1 := by
    have hadd : B.seqLens i + acc i + 1 + B.pageSize - 1 = B.seqLens i + (acc i + 1) - 1 + B.pageSize := by
      omega
    rw [hadd, Nat.add_div_right _ hp]
  rw [toFreeNumSlots, hceil, Nat.lt_iff_add_one_le (m := (B.seqLens i + (acc i + 1) - 1) / B.pageSize),
    Nat.le_div_iff_mul_le hp]
  omega

theorem toFreeNumSlots_le (acc : ℕ → ℕ) (hacc : acc i + 1 ≤ B.draftTokenNum) (hp : 0 < B.pageSize) :
    toFreeNumSlots B acc i ≤ B.draftTokenNum := by
  have hceil := Nat.lt_div_mul_add hp (a := B.seqLens i + acc i + 1 + B.pageSize - 1)
  rw [toFreeNumSlots]
  omega

section Release

variable {env : LaunchEnv B.bs} {acc : ℕ → ℕ}

/-- **What is freed**, whichever way it is done. -/
theorem mem_freed_iff (h : Prepared B mem) (hoff : Offsets B len off) (hacc : ∀ i < B.bs, acc i + 1 = len i) :
    s ∈ (release B env mem (flatIndex B len off (List.range B.bs)) acc).freed ↔
      ∃ i < B.bs, ∃ k < B.draftTokenNum, Rejected B len off i k ∧ draftSlot B mem.outCacheLoc i k = s := by
  have hmask : ∀ i < B.bs, ∀ k < B.draftTokenNum,
      (!(flatIndex B len off (List.range B.bs)).contains (i * B.draftTokenNum + k)) = true ↔
        ∀ j < len i, off i j ≠ k := by
    intro i hi k hk
    rw [Bool.not_eq_true', ← Bool.not_eq_true, List.contains_iff_mem, mem_flatIndex hoff hi hk]
    simp
  rw [release]
  by_cases h1 : B.pageSize = 1
  · rw [if_pos h1, mem_maskSelect h.length]
    refine exists_congr fun i => and_congr_right fun hi => exists_congr fun k => and_congr_right fun hk => ?_
    rw [hmask i hi k hk, Rejected, if_pos h1]
  rw [if_neg h1]
  by_cases htopk : B.topk = 1
  · have hrow : ∀ i < B.bs, ∀ k < B.draftTokenNum,
        (!(flatIndex B len off (List.range B.bs)).contains (i * B.draftTokenNum + k)) =
          decide (len i ≤ k) := by
      intro i hi k hk
      rw [Bool.eq_iff_iff, hmask i hi k hk, decide_eq_true_eq]
      constructor
      · intro hno
        by_contra hlt
        exact hno k (by omega) (hoff.consecutive htopk i hi k (by omega))
      · intro hle j hj heq
        rw [hoff.consecutive htopk i hi j hj] at heq
        omega
    rw [if_pos htopk, mem_maskSelect h.length]
    refine exists_congr fun i => and_congr_right fun hi => exists_congr fun k => and_congr_right fun hk => ?_
    rw [alignEvictMask_iff (env.perm_order .align) h.pageSize_pos hoff.pos (fun i hi => hoff.len_le hi)
      hrow hi hk, Rejected, if_neg h1]
  · have hle : ∀ i < B.bs, acc i + 1 ≤ B.draftTokenNum := fun i hi => (hacc i hi).trans_le (hoff.len_le hi)
    rw [if_neg htopk]
    dsimp only
    rw [contents_toFreeSlots (env.perm_order .target) hle
      (fun i hi => toFreeNumSlots_le acc (hle i hi) h.pageSize_pos), List.mem_flatMap]
    simp only [List.mem_range, List.mem_map]
    refine exists_congr fun i => and_congr_right fun hi => ?_
    have hfree := toFreeNumSlots_le acc (hle i hi) h.pageSize_pos
    constructor
    · rintro ⟨o, ho, rfl⟩
      refine ⟨B.draftTokenNum - toFreeNumSlots B acc i + o, by omega, ?_, ?_⟩
      · rw [Rejected, if_neg h1, ← hacc i hi, ← toFreeNumSlots_iff h.pageSize_pos (by omega)]
        exact Nat.le_add_right _ _
      · rw [draftSlot, Nat.add_assoc]
    · rintro ⟨k, hk, hrej, rfl⟩
      rw [Rejected, if_neg h1, ← hacc i hi, ← toFreeNumSlots_iff h.pageSize_pos hk] at hrej
      refine ⟨k - (B.draftTokenNum - toFreeNumSlots B acc i), by omega, ?_⟩
      congr 1
      omega

end Release

/-! ## 3. The lists of slots -/

theorem indexSelect_flatIndex (is : List ℕ) :
    indexSelect mem.outCacheLoc (flatIndex B len off is) =
      is.flatMap fun i => (List.range (len i)).map fun j => draftSlot B mem.outCacheLoc i (off i j) := by
  rw [indexSelect, flatIndex, List.map_flatMap]
  simp only [List.map_map]
  rfl

/-- **Moving the accepted values to the front of each row goes forward.** -/
theorem Prepared.forward (h : Prepared B mem) (hoff : Offsets B len off) :
    Forward ((List.range B.bs).flatMap fun i => (List.range (len i)).map fun j =>
      (draftSlot B mem.outCacheLoc i j, draftSlot B mem.outCacheLoc i (off i j))) := by
  refine List.pairwise_flatMap.mpr ⟨fun i hi => ?_, ?_⟩
  · rw [List.mem_range] at hi
    have hlen := hoff.len_le hi
    rw [List.pairwise_map]
    refine List.Pairwise.imp_of_mem (fun {j j'} _ hj' hlt => ?_) List.pairwise_lt_range
    rw [List.mem_range] at hj'
    have hle := hoff.le_off hi hj'
    constructor
    · intro heq
      have := (h.draft_inj hi (by omega) hi (by omega) heq).2
      omega
    · intro heq
      have := (h.draft_inj hi (by omega) hi (hoff.lt i hi j' hj') heq).2
      omega
  · refine List.Pairwise.imp_of_mem (fun {i i'} hi hi' hlt => ?_) List.pairwise_lt_range
    rw [List.mem_range] at hi hi'
    have hlen := hoff.len_le hi
    have hlen' := hoff.len_le hi'
    intro a ha b hb
    obtain ⟨j, hj, rfl⟩ := List.mem_map.mp ha
    obtain ⟨j', hj', rfl⟩ := List.mem_map.mp hb
    rw [List.mem_range] at hj hj'
    constructor
    · intro heq
      have := (h.draft_inj hi (by omega) hi' (by omega) heq).1
      omega
    · intro heq
      have := (h.draft_inj hi (by omega) hi' (hoff.lt i' hi' j' hj') heq).1
      omega

theorem tgtCacheLoc_eq (env : LaunchEnv B.bs) {acc : ℕ → ℕ} (h : Prepared B mem) (hoff : Offsets B len off)
    (hacc : ∀ i < B.bs, acc i + 1 = len i) (hpaged : ¬ (B.pageSize = 1 ∨ B.topk = 1)) :
    (release B env mem (flatIndex B len off (List.range B.bs)) acc).tgtCacheLoc =
      (List.range B.bs).flatMap fun i =>
        (List.range (len i)).map fun j => draftSlot B mem.outCacheLoc i j := by
  have hle : ∀ i < B.bs, acc i + 1 ≤ B.draftTokenNum := fun i hi => (hacc i hi).trans_le (hoff.len_le hi)
  have hsize : (indexSelect mem.outCacheLoc (flatIndex B len off (List.range B.bs))).length =
      ∑ i ∈ range B.bs, (acc i + 1) := by
    rw [indexSelect_flatIndex, length_flatMap_rows]
    exact sum_congr rfl fun i hi => (hacc i (mem_range.mp hi)).symm
  rw [not_or] at hpaged
  rw [release, if_neg hpaged.1, if_neg hpaged.2]
  dsimp only
  rw [hsize, contents_tgtCacheLoc (env.perm_order .target) hle
    (fun i hi => toFreeNumSlots_le acc (hle i hi) h.pageSize_pos)]
  refine List.flatMap_congr fun i hi => ?_
  rw [hacc i (List.mem_range.mp hi)]
  rfl

theorem kv_release (env : LaunchEnv B.bs) {acc : ℕ → ℕ} (h : Prepared B mem) (hoff : Offsets B len off)
    (hacc : ∀ i < B.bs, acc i + 1 = len i) :
    if B.pageSize = 1 ∨ B.topk = 1 then
      (release B env mem (flatIndex B len off (List.range B.bs)) acc).kv = mem.kv
    else (∀ i < B.bs, ∀ j < len i,
        (release B env mem (flatIndex B len off (List.range B.bs)) acc).kv
          (draftSlot B mem.outCacheLoc i j) = mem.kv (draftSlot B mem.outCacheLoc i (off i j))) ∧
      ∀ s, (∀ i < B.bs, ∀ j < len i, draftSlot B mem.outCacheLoc i j ≠ s) →
        (release B env mem (flatIndex B len off (List.range B.bs)) acc).kv s = mem.kv s := by
  by_cases hslot : B.pageSize = 1 ∨ B.topk = 1
  · rw [if_pos hslot, release]
    split
    · rfl
    · rw [if_pos (hslot.resolve_left (by assumption))]
  · rw [if_neg hslot]
    have htgt := tgtCacheLoc_eq env h hoff hacc hslot
    have hkv : (release B env mem (flatIndex B len off (List.range B.bs)) acc).kv =
        moveKvCache env (release B env mem (flatIndex B len off (List.range B.bs)) acc).tgtCacheLoc
          (indexSelect mem.outCacheLoc (flatIndex B len off (List.range B.bs))) mem.kv := by
      rw [not_or] at hslot
      rw [release, if_neg hslot.1, if_neg hslot.2]
    have hpairs := @zip_flatMap_rows ℕ ℕ len (fun i j => draftSlot B mem.outCacheLoc i j)
      (fun i j => draftSlot B mem.outCacheLoc i (off i j)) (List.range B.bs)
    rw [hkv, htgt, indexSelect_flatIndex]
    refine ⟨fun i hi j hj => ?_, fun s hs => ?_⟩
    · refine moveKvCache_of_mem ?_ ?_
      · rw [hpairs]
        exact h.forward hoff
      · rw [hpairs]
        exact List.mem_flatMap.mpr ⟨i, List.mem_range.mpr hi,
          List.mem_map.mpr ⟨j, List.mem_range.mpr hj, rfl⟩⟩
    · refine moveKvCache_of_ne fun q hq => ?_
      rw [hpairs] at hq
      obtain ⟨i, hi, hq⟩ := List.mem_flatMap.mp hq
      obtain ⟨j, hj, rfl⟩ := List.mem_map.mp hq
      exact hs i (List.mem_range.mp hi) j (List.mem_range.mp hj)

end EagleVerify

end Sglang
