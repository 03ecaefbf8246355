/-
# The kernels of the verification

What each launch leaves, in whatever order its programs run: the rows with the new slots
(`assignReqToTokenPool_row`), the mask without the page of the last kept position (`alignEvictMask_iff`), the
two parts of the rows side by side (`contents_tgtCacheLoc`, `contents_toFreeSlots`), the kept slots of the
unfinished requests (`contents_filterFinishedCacheLoc`), and the copied values (`moveKvCache_of_mem`).
-/
import Sglang.Lib.Chunks
import Sglang.Lib.Packing
import Sglang.Speculative.EagleVerify

namespace Sglang

open Lib Finset

namespace EagleVerify

variable {β : Type} {B : VerifyBatch} {order : List ℕ} {i pid : ℕ}

/-! ## 1. Sums over the programs before -/

theorem sumBefore_eq (values : ℕ → ℕ) (h : pid < B.bs) :
    sumBefore B values pid = ∑ j ∈ range pid, values j :=
  DraftBatch.sum_range_ite_lt _ (h.le.trans (DraftBatch.le_nextPowerOf2 _))

theorem sum_succ (f : ℕ → ℕ) (n : ℕ) : ∑ j ∈ range n, (f j + 1) = ∑ j ∈ range n, f j + n := by
  rw [sum_add_distrib, sum_const, card_range, smul_eq_mul, Nat.mul_one]

/-! ## 2. Programs -/

theorem foldl_clear (base n : ℕ) (mask : ℕ → Bool) (a : ℕ) : ∀ first : ℕ,
    (List.range' first n).foldl (fun mask i => Function.update mask (base + i) false) mask a =
      if base + first ≤ a ∧ a < base + first + n then false else mask a := by
  induction n generalizing mask with
  | zero =>
    intro first
    rw [List.range'_zero, List.foldl_nil, if_neg (by omega)]
  | succ n ih =>
    intro first
    rw [List.range'_succ, List.foldl_cons, ih]
    by_cases ha : a = base + first
    · rw [ha, Function.update_self, ite_self, if_pos (by omega)]
    · rw [Function.update_of_ne ha]
      exact if_congr (by omega) rfl rfl

/-- The number of masked cells of a row of which the first `len` are kept. -/
theorem numTrues_eq {mask : ℕ → Bool} {len : ℕ}
    (hmask : ∀ t < B.draftTokenNum, mask (i * B.draftTokenNum + t) = decide (len ≤ t)) :
    (∑ t ∈ range (nextPowerOf2 B.draftTokenNum),
      if t < B.draftTokenNum ∧ mask (i * B.draftTokenNum + t) then 1 else 0) = B.draftTokenNum - len := by
  rw [← sum_filter, sum_const, smul_eq_mul, Nat.mul_one]
  have hset : ((range (nextPowerOf2 B.draftTokenNum)).filter fun t =>
      t < B.draftTokenNum ∧ mask (i * B.draftTokenNum + t)) = Ico len B.draftTokenNum := by
    ext t
    have hwidth := DraftBatch.le_nextPowerOf2 B.draftTokenNum
    rw [mem_filter, mem_range, mem_Ico]
    constructor
    · rintro ⟨-, ht, hm⟩
      rw [hmask t ht, decide_eq_true_eq] at hm
      exact ⟨hm, ht⟩
    · rintro ⟨hge, ht⟩
      refine ⟨by omega, ht, ?_⟩
      rw [hmask t ht, decide_eq_true_eq]
      exact hge
  rw [hset, Nat.card_Ico]

/-- What is cleared of a row: the page of the last kept position, as far as it is in the row. -/
theorem alignProgram_iff (hp : 0 < B.pageSize) {mask : ℕ → Bool} {len : ℕ} (hpos : 0 < len)
    (hlen : len ≤ B.draftTokenNum)
    (hmask : ∀ t < B.draftTokenNum, mask (i * B.draftTokenNum + t) = decide (len ≤ t)) {t : ℕ}
    (ht : t < B.draftTokenNum) :
    alignProgram B mask i (i * B.draftTokenNum + t) = true ↔
      (B.seqLens i + len - 1) / B.pageSize < (B.seqLens i + t) / B.pageSize := by
  have hfalse : (B.draftTokenNum : ℤ) - ((B.draftTokenNum - len : ℕ) : ℤ) = len := by omega
  have hlast : ((B.seqLens i : ℤ) + len - 1) = ((B.seqLens i + len - 1 : ℕ) : ℤ) := by omega
  have hdiv : ((B.seqLens i : ℤ) + len - 1) / B.pageSize * B.pageSize =
      (((B.seqLens i + len - 1) / B.pageSize * B.pageSize : ℕ) : ℤ) := by
    rw [hlast]
    rfl
  have hle := Nat.div_mul_le_self (B.seqLens i + len - 1) B.pageSize
  have hlt := Nat.lt_div_mul_add hp (a := B.seqLens i + len - 1)
  simp only [alignProgram, numTrues_eq hmask, hfalse, hdiv, foldl_clear]
  rw [hmask t ht, Nat.lt_iff_add_one_le (m := (B.seqLens i + len - 1) / B.pageSize),
    Nat.le_div_iff_mul_le hp, Nat.succ_mul]
  generalize (B.seqLens i + len - 1) / B.pageSize * B.pageSize = start at hle hlt ⊢
  split
  · rename_i h
    simp only [Bool.false_eq_true, false_iff, not_le]
    omega
  · rename_i h
    rw [decide_eq_true_eq]
    omega

theorem targetProgram_eq {acc free : ℕ → ℕ} {out : ℕ → ℕ} (hacc : ∀ i < B.bs, acc i + 1 ≤ B.draftTokenNum)
    (hfree : ∀ i < B.bs, free i ≤ B.draftTokenNum) (bufs : TargetBuffers) (hi : i < B.bs) :
    targetProgram B acc free out bufs i =
      ⟨overwrite (∑ j ∈ range i, (acc j + 1)) (acc i + 1) (fun o => out (i * B.draftTokenNum + o))
          bufs.tgtCacheLoc,
        overwrite (∑ j ∈ range i, free j) (free i)
          (fun o => out (i * B.draftTokenNum + (B.draftTokenNum - free i) + o)) bufs.toFreeSlots⟩ := by
  have hwidth := DraftBatch.le_nextPowerOf2 B.draftTokenNum
  simp only [targetProgram, sumBefore_eq _ hi, sum_succ]
  rw [storeLanes_front ((hacc i hi).trans hwidth), storeLanes_front ((hfree i hi).trans hwidth)]

section Launches

variable (horder : order.Perm (List.range B.bs))

include horder

/-- The programs of a launch belong to requests of the batch. -/
theorem lt_of_mem_order (h : i ∈ order) : i < B.bs := List.mem_range.mp (horder.mem_iff.mp h)

theorem foldl_congr_order {σ : Type} {f g : σ → ℕ → σ} (h : ∀ s, ∀ i < B.bs, f s i = g s i) (s : σ) :
    order.foldl f s = order.foldl g s := by
  have hlt : ∀ i ∈ order, i < B.bs := fun i => lt_of_mem_order horder
  clear horder
  induction order generalizing s with
  | nil => rfl
  | cons i order ih =>
    rw [List.foldl_cons, List.foldl_cons, h s i (hlt i List.mem_cons_self),
      ih _ fun j hj => hlt j (List.mem_cons_of_mem _ hj)]

/-! ## 3. The rows -/

/-- **Each row gets its slots**, and nobody else's. -/
theorem assignReqToTokenPool_row (hpool : ∀ i < B.bs, ∀ j < B.bs,
      B.reqPoolIndices i = B.reqPoolIndices j → i = j)
    (startOffset endOffset : ℕ → ℕ) (out : List ℕ) (rows : ℕ → ℕ → ℕ) (hi : i < B.bs) :
    assignReqToTokenPool B order startOffset endOffset out rows (B.reqPoolIndices i) =
      overwrite (startOffset i) (endOffset i - startOffset i)
        (fun o => out.getD (∑ j ∈ range i, (endOffset j - startOffset j) + o) 0)
        (rows (B.reqPoolIndices i)) := by
  have hnd : order.Nodup := horder.nodup_iff.mpr List.nodup_range
  have happart : KeepsApart (fun (rows : ℕ → ℕ → ℕ) a => rows a)
      (fun i rows => assignProgram B startOffset endOffset (out.getD · 0) rows i)
      (fun i a => a = B.reqPoolIndices i) order := by
    refine ⟨fun i _ rows a ha => Function.update_of_ne ha _ _, fun i _ rows rows' h a ha => ?_,
      fun i hi j hj a ha hb => ?_⟩
    · subst ha
      have hrow : rows (B.reqPoolIndices i) = rows' (B.reqPoolIndices i) := h _ rfl
      simp [assignProgram, hrow]
    · exact hpool i (lt_of_mem_order horder hi) j (lt_of_mem_order horder hj) (ha.symm.trans hb)
  have hmem : i ∈ order := horder.mem_iff.mpr (List.mem_range.mpr hi)
  have h := happart.foldl_eq_alone hnd rows hmem (a := B.reqPoolIndices i) rfl
  refine h.trans ?_
  simp only [assignProgram, Function.update_self]
  rw [storeBlocks_eq_overwrite (by decide)]
  simp [sumBefore_eq _ hi]

/-! ## 4. The mask -/

/-- **The aligned mask**: a draft position is masked if its page begins behind the last kept position. -/
theorem alignEvictMask_iff (hp : 0 < B.pageSize) {mask : ℕ → Bool} {len : ℕ → ℕ}
    (hpos : ∀ i < B.bs, 0 < len i) (hlen : ∀ i < B.bs, len i ≤ B.draftTokenNum)
    (hmask : ∀ i < B.bs, ∀ t < B.draftTokenNum,
      mask (i * B.draftTokenNum + t) = decide (len i ≤ t)) (hi : i < B.bs) {t : ℕ}
    (ht : t < B.draftTokenNum) :
    alignEvictMask B order mask (i * B.draftTokenNum + t) = true ↔
      (B.seqLens i + len i - 1) / B.pageSize < (B.seqLens i + t) / B.pageSize := by
  have hnd : order.Nodup := horder.nodup_iff.mpr List.nodup_range
  have happart : KeepsApart (fun (mask : ℕ → Bool) a => mask a) (fun i mask => alignProgram B mask i)
      (fun i a => i * B.draftTokenNum ≤ a ∧ a < i * B.draftTokenNum + B.draftTokenNum) order := by
    refine ⟨fun i _ mask a ha => ?_, fun i _ mask mask' h a ha => ?_, fun i _ j _ a ha hb => ?_⟩
    · simp only [alignProgram, foldl_clear]
      rw [if_neg (by omega)]
    · have hsame : ∀ t, t < B.draftTokenNum →
          mask (i * B.draftTokenNum + t) = mask' (i * B.draftTokenNum + t) := fun t ht =>
        h _ ⟨Nat.le_add_right _ _, by omega⟩
      have hsum : (∑ t ∈ range (nextPowerOf2 B.draftTokenNum),
            if t < B.draftTokenNum ∧ mask (i * B.draftTokenNum + t) then 1 else 0) =
          ∑ t ∈ range (nextPowerOf2 B.draftTokenNum),
            if t < B.draftTokenNum ∧ mask' (i * B.draftTokenNum + t) then 1 else 0 := by
        refine sum_congr rfl fun t _ => if_congr (and_congr_right fun ht => ?_) rfl rfl
        rw [hsame t ht]
      simp [alignProgram, hsum, foldl_clear, h a ha]
    · have hrow : ∀ i, i * B.draftTokenNum ≤ a ∧ a < i * B.draftTokenNum + B.draftTokenNum →
          a / B.draftTokenNum = i := fun i ha => by
        obtain ⟨k, rfl⟩ := Nat.exists_eq_add_of_le ha.1
        exact tile_div i (by omega)
      exact (hrow i ha).symm.trans (hrow j hb)
  have hmem : i ∈ order := horder.mem_iff.mpr (List.mem_range.mpr hi)
  have h := happart.foldl_eq_alone hnd mask hmem (a := i * B.draftTokenNum + t) (by omega)
  have hprogram := alignProgram_iff hp (hpos i hi) (hlen i hi) (hmask i hi) ht
  exact (Bool.eq_iff_iff.mp h).trans hprogram

/-! ## 5. The parts of the rows -/

section Target

variable {acc free : ℕ → ℕ} {out : ℕ → ℕ} (hacc : ∀ i < B.bs, acc i + 1 ≤ B.draftTokenNum)
  (hfree : ∀ i < B.bs, free i ≤ B.draftTokenNum)

include hacc hfree

theorem getTargetCacheLoc_eq (bufs : TargetBuffers) :
    getTargetCacheLoc B order acc free out bufs =
      ⟨order.foldl (fun m i => overwrite (∑ j ∈ range i, (acc j + 1)) (acc i + 1)
          (fun o => out (i * B.draftTokenNum + o)) m) bufs.tgtCacheLoc,
        order.foldl (fun m i => overwrite (∑ j ∈ range i, free j) (free i)
          (fun o => out (i * B.draftTokenNum + (B.draftTokenNum - free i) + o)) m) bufs.toFreeSlots⟩ := by
  rw [getTargetCacheLoc, foldl_congr_order horder fun bufs i hi => targetProgram_eq hacc hfree bufs hi]
  clear horder
  induction order generalizing bufs with
  | nil => rfl
  | cons i order ih => exact ih _

/-- **The front of each row** goes to `tgt_cache_loc`. -/
theorem contents_tgtCacheLoc (bufs : TargetBuffers) :
    contents (∑ i ∈ range B.bs, (acc i + 1)) (getTargetCacheLoc B order acc free out bufs).tgtCacheLoc =
      (List.range B.bs).flatMap fun i =>
        (List.range (acc i + 1)).map fun o => out (i * B.draftTokenNum + o) := by
  rw [getTargetCacheLoc_eq horder hacc hfree]
  exact map_foldl_packed (fun i => acc i + 1) _ horder _

/-- **The end of each row** goes to `to_free_slots`. -/
theorem contents_toFreeSlots (bufs : TargetBuffers) :
    contents (∑ i ∈ range B.bs, free i) (getTargetCacheLoc B order acc free out bufs).toFreeSlots =
      (List.range B.bs).flatMap fun i => (List.range (free i)).map fun o =>
        out (i * B.draftTokenNum + (B.draftTokenNum - free i) + o) := by
  rw [getTargetCacheLoc_eq horder hacc hfree]
  exact map_foldl_packed free _ horder _

end Target

/-! ## 6. The unfinished requests -/

/-- **The slots of the unfinished requests**, request by request. -/
theorem contents_filterFinishedCacheLoc {tgt : ℕ → ℕ} {acc : ℕ → ℕ} {unfinished : List ℕ}
    (hsorted : unfinished.Sublist (List.range B.bs)) (hacc : ∀ i < B.bs, acc i + 1 ≤ B.draftTokenNum)
    (out : ℕ → ℕ) :
    contents (unfinished.length + (unfinished.map acc).sum)
        (filterFinishedCacheLoc B order tgt acc (createNumAcceptedDraftsFilter acc unfinished) out) =
      unfinished.flatMap fun i =>
        (List.range (acc i + 1)).map fun o => tgt (∑ j ∈ range i, (acc j + 1) + o) := by
  have hwidth := DraftBatch.le_nextPowerOf2 B.draftTokenNum
  have hprogram : ∀ m : ℕ → ℕ, ∀ i < B.bs,
      filterProgram B tgt acc (createNumAcceptedDraftsFilter acc unfinished) m i =
        overwrite (∑ j ∈ range i, createNumAcceptedDraftsFilter acc unfinished j)
          (createNumAcceptedDraftsFilter acc unfinished i)
          (fun o => tgt (∑ j ∈ range i, (acc j + 1) + o)) m := by
    intro m i hi
    simp only [filterProgram, sumBefore_eq _ hi, sum_succ]
    refine storeLanes_front (le_trans ?_ hwidth)
    rw [createNumAcceptedDraftsFilter]
    split
    · exact hacc i hi
    · exact Nat.zero_le _
  have hfilter : unfinished = (List.range B.bs).filter (· ∈ unfinished) := by
    have hsub : ((List.range B.bs).filter (· ∈ unfinished)).Perm unfinished :=
      (List.perm_ext_iff_of_nodup (List.nodup_range.filter _) (hsorted.nodup List.nodup_range)).mpr
        fun j => by
          rw [List.mem_filter, decide_eq_true_eq, and_iff_right_iff_imp]
          exact fun hj => hsorted.subset hj
    exact List.Perm.eq_of_pairwise (fun _ _ _ _ h h' => absurd h (Nat.lt_asymm h'))
      (List.pairwise_lt_range.sublist hsorted)
      (List.pairwise_lt_range.sublist List.filter_sublist) hsub.symm
  have hsum : unfinished.length + (unfinished.map acc).sum =
      ∑ i ∈ range B.bs, createNumAcceptedDraftsFilter acc unfinished i := by
    have hlist : ∀ l : List ℕ, l.length + (l.map acc).sum = (l.map fun i => acc i + 1).sum := by
      intro l
      induction l with
      | nil => rfl
      | cons j l ih =>
        rw [List.length_cons, List.map_cons, List.sum_cons, List.map_cons, List.sum_cons]
        omega
    have hif : ∀ l : List ℕ, ((l.filter (· ∈ unfinished)).map fun i => acc i + 1).sum =
        (l.map (createNumAcceptedDraftsFilter acc unfinished)).sum := by
      intro l
      induction l with
      | nil => rfl
      | cons j l ih =>
        rw [List.map_cons, List.sum_cons, ← ih, createNumAcceptedDraftsFilter]
        by_cases hj : j ∈ unfinished
        · rw [List.filter_cons_of_pos (by simpa using hj), List.map_cons, List.sum_cons, if_pos hj]
        · rw [List.filter_cons_of_neg (by simpa using hj), if_neg hj, Nat.zero_add]
    rw [hlist, hfilter, hif, ← hfilter]
    rfl
  rw [filterFinishedCacheLoc, foldl_congr_order horder hprogram, hsum]
  refine (map_foldl_packed _ _ horder _).trans ?_
  conv_rhs => rw [hfilter]
  induction List.range B.bs with
  | nil => rfl
  | cons j l ih =>
    rw [List.flatMap_cons, ih, createNumAcceptedDraftsFilter]
    by_cases hj : j ∈ unfinished
    · rw [List.filter_cons_of_pos (by simpa using hj), List.flatMap_cons, if_pos hj]
    · rw [List.filter_cons_of_neg (by simpa using hj), if_neg hj]
      rfl

end Launches

/-! ## 7. The copy -/

section Move

variable {env : LaunchEnv B.bs} {tgtLoc srcLoc : List ℕ} {kv : ℕ → β} {a b : ℕ}

theorem flatten_chunks (env : LaunchEnv B.bs) (pairs : List (ℕ × ℕ)) :
    ((List.range ((pairs.length + env.numLocsUpper - 1) / env.numLocsUpper)).map fun i =>
      (pairs.drop (i * env.numLocsUpper)).take env.numLocsUpper).flatten = pairs :=
  flatten_pieces env.numLocsUpper_pos pairs

/-- **The copy takes each value to its place**, when it goes forward. -/
theorem moveKvCache_of_mem (hforward : Forward (tgtLoc.zip srcLoc)) (h : (a, b) ∈ tgtLoc.zip srcLoc) :
    moveKvCache env tgtLoc srcLoc kv a = kv b := by
  rw [moveKvCache]
  split
  · exact copyAll_of_mem (hforward.imp fun h => h.1) h
  · rw [← flatten_chunks env (tgtLoc.zip srcLoc)] at h hforward
    exact copyChunks_of_mem hforward h

theorem moveKvCache_of_ne (h : ∀ p ∈ tgtLoc.zip srcLoc, p.1 ≠ a) :
    moveKvCache env tgtLoc srcLoc kv a = kv a := by
  rw [moveKvCache]
  split
  · exact copyAll_of_ne h
  · rw [← flatten_chunks env (tgtLoc.zip srcLoc)] at h
    exact copyChunks_of_ne h

end Move

end EagleVerify

end Sglang
