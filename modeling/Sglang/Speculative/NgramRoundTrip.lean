/-
# A draft tree survives its mask

Both sides of the encoding against the tree it stands for.  `Masks` says what the mask of a tree over
positions is: a position is marked in the row of another when it is on its path.  Filling produces such
a mask row by row, each from the row of a smaller position; truncating moves the rows together and
keeps it; and the three scans of the kernel over such a mask find the depth, the first child and the next
sibling.
-/
import Sglang.Speculative.NgramMask

namespace Sglang

open Lib Lib.ParentTree List

namespace NgramResult

/-! ## 1. Cells of a square -/

section Cells

variable {n i j k l len : ℕ}

theorem cell_lt (hi : i < n) (hj : j < n) : i * n + j < n * n :=
  calc i * n + j < i * n + n := Nat.add_lt_add_left hj _
    _ = (i + 1) * n := (Nat.succ_mul i n).symm
    _ ≤ n * n := Nat.mul_le_mul_right n hi

/-- A cell lies in the first `len` cells of a row when it has this row and such a column. -/
theorem mem_row_iff (hj : j < n) (hlen : len ≤ n) :
    k * n ≤ i * n + j ∧ i * n + j < k * n + len ↔ i = k ∧ j < len := by
  constructor
  · rintro ⟨h1, h2⟩
    have hik : i = k := by
      rcases Nat.lt_trichotomy i k with h | h | h
      · have := Nat.mul_le_mul_right n (Nat.succ_le_of_lt h)
        rw [Nat.succ_mul] at this
        omega
      · exact h
      · have := Nat.mul_le_mul_right n (Nat.succ_le_of_lt h)
        rw [Nat.succ_mul] at this
        omega
    subst hik
    exact ⟨rfl, by omega⟩
  · rintro ⟨rfl, h⟩
    exact ⟨Nat.le_add_right _ _, Nat.add_lt_add_left h _⟩

theorem cell_eq_iff (hj : j < n) (hl : l < n) : i * n + j = k * n + l ↔ i = k ∧ j = l := by
  constructor
  · intro h
    have hrow : k * n ≤ i * n + j ∧ i * n + j < k * n + (l + 1) := by omega
    have hik : i = k := ((mem_row_iff hj hl).mp hrow).1
    subst hik
    exact ⟨rfl, by omega⟩
  · rintro ⟨rfl, rfl⟩
    rfl

end Cells

/-! ## 2. The mask of a tree -/

/-- The mask of a tree over positions: `n` rows, each marking the position and its ancestors. -/
structure Masks (parent : ℕ → ℕ) (n : ℕ) (mask : List Bool) : Prop where
  length : mask.length = n * n
  row : ∀ i < n, ∀ j < n, mask.getD (i * n + j) false = decide (j ∈ path parent i)

/-- The parent written down for a position. -/
def parentOf (prevs : List ℤ) (p : ℕ) : ℕ := (prevs.getD p 0).toNat

section Fill

variable {prevs : List ℤ} {n : ℕ} {mask : List Bool}

/-- What the loop over the rows keeps: the rows so far are done, the others blank. -/
structure RowsDone (parent : ℕ → ℕ) (n k : ℕ) (mask : List Bool) : Prop where
  length : mask.length = n * n
  row : ∀ i < n, ∀ j < n, mask.getD (i * n + j) false
    = if i < k then decide (j ∈ path parent i) else decide (i = 0 ∧ j = 0)

theorem rowsDone_start (parent : ℕ → ℕ) (h0 : 0 < n) :
    RowsDone parent n 0 ((List.replicate (n * n) false).set 0 true) := by
  refine ⟨by rw [length_set, length_replicate], fun i hi j hj => ?_⟩
  rw [getD_set _ (by rw [length_replicate]; exact Nat.mul_pos h0 h0), if_neg (Nat.not_lt_zero i)]
  have hz : i * n + j = 0 ↔ i = 0 ∧ j = 0 := by
    simpa using cell_eq_iff (i := i) (k := 0) hj h0
  by_cases h : i = 0 ∧ j = 0
  · rw [if_pos (hz.mpr h), decide_eq_true h]
  · rw [if_neg (fun e => h (hz.mp e)), decide_eq_false h]
    rw [getD_eq_getElem?_getD, getElem?_replicate]
    split <;> rfl

/-- What the listing says about the entry of a position. -/
def Written (prevs : List ℤ) : Prop :=
  prevs.getD 0 0 = -1 ∧ ∀ p, 0 < p → p < prevs.length → ∃ k < p, prevs[p]? = some (k : ℤ)

theorem Written.falls (h : Written prevs) : Falls (parentOf prevs) prevs.length := by
  intro p h0 hp
  obtain ⟨k, hk, hget⟩ := h.2 p h0 hp
  simpa [parentOf, getD_eq_getElem?_getD, hget] using hk

/-- **One row of the mask**, from the row of the parent. -/
theorem RowsDone.fillRow (h : Written prevs) {k : ℕ} (hk : k < prevs.length)
    (hr : RowsDone (parentOf prevs) prevs.length k mask) :
    RowsDone (parentOf prevs) prevs.length (k + 1) (fillRow prevs.length prevs mask k) := by
  have hcell : ∀ j < prevs.length, k * prevs.length + j < mask.length := fun j hj => by
    rw [hr.length]; exact cell_lt hk hj
  rcases Nat.eq_zero_or_pos k with rfl | h0
  · have hprev : prevs.getD 0 (-1) = -1 := by
      have := h.1
      rw [getD_eq_getElem?_getD, getElem?_eq_getElem hk] at this ⊢
      exact this
    have hset : NgramResult.fillRow prevs.length prevs mask 0 = mask.set 0 true := by
      unfold NgramResult.fillRow
      simp only [hprev, ne_eq, not_true_eq_false, if_false, Nat.zero_mul, Nat.add_zero]
    refine ⟨by rw [hset, length_set, hr.length], fun i hi j hj => ?_⟩
    have hz : i * prevs.length + j = 0 ↔ i = 0 ∧ j = 0 := by
      simpa using cell_eq_iff (i := i) (k := 0) hj hk
    rw [hset, getD_set _ (by simpa using hcell 0 hk), hr.row i hi j hj, if_neg (Nat.not_lt_zero i)]
    rcases Nat.eq_zero_or_pos i with rfl | hi0
    · by_cases hj0 : j = 0
      · simp [hj0]
      · simp [hj0]
    · rw [if_neg (fun e => by have := (hz.mp e).1; omega), if_neg (by omega)]
  · obtain ⟨p, hp, hget⟩ := h.2 k h0 hk
    have hparent : parentOf prevs k = p := by
      simp [parentOf, getD_eq_getElem?_getD, hget]
    have hpl : p < prevs.length := by omega
    have hrow : NgramResult.fillRow prevs.length prevs mask k
        = (memcpy mask (k * prevs.length) (p * prevs.length) (p + 1)).set
            (k * prevs.length + k) true := by
      simp [NgramResult.fillRow, getD_eq_getElem?_getD, hget]
    have hend : p * prevs.length + (p + 1) ≤ k * prevs.length :=
      calc p * prevs.length + (p + 1) ≤ (p + 1) * prevs.length := by rw [Nat.succ_mul]; omega
        _ ≤ k * prevs.length := Nat.mul_le_mul_right _ hp
    have hcopy := getD_memcpy mask (k * prevs.length) (p * prevs.length) (p + 1) (Or.inr hend)
      (by have := hcell p hpl; omega)
    rw [hrow]
    refine ⟨by rw [length_set, length_memcpy, hr.length], fun i hi j hj => ?_⟩
    rw [getD_set _ (by rw [length_memcpy]; exact hcell k hk), hcopy,
      if_congr (cell_eq_iff hj hk) rfl rfl, if_congr (mem_row_iff hj hpl) rfl rfl, hr.row i hi j hj]
    by_cases hik : i = k
    · subst hik
      rw [if_pos (Nat.lt_succ_self i), if_neg (Nat.lt_irrefl i)]
      have hmem := mem_path_iff (j := j) h.falls h0 hi
      rw [hparent] at hmem
      by_cases hji : j = i
      · rw [if_pos ⟨rfl, hji⟩, decide_eq_true (hmem.mpr (Or.inl hji))]
      · rw [if_neg (fun e => hji e.2)]
        by_cases hjp : j < p + 1
        · rw [if_pos ⟨rfl, hjp⟩, Nat.add_sub_cancel_left, hr.row p hpl j hj, if_pos hp]
          exact decide_eq_decide.mpr (by rw [hmem]; simp [hji])
        · rw [if_neg (fun e => hjp e.2)]
          have hno : ¬ j ∈ path (parentOf prevs) i := fun hm => by
            have := le_of_mem_path h.falls p hpl j ((hmem.mp hm).resolve_left hji)
            omega
          rw [decide_eq_false hno, decide_eq_false (by omega)]
    · rw [if_neg (fun e => hik e.1), if_neg (fun e => hik e.1)]
      by_cases hlt : i < k
      · rw [if_pos hlt, if_pos (by omega)]
      · rw [if_neg hlt, if_neg (by omega)]

/-- **The mask of a listing is the mask of its tree.** -/
theorem fillMask_masks (h : Written prevs) (h0 : 0 < prevs.length) :
    Masks (parentOf prevs) prevs.length (fillMask prevs) := by
  have hrun : ∀ k ≤ prevs.length, RowsDone (parentOf prevs) prevs.length k
      ((List.range k).foldl (NgramResult.fillRow prevs.length prevs)
        ((List.replicate (prevs.length * prevs.length) false).set 0 true)) := by
    intro k
    induction k with
    | zero => exact fun _ => rowsDone_start _ h0
    | succ k ih =>
      intro hk
      rw [range_succ, foldl_append]
      exact (ih (by omega)).fillRow h hk
  have hdone := hrun _ (Nat.le_refl _)
  exact ⟨hdone.length, fun i hi j hj => (hdone.row i hi j hj).trans (if_pos hi)⟩

end Fill

/-! ## 3. Truncating -/

section Truncate

variable {parent : ℕ → ℕ} {full n : ℕ} {mask : List Bool}

/-- What the loop over the rows keeps: the rows so far are moved, the others in place. -/
structure RowsMoved (parent : ℕ → ℕ) (full n k : ℕ) (mask : List Bool) : Prop where
  length : mask.length = full * full
  moved : ∀ i < k, ∀ j < n, mask.getD (i * n + j) false = decide (j ∈ path parent i)
  rest : ∀ i, k ≤ i → i < n → ∀ j < n, mask.getD (i * full + j) false = decide (j ∈ path parent i)

/-- **One row of the truncation.**  Its copy may run over its own source, never over a row to come. -/
theorem RowsMoved.step (hn : n < full) {k : ℕ} (hk : k < n) (hr : RowsMoved parent full n k mask) :
    RowsMoved parent full n (k + 1) (memcpy mask (k * n) (k * full) n) := by
  have hle : k * n ≤ k * full := Nat.mul_le_mul_left k hn.le
  have hend : k * n + n ≤ full * full :=
    calc k * n + n = (k + 1) * n := (Nat.succ_mul k n).symm
      _ ≤ n * n := Nat.mul_le_mul_right n hk
      _ ≤ full * full := Nat.mul_le_mul hn.le hn.le
  have hcopy := getD_memcpy mask (k * n) (k * full) n (Or.inl hle) (by rw [hr.length]; exact hend)
  refine ⟨by rw [length_memcpy, hr.length], fun i hi j hj => ?_, fun i hki hi j hj => ?_⟩
  · rw [hcopy, if_congr (mem_row_iff hj (Nat.le_refl n)) rfl rfl]
    by_cases hik : i = k
    · rw [if_pos ⟨hik, hj⟩, hik, Nat.add_sub_cancel_left, hr.rest k (Nat.le_refl k) hk j hj]
    · rw [if_neg (fun e => hik e.1), hr.moved i (by omega) j hj]
  · have hbelow : k * n + n ≤ i * full + j :=
      calc k * n + n = (k + 1) * n := (Nat.succ_mul k n).symm
        _ ≤ i * full := Nat.mul_le_mul hki hn.le
        _ ≤ i * full + j := Nat.le_add_right _ _
    rw [hcopy, if_neg (by omega), hr.rest i (by omega) hi j hj]

/-- **Truncation restricts the tree** to its first positions. -/
theorem Masks.truncate {r : NgramResult} (h : Masks parent r.token.length r.mask) {n : ℕ}
    (hn : n ≤ r.token.length) :
    (r.truncate n).token = r.token.take n ∧ Masks parent n (r.truncate n).mask := by
  rcases Nat.lt_or_eq_of_le hn with hlt | rfl
  · have hrun : ∀ k, k + 1 ≤ n → RowsMoved parent r.token.length n (k + 1)
        ((List.range' 1 k).foldl (fun mask i => memcpy mask (i * n) (i * r.token.length) n) r.mask) := by
      intro k
      induction k with
      | zero =>
        refine fun h1 => ⟨h.length, fun i hi j hj => ?_, fun i _ hi j hj => ?_⟩
        · obtain rfl : i = 0 := by omega
          simpa using h.row 0 (by omega) j (by omega)
        · exact h.row i (by omega) j (by omega)
      | succ k ih =>
        intro hk
        rw [range'_1_concat, foldl_append, Nat.add_comm 1 k]
        exact (ih (by omega)).step hlt hk
    have hle : n * n ≤ r.token.length * r.token.length := Nat.mul_le_mul hn hn
    unfold NgramResult.truncate
    rw [if_pos hlt]
    refine ⟨rfl, ?_⟩
    rcases Nat.eq_zero_or_pos n with rfl | h0
    · exact ⟨by simp, fun i hi => absurd hi (Nat.not_lt_zero i)⟩
    · have hdone := hrun (n - 1) (by omega)
      rw [Nat.sub_add_cancel h0] at hdone
      refine ⟨?_, fun i hi j hj => ?_⟩
      · rw [length_take, hdone.length, Nat.min_eq_left hle]
      · have := hdone.moved i hi j hj
        rw [getD_eq_getElem?_getD] at this ⊢
        rw [getElem?_take_of_lt (cell_lt hi hj)]
        exact this
  · rw [NgramResult.truncate, if_neg (Nat.lt_irrefl _)]
    exact ⟨take_length.symm, h⟩

end Truncate

end NgramResult

/-! ## 4. Reading back -/

namespace TreeIndices

variable {treeMask : ℕ → Bool} {parent : ℕ → ℕ} {n bid tid : ℕ}

/-- The block of a request holds the mask of a tree. -/
def Holds (treeMask : ℕ → Bool) (parent : ℕ → ℕ) (n bid : ℕ) : Prop :=
  ∀ i < n, ∀ j < n, bit treeMask n bid i j = decide (j ∈ path parent i)

/-- The first position behind `tid` with the property, `-1` if there is none. -/
def IsFirst (n tid : ℕ) (P : ℕ → Prop) (r : ℤ) : Prop :=
  (r = -1 ∧ ∀ i, tid < i → i < n → ¬ P i) ∨
    ∃ i : ℕ, r = i ∧ tid < i ∧ i < n ∧ P i ∧ ∀ k, tid < k → k < i → ¬ P k

theorem firstRow_isFirst (test : ℕ → Bool) : IsFirst n tid (fun i => test i = true)
    (firstRow n tid test) := by
  unfold firstRow
  cases hf : (List.range' (tid + 1) (n - (tid + 1))).find? test with
  | none =>
    refine Or.inl ⟨rfl, fun i h1 h2 => ?_⟩
    exact find?_eq_none.mp hf i (by rw [mem_range'_1]; omega)
  | some i =>
    have hi := mem_of_find?_eq_some hf
    rw [mem_range'_1] at hi
    refine Or.inr ⟨i, rfl, by omega, by omega, find?_some hf, fun k h1 h2 => ?_⟩
    obtain ⟨-, as, bs, hl, has⟩ := find?_eq_some_iff_append.mp hf
    have hk : k ∈ List.range' (tid + 1) (n - (tid + 1)) := by rw [mem_range'_1]; omega
    have hsorted : (as ++ i :: bs).Pairwise (· < ·) := hl ▸ pairwise_lt_range'
    rw [hl, mem_append, mem_cons] at hk
    rcases hk with hk | rfl | hk
    · simpa using has k hk
    · exact absurd h2 (Nat.lt_irrefl _)
    · have := (pairwise_cons.mp (pairwise_append.mp hsorted).2.1).1 k hk
      omega

theorem IsFirst.congr {P Q : ℕ → Prop} {r : ℤ} (h : IsFirst n tid P r)
    (hpq : ∀ i, tid < i → i < n → (∀ k, tid < k → k < i → ¬ P k) → (P i ↔ Q i))
    (hqp : ∀ i, tid < i → i < n → Q i → P i) : IsFirst n tid Q r := by
  rcases h with ⟨rfl, hno⟩ | ⟨i, rfl, h1, h2, hi, hfirst⟩
  · exact Or.inl ⟨rfl, fun i h1 h2 hq => hno i h1 h2 (hqp i h1 h2 hq)⟩
  · exact Or.inr ⟨i, rfl, h1, h2, (hpq i h1 h2 hfirst).mp hi,
      fun k hk hki hq => hfirst k hk hki (hqp k hk (by omega) hq)⟩

theorem scanRow_fst : ∀ (k d : ℕ) (p : ℤ), (scanRow treeMask n bid tid k (d, p)).1
    = d + ((List.range k).filter (bit treeMask n bid tid)).length
  | 0, d, p => rfl
  | k + 1, d, p => by
    rw [scanRow, range_succ, filter_append]
    cases hb : bit treeMask n bid tid k with
    | true => rw [scanRow_fst k, filter_singleton, hb]; simp; omega
    | false => rw [scanRow_fst k, filter_singleton, hb]; simp

/-- A parent once found stays. -/
theorem scanRow_snd_of_ne {p : ℤ} (hp : p ≠ -1) : ∀ (k d : ℕ),
    (scanRow treeMask n bid tid k (d, p)).2 = p
  | 0, _ => rfl
  | k + 1, d => by
    rw [scanRow]
    split
    · exact scanRow_snd_of_ne hp k _
    · exact scanRow_snd_of_ne hp k _

/-- **The scan finds the parent.** -/
theorem scanRow_snd (hf : Falls parent n) (hm : Holds treeMask parent n bid) (h0 : 0 < tid)
    (htid : tid < n) : ∀ k ≤ tid, parent tid < k → ∀ d,
      (scanRow treeMask n bid tid k (d, -1)).2 = parent tid
  | 0, _, h, _ => absurd h (Nat.not_lt_zero _)
  | k + 1, hk, h, d => by
    rw [scanRow, hm tid htid k (by omega)]
    rcases Nat.lt_or_eq_of_le (Nat.le_of_lt_succ h) with hlt | rfl
    · rw [if_neg (by simpa using not_mem_path_of_between hf htid hlt hk)]
      exact scanRow_snd hf hm h0 htid k (by omega) hlt d
    · rw [if_pos (by simpa using parent_mem_path hf h0 htid)]
      exact scanRow_snd_of_ne (by omega) _ _

/-- **The scan finds the depth.** -/
theorem scanRow_depth (hf : Falls parent n) (hm : Holds treeMask parent n bid) (htid : tid < n)
    (p : ℤ) : (scanRow treeMask n bid tid tid (0, p)).1 = depth parent tid := by
  have hnd := nodup_path hf tid htid
  have hperm : ((List.range tid).filter (bit treeMask n bid tid)).Perm
      ((path parent tid).erase tid) := by
    refine (perm_ext_iff_of_nodup (nodup_range.filter _) (hnd.erase tid)).mpr fun i => ?_
    rw [mem_filter, mem_range, hnd.mem_erase_iff]
    constructor
    · rintro ⟨hi, hb⟩
      rw [hm tid htid i (by omega)] at hb
      exact ⟨by omega, of_decide_eq_true hb⟩
    · rintro ⟨hne, hmem⟩
      have hle := le_of_mem_path hf tid htid i hmem
      exact ⟨by omega, by rw [hm tid htid i (by omega)]; exact decide_eq_true hmem⟩
  rw [scanRow_fst, hperm.length_eq, length_erase_of_mem (mem_path_self tid), Nat.zero_add, depth]

theorem isSibling_iff (hf : Falls parent n) (hm : Holds treeMask parent n bid) {p i : ℕ} (hp : p < i)
    (hi : i < n) : isSibling treeMask n bid p i = true ↔ parent i = p := by
  rw [parent_eq_iff hf hi hp, isSibling, Bool.and_eq_true, Bool.not_eq_true', hm i hi p (by omega),
    decide_eq_true_eq, any_eq_false]
  refine and_congr_right fun _ => ⟨fun h k h1 h2 hk => ?_, fun h k hk => ?_⟩
  · refine h k (by rw [mem_range'_1]; omega) ?_
    rw [hm i hi k (by omega)]
    exact decide_eq_true hk
  · rw [mem_range'_1] at hk
    rw [hm i hi k (by omega), decide_eq_true_eq]
    exact h k (by omega) (by omega)

/-- What a thread should write: the depth, the first child and the next sibling of its position. -/
structure Reads (parent : ℕ → ℕ) (n bid tid verifiedLen : ℕ) (t : TreeIndices) : Prop where
  position : t.position = verifiedLen + depth parent tid
  retriveIndex : t.retriveIndex = bid * n + tid
  retriveNextToken : IsFirst n tid (fun i => parent i = tid) t.retriveNextToken
  retriveNextSibling :
    IsFirst n tid (fun i => 0 < tid ∧ parent i = parent tid) t.retriveNextSibling

/-- **A thread reads the tree at its position.** -/
theorem reconstruct_reads (hf : Falls parent n) (hm : Holds treeMask parent n bid) (htid : tid < n)
    (verifiedSeqLen : ℕ → ℕ) : Reads parent n bid tid (verifiedSeqLen bid)
      (reconstruct treeMask n bid tid verifiedSeqLen) := by
  refine ⟨?_, rfl, ?_, ?_⟩
  · exact (congrArg (· + verifiedSeqLen bid) (scanRow_depth hf hm htid (-1))).trans (Nat.add_comm _ _)
  · refine (firstRow_isFirst _).congr (fun i h1 h2 hfirst => ?_) (fun i h1 h2 hq => ?_)
    · rw [hm i h2 tid htid, decide_eq_true_eq]
      constructor
      · refine fun hmem => parent_eq_of_first hf h2 h1 hmem fun k hk hki hkm => ?_
        exact hfirst k hk hki (by rw [hm k (by omega) tid htid]; exact decide_eq_true hkm)
      · rintro rfl
        exact parent_mem_path hf (by omega) h2
    · rw [hm i h2 tid htid, decide_eq_true_eq, ← hq]
      exact parent_mem_path hf (by omega) h2
  · rcases Nat.eq_zero_or_pos tid with rfl | h0
    · exact Or.inl ⟨rfl, fun i _ _ h => absurd h.1 (Nat.lt_irrefl 0)⟩
    · have hlt := hf tid h0 htid
      have hsnd := scanRow_snd hf hm h0 htid tid (Nat.le_refl _) hlt 0
      rw [reconstruct]
      simp only [hsnd]
      refine (firstRow_isFirst _).congr (fun i h1 h2 _ => ?_) (fun i h1 h2 hq => ?_)
      · rw [isSibling_iff hf hm (by omega) h2]
        exact (and_iff_right h0).symm
      · exact (isSibling_iff hf hm (by omega) h2).mpr hq.2

end TreeIndices

/-! ## 5. The round trip -/

namespace NgramResult

variable {tree : List NgramNode} {root size : ℕ}

/-- What the positions stand for: the nodes of the tree breadth first, then padding below the root. -/
structure Lists (tree : List NgramNode) (root size : ℕ) (lastToken : ℤ) (draftTokenNum : ℕ)
    (order : List ℕ) (token : List ℤ) (parent : ℕ → ℕ) : Prop where
  breadthFirst : BreadthFirst tree root order
  nodup : order.Nodup
  mem_iff : ∀ i, i ∈ order ↔ i < size
  token_eq : token = (lastToken :: order.flatMap fun i => (entries tree i).map Prod.fst)
    ++ List.replicate (draftTokenNum - size) 0
  length_token : token.length = draftTokenNum
  parent_lt : Falls parent draftTokenNum
  child : ∀ p, 0 < p → p < size → ∃ i c, order[parent p]? = some i ∧ order[p]? = some c ∧
    c ∈ kids tree i
  padding : ∀ p, size ≤ p → p < draftTokenNum → parent p = 0

/-- **Filling lists the tree and masks it.** -/
theorem fillResult_lists (h : HoldsTree tree root size) (lastToken : ℤ) {draftTokenNum : ℕ}
    (hsize : size ≤ draftTokenNum) :
    ∃ res order parent, fillResult lastToken draftTokenNum tree root = some res ∧
      Lists tree root size lastToken draftTokenNum order res.token parent ∧
      Masks parent draftTokenNum res.mask := by
  obtain ⟨order, token, prevs, hloop, hl, hnd, hlt⟩ :=
    fillLoop_spec h (tree.length + 1) [root] _ _ _ (listing_start tree root lastToken)
      (nodup_singleton root) (by simpa using h.root_lt) Nat.one_pos
      (by have := h.size_le; simp only [length_singleton]; omega)
  have hbf : BreadthFirst tree root order := by simpa [BreadthFirst] using hl.nodes
  have hmem : ∀ i, i ∈ order ↔ i < size := fun i => ⟨hlt i, h.mem_order hbf⟩
  have hlen : order.length = size := by
    have hperm : order.Perm (List.range size) :=
      (perm_ext_iff_of_nodup hnd nodup_range).mpr fun i => by
        rw [hmem, mem_range]
    simpa using hperm.length_eq
  have hpos : 0 < order.length := by rw [hbf]; exact Nat.succ_pos _
  obtain ⟨pad, hpad⟩ : ∃ pad, pad = List.replicate (draftTokenNum - prevs.length) (0 : ℤ) := ⟨_, rfl⟩
  have hplen : (prevs ++ pad).length = draftTokenNum := by
    rw [hpad, length_append, length_replicate, hl.length_prevs]
    omega
  have hpadded : ∀ p, size ≤ p → p < draftTokenNum → (prevs ++ pad)[p]? = some ((0 : ℕ) : ℤ) :=
    fun p h1 h2 => by
      rw [hpad, getElem?_append_right (by rw [hl.length_prevs]; omega),
        getElem?_replicate, if_pos (by rw [hl.length_prevs]; omega)]
      rfl
  have hhead : ∀ p, p < size → (prevs ++ pad)[p]? = prevs[p]? := fun p hp =>
    getElem?_append_left (by rw [hl.length_prevs]; omega)
  have hwritten : Written (prevs ++ pad) := by
    refine ⟨?_, fun p h0 hp => ?_⟩
    · have hfirst := congrArg List.head? hl.prevs_eq
      rw [map_nil, append_nil, head?_eq_getElem?] at hfirst
      rw [getD_eq_getElem?_getD, hhead 0 (by omega), hfirst]
      rfl
    · rcases Nat.lt_or_ge p size with hps | hps
      · rw [hhead p hps]
        exact hl.prevs_lt p h0 (by omega)
      · exact ⟨0, h0, hpadded p hps (by omega)⟩
  refine ⟨⟨token ++ List.replicate (draftTokenNum - token.length) 0, fillMask (prevs ++ pad)⟩, order,
    parentOf (prevs ++ pad), ?_, ⟨hbf, hnd, hmem, ?_, ?_, ?_, ?_, ?_⟩, ?_⟩
  · simp only [fillResult, hloop, hpad]
    rfl
  · have htoken := hl.tokens
    rw [map_nil, append_nil] at htoken
    rw [hl.length_token, hlen, htoken]
  · rw [length_append, length_replicate, hl.length_token]
    omega
  · have := hwritten.falls
    rwa [hplen] at this
  · intro p h0 hp
    obtain ⟨k, hk, hget⟩ := hl.prevs_lt p h0 (by omega)
    have hpk : parentOf (prevs ++ pad) p = k := by
      rw [parentOf, getD_eq_getElem?_getD, hhead p hp, hget]
      rfl
    have hc := getElem?_eq_getElem (show p < order.length by omega)
    obtain ⟨i, hi, hic⟩ := hl.child h0 hc hget
    exact ⟨i, order[p], hpk ▸ hi, hc, hic⟩
  · intro p h1 h2
    rw [parentOf, getD_eq_getElem?_getD, hpadded p h1 h2]
    rfl
  · have := fillMask_masks hwritten (by omega)
    rwa [hplen] at this

/-- A tree of four nodes: two children of the root, one grandchild. -/
def smallTree : List NgramNode := [⟨[(10, 2), (20, 1)]⟩, ⟨[]⟩, ⟨[(30, 3)]⟩, ⟨[]⟩]

theorem holdsTree_smallTree : HoldsTree smallTree 0 4 where
  root_lt := by decide
  size_le := by decide
  lt := by decide
  nodup := by decide
  parent_unique := by
    intro i hi j hj c hc hc'
    interval_cases i <;> interval_cases j <;> simp_all [kids, entries, smallTree]
  reach := by
    intro S h0 hstep i hi
    have h2 : S 2 := hstep 0 (by decide) h0 2 (by decide)
    interval_cases i
    · exact h0
    · exact hstep 0 (by decide) h0 1 (by decide)
    · exact h2
    · exact hstep 2 (by decide) h2 3 (by decide)

end NgramResult

end Sglang
