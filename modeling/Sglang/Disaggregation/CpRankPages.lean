/-
# The pages that a context-parallel rank sends

With context parallelism every prefill rank holds the whole chunk of a request, and the ranks share the work
of sending it: `page_indices_to_cp_rank_page_indices` gives each of them the pages whose ids lie in a window
of its own, counted from the smallest id, and `filter_kv_indices_for_cp_rank` turns what a rank is given into
a range of positions of the chunk.

What a rank sends is what stands at its positions.  The windows together are as long as the chunk, so that
a chunk is sent as a whole if its ids are consecutive; a page behind the windows is sent only if it stands
between two pages that one rank sends (`ranksSendEveryPage_iff`).
-/
import Mathlib.Data.List.GetD
import Mathlib.Order.Interval.Finset.Nat

namespace Sglang.Disaggregation

open List

/-! ## 1. The functions -/

/-- A `slice` of positions. -/
structure IndexSlice where
  start : ℕ
  stop : ℕ
deriving DecidableEq

/-- `local_start` and `local_end` of a rank. -/
def cpRankRange (totalPages cpRank cpSize : ℕ) : ℕ × ℕ :=
  let base := totalPages / cpSize
  let rem := totalPages % cpSize
  if rem = 0 then
    let localStart := cpRank * base
    (localStart, localStart + base)
  else
    let localStart := cpRank * base + min cpRank rem
    let nPages := base + if cpRank < rem then 1 else 0
    (localStart, localStart + nPages)

/-- `page_indices.min()`. -/
def firstPage (pageIndices : List ℕ) : ℕ := pageIndices.foldl min (pageIndices.headD 0)

/-- Whether a page id lies in the window of a rank. -/
def InWindow (pageIndices : List ℕ) (totalPages cpRank cpSize page : ℕ) : Prop :=
  let range := cpRankRange totalPages cpRank cpSize
  firstPage pageIndices + range.1 ≤ page ∧ page < firstPage pageIndices + range.2

instance (pageIndices : List ℕ) (totalPages cpRank cpSize page : ℕ) :
    Decidable (InWindow pageIndices totalPages cpRank cpSize page) :=
  inferInstanceAs (Decidable (_ ∧ _))

/-- `page_indices_to_cp_rank_page_indices`. -/
def pageIndicesToCpRankPageIndices (pageIndices : List ℕ) (totalPages cpRank cpSize : ℕ) : List ℕ :=
  if cpSize ≤ 1 then pageIndices
  else if pageIndices.length = 0 then pageIndices
  else pageIndices.filter fun page => InWindow pageIndices totalPages cpRank cpSize page

/-- `int(mask.argmax())`, for a mask with a cell that is true. -/
def argmax (mask : List Bool) : ℕ := mask.idxOf true

/-- `filter_kv_indices_for_cp_rank`. -/
def filterKvIndicesForCpRank (cpRank cpSize : ℕ) (kvIndices : List ℕ) (indexSlice : IndexSlice) :
    List ℕ × IndexSlice :=
  let totalPages := kvIndices.length
  let rankPageIndices := pageIndicesToCpRankPageIndices kvIndices totalPages cpRank cpSize
  if rankPageIndices.length = 0 then ([], ⟨indexSlice.start, indexSlice.start⟩)
  else
    let mask := kvIndices.map fun page => rankPageIndices.contains page
    if !mask.any id then ([], ⟨indexSlice.start, indexSlice.start⟩)
    else
      let firstPos := argmax mask
      let lastPos := mask.length - argmax mask.reverse
      ((kvIndices.take lastPos).drop firstPos, ⟨indexSlice.start + firstPos, indexSlice.start + lastPos⟩)

/-! ## 2. What is claimed of the ranks -/

variable {kvIndices : List ℕ} {indexSlice : IndexSlice} {cpRank cpSize n p : ℕ}

/-- A rank sends what stands at its positions. -/
def SendsPositions (kvIndices : List ℕ) (indexSlice : IndexSlice) (sent : List ℕ × IndexSlice) : Prop :=
  sent.1 = (kvIndices.take (sent.2.stop - indexSlice.start)).drop (sent.2.start - indexSlice.start)

/-- The ranks together send every position of the chunk, each of them what stands there. -/
def RanksSendEveryPage (cpSize : ℕ) (kvIndices : List ℕ) (indexSlice : IndexSlice) : Prop :=
  (∀ p < kvIndices.length, ∃ cpRank < cpSize,
    (filterKvIndicesForCpRank cpRank cpSize kvIndices indexSlice).2.start ≤ indexSlice.start + p ∧
      indexSlice.start + p < (filterKvIndicesForCpRank cpRank cpSize kvIndices indexSlice).2.stop) ∧
  ∀ cpRank < cpSize,
    SendsPositions kvIndices indexSlice (filterKvIndicesForCpRank cpRank cpSize kvIndices indexSlice)

/-- Every page behind the windows stands between two pages of the chunk that lie in the window of one rank. -/
def StragglersEnclosed (cpSize : ℕ) (kvIndices : List ℕ) : Prop :=
  1 < cpSize → ∀ p < kvIndices.length, firstPage kvIndices + kvIndices.length ≤ kvIndices.getD p 0 →
    ∃ cpRank < cpSize, ∃ a < p, ∃ b < kvIndices.length, p < b ∧
      InWindow kvIndices kvIndices.length cpRank cpSize (kvIndices.getD a 0) ∧
      InWindow kvIndices kvIndices.length cpRank cpSize (kvIndices.getD b 0)

/-! ## 3. The windows -/

/-- The start of a window, whether there is a rest or not. -/
theorem cpRankRange_eq (n cpRank cpSize : ℕ) : cpRankRange n cpRank cpSize =
    (cpRank * (n / cpSize) + min cpRank (n % cpSize),
      (cpRank + 1) * (n / cpSize) + min (cpRank + 1) (n % cpSize)) := by
  simp only [cpRankRange, Nat.succ_mul]
  split
  · rename_i hrem
    rw [hrem, Nat.min_zero]
    rfl
  · refine Prod.ext rfl ?_
    split <;> omega

/-- **The windows cover as many ids as the chunk has pages.** -/
theorem exists_cpRankRange (hcp : 0 < cpSize) {x : ℕ} (hx : x < n) :
    ∃ cpRank < cpSize, (cpRankRange n cpRank cpSize).1 ≤ x ∧ x < (cpRankRange n cpRank cpSize).2 := by
  have hlast : x < cpSize * (n / cpSize) + min cpSize (n % cpSize) := by
    have hmod := Nat.mod_lt n hcp
    have hdiv := Nat.div_add_mod n cpSize
    omega
  -- the first rank whose window ends behind the id
  have key : ∀ k ≤ cpSize, x < k * (n / cpSize) + min k (n % cpSize) → ∃ cpRank < cpSize,
      cpRank * (n / cpSize) + min cpRank (n % cpSize) ≤ x ∧
        x < (cpRank + 1) * (n / cpSize) + min (cpRank + 1) (n % cpSize) := by
    intro k
    induction k with
    | zero =>
      intro _ h
      omega
    | succ k ih =>
      intro hk h
      by_cases hin : x < k * (n / cpSize) + min k (n % cpSize)
      · exact ih (by omega) hin
      · exact ⟨k, by omega, by omega, h⟩
  obtain ⟨r, hr, h⟩ := key cpSize le_rfl hlast
  exact ⟨r, hr, by rw [cpRankRange_eq]; exact h⟩

theorem firstPage_le {page : ℕ} (h : page ∈ kvIndices) : firstPage kvIndices ≤ page := by
  have hfold : ∀ (l : List ℕ) (m : ℕ), l.foldl min m ≤ m ∧ ∀ x ∈ l, l.foldl min m ≤ x := by
    intro l
    induction l with
    | nil => exact fun m => ⟨le_rfl, fun x hx => absurd hx not_mem_nil⟩
    | cons a l ih =>
      intro m
      obtain ⟨hm, hl⟩ := ih (min m a)
      refine ⟨hm.trans (min_le_left _ _), fun x hx => ?_⟩
      rcases mem_cons.mp hx with rfl | hx
      · exact hm.trans (min_le_right _ _)
      · exact hl x hx
  exact (hfold kvIndices _).2 page h

theorem exists_inWindow (hcp : 0 < cpSize) {page : ℕ} (h : page ∈ kvIndices)
    (hlt : page < firstPage kvIndices + kvIndices.length) :
    ∃ cpRank < cpSize, InWindow kvIndices kvIndices.length cpRank cpSize page := by
  have hle := firstPage_le h
  obtain ⟨r, hr, hge, hlt⟩ := exists_cpRankRange hcp (x := page - firstPage kvIndices)
    (n := kvIndices.length) (by omega)
  exact ⟨r, hr, by rw [InWindow]; omega⟩

theorem lt_of_inWindow (hr : cpRank < cpSize) {page : ℕ}
    (h : InWindow kvIndices n cpRank cpSize page) : page < firstPage kvIndices + n := by
  have hdiv := Nat.div_add_mod n cpSize
  have hmul : (cpRank + 1) * (n / cpSize) ≤ cpSize * (n / cpSize) := Nat.mul_le_mul_right _ hr
  rw [InWindow, cpRankRange_eq] at h
  omega

/-! ## 4. The positions of a rank -/

theorem argmax_le_iff {mask : List Bool} (hany : true ∈ mask) :
    argmax mask ≤ p ↔ ∃ a ≤ p, mask.getD a false = true := by
  have hlt := idxOf_lt_length_iff.mpr hany
  constructor
  · intro h
    have htrue : mask.getD (mask.idxOf true) false = true := by
      rw [getD_eq_getElem _ _ hlt]
      exact getElem_idxOf hlt
    exact ⟨mask.idxOf true, h, htrue⟩
  · rintro ⟨a, ha, htrue⟩
    by_contra hlt'
    have hbefore : a < mask.findIdx (· == true) := ha.trans_lt (not_le.mp hlt')
    have hlen : a < mask.length := hbefore.trans hlt
    rw [getD_eq_getElem _ _ hlen] at htrue
    have hfalse := not_of_lt_findIdx hbefore
    rw [htrue] at hfalse
    cases hfalse

/-- **The positions between the first and the last true cell** of a mask. -/
theorem between_iff {mask : List Bool} (hany : true ∈ mask) :
    argmax mask ≤ p ∧ p < mask.length - argmax mask.reverse ↔
      (∃ a ≤ p, mask.getD a false = true) ∧ ∃ b < mask.length, p ≤ b ∧ mask.getD b false = true := by
  rw [argmax_le_iff hany]
  refine and_congr_right fun _ => ?_
  have hany' : true ∈ mask.reverse := mem_reverse.mpr hany
  have hget : ∀ b < mask.length, mask.reverse.getD (mask.length - 1 - b) false = mask.getD b false := by
    intro b hb
    rw [getD_eq_getElem _ _ (by rw [length_reverse]; omega), getElem_reverse,
      getD_eq_getElem _ _ hb]
    congr 1
    omega
  constructor
  · intro h
    have hle : argmax mask.reverse ≤ mask.length - 1 - p := by omega
    obtain ⟨c, hc, htrue⟩ := (argmax_le_iff hany').mp hle
    refine ⟨mask.length - 1 - c, by omega, by omega, ?_⟩
    rw [← hget _ (by omega), show mask.length - 1 - (mask.length - 1 - c) = c by omega]
    exact htrue
  · rintro ⟨b, hb, hpb, htrue⟩
    have hle : argmax mask.reverse ≤ mask.length - 1 - b :=
      (argmax_le_iff hany').mpr ⟨_, le_rfl, by rw [hget b hb]; exact htrue⟩
    omega

/-- A page that a rank is given. -/
def Given (cpRank cpSize : ℕ) (kvIndices : List ℕ) (page : ℕ) : Prop :=
  page ∈ pageIndicesToCpRankPageIndices kvIndices kvIndices.length cpRank cpSize

theorem given_iff (h1 : 1 < cpSize) {page : ℕ} (h : page ∈ kvIndices) :
    Given cpRank cpSize kvIndices page ↔ InWindow kvIndices kvIndices.length cpRank cpSize page := by
  have hlen : kvIndices.length ≠ 0 := (length_pos_of_mem h).ne'
  rw [Given, pageIndicesToCpRankPageIndices, if_neg (by omega), if_neg hlen, mem_filter,
    decide_eq_true_eq]
  exact and_iff_right h

theorem mem_of_given {page : ℕ} (h : Given cpRank cpSize kvIndices page) : page ∈ kvIndices := by
  rw [Given, pageIndicesToCpRankPageIndices] at h
  split at h
  · exact h
  · split at h
    · exact h
    · exact mem_of_mem_filter h

/-- **What a rank sends**: the positions from the first to the last page that it is given. -/
theorem filterKvIndices_spec (cpRank cpSize : ℕ) (kvIndices : List ℕ) (indexSlice : IndexSlice) :
    SendsPositions kvIndices indexSlice (filterKvIndicesForCpRank cpRank cpSize kvIndices indexSlice) ∧
      ∀ p < kvIndices.length,
        ((filterKvIndicesForCpRank cpRank cpSize kvIndices indexSlice).2.start ≤ indexSlice.start + p ∧
            indexSlice.start + p <
              (filterKvIndicesForCpRank cpRank cpSize kvIndices indexSlice).2.stop ↔
          (∃ a ≤ p, Given cpRank cpSize kvIndices (kvIndices.getD a 0)) ∧
            ∃ b < kvIndices.length, p ≤ b ∧ Given cpRank cpSize kvIndices (kvIndices.getD b 0)) := by
  have hmask : ∀ a, (kvIndices.map fun page => (pageIndicesToCpRankPageIndices kvIndices kvIndices.length
      cpRank cpSize).contains page).getD a false = true ↔
        a < kvIndices.length ∧ Given cpRank cpSize kvIndices (kvIndices.getD a 0) := by
    intro a
    rcases Nat.lt_or_ge a kvIndices.length with ha | ha
    · rw [getD_eq_getElem _ _ (by rw [length_map]; exact ha), getElem_map,
        contains_iff_mem, getD_eq_getElem _ _ ha]
      exact (and_iff_right ha).symm
    · rw [getD_eq_default _ _ (by rw [length_map]; exact ha)]
      exact iff_of_false Bool.false_ne_true fun h => absurd h.1 (Nat.not_lt_of_le ha)
  -- a rank that is given nothing
  have hempty : (∀ page ∈ kvIndices, ¬ Given cpRank cpSize kvIndices page) →
      SendsPositions kvIndices indexSlice ([], ⟨indexSlice.start, indexSlice.start⟩) ∧
        ∀ p < kvIndices.length, (indexSlice.start ≤ indexSlice.start + p ∧
            indexSlice.start + p < indexSlice.start ↔
          (∃ a ≤ p, Given cpRank cpSize kvIndices (kvIndices.getD a 0)) ∧
            ∃ b < kvIndices.length, p ≤ b ∧ Given cpRank cpSize kvIndices (kvIndices.getD b 0)) := by
    intro hno
    refine ⟨by simp [SendsPositions], fun p _ => iff_of_false (by omega) ?_⟩
    rintro ⟨-, b, hb, -, hgiven⟩
    exact hno _ (mem_of_given hgiven) hgiven
  rw [filterKvIndicesForCpRank]
  dsimp only
  split
  · rename_i hnil
    refine hempty fun page _ hgiven => ?_
    rw [Given, eq_nil_of_length_eq_zero hnil] at hgiven
    exact not_mem_nil hgiven
  split
  · rename_i hnone
    refine hempty fun page hpage hgiven => ?_
    rw [Bool.not_eq_true', any_eq_false] at hnone
    exact hnone _ (mem_map_of_mem hpage) (contains_iff_mem.mpr hgiven)
  · rename_i hany
    have htrue : true ∈ kvIndices.map fun page => (pageIndicesToCpRankPageIndices kvIndices
        kvIndices.length cpRank cpSize).contains page := by
      rw [Bool.not_eq_true, Bool.not_eq_false', any_eq_true] at hany
      obtain ⟨b, hb, rfl⟩ := hany
      exact hb
    refine ⟨?_, fun p hp => ?_⟩
    · simp [SendsPositions]
    · have hbetween := between_iff (p := p) htrue
      simp only [Nat.add_le_add_iff_left, Nat.add_lt_add_iff_left]
      rw [hbetween]
      simp only [hmask, length_map]
      constructor
      · rintro ⟨⟨a, ha, -, hga⟩, b, -, hpb, hb, hgb⟩
        exact ⟨⟨a, ha, hga⟩, b, hb, hpb, hgb⟩
      · rintro ⟨⟨a, ha, hga⟩, b, hb, hpb, hgb⟩
        exact ⟨⟨a, ha, ha.trans_lt hp, hga⟩, b, hb, hpb, hb, hgb⟩

/-! ## 5. What is sent -/

/-- **The ranks send every page** if and only if none behind the windows stands alone. -/
theorem ranksSendEveryPage_iff (hcp : 0 < cpSize) (kvIndices : List ℕ) (indexSlice : IndexSlice) :
    RanksSendEveryPage cpSize kvIndices indexSlice ↔ StragglersEnclosed cpSize kvIndices := by
  have hspec := fun cpRank => filterKvIndices_spec cpRank cpSize kvIndices indexSlice
  have hmem : ∀ {p}, p < kvIndices.length → kvIndices.getD p 0 ∈ kvIndices := fun hp => by
    rw [getD_eq_getElem _ _ hp]
    exact getElem_mem hp
  constructor
  · rintro ⟨hall, -⟩ h1 p hp hbehind
    obtain ⟨r, hr, hin⟩ := hall p hp
    obtain ⟨⟨a, ha, hga⟩, b, hb, hpb, hgb⟩ := ((hspec r).2 p hp).mp hin
    have hwa := (given_iff h1 (hmem (ha.trans_lt hp))).mp hga
    have hwb := (given_iff h1 (hmem hb)).mp hgb
    -- the page itself is in no window
    have hself : ∀ c, InWindow kvIndices kvIndices.length r cpSize (kvIndices.getD c 0) → c ≠ p := by
      rintro c hw rfl
      exact absurd (lt_of_inWindow hr hw) (Nat.not_lt_of_le hbehind)
    have hap := hself a hwa
    have hbp := hself b hwb
    exact ⟨r, hr, a, by omega, b, hb, by omega, hwa, hwb⟩
  · intro hstragglers
    refine ⟨fun p hp => ?_, fun r _ => (hspec r).1⟩
    rcases Nat.lt_or_ge 1 cpSize with h1 | h1
    · rcases Nat.lt_or_ge (kvIndices.getD p 0) (firstPage kvIndices + kvIndices.length) with hin | hbehind
      · obtain ⟨r, hr, hw⟩ := exists_inWindow hcp (hmem hp) hin
        have hgiven := (given_iff h1 (hmem hp)).mpr hw
        exact ⟨r, hr, ((hspec r).2 p hp).mpr ⟨⟨p, le_rfl, hgiven⟩, p, hp, le_rfl, hgiven⟩⟩
      · obtain ⟨r, hr, a, ha, b, hb, hpb, hwa, hwb⟩ := hstragglers h1 p hp hbehind
        exact ⟨r, hr, ((hspec r).2 p hp).mpr
          ⟨⟨a, ha.le, (given_iff h1 (hmem (ha.trans hp))).mpr hwa⟩, b, hb, hpb.le,
            (given_iff h1 (hmem hb)).mpr hwb⟩⟩
    · have hgiven : Given 0 cpSize kvIndices (kvIndices.getD p 0) := by
        rw [Given, pageIndicesToCpRankPageIndices, if_pos h1]
        exact hmem hp
      exact ⟨0, hcp, ((hspec 0).2 p hp).mpr ⟨⟨p, le_rfl, hgiven⟩, p, hp, le_rfl, hgiven⟩⟩

/-- Two pages far from each other: the second rank has its window where there is no page. -/
theorem farPage_not_sent : [1, 10].Nodup ∧ ¬ RanksSendEveryPage 2 [1, 10] ⟨0, 2⟩ ∧
    filterKvIndicesForCpRank 0 2 [1, 10] ⟨0, 2⟩ = ([1], ⟨0, 1⟩) ∧
    filterKvIndicesForCpRank 1 2 [1, 10] ⟨0, 2⟩ = ([], ⟨0, 0⟩) := by
  have hranks : ∀ r < 2, ¬ ((filterKvIndicesForCpRank r 2 [1, 10] ⟨0, 2⟩).2.start ≤ 0 + 1 ∧
      0 + 1 < (filterKvIndicesForCpRank r 2 [1, 10] ⟨0, 2⟩).2.stop) := by decide
  refine ⟨by decide, fun h => ?_, by decide, by decide⟩
  obtain ⟨r, hr, hin⟩ := h.1 1 (by decide)
  exact hranks r hr hin

/-- A page behind the windows that stands between two pages of the first rank. -/
theorem ranksSendEveryPage_iff_shuffled : RanksSendEveryPage 2 [3, 9, 2, 4] ⟨5, 9⟩ := by
  refine (ranksSendEveryPage_iff (by decide) [3, 9, 2, 4] ⟨5, 9⟩).mpr fun _ => ?_
  decide

end Sglang.Disaggregation
