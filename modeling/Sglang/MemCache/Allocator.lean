/-
# The allocators of KV slots

A transcription of `allocator.py` and of the two Triton kernels in it.  The state is that of
`BaseTokenToKVPoolAllocator`; `TokenToKVPoolAllocator` serves pages of one slot and
`PagedTokenToKVPoolAllocator` longer ones, and which of them a server builds is decided by its
page size, so the methods both have dispatch on it.  Page `0` is never handed out.

A kernel runs one program for every request of the batch, which finds where to write by summing
over the programs before it; here the requests are taken in order and the sum is carried along.
A load past the end of `free_pages` gives an arbitrary value in the kernel and `0` here: the
methods then return `None` and nobody reads it.  The debug assertions are left out, and so are the
CPU copies.  `none` is the `None` of an allocation that does not fit.
-/
import Sglang.Lib.Paging

namespace Sglang

open Lib List

/-- `BaseTokenToKVPoolAllocator`. -/
structure KVAllocator where
  size : ℕ
  pageSize : ℕ
  needSort : Bool
  freePages : List ℕ
  releasePages : List ℕ
  isNotInFreeGroup : Bool
  freeGroup : List (List ℕ)
deriving Repr

/-- What a kernel is given for one request. -/
structure ExtendItem where
  prefixLen : ℕ
  seqLen : ℕ
  lastLoc : ℤ

namespace KVAllocator

/-! ## 1. The base class -/

/-- `available_size`. -/
def availableSize (A : KVAllocator) : ℕ :=
  (A.freePages.length + A.releasePages.length) * A.pageSize

/-- `free_group_begin`. -/
def freeGroupBegin (A : KVAllocator) : KVAllocator :=
  { A with isNotInFreeGroup := false, freeGroup := [] }

/-- `merge_and_sort_free`. -/
def mergeAndSortFree (A : KVAllocator) : KVAllocator :=
  if A.releasePages.length > 0 then
    { A with
      freePages := (A.freePages ++ A.releasePages).mergeSort (· ≤ ·)
      releasePages := [] }
  else A

/-- The number of pages of the pool. -/
def numPages (A : KVAllocator) : ℕ := A.size / A.pageSize

/-- `clear`: all pages but the padding page `0` are free. -/
def clear (A : KVAllocator) : KVAllocator :=
  { A with
    freePages := List.range' 1 A.numPages
    releasePages := []
    isNotInFreeGroup := true
    freeGroup := [] }

end KVAllocator

/-! ## 2. Pages of one slot -/

namespace TokenToKVPoolAllocator

/-- `TokenToKVPoolAllocator.alloc`. -/
def alloc (A : KVAllocator) (needSize : ℕ) : Option (List ℕ × KVAllocator) :=
  let A := if A.needSort ∧ needSize > A.freePages.length then A.mergeAndSortFree else A
  if needSize > A.freePages.length then none
  else some (A.freePages.take needSize, { A with freePages := A.freePages.drop needSize })

/-- `TokenToKVPoolAllocator.free`: the slots go to the end. -/
def free (A : KVAllocator) (freeIndex : List ℕ) : KVAllocator :=
  if freeIndex.length = 0 then A
  else if A.isNotInFreeGroup then
    if A.needSort then { A with releasePages := A.releasePages ++ freeIndex }
    else { A with freePages := A.freePages ++ freeIndex }
  else { A with freeGroup := A.freeGroup ++ [freeIndex] }

end TokenToKVPoolAllocator

/-! ## 3. Longer pages -/

namespace PagedTokenToKVPoolAllocator

/-- `torch.unique`: the distinct values in order. -/
def unique (l : List ℕ) : List ℕ := l.dedup.mergeSort (· ≤ ·)

/-- `PagedTokenToKVPoolAllocator.alloc`: whole pages, a rest is not served. -/
def alloc (A : KVAllocator) (needSize : ℕ) : Option (List ℕ × KVAllocator) :=
  let numPages := needSize / A.pageSize
  let A := if A.needSort ∧ numPages > A.freePages.length then A.mergeAndSortFree else A
  if numPages > A.freePages.length then none
  else some ((A.freePages.take numPages).flatMap fun q =>
      (List.range A.pageSize).map fun k => q * A.pageSize + k,
    { A with freePages := A.freePages.drop numPages })

/-- The new pages one request of an extend batch needs. -/
def newPages (pageSize : ℕ) (it : ExtendItem) : ℕ :=
  (it.seqLen + pageSize - 1) / pageSize - (it.prefixLen + pageSize - 1) / pageSize

/-- `get_num_new_pages`. -/
def getNumNewPages (pageSize : ℕ) (batch : List ExtendItem) : ℕ :=
  (batch.map (newPages pageSize)).sum

/-- One program of `alloc_extend_kernel`: the old partial page, the new full pages, and the new
partial page. -/
def extendProgram (pageSize : ℕ) (freePages : List ℕ) (newPageStartLoc : ℕ) (it : ExtendItem) :
    List ℕ :=
  let preCeil := (it.prefixLen + pageSize - 1) / pageSize * pageSize
  let numPart1 := min it.seqLen preCeil - it.prefixLen
  let part1 := (List.range numPart1).map fun k : ℕ => (it.lastLoc + 1 + k).toNat
  if it.prefixLen + numPart1 = it.seqLen then part1
  else
    let numPart2 := it.seqLen / pageSize * pageSize - preCeil
    let part2 := (List.range numPart2).map fun k =>
      freePages.getD (newPageStartLoc + k / pageSize) 0 * pageSize + k % pageSize
    if it.prefixLen + numPart1 + numPart2 = it.seqLen then part1 ++ part2
    else
      let numPart3 := it.seqLen - it.seqLen / pageSize * pageSize
      let startLoc := freePages.getD (newPageStartLoc + newPages pageSize it - 1) 0
      part1 ++ part2 ++ (List.range numPart3).map fun k => startLoc * pageSize + k

/-- `alloc_extend_kernel` over the batch. -/
def allocExtendKernel (pageSize : ℕ) (freePages : List ℕ) : ℕ → List ExtendItem → List ℕ
  | _, [] => []
  | newPageStartLoc, it :: batch =>
    extendProgram pageSize freePages newPageStartLoc it ++
      allocExtendKernel pageSize freePages (newPageStartLoc + newPages pageSize it) batch

/-- One program of `alloc_decode_kernel`; `seqLen` counts the new token. -/
def decodeProgram (pageSize : ℕ) (freePages : List ℕ) (newPageStartLoc seqLen : ℕ) (lastLoc : ℤ) :
    ℕ :=
  if (seqLen + pageSize - 1) / pageSize - (seqLen - 1 + pageSize - 1) / pageSize = 0 then
    (lastLoc + 1).toNat
  else freePages.getD newPageStartLoc 0 * pageSize

/-- `alloc_decode_kernel` over the batch of `(seq_len, last_loc)`. -/
def allocDecodeKernel (pageSize : ℕ) (freePages : List ℕ) : ℕ → List (ℕ × ℤ) → List ℕ
  | _, [] => []
  | newPageStartLoc, (seqLen, lastLoc) :: batch =>
    decodeProgram pageSize freePages newPageStartLoc seqLen lastLoc ::
      allocDecodeKernel pageSize freePages (newPageStartLoc +
        ((seqLen + pageSize - 1) / pageSize - (seqLen - 1 + pageSize - 1) / pageSize)) batch

/-- `alloc_extend`. -/
def allocExtend (A : KVAllocator) (batch : List ExtendItem) (extendNumTokens : ℕ) :
    Option (List ℕ × KVAllocator) :=
  let A := if A.needSort ∧ extendNumTokens / A.pageSize + batch.length + 1 > A.freePages.length then
    A.mergeAndSortFree else A
  let outIndices := allocExtendKernel A.pageSize A.freePages 0 batch
  let numNewPages := getNumNewPages A.pageSize batch
  if numNewPages > A.freePages.length then none
  else some (outIndices, { A with freePages := A.freePages.drop numNewPages })

/-- `alloc_decode`. -/
def allocDecode (A : KVAllocator) (batch : List (ℕ × ℤ)) : Option (List ℕ × KVAllocator) :=
  let A := if A.needSort ∧ batch.length > A.freePages.length then A.mergeAndSortFree else A
  let outIndices := allocDecodeKernel A.pageSize A.freePages 0 batch
  let numNewPages := (batch.map fun b => if b.1 % A.pageSize = 1 then 1 else 0).sum
  if numNewPages > A.freePages.length then none
  else some (outIndices, { A with freePages := A.freePages.drop numNewPages })

/-- `PagedTokenToKVPoolAllocator.free`: the pages go to the front. -/
def free (A : KVAllocator) (freeIndex : List ℕ) : KVAllocator :=
  if freeIndex.length = 0 then A
  else if A.isNotInFreeGroup then
    let freePageIndices := unique (freeIndex.map (· / A.pageSize))
    if A.needSort then { A with releasePages := freePageIndices ++ A.releasePages }
    else { A with freePages := freePageIndices ++ A.freePages }
  else { A with freeGroup := A.freeGroup ++ [freeIndex] }

end PagedTokenToKVPoolAllocator

namespace KVAllocator

/-- `alloc` of the class the page size selects. -/
def alloc (A : KVAllocator) (needSize : ℕ) : Option (List ℕ × KVAllocator) :=
  if A.pageSize = 1 then TokenToKVPoolAllocator.alloc A needSize
  else PagedTokenToKVPoolAllocator.alloc A needSize

/-- `free` of the class the page size selects. -/
def free (A : KVAllocator) (freeIndex : List ℕ) : KVAllocator :=
  if A.pageSize = 1 then TokenToKVPoolAllocator.free A freeIndex
  else PagedTokenToKVPoolAllocator.free A freeIndex

/-- `free_group_end`; the list of the group is emptied by the next `free_group_begin` only. -/
def freeGroupEnd (A : KVAllocator) : KVAllocator :=
  let A := { A with isNotInFreeGroup := true }
  if A.freeGroup ≠ [] then A.free A.freeGroup.flatten else A

/-! ## 4. What an allocator has to give -/

/-- The free pages, of both lists. -/
def pages (A : KVAllocator) : Multiset ℕ := A.freePages + A.releasePages

/-- The same pool, and no free group was opened or closed. -/
structure SameKind (A B : KVAllocator) : Prop where
  size : B.size = A.size
  pageSize : B.pageSize = A.pageSize
  isNotInFreeGroup : B.isNotInFreeGroup = A.isNotInFreeGroup

/-- The same allocator with the same pages, perhaps in another order. -/
structure SamePages (A B : KVAllocator) : Prop extends SameKind A B where
  pages : B.pages = A.pages

theorem SameKind.trans {A B C : KVAllocator} (h : SameKind A B) (h' : SameKind B C) :
    SameKind A C :=
  ⟨h'.size.trans h.size, h'.pageSize.trans h.pageSize, h'.isNotInFreeGroup.trans h.isNotInFreeGroup⟩

theorem SameKind.numPages {A B : KVAllocator} (h : SameKind A B) : B.numPages = A.numPages := by
  rw [KVAllocator.numPages, h.size, h.pageSize, KVAllocator.numPages]

variable {A A' : KVAllocator} {freeIndex out : List ℕ} {n : ℕ}

theorem samePages_mergeAndSortFree (A : KVAllocator) : SamePages A A.mergeAndSortFree := by
  unfold mergeAndSortFree
  split
  · refine ⟨⟨rfl, rfl, rfl⟩, ?_⟩
    have hperm := mergeSort_perm (A.freePages ++ A.releasePages) fun a b => a ≤ b
    simp [KVAllocator.pages, Multiset.coe_eq_coe.mpr hperm]
  · exact ⟨⟨rfl, rfl, rfl⟩, rfl⟩

theorem samePages_ite (A : KVAllocator) (q : Prop) [Decidable q] :
    SamePages A (if q then A.mergeAndSortFree else A) := by
  split
  · exact samePages_mergeAndSortFree A
  · exact ⟨⟨rfl, rfl, rfl⟩, rfl⟩

theorem coe_unique (l : List ℕ) :
    (PagedTokenToKVPoolAllocator.unique l : Multiset ℕ) = l.toFinset.val := by
  rw [PagedTokenToKVPoolAllocator.unique, Multiset.coe_eq_coe.mpr (mergeSort_perm _ _)]
  exact (toFinset_val l).symm

/-- **`free` adds the pages of the slots it is given**, once each. -/
theorem pages_free_pagesOf (hgroup : A.isNotInFreeGroup = true)
    (hnd : A.pageSize = 1 → freeIndex.Nodup) :
    (A.free freeIndex).pages = A.pages + (pagesOf A.pageSize freeIndex).val := by
  have hnil : freeIndex.length = 0 → A.pages = A.pages + (pagesOf A.pageSize freeIndex).val := by
    intro h
    rw [eq_nil_of_length_eq_zero h, pagesOf, map_nil, toFinset_nil, Finset.empty_val, add_zero]
  unfold free
  by_cases h1 : A.pageSize = 1
  · rw [if_pos h1, TokenToKVPoolAllocator.free, hgroup]
    simp only [if_true]
    have hu : (pagesOf A.pageSize freeIndex).val = freeIndex := by
      simp only [pagesOf, h1, Nat.div_one, map_id']
      rw [toFinset_val, (hnd h1).dedup]
    split
    · exact hnil ‹_›
    · split
      · simp [pages, hu]
      · simp [pages, ← Multiset.coe_add, hu, add_assoc, add_comm]
  · rw [if_neg h1, PagedTokenToKVPoolAllocator.free]
    have hu : (PagedTokenToKVPoolAllocator.unique (freeIndex.map (· / A.pageSize)) : Multiset ℕ)
        = (pagesOf A.pageSize freeIndex).val := coe_unique _
    split
    · exact hnil ‹_›
    · split
      · simp only [pages, ← Multiset.coe_add, hu]
        abel
      · simp only [pages, ← Multiset.coe_add, hu]
        abel

theorem pages_free (hp : 0 < A.pageSize) (hgroup : A.isNotInFreeGroup = true)
    (hpaged : Paged A.pageSize freeIndex) (hnd : (heads A.pageSize freeIndex).Nodup) :
    (A.free freeIndex).pages = A.pages + heads A.pageSize freeIndex := by
  have hslots : A.pageSize = 1 → freeIndex.Nodup := fun h1 => by rwa [h1, heads_one] at hnd
  rw [pages_free_pagesOf hgroup hslots, ← hpaged.toFinset_heads hp, toFinset_val, hnd.dedup]

theorem free_sameKind (A : KVAllocator) (freeIndex : List ℕ) : SameKind A (A.free freeIndex) := by
  unfold free TokenToKVPoolAllocator.free PagedTokenToKVPoolAllocator.free
  split <;> split <;> try exact ⟨rfl, rfl, rfl⟩
  all_goals split <;> try exact ⟨rfl, rfl, rfl⟩
  all_goals split <;> exact ⟨rfl, rfl, rfl⟩

theorem pages_foldl_free (hp : 0 < A.pageSize) (hgroup : A.isNotInFreeGroup = true)
    {freed : List (List ℕ)} (hpaged : ∀ value ∈ freed, Paged A.pageSize value)
    (hnd : (freed.flatMap (heads A.pageSize)).Nodup) :
    (freed.foldl free A).pages = A.pages + (freed.flatMap (heads A.pageSize) : List ℕ) ∧
      SameKind A (freed.foldl free A) := by
  induction freed generalizing A with
  | nil => exact ⟨by simp, rfl, rfl, rfl⟩
  | cons value freed ih =>
    rw [flatMap_cons, nodup_append] at hnd
    have hk := free_sameKind A value
    obtain ⟨h1, h2⟩ := ih (A := A.free value) (by rw [hk.pageSize]; exact hp)
      (hk.isNotInFreeGroup.trans hgroup)
      (by rw [hk.pageSize]; exact fun w hw => hpaged w (mem_cons_of_mem _ hw))
      (by rw [hk.pageSize]; exact hnd.2.1)
    refine ⟨?_, hk.trans h2⟩
    rw [foldl_cons, h1, pages_free hp hgroup (hpaged value mem_cons_self) hnd.1,
      hk.pageSize, flatMap_cons, ← Multiset.coe_add, add_assoc]

/-! ## 5. What an allocation hands out -/

open PagedTokenToKVPoolAllocator TokenToKVPoolAllocator

/-- The allocator without its first `n` free pages. -/
def dropFree (A : KVAllocator) (n : ℕ) : KVAllocator :=
  { A with freePages := A.freePages.drop n }

/-- `alloc` hands out the first slots, when a page is one slot. -/
theorem alloc_eq_some (hp : A.pageSize = 1) (h : A.alloc n = some (out, A')) :
    ∃ B, SamePages A B ∧ n ≤ B.freePages.length ∧ out = B.freePages.take n ∧ A' = B.dropFree n := by
  rw [alloc, if_pos hp, TokenToKVPoolAllocator.alloc] at h
  generalize hB : (if A.needSort ∧ n > A.freePages.length then A.mergeAndSortFree else A) = B at h
  have hsame : SamePages A B := hB ▸ samePages_ite A _
  split at h
  · cases h
  · cases h
    exact ⟨B, hsame, by omega, rfl, rfl⟩

theorem allocExtend_eq_some {batch : List ExtendItem} (h : allocExtend A batch n = some (out, A')) :
    ∃ B, SamePages A B ∧ getNumNewPages A.pageSize batch ≤ B.freePages.length ∧
      out = allocExtendKernel A.pageSize B.freePages 0 batch ∧
      A' = B.dropFree (getNumNewPages A.pageSize batch) := by
  unfold allocExtend at h
  generalize hB : (if A.needSort ∧ n / A.pageSize + batch.length + 1 > A.freePages.length then
    A.mergeAndSortFree else A) = B at h
  have hsame : SamePages A B := hB ▸ samePages_ite A _
  rw [← hsame.pageSize]
  simp only at h
  split at h
  · cases h
  · cases h
    exact ⟨B, hsame, by omega, rfl, rfl⟩

theorem allocDecode_eq_some {batch : List (ℕ × ℤ)} (h : allocDecode A batch = some (out, A')) :
    ∃ B, SamePages A B ∧
      (batch.map fun b => if b.1 % A.pageSize = 1 then 1 else 0).sum ≤ B.freePages.length ∧
      out = allocDecodeKernel A.pageSize B.freePages 0 batch ∧
      A' = B.dropFree (batch.map fun b => if b.1 % A.pageSize = 1 then 1 else 0).sum := by
  unfold allocDecode at h
  generalize hB : (if A.needSort ∧ batch.length > A.freePages.length then A.mergeAndSortFree
    else A) = B at h
  have hsame : SamePages A B := hB ▸ samePages_ite A _
  rw [← hsame.pageSize]
  simp only at h
  split at h
  · cases h
  · cases h
    exact ⟨B, hsame, by omega, rfl, rfl⟩

end KVAllocator

/-! ## 6. What the kernels write -/

namespace PagedTokenToKVPoolAllocator

variable {p start : ℕ} {freePages : List ℕ}

theorem new_parts (hp : 0 < p) {m n : ℕ} (hn : pageCount p m = n)
    (hfree : start + n ≤ freePages.length) :
    ((List.range (m / p * p)).map fun k =>
        freePages.getD (start + k / p) 0 * p + k % p) ++
      (List.range (m % p)).map (fun k => freePages.getD (start + n - 1) 0 * p + k)
    = (expand p ((freePages.drop start).take n)).take m := by
  have hlen : ((freePages.drop start).take n).length = n := by
    rw [length_take, length_drop]; omega
  have hget : ∀ i < n, ((freePages.drop start).take n).getD i 0 = freePages.getD (start + i) 0 := by
    intro i hi
    rw [getD_eq_getElem?_getD, getD_eq_getElem?_getD, getElem?_take_of_lt hi, getElem?_drop]
  have hle : m ≤ p * n := (pageCount_le_iff hp).mp hn.le
  have hdm := Nat.div_add_mod m p
  rw [take_expand hp (by rw [hlen]; exact hle)]
  have hsplit : List.range m = List.range (m / p * p) ++
      (List.range (m % p)).map (m / p * p + ·) := by
    rw [← range_add, Nat.mul_comm (m / p), hdm]
  rw [hsplit, map_append, map_map]
  congr 1
  · refine map_congr_left fun k hk => ?_
    rw [mem_range] at hk
    have : k / p < n := by
      rw [← hn, lt_pageCount_iff hp]
      calc k / p * p ≤ k := Nat.div_mul_le_self _ _
        _ < m / p * p := hk
        _ ≤ m := Nat.div_mul_le_self _ _
    rw [hget _ this]
  · refine map_congr_left fun k hk => ?_
    rw [mem_range] at hk
    have hkp : k < p := hk.trans (Nat.mod_lt m hp)
    have hn' : n = m / p + 1 := by
      apply Nat.le_antisymm
      · rw [← hn, pageCount_le_iff hp, Nat.mul_add]
        have := Nat.mod_lt m hp
        omega
      · rw [← hn]
        refine (lt_pageCount_iff hp).mpr ?_
        rw [Nat.mul_comm]
        omega
    have hdiv : (m / p * p + k) / p = m / p := by
      rw [Nat.add_comm, Nat.add_mul_div_right _ _ hp, Nat.div_eq_of_lt hkp, Nat.zero_add]
    have hmod : (m / p * p + k) % p = k := by
      rw [Nat.add_comm, Nat.add_mul_mod_self_right, Nat.mod_eq_of_lt hkp]
    rw [Function.comp_apply, hdiv, hmod, hget _ (by omega), hn']
    rfl

/-- **A program goes on where the row of its request ends**: it fills the cut page and then takes
new pages, in order. -/
theorem extendProgram_spec (hp : 0 < p) {row : List ℕ} (it : ExtendItem) (hrow : Paged p row)
    (hpre : row.length = it.prefixLen) (hle : it.prefixLen ≤ it.seqLen)
    (hlast : row ≠ [] → it.lastLoc = row.getLastD 0)
    (hfree : start + newPages p it ≤ freePages.length) :
    (extendProgram p freePages start it).length = it.seqLen - it.prefixLen ∧
      Paged p (row ++ extendProgram p freePages start it) ∧
      heads p (row ++ extendProgram p freePages start it)
        = heads p row ++ (freePages.drop start).take (newPages p it) := by
  obtain ⟨pre, seq, last⟩ := it
  simp only at hpre hle hlast
  have hnew : newPages p ⟨pre, seq, last⟩ = pageCount p seq - pageCount p pre := rfl
  rw [hnew] at hfree ⊢
  have hceil : pre ≤ p * pageCount p pre := (pageCount_le_iff hp).mp le_rfl
  have hceil' : (pre + p - 1) / p * p = p * pageCount p pre := Nat.mul_comm _ _
  -- the first part, whether or not there is a page to fill
  generalize hk : min seq (p * pageCount p pre) - pre = k
  have hpart1 : (row ≠ [] → ((List.range k).map fun i : ℕ => (last + 1 + i).toNat)
      = List.range' (row.getLastD 0 + 1) k) ∧ (row = [] → k = 0) := by
    constructor
    · intro hne
      rw [hlast hne, range'_eq_map_range]
      refine map_congr_left fun i _ => ?_
      omega
    · rintro rfl
      have : pre = 0 := hpre.symm
      rw [← hk, this, pageCount_zero hp]
      simp
  have hfill : Paged p (row ++ (List.range k).map fun i : ℕ => (last + 1 + i).toNat) ∧
      heads p (row ++ (List.range k).map fun i : ℕ => (last + 1 + i).toNat) = heads p row := by
    rcases eq_or_ne row [] with rfl | hne
    · rw [hpart1.2 rfl]
      simp
    · rw [hpart1.1 hne]
      refine hrow.fill hp hne ?_
      rw [hpre]
      omega
  have hlen1 : (row ++ (List.range k).map fun i : ℕ => (last + 1 + i).toNat).length = pre + k := by
    simp [hpre]
  unfold extendProgram
  simp only [hceil', hk, hnew]
  by_cases h1 : pre + k = seq
  · rw [if_pos h1]
    have hcount : pageCount p seq - pageCount p pre = 0 := by
      have : pageCount p seq ≤ pageCount p pre := by rw [pageCount_le_iff hp]; omega
      omega
    refine ⟨by simp; omega, hfill.1, ?_⟩
    rw [hfill.2, hcount]
    simp
  · rw [if_neg h1]
    -- from here on the row ends with a whole page
    have hgt : p * pageCount p pre < seq := by omega
    have hk' : pre + k = p * pageCount p pre := by omega
    obtain ⟨m, hm⟩ := Nat.exists_eq_add_of_lt hgt
    generalize hM : m + 1 = M at *
    have hseq : seq = p * pageCount p pre + M := by omega
    have hcount : pageCount p seq - pageCount p pre = pageCount p M := by
      rw [hseq, pageCount_mul_add hp]
      omega
    have hdiv : seq / p * p - p * pageCount p pre = M / p * p := by
      rw [hseq, Nat.mul_add_div hp, Nat.add_mul, Nat.mul_comm _ p]
      omega
    have hmod : seq - seq / p * p = M % p := by
      have h2 := Nat.div_add_mod M p
      rw [hseq, Nat.mul_add_div hp, Nat.add_mul, Nat.mul_comm _ p, Nat.mul_comm _ p]
      omega
    rw [hcount] at hfree ⊢
    have hparts := new_parts hp (Eq.refl (pageCount p M)) hfree
    have hout : ((if pre + k + (seq / p * p - p * pageCount p pre) = seq then
        ((List.range k).map fun i : ℕ => (last + 1 + i).toNat) ++
          (List.range (seq / p * p - p * pageCount p pre)).map
            fun k => freePages.getD (start + k / p) 0 * p + k % p
        else ((List.range k).map fun i : ℕ => (last + 1 + i).toNat) ++
          ((List.range (seq / p * p - p * pageCount p pre)).map
            fun k => freePages.getD (start + k / p) 0 * p + k % p) ++
          (List.range (seq - seq / p * p)).map
            fun k => freePages.getD (start + pageCount p M - 1) 0 * p + k) : List ℕ)
        = ((List.range k).map fun i : ℕ => (last + 1 + i).toNat) ++
          (expand p ((freePages.drop start).take (pageCount p M))).take M := by
      rw [← hparts, hdiv, hmod]
      split
      · have hz : M % p = 0 := by
          omega
        rw [hz]
        simp
      · rw [append_assoc]
    rw [hout]
    have hpl : ((freePages.drop start).take (pageCount p M)).length = pageCount p M := by
      rw [length_take, length_drop]
      omega
    have hMle : M ≤ p * pageCount p M := (pageCount_le_iff hp).mp le_rfl
    obtain ⟨he1, he2⟩ := paged_expand hp ((freePages.drop start).take (pageCount p M))
    have hdvd : p ∣ (row ++ (List.range k).map fun i : ℕ => (last + 1 + i).toNat).length := by
      rw [hlen1, hk']
      exact Dvd.intro _ rfl
    refine ⟨?_, ?_, ?_⟩
    · rw [length_append, length_take, length_expand, hpl]
      simp
      omega
    · rw [← append_assoc]
      exact hfill.1.append hp hdvd (he1.take M)
    · rw [← append_assoc, heads_append hp hdvd, hfill.2,
        heads_take hp (by rw [length_expand, hpl]; exact hMle), he2,
        take_of_length_le (le_of_eq hpl)]

theorem allocExtendKernel_one : ∀ (batch : List ExtendItem) (start : ℕ),
    start + getNumNewPages 1 batch ≤ freePages.length →
    allocExtendKernel 1 freePages start batch = (freePages.drop start).take (getNumNewPages 1 batch)
  | [], start, _ => by simp [allocExtendKernel, getNumNewPages]
  | it :: batch, start, h => by
    have hsum : getNumNewPages 1 (it :: batch) = newPages 1 it + getNumNewPages 1 batch := by
      simp [getNumNewPages]
    rw [hsum] at h ⊢
    rw [allocExtendKernel, allocExtendKernel_one batch _ (by omega), take_add, ← drop_drop]
    congr 1
    have hprog : extendProgram 1 freePages start it
        = (List.range (newPages 1 it)).map fun k => freePages.getD (start + k) 0 := by
      have hmin : min it.seqLen it.prefixLen - it.prefixLen = 0 := by omega
      simp only [extendProgram, newPages, Nat.add_sub_cancel, Nat.div_one, Nat.mul_one, hmin,
        Nat.mod_one, Nat.add_zero, range_zero, map_nil, nil_append, Nat.sub_self]
      by_cases h1 : it.prefixLen = it.seqLen
      · simp [h1]
      · rw [if_neg h1]
        split <;> simp
    rw [hprog]
    apply ext_getElem?
    intro k
    by_cases hk : k < newPages 1 it
    · have hlt : start + k < freePages.length := by omega
      simp [hk, getElem?_eq_getElem hlt]
    · rw [getElem?_eq_none (by simpa using Nat.not_lt.mp hk),
        getElem?_eq_none (by rw [length_take]; omega)]

theorem decodeProgram_eq (hp : 1 < p) (freePages : List ℕ) (start seq : ℕ) (last : ℤ) :
    extendProgram p freePages start ⟨seq, seq + 1, last⟩
        = [decodeProgram p freePages start (seq + 1) last] ∧
      newPages p ⟨seq, seq + 1, last⟩ = (if (seq + 1) % p = 1 then 1 else 0) := by
  have hp0 : 0 < p := by omega
  obtain ⟨j, r, hr, rfl⟩ : ∃ j r, r < p ∧ seq = p * j + r :=
    ⟨seq / p, seq % p, Nat.mod_lt _ hp0, (Nat.div_add_mod seq p).symm⟩
  have hpre : (p * j + r + p - 1) / p = j + pageCount p r := pageCount_mul_add hp0 j r
  have hseq : (p * j + r + 1 + p - 1) / p = j + 1 := by
    have h2 : pageCount p (r + 1) = 1 := by
      apply Nat.le_antisymm
      · rw [pageCount_le_iff hp0]; omega
      · exact (lt_pageCount_iff hp0).mpr (by omega)
    have := pageCount_mul_add hp0 j (r + 1)
    rwa [h2] at this
  have hmod : (p * j + r + 1) % p = 1 ↔ r = 0 := by
    rw [Nat.add_assoc, Nat.mul_add_mod]
    rcases Nat.lt_or_ge (r + 1) p with h | h
    · rw [Nat.mod_eq_of_lt h]; omega
    · have : r + 1 = p := by omega
      rw [this, Nat.mod_self]
      omega
  rcases Nat.eq_zero_or_pos r with rfl | hpos
  · -- the last page is full: a new one begins
    have hz : pageCount p 0 = 0 := pageCount_zero hp0
    rw [hz] at hpre
    have hnew : newPages p ⟨p * j + 0, p * j + 0 + 1, last⟩ = 1 := by
      rw [newPages, hseq, hpre]
      omega
    rw [hnew, if_pos (hmod.mpr rfl)]
    refine ⟨?_, rfl⟩
    have hd : (p * j + 0 + 1) / p = j := by
      rw [Nat.add_zero, Nat.mul_add_div hp0, Nat.div_eq_of_lt hp, Nat.add_zero]
    have hm : min (p * j + 0 + 1) (p * j) - (p * j + 0) = 0 := by omega
    simp only [extendProgram, decodeProgram, hnew, hpre, hseq, hd, Nat.add_sub_cancel,
      Nat.mul_comm j p, Nat.add_zero j, hm, Nat.sub_self]
    simp
  · -- the last page has room
    have hone : pageCount p r = 1 := by
      apply Nat.le_antisymm
      · rw [pageCount_le_iff hp0]; omega
      · exact (lt_pageCount_iff hp0).mpr (by omega)
    rw [hone] at hpre
    have hnew : newPages p ⟨p * j + r, p * j + r + 1, last⟩ = 0 := by
      rw [newPages, hseq, hpre, Nat.sub_self]
    rw [hnew, if_neg (fun h => hpos.ne' (hmod.mp h))]
    refine ⟨?_, rfl⟩
    have hmin : min (p * j + r + 1) ((j + 1) * p) - (p * j + r) = 1 := by
      have : (j + 1) * p = p * j + p := by ring
      omega
    simp only [extendProgram, decodeProgram, hpre, hseq, hmin, Nat.add_sub_cancel]
    simp

theorem allocDecodeKernel_eq (hp : 1 < p) : ∀ (batch : List (ℕ × ℤ)) (start : ℕ),
    allocDecodeKernel p freePages start (batch.map fun b => (b.1 + 1, b.2))
      = allocExtendKernel p freePages start (batch.map fun b => ⟨b.1, b.1 + 1, b.2⟩)
  | [], _ => rfl
  | (seq, last) :: batch, start => by
    have h := decodeProgram_eq hp freePages start seq last
    simp only [map_cons, allocDecodeKernel, allocExtendKernel, h.1]
    rw [← allocDecodeKernel_eq hp]
    rfl

theorem getNumNewPages_decode (hp : 1 < p) (batch : List (ℕ × ℤ)) :
    ((batch.map fun b => (b.1 + 1, b.2)).map fun b : ℕ × ℤ => if b.1 % p = 1 then 1 else 0).sum
      = getNumNewPages p (batch.map fun b => ⟨b.1, b.1 + 1, b.2⟩) := by
  rw [getNumNewPages, map_map, map_map]
  congr 1
  refine map_congr_left fun b _ => ?_
  exact (decodeProgram_eq hp [] 0 b.1 b.2).2.symm

end PagedTokenToKVPoolAllocator

end Sglang
