/-
# The allocators in the run of a server

What an allocator can serve at any time (`Reached`).  The pages that were freed wait in
`release_pages` only in a pool that sorts (`Tidy`), and there they are merged whenever the other list
might not do; so an allocator serves what it says is available: `alloc_isSome`, `allocExtend_isSome`
for a batch with a page for each request on top, and `allocDecode_isSome_iff`.
-/
import Sglang.MemCache.Allocator

namespace Sglang

open Lib List PagedTokenToKVPoolAllocator

/-! ## 1. The allocator in the run of a server -/

namespace KVAllocator

variable {A A' : KVAllocator} {size pageSize n m k : ℕ} {needSort : Bool} {value : List ℕ}

/-- What the methods make of an allocator. `restore_state` puts back the lists of another state. -/
inductive Reached (size pageSize : ℕ) (needSort : Bool) : KVAllocator → Prop
  | init {freePages releasePages : List ℕ} {isNotInFreeGroup : Bool} {freeGroup : List (List ℕ)} :
    Reached size pageSize needSort
      (clear ⟨size, pageSize, needSort, freePages, releasePages, isNotInFreeGroup, freeGroup⟩)
  | clear {A : KVAllocator} : Reached size pageSize needSort A → Reached size pageSize needSort A.clear
  | mergeAndSortFree {A : KVAllocator} : Reached size pageSize needSort A →
    Reached size pageSize needSort A.mergeAndSortFree
  | alloc {A A' : KVAllocator} {needSize : ℕ} {out : List ℕ} : Reached size pageSize needSort A →
    A.alloc needSize = some (out, A') → Reached size pageSize needSort A'
  | allocExtend {A A' : KVAllocator} {batch : List ExtendItem} {n : ℕ} {out : List ℕ} :
    Reached size pageSize needSort A →
    PagedTokenToKVPoolAllocator.allocExtend A batch n = some (out, A') →
    Reached size pageSize needSort A'
  | allocDecode {A A' : KVAllocator} {batch : List (ℕ × ℤ)} {out : List ℕ} :
    Reached size pageSize needSort A →
    PagedTokenToKVPoolAllocator.allocDecode A batch = some (out, A') →
    Reached size pageSize needSort A'
  | free {A : KVAllocator} {freeIndex : List ℕ} : Reached size pageSize needSort A →
    Reached size pageSize needSort (A.free freeIndex)
  | freeGroupBegin {A : KVAllocator} : Reached size pageSize needSort A →
    Reached size pageSize needSort A.freeGroupBegin
  | freeGroupEnd {A : KVAllocator} : Reached size pageSize needSort A →
    Reached size pageSize needSort A.freeGroupEnd
  | restoreState {A B : KVAllocator} : Reached size pageSize needSort A →
    Reached size pageSize needSort B → Reached size pageSize needSort
      { A with freePages := B.freePages, releasePages := B.releasePages }

/-- Only a pool that sorts keeps released pages apart. -/
def Tidy (A : KVAllocator) : Prop := A.needSort = false → A.releasePages = []

/-- The allocator a state of the run has. -/
structure Fits (pageSize : ℕ) (needSort : Bool) (A : KVAllocator) : Prop where
  pageSize : A.pageSize = pageSize
  needSort : A.needSort = needSort
  tidy : A.Tidy

theorem Fits.merge (h : Fits pageSize needSort A) : Fits pageSize needSort A.mergeAndSortFree := by
  unfold mergeAndSortFree
  split
  · exact ⟨h.pageSize, h.needSort, fun _ => rfl⟩
  · exact h

theorem Fits.merge_ite (h : Fits pageSize needSort A) (q : Prop) [Decidable q] :
    Fits pageSize needSort (if q then A.mergeAndSortFree else A) := by
  split
  · exact h.merge
  · exact h

theorem Fits.dropFree (h : Fits pageSize needSort A) (n : ℕ) :
    Fits pageSize needSort (A.dropFree n) :=
  ⟨h.pageSize, h.needSort, h.tidy⟩

/-- The end of each allocation. -/
theorem Fits.of_take {α : Type} {x out : α} (h : Fits pageSize needSort A)
    (heq : (if n > A.freePages.length then none else some (x, A.dropFree n)) = some (out, A')) :
    Fits pageSize needSort A' := by
  split at heq
  · cases heq
  · cases heq
    exact h.dropFree n

theorem Fits.alloc {out : List ℕ} (h : Fits pageSize needSort A) (heq : A.alloc n = some (out, A')) :
    Fits pageSize needSort A' := by
  unfold KVAllocator.alloc at heq
  split at heq
  · exact (h.merge_ite _).of_take heq
  · exact (h.merge_ite _).of_take heq

theorem Fits.allocExtend {batch : List ExtendItem} {out : List ℕ} (h : Fits pageSize needSort A)
    (heq : PagedTokenToKVPoolAllocator.allocExtend A batch n = some (out, A')) :
    Fits pageSize needSort A' :=
  (h.merge_ite _).of_take heq

theorem Fits.allocDecode {batch : List (ℕ × ℤ)} {out : List ℕ} (h : Fits pageSize needSort A)
    (heq : PagedTokenToKVPoolAllocator.allocDecode A batch = some (out, A')) :
    Fits pageSize needSort A' :=
  (h.merge_ite _).of_take heq

theorem Fits.free (h : Fits pageSize needSort A) (freeIndex : List ℕ) :
    Fits pageSize needSort (A.free freeIndex) := by
  obtain ⟨h1, h2, h3⟩ := h
  unfold KVAllocator.free TokenToKVPoolAllocator.free PagedTokenToKVPoolAllocator.free
  split <;> split <;> try exact ⟨h1, h2, h3⟩
  all_goals split <;> try exact ⟨h1, h2, h3⟩
  all_goals
    split
    · refine ⟨h1, h2, fun hns => ?_⟩
      simp_all
    · exact ⟨h1, h2, h3⟩

theorem Reached.fits (h : Reached size pageSize needSort A) : Fits pageSize needSort A := by
  induction h with
  | init => exact ⟨rfl, rfl, fun _ => rfl⟩
  | clear _ ih => exact ⟨ih.pageSize, ih.needSort, fun _ => rfl⟩
  | mergeAndSortFree _ ih => exact ih.merge
  | alloc _ heq ih => exact ih.alloc heq
  | allocExtend _ heq ih => exact ih.allocExtend heq
  | allocDecode _ heq ih => exact ih.allocDecode heq
  | free _ ih => exact ih.free _
  | freeGroupBegin _ ih => exact ⟨ih.pageSize, ih.needSort, ih.tidy⟩
  | @freeGroupEnd A _ ih =>
    have hA : Fits pageSize needSort { A with isNotInFreeGroup := true } :=
      ⟨ih.pageSize, ih.needSort, ih.tidy⟩
    unfold KVAllocator.freeGroupEnd
    simp only
    split
    · exact hA.free _
    · exact hA
  | restoreState _ _ ih ih' =>
    exact ⟨ih.pageSize, ih.needSort, fun hns => ih'.tidy (ih'.needSort.trans (ih.needSort.symm.trans hns))⟩

/-! ## 2. What a free gives and what an allocation takes -/

theorem availableSize_eq_card (A : KVAllocator) : A.availableSize = A.pages.card * A.pageSize := by
  rw [availableSize, pages]
  simp

/-- **Slots that are freed are available**, one for one. -/
theorem availableSize_free (hp : 0 < A.pageSize) (hgroup : A.isNotInFreeGroup = true)
    (hw : Whole A.pageSize value) (hd : A.pageSize ∣ value.length) :
    (A.free value).availableSize = A.availableSize + value.length := by
  obtain ⟨j, hj⟩ := hd
  rw [availableSize_eq_card, availableSize_eq_card, pages_free hp hgroup hw.paged hw.nodup,
    (free_sameKind A value).pageSize, Multiset.card_add, Multiset.coe_card, length_heads, hj,
    pageCount_mul hp, Nat.add_mul, Nat.mul_comm j]

theorem availableSize_foldl_free {freed : List (List ℕ)} (hp : 0 < A.pageSize)
    (hgroup : A.isNotInFreeGroup = true)
    (hw : ∀ value ∈ freed, Whole A.pageSize value ∧ A.pageSize ∣ value.length) :
    (freed.foldl free A).availableSize = A.availableSize + freed.flatten.length := by
  induction freed generalizing A with
  | nil => simp
  | cons value freed ih =>
    have hk := free_sameKind A value
    obtain ⟨h1, h2⟩ := hw value mem_cons_self
    rw [foldl_cons, ih (by rw [hk.pageSize]; exact hp) (hk.isNotInFreeGroup.trans hgroup)
      (by rw [hk.pageSize]; exact fun v hv => hw v (mem_cons_of_mem _ hv)),
      availableSize_free hp hgroup h1 h2, flatten_cons, length_append, Nat.add_assoc]

theorem foldl_free_fits {freed : List (List ℕ)} (h : Fits pageSize needSort A) :
    Fits pageSize needSort (freed.foldl free A) := by
  induction freed generalizing A with
  | nil => exact h
  | cons value freed ih => exact ih (h.free value)

/-- The merge comes in time: the free list has `k` pages when both lists have and the test is for
at least as many. -/
theorem le_freePages_of_le_pages (htidy : A.Tidy) (hk : k ≤ A.pages.card) (hkm : k ≤ m) :
    k ≤ (if A.needSort ∧ m > A.freePages.length then A.mergeAndSortFree else A).freePages.length := by
  have hcard : A.pages.card = A.freePages.length + A.releasePages.length := by simp [pages]
  split
  · unfold mergeAndSortFree
    split
    · rw [length_mergeSort, length_append]
      omega
    · omega
  · rename_i hmerge
    cases hns : A.needSort with
    | false =>
      rw [htidy hns] at hcard
      rw [length_nil] at hcard
      omega
    | true =>
      rw [hns] at hmerge
      simp only [true_and] at hmerge
      omega

/-- Rounding the requests up to pages one by one costs less than a page each. -/
theorem mul_newPages_le (hp : 0 < pageSize) (it : ExtendItem) :
    pageSize * newPages pageSize it ≤ it.seqLen - it.prefixLen + (pageSize - 1) := by
  have hafter := Nat.div_mul_le_self (it.seqLen + pageSize - 1) pageSize
  have hbefore := Nat.lt_div_mul_add (a := it.prefixLen + pageSize - 1) hp
  rw [newPages, Nat.mul_sub, Nat.mul_comm pageSize, Nat.mul_comm pageSize]
  omega

theorem mul_getNumNewPages_le (hp : 0 < pageSize) (batch : List ExtendItem) :
    pageSize * getNumNewPages pageSize batch
      ≤ (batch.map fun it => it.seqLen - it.prefixLen).sum + batch.length * (pageSize - 1) := by
  induction batch with
  | nil => simp [getNumNewPages]
  | cons it batch ih =>
    have h := mul_newPages_le hp it
    simp only [getNumNewPages, map_cons, sum_cons,
      length_cons, Nat.mul_add, Nat.add_mul, Nat.one_mul] at ih ⊢
    omega

theorem le_card_pages (hp : 0 < A.pageSize) (h : n * A.pageSize ≤ A.availableSize) :
    n ≤ A.pages.card := by
  rw [availableSize_eq_card] at h
  exact Nat.le_of_mul_le_mul_right h hp

/-- **`alloc` of either class** serves what is available. -/
theorem alloc_isSome (hp : 0 < A.pageSize) (htidy : A.Tidy) (h : n ≤ A.availableSize) :
    (A.alloc n).isSome = true := by
  unfold KVAllocator.alloc
  split
  · rename_i hone
    have hle := le_freePages_of_le_pages htidy (le_card_pages hp (by rwa [hone, Nat.mul_one])) n.le_refl
    unfold TokenToKVPoolAllocator.alloc
    rw [if_neg (not_lt.mpr hle)]
    rfl
  · have hle := le_freePages_of_le_pages htidy
      (le_card_pages hp ((Nat.div_mul_le_self n A.pageSize).trans h)) (n / A.pageSize).le_refl
    unfold PagedTokenToKVPoolAllocator.alloc
    rw [if_neg (not_lt.mpr hle)]
    rfl

/-- **`alloc_extend`** serves a batch when a page for each request is available on top. -/
theorem allocExtend_isSome {batch : List ExtendItem} (hp : 0 < A.pageSize) (htidy : A.Tidy)
    (hn : n = (batch.map fun it => it.seqLen - it.prefixLen).sum)
    (h : n + batch.length * A.pageSize ≤ A.availableSize) :
    (PagedTokenToKVPoolAllocator.allocExtend A batch n).isSome = true := by
  have hround := mul_getNumNewPages_le hp batch
  generalize hN : getNumNewPages A.pageSize batch = N at hround
  have hpred : batch.length * (A.pageSize - 1) ≤ batch.length * A.pageSize :=
    Nat.mul_le_mul_left _ (Nat.sub_le _ _)
  have hpages : N ≤ A.pages.card := le_card_pages hp (by rw [Nat.mul_comm]; omega)
  have htest : N ≤ n / A.pageSize + batch.length + 1 := by
    have hdiv := Nat.lt_div_mul_add (a := n) hp
    refine Nat.le_of_mul_le_mul_left ?_ hp
    calc A.pageSize * N ≤ n + batch.length * A.pageSize := by omega
      _ ≤ n / A.pageSize * A.pageSize + A.pageSize + batch.length * A.pageSize := by omega
      _ = A.pageSize * (n / A.pageSize + batch.length + 1) := by ring
  have hle := le_freePages_of_le_pages htidy hpages htest
  unfold PagedTokenToKVPoolAllocator.allocExtend
  simp only [((samePages_ite A _).pageSize), hN]
  rw [if_neg (not_lt.mpr hle)]
  rfl

/-- `get_num_new_pages` of a decode batch. -/
def decodePages (pageSize : ℕ) (batch : List (ℕ × ℤ)) : ℕ :=
  (batch.map fun b => if b.1 % pageSize = 1 then 1 else 0).sum

theorem decodePages_le (pageSize : ℕ) (batch : List (ℕ × ℤ)) :
    decodePages pageSize batch ≤ batch.length := by
  rw [decodePages]
  induction batch with
  | nil => simp
  | cons b batch ih =>
    simp only [map_cons, sum_cons, length_cons]
    split <;> omega

theorem length_freePages_le (A : KVAllocator) : A.freePages.length ≤ A.pages.card := by
  simp [pages]

/-- **`alloc_decode`** serves a batch when the new pages are available, in whichever list. -/
theorem allocDecode_isSome_iff {batch : List (ℕ × ℤ)} (htidy : A.Tidy) :
    (PagedTokenToKVPoolAllocator.allocDecode A batch).isSome = true
      ↔ decodePages A.pageSize batch ≤ A.pages.card := by
  constructor
  · intro h
    obtain ⟨⟨out, A'⟩, heq⟩ := Option.isSome_iff_exists.mp h
    obtain ⟨B, hsame, hle, -⟩ := allocDecode_eq_some heq
    rw [← hsame.pages]
    exact hle.trans (length_freePages_le B)
  · intro h
    have hle := le_freePages_of_le_pages htidy h (decodePages_le A.pageSize batch)
    rw [decodePages] at hle
    unfold PagedTokenToKVPoolAllocator.allocDecode
    simp only [((samePages_ite A _).pageSize)]
    rw [if_neg (not_lt.mpr hle)]
    rfl

/-- What it serves is gone. -/
theorem card_pages_allocDecode {batch : List (ℕ × ℤ)} {out : List ℕ}
    (h : PagedTokenToKVPoolAllocator.allocDecode A batch = some (out, A')) :
    A'.pages.card + decodePages A.pageSize batch = A.pages.card := by
  obtain ⟨B, hsame, hle, -, rfl⟩ := allocDecode_eq_some h
  rw [← hsame.pages]
  simp only [pages, dropFree, decodePages, Multiset.card_add, Multiset.coe_card, length_drop]
  omega

end KVAllocator

end Sglang
