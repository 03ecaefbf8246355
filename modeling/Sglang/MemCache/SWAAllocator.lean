/-
# The allocator of a hybrid cache

A transcription of `SWATokenToKVPoolAllocator` of `swa_memory_pool.py`: two allocators, one for the
layers with full attention and one for those with a sliding window, and a mapping from the slots of the
first to those of the second.  The outer `none` of a method is an assertion or an index out of range, the
inner one the `None` of an allocation that does not fit.

`alloc` and `alloc_extend` compare the request with both pools before they take anything.  `alloc_decode`
asks one pool after the other and gives nothing back when only one of them could serve it, so a failed
call leaves everything as it was exactly when both pools have room or neither has
(`failed_alloc_unchanged_iff`).
-/
import Sglang.Lib.OptionLoops
import Sglang.MemCache.AllocatorRuns

namespace Sglang

open Lib Option List

/-- `SWATokenToKVPoolAllocator`. -/
structure SWATokenToKVPoolAllocator where
  pageSize : ℕ
  fullAttnAllocator : KVAllocator
  swaAttnAllocator : KVAllocator
  fullToSwaIndexMapping : List ℤ
  isNotInFreeGroup : Bool
  freeGroup : List (List ℕ)

namespace SWATokenToKVPoolAllocator

open PagedTokenToKVPoolAllocator (allocExtend allocDecode getNumNewPages)

/-! ## 1. The methods -/

/-- `clear`; the last item of the mapping stays. -/
def clear (A : SWATokenToKVPoolAllocator) : SWATokenToKVPoolAllocator :=
  { A with
    fullAttnAllocator := A.fullAttnAllocator.clear
    swaAttnAllocator := A.swaAttnAllocator.clear
    fullToSwaIndexMapping := A.fullToSwaIndexMapping.dropLast.map (fun _ => 0)
      ++ A.fullToSwaIndexMapping.drop (A.fullToSwaIndexMapping.length - 1)
    isNotInFreeGroup := true
    freeGroup := [] }

/-- `__init__`: one more item at the end maps `-1` to `-1`. -/
def init (size sizeSwa pageSize : ℕ) (needSort : Bool) : SWATokenToKVPoolAllocator :=
  clear
    { pageSize := pageSize
      fullAttnAllocator := KVAllocator.clear ⟨size, pageSize, needSort, [], [], true, []⟩
      swaAttnAllocator := KVAllocator.clear ⟨sizeSwa, pageSize, needSort, [], [], true, []⟩
      fullToSwaIndexMapping := List.replicate (size + pageSize) 0 ++ [-1]
      isNotInFreeGroup := true
      freeGroup := [] }

/-- An index of a tensor, from the end when it is negative. -/
def tensorIndex (values : List ℤ) (i : ℤ) : Option ℤ :=
  if 0 ≤ i then values[i.toNat]?
  else if -(values.length : ℤ) ≤ i then values[(values.length + i).toNat]? else none

/-- `translate_loc_from_full_to_swa`. -/
def translateLocFromFullToSwa (A : SWATokenToKVPoolAllocator) (kvIndices : List ℤ) :
    Option (List ℤ) :=
  kvIndices.mapM (tensorIndex A.fullToSwaIndexMapping)

/-- `full_to_swa_index_mapping[full_indices] = swa_indices`. -/
def setMapping (A : SWATokenToKVPoolAllocator) (fullIndices : List ℕ) (swaIndices : List ℤ) :
    Option SWATokenToKVPoolAllocator :=
  if fullIndices.length = swaIndices.length
      ∧ ∀ i ∈ fullIndices, i < A.fullToSwaIndexMapping.length then
    some { A with
      fullToSwaIndexMapping := (fullIndices.zip swaIndices).foldl (fun m w => m.set w.1 w.2)
        A.fullToSwaIndexMapping }
  else none

/-- `set_full_to_swa_mapping`. -/
def setFullToSwaMapping (A : SWATokenToKVPoolAllocator) (fullIndices : List ℕ)
    (swaIndices : List ℤ) : Option SWATokenToKVPoolAllocator :=
  if fullIndices.length = 0 then some A else A.setMapping fullIndices swaIndices

/-- `alloc`. -/
def alloc (A : SWATokenToKVPoolAllocator) (needSize : ℕ) :
    Option (Option (List ℕ) × SWATokenToKVPoolAllocator) :=
  if A.pageSize ≠ 1 then none
  else if needSize > A.fullAttnAllocator.availableSize then some (none, A)
  else if needSize > A.swaAttnAllocator.availableSize then some (none, A)
  else do
    let (allocFullIndices, full) ← A.fullAttnAllocator.alloc needSize
    let (allocSwaIndices, swa) ← A.swaAttnAllocator.alloc needSize
    let A ← { A with fullAttnAllocator := full, swaAttnAllocator := swa }.setMapping
      allocFullIndices (allocSwaIndices.map fun i : ℕ => (i : ℤ))
    return (some allocFullIndices, A)

/-- `alloc_extend`. -/
def allocExtend (A : SWATokenToKVPoolAllocator) (batch : List ExtendItem) (extendNumTokens : ℕ) :
    Option (Option (List ℕ) × SWATokenToKVPoolAllocator) :=
  let numNewPages := getNumNewPages A.pageSize batch
  if ¬ A.pageSize > 1 then none
  else if numNewPages > A.fullAttnAllocator.availableSize / A.pageSize then some (none, A)
  else if numNewPages > A.swaAttnAllocator.availableSize / A.pageSize then some (none, A)
  else do
    let swaLastLoc ← A.translateLocFromFullToSwa (batch.map ExtendItem.lastLoc)
    let (allocFullIndices, full) ← PagedTokenToKVPoolAllocator.allocExtend A.fullAttnAllocator
      batch extendNumTokens
    let (allocSwaIndices, swa) ← PagedTokenToKVPoolAllocator.allocExtend A.swaAttnAllocator
      (List.zipWith (fun it last => { it with lastLoc := last }) batch swaLastLoc) extendNumTokens
    let A ← { A with fullAttnAllocator := full, swaAttnAllocator := swa }.setMapping
      allocFullIndices (allocSwaIndices.map fun i : ℕ => (i : ℤ))
    return (some allocFullIndices, A)

/-- `alloc_decode` of one pool with what it leaves behind: a call that does not fit may have
merged the lists. -/
def poolAllocDecode (pool : KVAllocator) (batch : List (ℕ × ℤ)) : Option (List ℕ) × KVAllocator :=
  match PagedTokenToKVPoolAllocator.allocDecode pool batch with
  | some (out, pool) => (some out, pool)
  | none => (none,
    if pool.needSort ∧ batch.length > pool.freePages.length then pool.mergeAndSortFree else pool)

/-- `alloc_decode`: a batch of `(seq_len, last_loc)`. -/
def allocDecode (A : SWATokenToKVPoolAllocator) (batch : List (ℕ × ℤ)) :
    Option (Option (List ℕ) × SWATokenToKVPoolAllocator) :=
  if ¬ A.pageSize > 1 then none
  else do
    let swaLastLoc ← A.translateLocFromFullToSwa (batch.map Prod.snd)
    let full := poolAllocDecode A.fullAttnAllocator batch
    let swa := poolAllocDecode A.swaAttnAllocator
      (List.zipWith (fun b last => (b.1, last)) batch swaLastLoc)
    let A := { A with fullAttnAllocator := full.2, swaAttnAllocator := swa.2 }
    match full.1, swa.1 with
    | some allocFullIndices, some allocSwaIndices => do
      let A ← A.setMapping allocFullIndices (allocSwaIndices.map fun i : ℕ => (i : ℤ))
      return (some allocFullIndices, A)
    | _, _ => return (none, A)

/-- `free_swa`. -/
def freeSwa (A : SWATokenToKVPoolAllocator) (freeIndex : List ℕ) :
    Option SWATokenToKVPoolAllocator := do
  let swaIndices ← A.translateLocFromFullToSwa (freeIndex.map fun i : ℕ => (i : ℤ))
  let swaIndices := (swaIndices.filter (0 < ·)).map Int.toNat
  { A with swaAttnAllocator := A.swaAttnAllocator.free swaIndices }.setMapping freeIndex
    (freeIndex.map fun _ => 0)

/-- `free`. -/
def free (A : SWATokenToKVPoolAllocator) (freeIndex : List ℕ) :
    Option SWATokenToKVPoolAllocator :=
  if freeIndex.length = 0 then some A
  else do
    let A ← (if A.isNotInFreeGroup then
        { A with fullAttnAllocator := A.fullAttnAllocator.free freeIndex }.freeSwa freeIndex
      else some { A with freeGroup := A.freeGroup ++ [freeIndex] })
    if A.fullAttnAllocator.availableSize ≤ A.fullAttnAllocator.size
        ∧ A.swaAttnAllocator.availableSize ≤ A.swaAttnAllocator.size then
      some A
    else none

/-- `free_group_begin`. -/
def freeGroupBegin (A : SWATokenToKVPoolAllocator) : SWATokenToKVPoolAllocator :=
  { A with isNotInFreeGroup := false, freeGroup := [] }

/-- `free_group_end`. -/
def freeGroupEnd (A : SWATokenToKVPoolAllocator) : Option SWATokenToKVPoolAllocator :=
  let A := { A with isNotInFreeGroup := true }
  if A.freeGroup ≠ [] then A.free A.freeGroup.flatten else some A

/-- `restore_state` of what `backup_state` kept of another state. -/
def restoreState (A backup : SWATokenToKVPoolAllocator) : SWATokenToKVPoolAllocator :=
  { A with
    fullAttnAllocator := { A.fullAttnAllocator with
      freePages := backup.fullAttnAllocator.freePages
      releasePages := backup.fullAttnAllocator.releasePages }
    swaAttnAllocator := { A.swaAttnAllocator with
      freePages := backup.swaAttnAllocator.freePages
      releasePages := backup.swaAttnAllocator.releasePages } }

/-! ## 2. Runs -/

/-- A call of one of the three entry points. -/
inductive AllocCall
  | alloc (needSize : ℕ)
  | allocExtend (batch : List ExtendItem) (extendNumTokens : ℕ)
  | allocDecode (batch : List (ℕ × ℤ))

/-- What the call returns and leaves behind. -/
def AllocCall.run (A : SWATokenToKVPoolAllocator) :
    AllocCall → Option (Option (List ℕ) × SWATokenToKVPoolAllocator)
  | .alloc needSize => A.alloc needSize
  | .allocExtend batch extendNumTokens => A.allocExtend batch extendNumTokens
  | .allocDecode batch => A.allocDecode batch

/-- The states the methods lead to; a backup may be one of any other state. -/
inductive Reached (size sizeSwa pageSize : ℕ) (needSort : Bool) : SWATokenToKVPoolAllocator → Prop
  | init : Reached size sizeSwa pageSize needSort (init size sizeSwa pageSize needSort)
  | clear {A : SWATokenToKVPoolAllocator} : Reached size sizeSwa pageSize needSort A →
    Reached size sizeSwa pageSize needSort A.clear
  | call {A A' : SWATokenToKVPoolAllocator} {c : AllocCall} {out : Option (List ℕ)} :
    Reached size sizeSwa pageSize needSort A → c.run A = some (out, A') →
    Reached size sizeSwa pageSize needSort A'
  | setFullToSwaMapping {A A' : SWATokenToKVPoolAllocator} {fullIndices : List ℕ}
      {swaIndices : List ℤ} : Reached size sizeSwa pageSize needSort A →
    A.setFullToSwaMapping fullIndices swaIndices = some A' →
    Reached size sizeSwa pageSize needSort A'
  | freeSwa {A A' : SWATokenToKVPoolAllocator} {freeIndex : List ℕ} :
    Reached size sizeSwa pageSize needSort A → A.freeSwa freeIndex = some A' →
    Reached size sizeSwa pageSize needSort A'
  | free {A A' : SWATokenToKVPoolAllocator} {freeIndex : List ℕ} :
    Reached size sizeSwa pageSize needSort A → A.free freeIndex = some A' →
    Reached size sizeSwa pageSize needSort A'
  | freeGroupBegin {A : SWATokenToKVPoolAllocator} : Reached size sizeSwa pageSize needSort A →
    Reached size sizeSwa pageSize needSort A.freeGroupBegin
  | freeGroupEnd {A A' : SWATokenToKVPoolAllocator} :
    Reached size sizeSwa pageSize needSort A → A.freeGroupEnd = some A' →
    Reached size sizeSwa pageSize needSort A'
  | restoreState {A B : SWATokenToKVPoolAllocator} : Reached size sizeSwa pageSize needSort A →
    Reached size sizeSwa pageSize needSort B →
    Reached size sizeSwa pageSize needSort (A.restoreState B)

/-- The two allocators of a state of the run. -/
structure Fits (p : ℕ) (needSort : Bool) (A : SWATokenToKVPoolAllocator) : Prop where
  pageSize : A.pageSize = p
  full : A.fullAttnAllocator.Fits p needSort
  swa : A.swaAttnAllocator.Fits p needSort

variable {A A' : SWATokenToKVPoolAllocator} {size sizeSwa p : ℕ} {needSort : Bool}
  {pool full swa : KVAllocator} {freeIndex : List ℕ} {c : AllocCall} {out : Option (List ℕ)}

theorem Fits.with (h : Fits p needSort A) (hfull : full.Fits p needSort)
    (hswa : swa.Fits p needSort) :
    Fits p needSort { A with fullAttnAllocator := full, swaAttnAllocator := swa } :=
  ⟨h.pageSize, hfull, hswa⟩

theorem Fits.setMapping {fullIndices : List ℕ} {swaIndices : List ℤ} (h : Fits p needSort A)
    (heq : A.setMapping fullIndices swaIndices = some A') : Fits p needSort A' := by
  unfold SWATokenToKVPoolAllocator.setMapping at heq
  split at heq
  · cases heq
    exact ⟨h.pageSize, h.full, h.swa⟩
  · cases heq

theorem fits_poolAllocDecode (h : pool.Fits p needSort) (batch : List (ℕ × ℤ)) :
    (poolAllocDecode pool batch).2.Fits p needSort := by
  unfold poolAllocDecode
  split
  · exact h.allocDecode ‹_›
  · exact h.merge_ite _

theorem Fits.freeSwa (h : Fits p needSort A) (heq : A.freeSwa freeIndex = some A') :
    Fits p needSort A' := by
  obtain ⟨swaIndices, -, hset⟩ := bind_eq_some_iff.mp heq
  exact (h.with h.full (h.swa.free _)).setMapping hset

theorem Fits.free (h : Fits p needSort A) (heq : A.free freeIndex = some A') :
    Fits p needSort A' := by
  unfold SWATokenToKVPoolAllocator.free at heq
  split at heq
  · cases heq
    exact h
  · obtain ⟨A₁, hfree, hret⟩ := bind_eq_some_iff.mp heq
    have h₁ : Fits p needSort A₁ := by
      split at hfree
      · exact (h.with (h.full.free _) h.swa).freeSwa hfree
      · cases hfree
        exact ⟨h.pageSize, h.full, h.swa⟩
    split at hret
    · cases hret
      exact h₁
    · cases hret

theorem Fits.alloc {needSize : ℕ} (h : Fits p needSort A) (heq : A.alloc needSize = some (out, A')) :
    Fits p needSort A' := by
  unfold SWATokenToKVPoolAllocator.alloc at heq
  split at heq
  · cases heq
  · split at heq
    · cases heq
      exact h
    · split at heq
      · cases heq
        exact h
      · obtain ⟨⟨o, full⟩, hfull, heq⟩ := bind_eq_some_iff.mp heq
        obtain ⟨⟨o', swa⟩, hswa, heq⟩ := bind_eq_some_iff.mp heq
        obtain ⟨A₁, hset, hret⟩ := bind_eq_some_iff.mp heq
        cases hret
        exact (h.with (h.full.alloc hfull) (h.swa.alloc hswa)).setMapping hset

theorem Fits.allocExtend {batch : List ExtendItem} {n : ℕ} (h : Fits p needSort A)
    (heq : A.allocExtend batch n = some (out, A')) : Fits p needSort A' := by
  unfold SWATokenToKVPoolAllocator.allocExtend at heq
  simp only at heq
  split at heq
  · cases heq
  · split at heq
    · cases heq
      exact h
    · split at heq
      · cases heq
        exact h
      · obtain ⟨swaLastLoc, -, heq⟩ := bind_eq_some_iff.mp heq
        obtain ⟨⟨o, full⟩, hfull, heq⟩ := bind_eq_some_iff.mp heq
        obtain ⟨⟨o', swa⟩, hswa, heq⟩ := bind_eq_some_iff.mp heq
        obtain ⟨A₁, hset, hret⟩ := bind_eq_some_iff.mp heq
        cases hret
        exact (h.with (h.full.allocExtend hfull) (h.swa.allocExtend hswa)).setMapping hset

theorem Fits.allocDecode {batch : List (ℕ × ℤ)} (h : Fits p needSort A)
    (heq : A.allocDecode batch = some (out, A')) : Fits p needSort A' := by
  unfold SWATokenToKVPoolAllocator.allocDecode at heq
  split at heq
  · cases heq
  · obtain ⟨swaLastLoc, -, heq⟩ := bind_eq_some_iff.mp heq
    simp only at heq
    have hpools := h.with (fits_poolAllocDecode h.full batch) (fits_poolAllocDecode h.swa
      (List.zipWith (fun b last => (b.1, last)) batch swaLastLoc))
    split at heq
    · obtain ⟨A₁, hset, hret⟩ := bind_eq_some_iff.mp heq
      cases hret
      exact hpools.setMapping hset
    · cases heq
      exact hpools

theorem Reached.fits (h : Reached size sizeSwa p needSort A) : Fits p needSort A := by
  induction h with
  | init => exact ⟨rfl, ⟨rfl, rfl, fun _ => rfl⟩, ⟨rfl, rfl, fun _ => rfl⟩⟩
  | clear _ ih =>
    exact ⟨ih.pageSize, ⟨ih.full.pageSize, ih.full.needSort, fun _ => rfl⟩,
      ⟨ih.swa.pageSize, ih.swa.needSort, fun _ => rfl⟩⟩
  | @call A A' c out _ heq ih =>
    cases c with
    | alloc needSize => exact ih.alloc heq
    | allocExtend batch n => exact ih.allocExtend heq
    | allocDecode batch => exact ih.allocDecode heq
  | setFullToSwaMapping _ heq ih =>
    unfold SWATokenToKVPoolAllocator.setFullToSwaMapping at heq
    split at heq
    · cases heq
      exact ih
    · exact ih.setMapping heq
  | freeSwa _ heq ih => exact ih.freeSwa heq
  | free _ heq ih => exact ih.free heq
  | freeGroupBegin _ ih => exact ⟨ih.pageSize, ih.full, ih.swa⟩
  | @freeGroupEnd A A' _ heq ih =>
    have hopen : Fits p needSort { A with isNotInFreeGroup := true } :=
      ⟨ih.pageSize, ih.full, ih.swa⟩
    unfold SWATokenToKVPoolAllocator.freeGroupEnd at heq
    simp only at heq
    split at heq
    · exact hopen.free heq
    · cases heq
      exact hopen
  | restoreState _ _ ih ih' =>
    refine ih.with ⟨ih.full.pageSize, ih.full.needSort, fun hns => ?_⟩
      ⟨ih.swa.pageSize, ih.swa.needSort, fun hns => ?_⟩
    · exact ih'.full.tidy (ih'.full.needSort.trans (ih.full.needSort.symm.trans hns))
    · exact ih'.swa.tidy (ih'.swa.needSort.trans (ih.swa.needSort.symm.trans hns))

/-! ## 3. Failed calls -/

/-- The free pages of both pools and the mapping are the same. -/
structure Unchanged (A A' : SWATokenToKVPoolAllocator) : Prop where
  full : A'.fullAttnAllocator.pages = A.fullAttnAllocator.pages
  swa : A'.swaAttnAllocator.pages = A.swaAttnAllocator.pages
  mapping : A'.fullToSwaIndexMapping = A.fullToSwaIndexMapping

/-- Both pools can serve the new pages of a decode batch, or neither can. -/
def Evenly (A : SWATokenToKVPoolAllocator) : AllocCall → Prop
  | .allocDecode batch => A.pageSize > 1 →
      (A.translateLocFromFullToSwa (batch.map Prod.snd)).isSome = true →
      (KVAllocator.decodePages A.pageSize batch ≤ A.fullAttnAllocator.availableSize / A.pageSize
        ↔ KVAllocator.decodePages A.pageSize batch
          ≤ A.swaAttnAllocator.availableSize / A.pageSize)
  | _ => True

/-- The second pool is asked for as many pages as the first. -/
theorem decodePages_zipWith {batch : List (ℕ × ℤ)} {lasts : List ℤ}
    (h : lasts.length = batch.length) :
    KVAllocator.decodePages p (List.zipWith (fun b last => (b.1, last)) batch lasts)
      = KVAllocator.decodePages p batch := by
  induction batch generalizing lasts with
  | nil => rfl
  | cons b batch ih =>
    cases lasts with
    | nil => simp at h
    | cons last lasts =>
      have hrest := ih (by simpa using h)
      simp only [KVAllocator.decodePages, zipWith_cons_cons, map_cons, sum_cons]
        at hrest ⊢
      rw [hrest]

/-- **One pool**: it serves the batch and loses the pages, or it does not and keeps them. -/
theorem poolAllocDecode_spec (hp : 0 < p) (h : pool.Fits p needSort) (batch : List (ℕ × ℤ)) :
    (KVAllocator.decodePages p batch ≤ pool.availableSize / p ∧
      (∃ out, (poolAllocDecode pool batch).1 = some out) ∧
      (poolAllocDecode pool batch).2.pages.card + KVAllocator.decodePages p batch
        = pool.pages.card) ∨
    (pool.availableSize / p < KVAllocator.decodePages p batch ∧
      (poolAllocDecode pool batch).1 = none ∧
      (poolAllocDecode pool batch).2.pages = pool.pages) := by
  have hcard : pool.availableSize / p = pool.pages.card := by
    rw [KVAllocator.availableSize_eq_card, h.pageSize, Nat.mul_div_cancel _ hp]
  have hiff := @KVAllocator.allocDecode_isSome_iff pool batch h.tidy
  rw [h.pageSize] at hiff
  unfold poolAllocDecode
  split
  next out pool' heq =>
    have hgone := KVAllocator.card_pages_allocDecode heq
    rw [h.pageSize] at hgone
    rw [heq] at hiff
    exact .inl ⟨by rw [hcard]; exact hiff.mp rfl, ⟨out, rfl⟩, hgone⟩
  next heq =>
    rw [heq] at hiff
    refine .inr ⟨?_, rfl, (KVAllocator.samePages_ite pool _).pages⟩
    rw [hcard, ← not_le, ← hiff]
    simp

/-- A failed `alloc_decode` leaves everything as it was when the pools agree, and only then. -/
theorem allocDecode_unchanged_iff (h : Fits p needSort A) (batch : List (ℕ × ℤ)) :
    (∀ A', A.allocDecode batch = some (none, A') → Unchanged A A')
      ↔ A.Evenly (.allocDecode batch) := by
  unfold Evenly allocDecode
  rw [h.pageSize]
  by_cases hp : p > 1
  · rw [if_neg (not_not.mpr hp)]
    cases htr : A.translateLocFromFullToSwa (batch.map Prod.snd) with
    | none => simp [htr]
    | some lasts =>
      have hlen : lasts.length = batch.length := by rw [length_mapM htr, length_map]
      have hfull := poolAllocDecode_spec (by omega) h.full batch
      have hswa := poolAllocDecode_spec (by omega) h.swa
        (List.zipWith (fun b last => (b.1, last)) batch lasts)
      rw [decodePages_zipWith hlen] at hswa
      simp only [bind_eq_bind, bind_some, htr, isSome_some, hp, true_imp_iff]
      generalize A.fullAttnAllocator.availableSize / p = availableFull at hfull ⊢
      generalize A.swaAttnAllocator.availableSize / p = availableSwa at hswa ⊢
      generalize poolAllocDecode A.fullAttnAllocator batch = full at hfull ⊢
      generalize poolAllocDecode A.swaAttnAllocator
        (List.zipWith (fun b last => (b.1, last)) batch lasts) = swa at hswa ⊢
      obtain ⟨outFull, full⟩ := full
      obtain ⟨outSwa, swa⟩ := swa
      simp only at hfull hswa ⊢
      rcases hfull with ⟨hf, ⟨o, rfl⟩, hgone⟩ | ⟨hf, rfl, hsame⟩ <;>
        rcases hswa with ⟨hs, ⟨o', rfl⟩, hgone'⟩ | ⟨hs, rfl, hsame'⟩
      · -- both pools serve the batch
        simp only [hf, hs, iff_true]
        intro A' heq
        obtain ⟨A₁, -, hret⟩ := bind_eq_some_iff.mp heq
        cases hret
      · -- the first pool only: its pages are gone
        refine iff_of_false (fun hall => ?_) fun hiff => absurd (hiff.mp hf) (by omega)
        have := congrArg Multiset.card (hall _ rfl).full
        simp only at this
        omega
      · refine iff_of_false (fun hall => ?_) fun hiff => absurd (hiff.mpr hs) (by omega)
        have := congrArg Multiset.card (hall _ rfl).swa
        simp only at this
        omega
      · refine iff_of_true (fun A' heq => ?_) ⟨fun _ => by omega, fun _ => by omega⟩
        cases heq
        exact ⟨hsame, hsame', rfl⟩
  · simp [hp]

/-- **A failed call changes nothing** exactly when it is not an `alloc_decode` that one pool could
serve and the other could not. -/
theorem failed_alloc_unchanged_iff (h : Reached size sizeSwa p needSort A) (c : AllocCall) :
    (∀ A', c.run A = some (none, A') → Unchanged A A') ↔ A.Evenly c := by
  cases c with
  | alloc needSize =>
    refine iff_of_true (fun A' heq => ?_) trivial
    simp only [AllocCall.run, alloc] at heq
    split at heq
    · cases heq
    · split at heq
      · cases heq
        exact ⟨rfl, rfl, rfl⟩
      · split at heq
        · cases heq
          exact ⟨rfl, rfl, rfl⟩
        · simp only [bind_eq_bind, bind_eq_some_iff] at heq
          obtain ⟨_, -, _, -, _, -, hret⟩ := heq
          cases hret
  | allocExtend batch n =>
    refine iff_of_true (fun A' heq => ?_) trivial
    simp only [AllocCall.run, allocExtend] at heq
    split at heq
    · cases heq
    · split at heq
      · cases heq
        exact ⟨rfl, rfl, rfl⟩
      · split at heq
        · cases heq
          exact ⟨rfl, rfl, rfl⟩
        · simp only [bind_eq_bind, bind_eq_some_iff] at heq
          obtain ⟨_, -, _, -, _, -, _, -, hret⟩ := heq
          cases hret
  | allocDecode batch => exact allocDecode_unchanged_iff h.fits batch

/-- A batch that neither pool can serve. -/
def tooLarge : AllocCall := .allocDecode (List.replicate 5 (1, -1))

theorem tooLarge_isSome : (tooLarge.run (init 8 4 2 true)).isSome = true := by decide +kernel

/-- The theorem on a run: five new pages are in neither pool, and nothing changes. -/
theorem failed_alloc_unchanged_iff_small : ∃ A', tooLarge.run (init 8 4 2 true) = some (none, A')
    ∧ Unchanged (init 8 4 2 true) A' := by
  have heven : (init 8 4 2 true).Evenly tooLarge := fun _ _ => by decide +kernel
  have hnone : ((tooLarge.run (init 8 4 2 true)).get tooLarge_isSome).1 = none := by decide +kernel
  obtain ⟨⟨out, A'⟩, heq⟩ := isSome_iff_exists.mp tooLarge_isSome
  simp only [heq, get_some] at hnone
  subst hnone
  exact ⟨A', heq, (failed_alloc_unchanged_iff .init tooLarge).mpr heven A' heq⟩

/-- Two requests of two tokens each, in pools of four pages and of two. -/
def twoPrompts : Option (Option (List ℕ) × SWATokenToKVPoolAllocator) :=
  (AllocCall.allocExtend [⟨0, 2, -1⟩, ⟨0, 2, -1⟩] 4).run (init 8 4 2 false)

theorem twoPrompts_isSome : twoPrompts.isSome = true := by decide +kernel

/-- The state when both decode their next token. -/
def beforeDecode : SWATokenToKVPoolAllocator := (twoPrompts.get twoPrompts_isSome).2

/-- Their next tokens. -/
def nextTokens : AllocCall := .allocDecode [(3, 3), (3, 5)]

theorem nextTokens_isSome : (nextTokens.run beforeDecode).isSome = true := by decide +kernel

/-- **Pages get lost**: the call fails, since the second pool is empty, but the two pages of the first
pool are taken. -/
theorem failed_alloc_loses_pages : Reached 8 4 2 false beforeDecode
    ∧ beforeDecode.fullAttnAllocator.freePages = [3, 4]
    ∧ ∃ A', nextTokens.run beforeDecode = some (none, A')
      ∧ A'.fullAttnAllocator.freePages = [] ∧ ¬ Unchanged beforeDecode A' := by
  have hrun : Reached 8 4 2 false beforeDecode :=
    .call .init (some_get twoPrompts_isSome).symm
  have hnone : ((nextTokens.run beforeDecode).get nextTokens_isSome).1 = none := by decide +kernel
  have hfree : ((nextTokens.run beforeDecode).get nextTokens_isSome).2.fullAttnAllocator.freePages
      = [] := by decide +kernel
  have hpages : ((nextTokens.run beforeDecode).get nextTokens_isSome).2.fullAttnAllocator.pages.card
      ≠ beforeDecode.fullAttnAllocator.pages.card := by decide +kernel
  obtain ⟨⟨out, A'⟩, heq⟩ := isSome_iff_exists.mp nextTokens_isSome
  simp only [heq, get_some] at hnone hfree hpages
  subst hnone
  exact ⟨hrun, by decide +kernel, A', heq, hfree, fun h => hpages (congrArg Multiset.card h.full)⟩

end SWATokenToKVPoolAllocator

end Sglang
