/-
# The pages of an extend batch

What `alloc_extend_kernel` and its reference compute, position by position: each token of a request
gets the slot that its position has in its page, first in the page that the request ends with, and
then in the first free pages, as many as `get_num_new_pages` counts.  Different positions have
different slots as long as the requests have last pages of their own; the kernel does not look at that,
and two requests that go on in one page are given the same slot (`allocExtend_collides`).
-/
import Sglang.MemCache.ExtendKernel

namespace Sglang

open Lib List

namespace PagedTokenToKVPoolAllocator

variable {p i i' j j' n : ℕ} {freePages : List ℕ} {batch : List ExtendItem}

/-! ## 1. The slots of the positions -/

/-- Position `j` of request `i` is one the batch extends by. -/
def Position (batch : List ExtendItem) (i j : ℕ) : Prop :=
  i < batch.length ∧ (item batch i).prefixLen ≤ j ∧ j < (item batch i).seqLen

/-- The output for position `j` of request `i`. -/
def locOf (batch : List ExtendItem) (out : List ℤ) (i j : ℕ) : ℤ :=
  out.getD (outputStart batch i + (j - (item batch i).prefixLen)) 0

/-- The first position behind the pages that request `i` has. -/
def boundary (p : ℕ) (batch : List ExtendItem) (i : ℕ) : ℕ :=
  p * pageCount p (item batch i).prefixLen

theorem locOf_eq (p : ℕ) (freePages : List ℕ) (h : Position batch i j) :
    locOf batch (batchOutputs p batch freePages batch.length) i j
      = slotAt p freePages (newPageStart p batch i) (item batch i)
        (j - (item batch i).prefixLen) := by
  obtain ⟨hi, hge, hlt⟩ := h
  have hk : j - (item batch i).prefixLen < (item batch i).seqLen - (item batch i).prefixLen := by
    omega
  rw [locOf, batchOutputs, getD_eq_getElem?_getD, getElem?_flatMap_range (outputStart batch)
      (fun i => outputs p freePages (newPageStart p batch i) (item batch i)) batch.length
      (fun i hi => by rw [outputStart_succ hi, length_outputs]) rfl hi
      (by rw [length_outputs]; exact hk), outputs]
  simp [hk]

/-- A position in a page the request has. -/
theorem locOf_old (freePages : List ℕ) (h : Position batch i j) (hj : j < boundary p batch i) :
    locOf batch (batchOutputs p batch freePages batch.length) i j
      = (item batch i).lastLoc + 1 + (j - (item batch i).prefixLen : ℕ)
    ∧ j - (item batch i).prefixLen < oldLen p (item batch i) := by
  have hloc := locOf_eq p freePages h
  obtain ⟨-, hge, hlt⟩ := h
  have hk : j - (item batch i).prefixLen < oldLen p (item batch i) := by
    rw [oldLen]
    rw [boundary] at hj
    omega
  exact ⟨by rw [hloc, slotAt, if_pos hk], hk⟩

theorem locOf_new (hp : 0 < p) (freePages : List ℕ) (h : Position batch i j)
    (hj : boundary p batch i ≤ j) :
    locOf batch (batchOutputs p batch freePages batch.length) i j
      = ((freePages.getD (newPageStart p batch i
          + (j / p - pageCount p (item batch i).prefixLen)) 0 * p + j % p : ℕ) : ℤ)
    ∧ j / p - pageCount p (item batch i).prefixLen < newPages p (item batch i) := by
  have hloc := locOf_eq p freePages h
  obtain ⟨-, hge, hlt⟩ := h
  have hceil : (item batch i).prefixLen ≤ p * pageCount p (item batch i).prefixLen :=
    (pageCount_le_iff hp).mp le_rfl
  obtain ⟨k, rfl⟩ := Nat.exists_eq_add_of_le hj
  have hdiv : (boundary p batch i + k) / p = pageCount p (item batch i).prefixLen + k / p :=
    Nat.mul_add_div hp _ _
  have hmod : (boundary p batch i + k) % p = k % p := Nat.mul_add_mod _ _ _
  have hold : boundary p batch i + k - (item batch i).prefixLen - oldLen p (item batch i) = k := by
    rw [boundary, oldLen] at *
    omega
  rcases parts hp (hge.trans hlt.le) with ⟨hfull, -⟩ | ⟨-, m, hm⟩
  · rw [boundary] at hlt
    rw [oldLen] at hfull
    omega
  · refine ⟨?_, ?_⟩
    · rw [hloc, slotAt, if_neg (by rw [boundary, oldLen]; omega), hold, hdiv, hmod,
        Nat.add_sub_cancel_left]
    · rw [hdiv, Nat.add_sub_cancel_left]
      refine hm.div_lt k ?_
      have := hm.seq_eq
      rw [boundary] at hlt
      omega

theorem boundary_div (hp : 0 < p) : j < boundary p batch i
    ↔ j / p < pageCount p (item batch i).prefixLen := by
  rw [boundary, Nat.div_lt_iff_lt_mul hp, Nat.mul_comm]

theorem lastPage (hp : 0 < p) {last : ℤ} {pre k : ℕ} (hlast : (last + 1) % p = (pre : ℤ) % p)
    (hk : pre + k < p * pageCount p pre) :
    (last + 1 + k) % p = ((pre + k : ℕ) : ℤ) % p ∧ (last + 1 + k) / p = last / p := by
  have hmod : (last + 1 + k) % p = ((pre + k : ℕ) : ℤ) % p := by
    exact Int.ModEq.add_right k hlast
  refine ⟨hmod, ?_⟩
  have hpre := Nat.div_add_mod pre p
  have hr := Nat.mod_lt pre hp
  -- the last page is cut: its rest is not empty
  have hpos : 0 < pre % p ∧ pageCount p pre = pre / p + 1 := by
    have hcount : pageCount p pre = pre / p + pageCount p (pre % p) := by
      conv_lhs => rw [← hpre, pageCount_mul_add hp]
    rcases Nat.eq_zero_or_pos (pre % p) with hz | hz
    · rw [hcount, hz, pageCount_zero hp, Nat.add_zero] at hk
      omega
    · refine ⟨hz, ?_⟩
      have h1 : pageCount p (pre % p) ≤ 1 := (pageCount_le_iff hp).mpr (by omega)
      have h2 : 0 < pageCount p (pre % p) := (lt_pageCount_iff hp).mpr (by omega)
      omega
  rw [hpos.2, Nat.mul_add] at hk
  have hb := Int.mul_ediv_add_emod (last + 1) p
  rw [hlast] at hb
  have hcast : ((pre : ℤ) % p) = ((pre % p : ℕ) : ℤ) := (Int.natCast_emod pre p).symm
  generalize (last + 1) / (p : ℤ) = b at hb
  generalize pre % p = r at *
  have h1 : last + 1 + k = (r + k : ℕ) + p * b := by
    rw [Nat.cast_add]
    linarith
  have h2 : last = (r - 1 : ℕ) + p * b := by
    rw [Nat.cast_sub (by omega)]
    push_cast
    linarith
  have hp' : (p : ℤ) ≠ 0 := by exact_mod_cast hp.ne'
  rw [h1, Int.add_mul_ediv_left _ _ hp']
  conv_rhs => rw [h2, Int.add_mul_ediv_left _ _ hp']
  rw [Int.ediv_eq_zero_of_lt (by omega) (by omega), Int.ediv_eq_zero_of_lt (by omega) (by omega)]

/-! ## 2. The layout -/

/-- How the outputs lie in the pages. -/
structure LaidOut (p : ℕ) (batch : List ExtendItem) (freePages : List ℕ) (loc : ℕ → ℕ → ℤ) :
    Prop where
  aligned : ∀ i j, Position batch i j → loc i j % p = (j : ℤ) % p
  together : ∀ i j j', Position batch i j → Position batch i j' → j / p = j' / p →
    loc i j' - loc i j = (j' : ℤ) - j ∧ loc i j' / p = loc i j / p
  continues : ∀ i j, Position batch i j → j < boundary p batch i →
    loc i j = (item batch i).lastLoc + 1 + (j - (item batch i).prefixLen : ℕ) ∧
      loc i j / p = (item batch i).lastLoc / p
  used : ∀ q : ℤ, (∃ i j, Position batch i j ∧ boundary p batch i ≤ j ∧ loc i j / p = q) ↔
    ∃ page ∈ freePages.take (getNumNewPages p batch), (page : ℤ) = q

/-- The last pages the requests go on in are their own: the slots they fill there are different, and
none of these pages is handed out as a new one. -/
structure OldApart (p : ℕ) (batch : List ExtendItem) (freePages : List ℕ) : Prop where
  slots : ∀ i < batch.length, ∀ i' < batch.length, i ≠ i' →
    ∀ k < oldLen p (item batch i), ∀ k' < oldLen p (item batch i'),
      (item batch i).lastLoc + 1 + (k : ℤ) ≠ (item batch i').lastLoc + 1 + k'
  pages : ∀ i < batch.length, 0 < oldLen p (item batch i) →
    ∀ page ∈ freePages.take (getNumNewPages p batch), (page : ℤ) ≠ (item batch i).lastLoc / p

section Layout

variable (hp : 0 < p) (hlast : ∀ it ∈ batch, (it.lastLoc + 1) % p = (it.prefixLen : ℤ) % p)
  (hfree : getNumNewPages p batch ≤ freePages.length)

include hp hlast in
theorem locOf_old_page (freePages : List ℕ) (h : Position batch i j) (hj : j < boundary p batch i) :
    locOf batch (batchOutputs p batch freePages batch.length) i j % p = (j : ℤ) % p ∧
      locOf batch (batchOutputs p batch freePages batch.length) i j / p
        = (item batch i).lastLoc / p := by
  have hitem : (item batch i).lastLoc + 1 ≡ ((item batch i).prefixLen : ℤ) [ZMOD p] := by
    rw [item, getD_eq_getElem _ _ h.1]
    exact hlast _ (getElem_mem h.1)
  have hadd : (item batch i).prefixLen + (j - (item batch i).prefixLen) = j :=
    Nat.add_sub_cancel' h.2.1
  have hpage := lastPage hp hitem (k := j - (item batch i).prefixLen) (by rw [hadd]; exact hj)
  rwa [hadd, ← (locOf_old freePages h hj).1] at hpage

include hp in
theorem locOf_new_page (freePages : List ℕ) (h : Position batch i j) (hj : boundary p batch i ≤ j) :
    locOf batch (batchOutputs p batch freePages batch.length) i j % p = (j : ℤ) % p ∧
      locOf batch (batchOutputs p batch freePages batch.length) i j / p
        = (freePages.getD (newPageStart p batch i
          + (j / p - pageCount p (item batch i).prefixLen)) 0 : ℤ) := by
  rw [(locOf_new hp freePages h hj).1]
  have hlt := Nat.mod_lt j hp
  norm_cast
  refine ⟨?_, ?_⟩
  · rw [Nat.mul_comm, Nat.mul_add_mod, Nat.mod_mod]
  · rw [Nat.mul_comm, Nat.mul_add_div hp, Nat.div_eq_of_lt hlt, Nat.add_zero]

theorem newPageStart_add_le (hi : i < batch.length) (hc : n < newPages p (item batch i)) :
    newPageStart p batch i + n < getNumNewPages p batch := by
  have h := newPageStart_mono p batch (Nat.succ_le_of_lt hi)
  rw [newPageStart_succ hi, newPageStart_length] at h
  omega

include hp hlast hfree in
/-- **The pages of the outputs.** -/
theorem laidOut_batchOutputs :
    LaidOut p batch freePages (locOf batch (batchOutputs p batch freePages batch.length)) := by
  have hold := fun {i j} => locOf_old_page (i := i) (j := j) hp hlast freePages
  have hnew := fun {i j} (h : Position batch i j) (hj : boundary p batch i ≤ j) =>
    locOf_new_page hp freePages h hj
  refine ⟨fun i j h => ?_, fun i j j' h h' hjj => ?_, fun i j h hj =>
    ⟨(locOf_old freePages h hj).1, (hold h hj).2⟩, fun q => ⟨?_, ?_⟩⟩
  · rcases Nat.lt_or_ge j (boundary p batch i) with hj | hj
    · exact (hold h hj).1
    · exact (hnew h hj).1
  · rcases Nat.lt_or_ge j (boundary p batch i) with hj | hj
    · have hj' : j' < boundary p batch i := by
        rw [boundary_div hp] at hj ⊢
        omega
      have h1 := h.2.1
      have h2 := h'.2.1
      refine ⟨?_, (hold h' hj').2.trans (hold h hj).2.symm⟩
      rw [(locOf_old freePages h hj).1, (locOf_old freePages h' hj').1]
      omega
    · have hj' : boundary p batch i ≤ j' := by
        rw [ge_iff_le, ← not_lt, boundary_div hp] at hj
        rw [← not_lt, boundary_div hp]
        omega
      have h1 := Nat.div_add_mod j p
      have h2 := Nat.div_add_mod j' p
      rw [hjj] at h1
      refine ⟨?_, by rw [(hnew h hj).2, (hnew h' hj').2, hjj]⟩
      rw [(locOf_new hp freePages h hj).1, (locOf_new hp freePages h' hj').1, hjj]
      push_cast
      omega
  · rintro ⟨i, j, h, hj, rfl⟩
    have hc := newPageStart_add_le h.1 (locOf_new hp freePages h hj).2
    refine ⟨_, ?_, (hnew h hj).2.symm⟩
    rw [getD_eq_getElem _ _ (hc.trans_le hfree)]
    exact mem_take_iff_getElem.mpr ⟨_, by omega, rfl⟩
  · rintro ⟨page, hpage, rfl⟩
    obtain ⟨m, hm, rfl⟩ := mem_take_iff_getElem.mp hpage
    have hm' : m < newPageStart p batch batch.length := by
      rw [newPageStart_length]
      omega
    obtain ⟨i, hi, hge, hlt⟩ := exists_piece (newPageStart p batch) rfl _ hm'
    rw [newPageStart_succ hi] at hlt
    obtain ⟨c, rfl⟩ := Nat.exists_eq_add_of_le hge
    have hc : c < pageCount p (item batch i).seqLen - pageCount p (item batch i).prefixLen := by
      have : newPages p (item batch i) = pageCount p (item batch i).seqLen
        - pageCount p (item batch i).prefixLen := rfl
      omega
    have hj : (pageCount p (item batch i).prefixLen + c) * p < (item batch i).seqLen :=
      (lt_pageCount_iff hp).mp (by omega)
    have hceil : (item batch i).prefixLen ≤ p * pageCount p (item batch i).prefixLen :=
      (pageCount_le_iff hp).mp le_rfl
    have hb : boundary p batch i ≤ (pageCount p (item batch i).prefixLen + c) * p := by
      rw [boundary, Nat.mul_comm]
      exact Nat.mul_le_mul_right p (Nat.le_add_right _ _)
    have hpos : Position batch i ((pageCount p (item batch i).prefixLen + c) * p) :=
      ⟨hi, hceil.trans hb, hj⟩
    refine ⟨i, _, hpos, hb, ?_⟩
    rw [(hnew hpos hb).2, Nat.mul_div_cancel _ hp, Nat.add_sub_cancel_left, getD_eq_getElem]

include hp hlast hfree in
theorem locOf_inj (hnd : freePages.Nodup) (hapart : OldApart p batch freePages)
    (h : Position batch i j) (h' : Position batch i' j')
    (heq : locOf batch (batchOutputs p batch freePages batch.length) i j
      = locOf batch (batchOutputs p batch freePages batch.length) i' j') : i = i' ∧ j = j' := by
  have hlaid := laidOut_batchOutputs hp hlast hfree
  -- a slot of an old page is in no new page
  have hmixed : ∀ {i j i' j'}, Position batch i j → Position batch i' j' →
      j < boundary p batch i → boundary p batch i' ≤ j' →
      locOf batch (batchOutputs p batch freePages batch.length) i j
        ≠ locOf batch (batchOutputs p batch freePages batch.length) i' j' := by
    intro i j i' j' h h' hj hj' heq
    obtain ⟨page, hpage, hq⟩ := (hlaid.used _).mp ⟨i', j', h', hj', rfl⟩
    refine hapart.pages i h.1 ((Nat.zero_le _).trans_lt (locOf_old freePages h hj).2) page hpage ?_
    rw [hq, ← heq, (hlaid.continues i j h hj).2]
  rcases Nat.lt_or_ge j (boundary p batch i) with hj | hj <;>
    rcases Nat.lt_or_ge j' (boundary p batch i') with hj' | hj'
  · obtain ⟨h1, hk⟩ := locOf_old freePages h hj
    obtain ⟨h2, hk'⟩ := locOf_old freePages h' hj'
    have hi : i = i' := by
      by_contra hne
      exact hapart.slots i h.1 i' h'.1 hne _ hk _ hk' (h1.symm.trans (heq.trans h2))
    subst hi
    have hge := h.2.1
    have hge' := h'.2.1
    refine ⟨rfl, ?_⟩
    rw [h1, h2] at heq
    omega
  · exact absurd heq (hmixed h h' hj hj')
  · exact absurd heq.symm (hmixed h' h hj' hj)
  · obtain ⟨-, hc⟩ := locOf_new hp freePages h hj
    obtain ⟨-, hc'⟩ := locOf_new hp freePages h' hj'
    obtain ⟨hm, hq⟩ := locOf_new_page hp freePages h hj
    obtain ⟨hm', hq'⟩ := locOf_new_page hp freePages h' hj'
    rw [heq, hq'] at hq
    rw [heq, hm'] at hm
    have hlt := newPageStart_add_le h.1 hc
    have hlt' := newPageStart_add_le h'.1 hc'
    have hidx := (getD_inj (hlt.trans_le hfree) (hlt'.trans_le hfree) hnd).mp
      (by exact_mod_cast hq.symm)
    have hi : i = i' := by
      rcases Nat.lt_trichotomy i i' with hlt | hi | hgt
      · have := newPageStart_mono p batch (Nat.succ_le_of_lt hlt)
        rw [Nat.succ_eq_add_one, newPageStart_succ h.1] at this
        omega
      · exact hi
      · have := newPageStart_mono p batch (Nat.succ_le_of_lt hgt)
        rw [Nat.succ_eq_add_one, newPageStart_succ h'.1] at this
        omega
    subst hi
    rw [ge_iff_le, ← not_lt, boundary_div hp, not_lt] at hj hj'
    have hdiv : j / p = j' / p := by omega
    have hmod : j % p = j' % p := by exact_mod_cast hm.symm
    refine ⟨rfl, ?_⟩
    rw [← Nat.div_add_mod j p, ← Nat.div_add_mod j' p, hdiv, hmod]

include hp hlast hfree in
/-- **The outputs are distinct** when the last pages are. -/
theorem nodup_batchOutputs (hnd : freePages.Nodup) (hapart : OldApart p batch freePages) :
    (batchOutputs p batch freePages batch.length).Nodup := by
  have hpos : ∀ {i k}, i < batch.length → k < (item batch i).seqLen - (item batch i).prefixLen →
      Position batch i ((item batch i).prefixLen + k) ∧
        slotAt p freePages (newPageStart p batch i) (item batch i) k
          = locOf batch (batchOutputs p batch freePages batch.length) i
            ((item batch i).prefixLen + k) := by
    intro i k hi hk
    have h : Position batch i ((item batch i).prefixLen + k) :=
      ⟨hi, Nat.le_add_right _ _, by omega⟩
    rw [locOf_eq p freePages h, Nat.add_sub_cancel_left]
    exact ⟨h, rfl⟩
  have hinj := fun {i j i' j'} (h : Position batch i j) (h' : Position batch i' j') =>
    locOf_inj hp hlast hfree hnd hapart h h'
  refine nodup_flatMap.mpr ⟨fun i hi => ?_, ?_⟩
  · rw [mem_range] at hi
    refine List.Nodup.map_on (fun k hk k' hk' heq => ?_) nodup_range
    rw [mem_range] at hk hk'
    obtain ⟨h1, e1⟩ := hpos hi hk
    obtain ⟨h2, e2⟩ := hpos hi hk'
    have := (hinj h1 h2 (e1.symm.trans (heq.trans e2))).2
    omega
  · refine List.Pairwise.imp_of_mem (fun {i i'} hi hi' hlt => ?_) pairwise_lt_range
    rw [mem_range] at hi hi'
    refine disjoint_left.mpr fun s hs hs' => ?_
    obtain ⟨k, hk, rfl⟩ := mem_map.mp hs
    obtain ⟨k', hk', heq⟩ := mem_map.mp hs'
    rw [mem_range] at hk hk'
    obtain ⟨h1, e1⟩ := hpos hi hk
    obtain ⟨h2, e2⟩ := hpos hi' hk'
    exact absurd (hinj h1 h2 (e1.symm.trans (heq.symm.trans e2))).1 hlt.ne

end Layout

/-! ## 3. The kernel, the reference and the pages -/

/-- **`alloc_extend_kernel` is correct**: its programs write every output exactly once, in whatever
order they run, and what they write is what the reference computes; the outputs continue the last
pages and then fill the first free pages, as many as `get_num_new_pages` counts, each position at its
place in its page.  They are distinct when the requests have last pages of their own. -/
theorem allocExtend_kernel_correct (batch : List ExtendItem) (freePages : List ℕ) (hp : 0 < p)
    (hle : ∀ it ∈ batch, it.prefixLen ≤ it.seqLen)
    (hlast : ∀ it ∈ batch, (it.lastLoc + 1) % p = (it.prefixLen : ℤ) % p) (hnd : freePages.Nodup)
    (hfree : getNumNewPages p batch ≤ freePages.length) (outIndices : List ℤ)
    (hout : outIndices.length = extendNumTokens batch) :
    ∃ out, allocExtendNaive p batch freePages outIndices = some out
      ∧ out.length = extendNumTokens batch
      ∧ (allocExtendGrid p batch freePages).map Prod.fst = List.range (extendNumTokens batch)
      ∧ (∀ writes : List (ℕ × ℤ), writes.Perm (allocExtendGrid p batch freePages) →
        applyWrites outIndices writes = out)
      ∧ out.map Int.toNat = allocExtendKernel p freePages 0 batch
      ∧ LaidOut p batch freePages (locOf batch out)
      ∧ (OldApart p batch freePages → out.Nodup) := by
  have hlen : (batchOutputs p batch freePages batch.length).length = extendNumTokens batch := by
    rw [length_batchOutputs p freePages le_rfl, outputStart_length]
  have hcells : (allocExtendGrid p batch freePages).map Prod.fst
      = List.range (extendNumTokens batch) := by
    rw [allocExtendGrid_eq hp hle, map_fst_consecutive, hlen, range_eq_range']
  refine ⟨_, allocExtendNaive_eq hp hle hfree hout, hlen, hcells, fun writes hperm => ?_, ?_,
    laidOut_batchOutputs hp hlast hfree,
    fun hapart => nodup_batchOutputs hp hlast hfree hnd hapart⟩
  · rw [applyWrites_perm outIndices hperm (by rw [hcells]; exact nodup_range),
      allocExtendGrid_eq hp hle]
    have := applyWrites_consecutive [] outIndices (batchOutputs p batch freePages batch.length) []
      (hlen.trans hout.symm)
    simpa using this
  · rw [allocExtendKernel_eq hp freePages batch 0 hle, batchOutputs, map_flatMap]
    simp

/-- Three requests: one that cuts two pages, one that stays in its page, and a new one. -/
def threeRequests : List ExtendItem := [⟨3, 9, 18⟩, ⟨5, 7, 24⟩, ⟨0, 6, -1⟩]

theorem allocExtend_kernel_correct_three :
    ∃ out, allocExtendNaive 4 threeRequests [10, 11, 12, 13, 14] (List.replicate 14 0) = some out
      ∧ out = [19, 40, 41, 42, 43, 44, 25, 26, 48, 49, 50, 51, 52, 53] ∧ out.Nodup := by
  have hapart : OldApart 4 threeRequests [10, 11, 12, 13, 14] := ⟨by decide, by decide⟩
  obtain ⟨out, heq, -, -, -, -, -, hnodup⟩ := allocExtend_kernel_correct threeRequests
    [10, 11, 12, 13, 14] (show 0 < 4 by decide) (by decide) (by decide) (by decide) (by decide)
    (List.replicate 14 0) (by decide)
  have hval : allocExtendNaive 4 threeRequests [10, 11, 12, 13, 14] (List.replicate 14 0)
      = some [19, 40, 41, 42, 43, 44, 25, 26, 48, 49, 50, 51, 52, 53] := by decide +kernel
  refine ⟨out, heq, ?_, hnodup hapart⟩
  exact (Option.some.inj heq).symm

/-- Two requests that go on in the same page. -/
def sharedPage : List ExtendItem := [⟨1, 2, 0⟩, ⟨1, 2, 0⟩]

/-- Without pages of their own the requests are given the same slot. -/
theorem allocExtend_collides : (∀ it ∈ sharedPage, it.prefixLen ≤ it.seqLen)
    ∧ (∀ it ∈ sharedPage, (it.lastLoc + 1) % 2 = (it.prefixLen : ℤ) % 2)
    ∧ [1, 2].Nodup ∧ getNumNewPages 2 sharedPage ≤ [1, 2].length
    ∧ allocExtendNaive 2 sharedPage [1, 2] [0, 0] = some [1, 1]
    ∧ applyWrites [0, 0] (allocExtendGrid 2 sharedPage [1, 2]) = [1, 1]
    ∧ ¬ ([1, 1] : List ℤ).Nodup := by
  refine ⟨by decide, by decide, by decide, by decide, by decide +kernel, by decide +kernel,
    by decide⟩

end PagedTokenToKVPoolAllocator

end Sglang
