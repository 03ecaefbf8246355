/-
# The slots a verification is given

`prepare_for_verify` draws the slots of the draft from the allocator and writes them behind the rows.  If the
rows lie in their pages, none of which is free, and no request shares the page it goes on in (`Sound`), then
the draft goes on in that page and in pages of its own behind it, so that the batch is one that `verify` can
be given (`Sound.prepared`).
-/
import Sglang.MemCache.ExtendPages
import Sglang.Speculative.EagleVerifyPages

namespace Sglang

open Lib Finset List

namespace EagleVerify

open PagedTokenToKVPoolAllocator

variable {β : Type} {B : VerifyBatch} {mem mem₀ : KVMemory β} {i i' k p p' : ℕ} {F : List ℕ}

/-! ## 1. The batch before -/

/-- The rows before a verification: each position has its place in its page, each page of a row is another
one and not free, and the page a request goes on in is its own. -/
structure Sound (B : VerifyBatch) (mem : KVMemory β) : Prop where
  pageSize_pos : 0 < B.pageSize
  pageSize : mem.allocator.pageSize = B.pageSize
  isNotInFreeGroup : mem.allocator.isNotInFreeGroup = true
  nodup : mem.allocator.pages.Nodup
  pool : ∀ i < B.bs, ∀ i' < B.bs, B.reqPoolIndices i = B.reqPoolIndices i' → i = i'
  place : ∀ i < B.bs, ∀ p < B.seqLens i, slotOf B mem.reqToToken i p % B.pageSize = p % B.pageSize
  page : ∀ i < B.bs, ∀ p < B.seqLens i, ∀ p' < B.seqLens i,
    slotOf B mem.reqToToken i p / B.pageSize = slotOf B mem.reqToToken i p' / B.pageSize ↔
      p / B.pageSize = p' / B.pageSize
  taken : ∀ i < B.bs, ∀ p < B.seqLens i, slotOf B mem.reqToToken i p / B.pageSize ∉ mem.allocator.pages
  last : ∀ i < B.bs, ∀ p < B.seqLens i, B.seqLens i / B.pageSize ≤ p / B.pageSize →
    ∀ i' < B.bs, ∀ p' < B.seqLens i',
      slotOf B mem.reqToToken i p / B.pageSize = slotOf B mem.reqToToken i' p' / B.pageSize → i = i'

/-! ## 2. The items of `alloc_extend` -/

@[simp] theorem length_extendItems (mem : KVMemory β) : (extendItems B mem).length = B.bs := by
  rw [extendItems, length_map, length_range]

theorem item_extendItems (mem : KVMemory β) (hi : i < B.bs) : item (extendItems B mem) i =
    ⟨B.seqLens i, B.seqLens i + B.draftTokenNum, lastLoc B mem i⟩ := by
  rw [item, extendItems, getD_eq_getElem?_getD, getElem?_map, getElem?_range hi]
  rfl

theorem prefixLen_le_extendItems (mem : KVMemory β) : ∀ it ∈ extendItems B mem, it.prefixLen ≤ it.seqLen := by
  intro it hit
  obtain ⟨i, -, rfl⟩ := List.mem_map.mp hit
  exact Nat.le_add_right _ _

theorem outputStart_extendItems (mem : KVMemory β) (hi : i ≤ B.bs) :
    outputStart (extendItems B mem) i = i * B.draftTokenNum := by
  induction i with
  | zero => rw [Nat.zero_mul]; rfl
  | succ i ih =>
    rw [outputStart_succ (by rw [length_extendItems]; exact hi), item_extendItems mem hi,
      Nat.succ_mul]
    dsimp only
    omega

theorem position_extendItems (mem : KVMemory β) (hi : i < B.bs) (hk : k < B.draftTokenNum) :
    Position (extendItems B mem) i (B.seqLens i + k) := by
  refine ⟨by rw [length_extendItems]; exact hi, ?_, ?_⟩
  · rw [item_extendItems mem hi]
    exact Nat.le_add_right _ _
  · rw [item_extendItems mem hi]
    exact Nat.add_lt_add_left hk _

/-- Each request goes on behind its last slot. -/
theorem Sound.lastLoc_mod (hs : Sound B mem) :
    ∀ it ∈ extendItems B mem, (it.lastLoc + 1) % B.pageSize = (it.prefixLen : ℤ) % B.pageSize := by
  intro it hit
  obtain ⟨i, hi, rfl⟩ := List.mem_map.mp hit
  rw [List.mem_range] at hi
  rw [lastLoc]
  split
  · rename_i hpos
    have hplace := hs.place i hi (B.seqLens i - 1) (by omega)
    have hmod : ((mem.reqToToken (B.reqPoolIndices i) (B.seqLens i - 1) : ℕ) : ℤ) ≡
        ((B.seqLens i - 1 : ℕ) : ℤ) [ZMOD B.pageSize] := by
      exact_mod_cast hplace
    have hadd := hmod.add_right 1
    rwa [show ((B.seqLens i - 1 : ℕ) : ℤ) + 1 = B.seqLens i by omega] at hadd
  · rename_i hpos
    rw [Nat.eq_zero_of_not_pos hpos]
    rfl

/-! ## 3. What is drawn -/

/-- What `prepare_for_verify` leaves, in terms of the free pages it draws from. -/
structure Drawn (B : VerifyBatch) (mem₀ mem : KVMemory β) (F : List ℕ) : Prop where
  enough : getNumNewPages B.pageSize (extendItems B mem₀) ≤ F.length
  nodup : F.Nodup
  subset : ∀ q ∈ F, q ∈ mem₀.allocator.pages
  out : mem.outCacheLoc = allocExtendKernel B.pageSize F 0 (extendItems B mem₀)
  rows : ∀ i < B.bs, mem.reqToToken (B.reqPoolIndices i) =
    overwrite (B.seqLens i) B.draftTokenNum (draftSlot B mem.outCacheLoc i)
      (mem₀.reqToToken (B.reqPoolIndices i))
  sameKind : KVAllocator.SameKind mem₀.allocator mem.allocator
  pages : ((F.take (getNumNewPages B.pageSize (extendItems B mem₀)) : List ℕ) : Multiset ℕ) +
    mem.allocator.pages = mem₀.allocator.pages

theorem pages_dropFree (A : KVAllocator) (n : ℕ) :
    ((A.freePages.take n : List ℕ) : Multiset ℕ) + (A.dropFree n).pages = A.pages := by
  rw [KVAllocator.pages, KVAllocator.pages, KVAllocator.dropFree, ← add_assoc, Multiset.coe_add,
    take_append_drop]

/-- Without pages as many are drawn as there are draft tokens. -/
theorem getNumNewPages_one (mem : KVMemory β) :
    getNumNewPages 1 (extendItems B mem) = B.bs * B.draftTokenNum := by
  rw [getNumNewPages, extendItems, List.map_map]
  have hconst : ((List.range B.bs).map (newPages 1 ∘ fun i : ℕ =>
      (⟨B.seqLens i, B.seqLens i + B.draftTokenNum, lastLoc B mem i⟩ : ExtendItem))) =
      (List.range B.bs).map fun _ => B.draftTokenNum :=
    map_congr_left fun i _ => by simp [newPages]
  rw [hconst, map_const', sum_replicate, length_range, smul_eq_mul]

/-- The rows behind `assign_req_to_token_pool`. -/
theorem assignDraft_row (hs : Sound B mem₀) {order : List ℕ} (horder : order.Perm (List.range B.bs))
    (out : List ℕ) (hi : i < B.bs) :
    assignReqToTokenPool B order B.seqLens (fun i => B.seqLens i + B.draftTokenNum) out mem₀.reqToToken
        (B.reqPoolIndices i) =
      overwrite (B.seqLens i) B.draftTokenNum (draftSlot B out i) (mem₀.reqToToken (B.reqPoolIndices i)) := by
  rw [assignReqToTokenPool_row horder hs.pool _ _ _ _ hi]
  simp only [Nat.add_sub_cancel_left, sum_const, card_range, smul_eq_mul]
  rfl

/-- **`prepare_for_verify` draws from the free pages.** -/
theorem Sound.exists_drawn (hs : Sound B mem₀) {env : LaunchEnv B.bs}
    (h : prepareForVerify B env mem₀ = some mem) : ∃ F, Drawn B mem₀ mem F := by
  have hkernel : ∃ A out A', KVAllocator.SamePages mem₀.allocator A ∧
      getNumNewPages B.pageSize (extendItems B mem₀) ≤ A.freePages.length ∧
      out = allocExtendKernel B.pageSize A.freePages 0 (extendItems B mem₀) ∧
      A' = A.dropFree (getNumNewPages B.pageSize (extendItems B mem₀)) ∧
      mem = { mem₀ with
        reqToToken := assignReqToTokenPool B (env.order .assignDraft) B.seqLens
          (fun i => B.seqLens i + B.draftTokenNum) out mem₀.reqToToken
        outCacheLoc := out
        allocator := A' } := by
    rw [prepareForVerify] at h
    split at h
    · rename_i h1
      obtain ⟨⟨out, A'⟩, halloc, heq⟩ := Option.bind_eq_some_iff.mp h
      obtain ⟨A, hsame, hle, hout, hA'⟩ := KVAllocator.alloc_eq_some (hs.pageSize.trans h1) halloc
      have hn : getNumNewPages B.pageSize (extendItems B mem₀) = B.bs * B.draftTokenNum := by
        rw [h1, getNumNewPages_one]
      refine ⟨A, out, A', hsame, by rw [hn]; exact hle, ?_, by rw [hn]; exact hA', (Option.some.inj heq).symm⟩
      rw [h1, allocExtendKernel_one _ _ (by rw [Nat.zero_add, ← h1, hn]; exact hle), drop_zero, ← h1, hn,
        hout]
    · obtain ⟨⟨out, A'⟩, halloc, heq⟩ := Option.bind_eq_some_iff.mp h
      obtain ⟨A, hsame, hle, hout, hA'⟩ := KVAllocator.allocExtend_eq_some halloc
      rw [hs.pageSize] at hle hout hA'
      exact ⟨A, out, A', hsame, hle, hout, hA', (Option.some.inj heq).symm⟩
  obtain ⟨A, out, A', hsame, hle, hout, hA', rfl⟩ := hkernel
  have hpages : (A.freePages : Multiset ℕ) ≤ mem₀.allocator.pages := by
    rw [← hsame.pages]
    exact Multiset.le_add_right _ _
  refine ⟨A.freePages, hle, Multiset.coe_nodup.mp (Multiset.nodup_of_le hpages hs.nodup),
    fun q hq => Multiset.mem_of_le hpages (Multiset.mem_coe.mpr hq), hout,
    fun i hi => assignDraft_row hs (env.perm_order .assignDraft) out hi, ?_, ?_⟩
  · rw [hA']
    exact ⟨hsame.size, hsame.pageSize, hsame.isNotInFreeGroup⟩
  · rw [hA', ← hsame.pages]
    exact pages_dropFree A _

/-! ## 4. The slots of the draft -/

section Drawn

variable (hs : Sound B mem₀) (hd : Drawn B mem₀ mem F)

include hs hd

theorem Drawn.outCacheLoc_eq : mem.outCacheLoc =
    (batchOutputs B.pageSize (extendItems B mem₀) F (extendItems B mem₀).length).map Int.toNat := by
  rw [hd.out, allocExtendKernel_eq hs.pageSize_pos F _ 0 (prefixLen_le_extendItems mem₀), batchOutputs,
    map_flatMap]
  simp

theorem Drawn.length_outCacheLoc : mem.outCacheLoc.length = B.bs * B.draftTokenNum := by
  rw [hd.outCacheLoc_eq hs, length_map, length_batchOutputs _ _ le_rfl, length_extendItems,
    outputStart_extendItems mem₀ le_rfl]

variable (hi : i < B.bs)

include hi

/-- The slot of a draft token is the output of the kernel for its position. -/
theorem Drawn.toNat_locOf : draftSlot B mem.outCacheLoc i k = (locOf (extendItems B mem₀)
      (batchOutputs B.pageSize (extendItems B mem₀) F (extendItems B mem₀).length) i
      (B.seqLens i + k)).toNat := by
  rw [hd.outCacheLoc_eq hs, locOf, outputStart_extendItems mem₀ hi.le, item_extendItems mem₀ hi,
    Nat.add_sub_cancel_left]
  exact getD_map _ (0 : ℤ) Int.toNat

theorem Drawn.cast_draftSlot (h0 : 0 ≤ locOf (extendItems B mem₀)
      (batchOutputs B.pageSize (extendItems B mem₀) F (extendItems B mem₀).length) i
      (B.seqLens i + k)) :
    ((draftSlot B mem.outCacheLoc i k : ℕ) : ℤ) = locOf (extendItems B mem₀)
      (batchOutputs B.pageSize (extendItems B mem₀) F (extendItems B mem₀).length) i
      (B.seqLens i + k) := by
  rw [hd.toNat_locOf hs hi, Int.toNat_of_nonneg h0]

variable (hk : k < B.draftTokenNum)

include hk

/-- A draft token in the page its request goes on in. -/
theorem Drawn.draft_old (hold : (B.seqLens i + k) / B.pageSize < pageCount B.pageSize (B.seqLens i)) :
    0 < B.seqLens i ∧ draftSlot B mem.outCacheLoc i k % B.pageSize = (B.seqLens i + k) % B.pageSize ∧
      draftSlot B mem.outCacheLoc i k / B.pageSize =
        slotOf B mem₀.reqToToken i (B.seqLens i - 1) / B.pageSize := by
  have hpos := position_extendItems mem₀ hi hk
  have hb : B.seqLens i + k < boundary B.pageSize (extendItems B mem₀) i := by
    rw [boundary_div hs.pageSize_pos, item_extendItems mem₀ hi]
    exact hold
  have hseq : 0 < B.seqLens i := by
    by_contra h0
    rw [Nat.eq_zero_of_not_pos h0, pageCount_zero hs.pageSize_pos] at hold
    exact Nat.not_lt_zero _ hold
  have hlast : lastLoc B mem₀ i = (slotOf B mem₀.reqToToken i (B.seqLens i - 1) : ℕ) := if_pos hseq
  have hloc := (locOf_old F hpos hb).1
  have hpage := locOf_old_page hs.pageSize_pos hs.lastLoc_mod F hpos hb
  rw [item_extendItems mem₀ hi] at hloc hpage
  dsimp only at hloc hpage
  rw [hlast] at hloc hpage
  rw [← hd.cast_draftSlot hs hi (by rw [hloc]; positivity)] at hpage
  exact ⟨hseq, by exact_mod_cast hpage.1, by exact_mod_cast hpage.2⟩

theorem Drawn.draft_new (hnew : pageCount B.pageSize (B.seqLens i) ≤ (B.seqLens i + k) / B.pageSize) :
    draftSlot B mem.outCacheLoc i k % B.pageSize = (B.seqLens i + k) % B.pageSize ∧
      draftSlot B mem.outCacheLoc i k / B.pageSize =
        F.getD (newPageStart B.pageSize (extendItems B mem₀) i +
          ((B.seqLens i + k) / B.pageSize - pageCount B.pageSize (B.seqLens i))) 0 ∧
      (B.seqLens i + k) / B.pageSize - pageCount B.pageSize (B.seqLens i) <
        newPages B.pageSize (item (extendItems B mem₀) i) := by
  have hpos := position_extendItems mem₀ hi hk
  have hb : boundary B.pageSize (extendItems B mem₀) i ≤ B.seqLens i + k := by
    rw [← not_lt, boundary_div hs.pageSize_pos, not_lt, item_extendItems mem₀ hi]
    exact hnew
  have hloc := locOf_new hs.pageSize_pos F hpos hb
  have hpage := locOf_new_page hs.pageSize_pos F hpos hb
  rw [← hd.cast_draftSlot hs hi (by rw [hloc.1]; positivity)] at hpage
  have hfront : (item (extendItems B mem₀) i).prefixLen = B.seqLens i := by
    rw [item_extendItems mem₀ hi]
  rw [hfront] at hpage hloc
  exact ⟨by exact_mod_cast hpage.1, by exact_mod_cast hpage.2, hloc.2⟩

end Drawn

/-! ## 5. The positions behind -/

section Positions

variable (hs : Sound B mem₀) (hd : Drawn B mem₀ mem F) (hi : i < B.bs)

include hs in
/-- The pages of a row end with that of its last position. -/
theorem Sound.pageCount_eq (h : 0 < B.seqLens i) :
    pageCount B.pageSize (B.seqLens i) = (B.seqLens i - 1) / B.pageSize + 1 := by
  have hadd : B.seqLens i + B.pageSize - 1 = B.seqLens i - 1 + B.pageSize := by omega
  rw [pageCount, hadd, Nat.add_div_right _ hs.pageSize_pos]

include hd hi

theorem Drawn.slotOf_before (hp : p < B.seqLens i) :
    slotOf B mem.reqToToken i p = slotOf B mem₀.reqToToken i p := by
  rw [slotOf, hd.rows i hi]
  exact overwrite_of_outside (by omega)

theorem Drawn.slotOf_draft (hk : k < B.draftTokenNum) :
    slotOf B mem.reqToToken i (B.seqLens i + k) = draftSlot B mem.outCacheLoc i k := by
  rw [slotOf, hd.rows i hi]
  exact overwrite_apply_add hk

include hs

variable (hp : p < B.seqLens i + B.draftTokenNum)

include hp

theorem Drawn.place : slotOf B mem.reqToToken i p % B.pageSize = p % B.pageSize := by
  rcases Nat.lt_or_ge p (B.seqLens i) with hlt | hge
  · rw [hd.slotOf_before hi hlt]
    exact hs.place i hi p hlt
  · obtain ⟨k, rfl⟩ := Nat.exists_eq_add_of_le hge
    have hk : k < B.draftTokenNum := by omega
    rw [hd.slotOf_draft hi hk]
    rcases Nat.lt_or_ge ((B.seqLens i + k) / B.pageSize) (pageCount B.pageSize (B.seqLens i)) with hold | hnew
    · exact (hd.draft_old hs hi hk hold).2.1
    · exact (hd.draft_new hs hi hk hnew).1

/-- A position in a page that the row had before: the page of one of its positions, the last one if the
position is new. -/
theorem Drawn.old_page (hold : p / B.pageSize < pageCount B.pageSize (B.seqLens i)) :
    ∃ p₀ < B.seqLens i, p₀ / B.pageSize = p / B.pageSize ∧
      slotOf B mem.reqToToken i p / B.pageSize = slotOf B mem₀.reqToToken i p₀ / B.pageSize := by
  rcases Nat.lt_or_ge p (B.seqLens i) with hlt | hge
  · exact ⟨p, hlt, rfl, by rw [hd.slotOf_before hi hlt]⟩
  · obtain ⟨k, rfl⟩ := Nat.exists_eq_add_of_le hge
    have hk : k < B.draftTokenNum := by omega
    obtain ⟨hpos, -, hpage⟩ := hd.draft_old hs hi hk hold
    refine ⟨B.seqLens i - 1, by omega, ?_, by rw [hd.slotOf_draft hi hk, hpage]⟩
    rw [hs.pageCount_eq hpos] at hold
    exact Nat.le_antisymm (Nat.div_le_div_right (by omega)) (Nat.le_of_lt_succ hold)

theorem Drawn.new_page (hnew : pageCount B.pageSize (B.seqLens i) ≤ p / B.pageSize) :
    slotOf B mem.reqToToken i p / B.pageSize =
        F.getD (newPageStart B.pageSize (extendItems B mem₀) i +
          (p / B.pageSize - pageCount B.pageSize (B.seqLens i))) 0 ∧
      p / B.pageSize - pageCount B.pageSize (B.seqLens i) <
        newPages B.pageSize (item (extendItems B mem₀) i) := by
  have hge : B.seqLens i ≤ p := by
    have h := (pageCount_le_iff hs.pageSize_pos).mp hnew
    exact h.trans (Nat.mul_div_le p B.pageSize)
  obtain ⟨k, rfl⟩ := Nat.exists_eq_add_of_le hge
  have hk : k < B.draftTokenNum := by omega
  rw [hd.slotOf_draft hi hk]
  exact (hd.draft_new hs hi hk hnew).2

theorem Drawn.new_page_lt (hnew : pageCount B.pageSize (B.seqLens i) ≤ p / B.pageSize) :
    newPageStart B.pageSize (extendItems B mem₀) i +
        (p / B.pageSize - pageCount B.pageSize (B.seqLens i)) <
      getNumNewPages B.pageSize (extendItems B mem₀) :=
  newPageStart_add_le (by rw [length_extendItems]; exact hi) (hd.new_page hs hi hp hnew).2

theorem Drawn.old_not_free (hold : p / B.pageSize < pageCount B.pageSize (B.seqLens i)) :
    slotOf B mem.reqToToken i p / B.pageSize ∉ mem₀.allocator.pages := by
  obtain ⟨p₀, hp₀, -, hpage⟩ := hd.old_page hs hi hp hold
  rw [hpage]
  exact hs.taken i hi p₀ hp₀

theorem Drawn.new_free (hnew : pageCount B.pageSize (B.seqLens i) ≤ p / B.pageSize) :
    slotOf B mem.reqToToken i p / B.pageSize ∈
      F.take (getNumNewPages B.pageSize (extendItems B mem₀)) := by
  have hlt := hd.new_page_lt hs hi hp hnew
  have henough := hd.enough
  rw [(hd.new_page hs hi hp hnew).1, getD_eq_getElem _ _ (hlt.trans_le henough)]
  exact mem_take_iff_getElem.mpr ⟨_, by omega, rfl⟩

variable (hi' : i' < B.bs) (hp' : p' < B.seqLens i' + B.draftTokenNum)

include hi' hp'

theorem Drawn.new_page_inj (hnew : pageCount B.pageSize (B.seqLens i) ≤ p / B.pageSize)
    (heq : slotOf B mem.reqToToken i p / B.pageSize = slotOf B mem.reqToToken i' p' / B.pageSize) :
    i = i' ∧ p / B.pageSize = p' / B.pageSize := by
  have hnew' : pageCount B.pageSize (B.seqLens i') ≤ p' / B.pageSize := by
    by_contra hold
    refine hd.old_not_free hs hi' hp' (Nat.lt_of_not_le hold) (hd.subset _ ?_)
    rw [← heq]
    exact mem_of_mem_take (hd.new_free hs hi hp hnew)
  have hlt := hd.new_page_lt hs hi hp hnew
  have hlt' := hd.new_page_lt hs hi' hp' hnew'
  obtain ⟨hq, hc⟩ := hd.new_page hs hi hp hnew
  obtain ⟨hq', hc'⟩ := hd.new_page hs hi' hp' hnew'
  rw [hq, hq'] at heq
  have hidx := (getD_inj (hlt.trans_le hd.enough) (hlt'.trans_le hd.enough) hd.nodup).mp heq
  have hlen := length_extendItems (B := B) mem₀
  have hrow : i = i' := by
    rcases Nat.lt_trichotomy i i' with h | h | h
    · have := newPageStart_mono B.pageSize (extendItems B mem₀) (Nat.succ_le_of_lt h)
      rw [newPageStart_succ (by omega)] at this
      omega
    · exact h
    · have := newPageStart_mono B.pageSize (extendItems B mem₀) (Nat.succ_le_of_lt h)
      rw [newPageStart_succ (by omega)] at this
      omega
  subst hrow
  exact ⟨rfl, by omega⟩

theorem Drawn.old_page_inj (hge : B.seqLens i ≤ p)
    (hold : p / B.pageSize < pageCount B.pageSize (B.seqLens i))
    (heq : slotOf B mem.reqToToken i p / B.pageSize = slotOf B mem.reqToToken i' p' / B.pageSize) :
    i = i' ∧ p / B.pageSize = p' / B.pageSize := by
  have hold' : p' / B.pageSize < pageCount B.pageSize (B.seqLens i') := by
    by_contra hnew
    refine hd.old_not_free hs hi hp hold (hd.subset _ ?_)
    rw [heq]
    exact mem_of_mem_take (hd.new_free hs hi' hp' (Nat.le_of_not_lt hnew))
  obtain ⟨p₀, hp₀, hpage₀, hslot⟩ := hd.old_page hs hi hp hold
  obtain ⟨p₀', hp₀', hpage₀', hslot'⟩ := hd.old_page hs hi' hp' hold'
  rw [hslot, hslot'] at heq
  have hlast : B.seqLens i / B.pageSize ≤ p₀ / B.pageSize := by
    rw [hpage₀]
    exact Nat.div_le_div_right hge
  have hrow := hs.last i hi p₀ hp₀ hlast i' hi' p₀' hp₀' heq
  subst hrow
  have := (hs.page i hi p₀ hp₀ p₀' hp₀').mp heq
  exact ⟨rfl, by omega⟩

end Positions

/-! ## 6. The batch at verification -/

theorem Drawn.prepared (hs : Sound B mem₀) (hd : Drawn B mem₀ mem F) : Prepared B mem where
  pageSize_pos := hs.pageSize_pos
  length := hd.length_outCacheLoc hs
  pool := hs.pool
  draft := fun i hi k hk => hd.slotOf_draft hi hk
  page := by
    intro i hi p hp p' hp' heq
    rcases Nat.lt_or_ge (p / B.pageSize) (pageCount B.pageSize (B.seqLens i)) with hold | hnew
    · obtain ⟨p₀, hp₀, hpage₀, hslot⟩ := hd.old_page hs hi hp hold
      obtain ⟨p₀', hp₀', hpage₀', hslot'⟩ := hd.old_page hs hi hp' (by omega)
      rw [hslot, hslot', hs.page i hi p₀ hp₀ p₀' hp₀']
      omega
    · rw [(hd.new_page hs hi hp hnew).1, (hd.new_page hs hi hp' (by omega)).1, heq]
  fresh := by
    intro i hi p hp hbegin i' hi' p' hp' heq
    refine hd.new_page_inj hs hi hp hi' hp' ?_ heq
    rw [pageCount_le_iff hs.pageSize_pos, Nat.mul_comm]
    exact hbegin
  apart := by
    intro i hi p hp hge i' hi' p' hp' heq
    have hpage : i = i' ∧ p / B.pageSize = p' / B.pageSize := by
      rcases Nat.lt_or_ge (p / B.pageSize) (pageCount B.pageSize (B.seqLens i)) with hold | hnew
      · exact hd.old_page_inj hs hi hp hi' hp' hge hold (by rw [heq])
      · exact hd.new_page_inj hs hi hp hi' hp' hnew (by rw [heq])
    have hmod : p % B.pageSize = p' % B.pageSize := by
      rw [← hd.place hs hi hp, heq, hd.place hs hi' hp']
    refine ⟨hpage.1, ?_⟩
    rw [← Nat.div_add_mod p B.pageSize, hpage.2, hmod, Nat.div_add_mod]

end EagleVerify

end Sglang
