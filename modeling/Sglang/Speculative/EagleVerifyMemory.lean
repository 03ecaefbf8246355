/-
# The memory behind the verification

What `verify` leaves in a batch whose draft slots lie in their pages.  The rows of `req_to_token` hold the
accepted tokens one behind the other, either because their slots are written there or because their values
are moved to the slots that are there (`Checked.slotOf_eq`, `Checked.kv_kept`); a draft position is rejected
if its page holds none of them (`rejected_page`), and the draft extend is given the slots of the requests
that go on (`Checked.draftExtendCacheLoc_eq`).
-/
import Sglang.Speculative.EagleVerifyPages

namespace Sglang

open Lib Finset

namespace EagleVerify

variable {β ρ : Type} {B : VerifyBatch} {mem : KVMemory β} {i i' j k p : ℕ} {len len' : ℕ → ℕ}
  {off : ℕ → ℕ → ℕ}

/-! ## 1. Kept positions -/

/-- The slot of a position afterwards: the accepted ones are in a row. -/
def keptSlot (B : VerifyBatch) (mem : KVMemory β) (len : ℕ → ℕ) (off : ℕ → ℕ → ℕ) (i p : ℕ) : ℕ :=
  if (B.pageSize = 1 ∨ B.topk = 1) ∧ B.seqLens i ≤ p ∧ p < B.seqLens i + len i then
    draftSlot B mem.outCacheLoc i (off i (p - B.seqLens i))
  else slotOf B mem.reqToToken i p

theorem keptSlot_before (hp : p < B.seqLens i) :
    keptSlot B mem len off i p = slotOf B mem.reqToToken i p :=
  if_neg fun h => absurd h.2.1 (Nat.not_le_of_lt hp)

theorem keptSlot_accepted (h : Prepared B mem) (hoff : Offsets B len off) (hi : i < B.bs) (hj : j < len i) :
    keptSlot B mem len off i (B.seqLens i + j) =
      draftSlot B mem.outCacheLoc i (if B.pageSize = 1 ∨ B.topk = 1 then off i j else j) := by
  by_cases hslot : B.pageSize = 1 ∨ B.topk = 1
  · rw [if_pos hslot, keptSlot, if_pos ⟨hslot, Nat.le_add_right _ _, by omega⟩, Nat.add_sub_cancel_left]
  · rw [if_neg hslot, keptSlot, if_neg fun h => hslot h.1,
      h.draft i hi j (hj.trans_le (hoff.len_le hi))]

theorem keptSlot_paged (h : Prepared B mem) (hoff : Offsets B len off) (h1 : B.pageSize ≠ 1) (hi : i < B.bs)
    (hp : p < B.seqLens i + len i) : keptSlot B mem len off i p = slotOf B mem.reqToToken i p := by
  rcases Nat.lt_or_ge p (B.seqLens i) with hlt | hge
  · exact keptSlot_before hlt
  · obtain ⟨j, rfl⟩ := Nat.exists_eq_add_of_le hge
    have hj : j < len i := by omega
    rw [keptSlot_accepted h hoff hi hj, h.draft i hi j (hj.trans_le (hoff.len_le hi))]
    split
    · rename_i hslot
      rw [hoff.consecutive (hslot.resolve_left h1) i hi j hj]
    · rfl

/-- **A draft position is rejected if its page holds no kept position** of its request. -/
theorem rejected_page (h : Prepared B mem) (hoff : Offsets B len off) (hi : i < B.bs)
    (hk : k < B.draftTokenNum) (hrej : Rejected B len off i k) (hi' : i' < B.bs)
    (hp : p < B.seqLens i' + len i') :
    keptSlot B mem len off i' p / B.pageSize ≠ draftSlot B mem.outCacheLoc i k / B.pageSize := by
  intro heq
  have hlen := hoff.len_le hi'
  rw [Rejected] at hrej
  rw [← h.draft i hi k hk] at heq
  by_cases h1 : B.pageSize = 1
  · rw [if_pos h1] at hrej
    rw [h1, Nat.div_one, Nat.div_one] at heq
    rcases Nat.lt_or_ge p (B.seqLens i') with hlt | hge
    · rw [keptSlot_before hlt] at heq
      obtain ⟨rfl, hpk⟩ := h.apart i hi _ (by omega) (Nat.le_add_right _ _) i' hi' p (by omega) heq.symm
      omega
    · obtain ⟨j, rfl⟩ := Nat.exists_eq_add_of_le hge
      have hj : j < len i' := by omega
      rw [keptSlot_accepted h hoff hi' hj, if_pos (.inl h1), h.draft i hi k hk] at heq
      obtain ⟨rfl, hjk⟩ := h.draft_inj hi' (hoff.lt i' hi' j hj) hi hk heq
      exact hrej j hj hjk
  · rw [if_neg h1] at hrej
    rw [keptSlot_paged h hoff h1 hi' hp] at heq
    -- the page begins behind the last kept position
    have hbegin : B.seqLens i ≤ (B.seqLens i + k) / B.pageSize * B.pageSize := by
      have hlt := Nat.lt_div_mul_add h.pageSize_pos (a := B.seqLens i + len i - 1)
      have hmul := Nat.mul_le_mul_right B.pageSize (Nat.succ_le_of_lt hrej)
      rw [Nat.succ_mul] at hmul
      omega
    obtain ⟨rfl, hpage⟩ := h.fresh i hi _ (by omega) hbegin i' hi' p (by omega) heq.symm
    have hle : p / B.pageSize ≤ (B.seqLens i + len i - 1) / B.pageSize := Nat.div_le_div_right (by omega)
    omega

theorem exists_kept_page (h : Prepared B mem) (hoff : Offsets B len off) (hi : i < B.bs)
    (hk : k < B.draftTokenNum) (hrej : ¬ Rejected B len off i k) :
    ∃ p < B.seqLens i + len i,
      keptSlot B mem len off i p / B.pageSize = draftSlot B mem.outCacheLoc i k / B.pageSize := by
  have hpos := hoff.pos i hi
  rw [Rejected] at hrej
  by_cases h1 : B.pageSize = 1
  · rw [if_pos h1] at hrej
    simp only [not_forall, not_ne_iff] at hrej
    obtain ⟨j, hj, rfl⟩ := hrej
    refine ⟨B.seqLens i + j, by omega, ?_⟩
    rw [keptSlot_accepted h hoff hi hj, if_pos (.inl h1)]
  · rw [if_neg h1] at hrej
    have hle : (B.seqLens i + k) / B.pageSize ≤ (B.seqLens i + len i - 1) / B.pageSize := by omega
    refine ⟨min (B.seqLens i + k) (B.seqLens i + len i - 1), by omega, ?_⟩
    rw [keptSlot_paged h hoff h1 hi (by omega), ← h.draft i hi k hk]
    refine h.page i hi _ (by omega) _ (by omega) ?_
    rcases Nat.le_total (B.seqLens i + k) (B.seqLens i + len i - 1) with hmin | hmin
    · rw [Nat.min_eq_left hmin]
    · rw [Nat.min_eq_right hmin]
      exact Nat.le_antisymm (Nat.div_le_div_right hmin) hle

/-! ## 2. The output of `verify` -/

section Output

variable {env : LaunchEnv B.bs} {ops : ReqOps ρ} {predict : ℕ → ℤ} {acceptIndex : ℕ → List ℤ}
  {numAcceptedDrafts : ℕ → ℕ} {reqs : ℕ → ρ}

/-- The indices of the accepted tokens behind the loop. -/
theorem Checked.flatIndex_eq (hc : Checked B acceptIndex ops predict reqs len off len') :
    ((List.range B.bs).flatMap fun i => acceptedOf (checkRow ops predict (reqs i) (acceptIndex i)).row) =
      flatIndex B len' off (List.range B.bs) :=
  List.flatMap_congr fun i hi => hc.accepted i (List.mem_range.mp hi)

theorem Checked.unfinished_eq (hc : Checked B acceptIndex ops predict reqs len off len') (is : List ℕ)
    (his : ∀ i ∈ is, i < B.bs) :
    (is.flatMap fun i => (checkRow ops predict (reqs i) (acceptIndex i)).taken.map Int.toNat) =
      flatIndex B len' off is :=
  List.flatMap_congr fun i hi => hc.taken i (his i hi)

/-- Whether a request has met its end in the loop. -/
def metEnd (B : VerifyBatch) (ops : ReqOps ρ) (predict : ℕ → ℤ) (acceptIndex : ℕ → List ℤ) (reqs : ℕ → ρ) :
    Bool :=
  (List.range B.bs).any fun i => (checkRow ops predict (reqs i) (acceptIndex i)).hasFinished

/-- The requests that go on. -/
def goingOn (B : VerifyBatch) (ops : ReqOps ρ) (reqs : ℕ → ρ) : List ℕ :=
  (List.range B.bs).filter fun i => !ops.finished (reqs i)

variable (hc : Checked B acceptIndex ops predict reqs len off len')

include hc

theorem Checked.whole_of_not_metEnd (hend : metEnd B ops predict acceptIndex reqs = false) :
    (∀ i < B.bs, len' i = len i) ∧
      goingOn B ops (fun i => (checkRow ops predict (reqs i) (acceptIndex i)).req) = List.range B.bs := by
  have hno : ∀ i < B.bs, (checkRow ops predict (reqs i) (acceptIndex i)).hasFinished = false := by
    intro i hi
    rw [metEnd, List.any_eq_false] at hend
    exact Bool.eq_false_iff.mpr (hend i (List.mem_range.mpr hi))
  refine ⟨fun i hi => (hc.whole i hi (hno i hi)).1, List.filter_eq_self.mpr fun i hi => ?_⟩
  rw [(hc.whole i (List.mem_range.mp hi) (hno i (List.mem_range.mp hi))).2]
  rfl

theorem Checked.numAcceptedDrafts_eq (hnum : ∀ i < B.bs, numAcceptedDrafts i + 1 = len i) (hi : i < B.bs) :
    (verify B env ops predict acceptIndex numAcceptedDrafts reqs mem).numAcceptedDrafts i + 1 = len' i := by
  have hpos := hc.pos i hi
  cases hend : metEnd B ops predict acceptIndex reqs with
  | true =>
    have hval : (verify B env ops predict acceptIndex numAcceptedDrafts reqs mem).numAcceptedDrafts i =
        (acceptedOf (checkRow ops predict (reqs i) (acceptIndex i)).row).length - 1 := by
      rw [metEnd] at hend
      simp [verify, hend]
    rw [hval, hc.accepted i hi, List.length_map, List.length_range]
    omega
  | false =>
    have hval : (verify B env ops predict acceptIndex numAcceptedDrafts reqs mem).numAcceptedDrafts i =
        numAcceptedDrafts i := by
      rw [metEnd] at hend
      simp [verify, hend]
    rw [hval, hnum i hi, (hc.whole_of_not_metEnd hend).1 i hi]

theorem Checked.freed_eq :
    (verify B env ops predict acceptIndex numAcceptedDrafts reqs mem).freed =
      (release B env mem (flatIndex B len' off (List.range B.bs))
        (verify B env ops predict acceptIndex numAcceptedDrafts reqs mem).numAcceptedDrafts).freed := by
  rw [← hc.flatIndex_eq]
  rfl

theorem Checked.kv_eq :
    (verify B env ops predict acceptIndex numAcceptedDrafts reqs mem).mem.kv =
      (release B env mem (flatIndex B len' off (List.range B.bs))
        (verify B env ops predict acceptIndex numAcceptedDrafts reqs mem).numAcceptedDrafts).kv := by
  rw [← hc.flatIndex_eq]
  rfl

/-- **The rows afterwards.** -/
theorem Checked.slotOf_eq (h : Prepared B mem) (hnum : ∀ i < B.bs, numAcceptedDrafts i + 1 = len i)
    (hi : i < B.bs) (p : ℕ) :
    slotOf B (verify B env ops predict acceptIndex numAcceptedDrafts reqs mem).mem.reqToToken i p =
      keptSlot B mem len' off i p := by
  have hacc : ∀ i < B.bs,
      (verify B env ops predict acceptIndex numAcceptedDrafts reqs mem).numAcceptedDrafts i + 1 = len' i :=
    fun i hi => hc.numAcceptedDrafts_eq hnum hi
  have hrows : (verify B env ops predict acceptIndex numAcceptedDrafts reqs mem).mem.reqToToken =
      if B.pageSize = 1 ∨ B.topk = 1 then
        assignReqToTokenPool B (env.order .assignAccepted) B.seqLens (fun i => B.seqLens i +
            (verify B env ops predict acceptIndex numAcceptedDrafts reqs mem).numAcceptedDrafts i + 1)
          (indexSelect mem.outCacheLoc (flatIndex B len' off (List.range B.bs))) mem.reqToToken
      else mem.reqToToken := by
    rw [← hc.flatIndex_eq]
    rfl
  rw [slotOf, hrows, keptSlot]
  by_cases hslot : B.pageSize = 1 ∨ B.topk = 1
  · rw [if_pos hslot, assignReqToTokenPool_row (env.perm_order .assignAccepted) h.pool _ _ _ _ hi]
    have hspan : ∀ i < B.bs, B.seqLens i +
        (verify B env ops predict acceptIndex numAcceptedDrafts reqs mem).numAcceptedDrafts i + 1 -
          B.seqLens i = len' i := fun i hi => by
      have := hacc i hi
      omega
    have hsum : ∑ j ∈ range i, (B.seqLens j +
        (verify B env ops predict acceptIndex numAcceptedDrafts reqs mem).numAcceptedDrafts j + 1 -
          B.seqLens j) = ∑ j ∈ range i, len' j :=
      sum_congr rfl fun j hj => hspan j ((mem_range.mp hj).trans hi)
    rw [hsum, hspan i hi, indexSelect_flatIndex, overwrite]
    by_cases hin : B.seqLens i ≤ p ∧ p < B.seqLens i + len' i
    · rw [if_pos hin, if_pos ⟨hslot, hin⟩, List.getD_eq_getElem?_getD,
        getElem?_flatMap_rows (fun i j => draftSlot B mem.outCacheLoc i (off i j)) hi (by omega)]
      rfl
    · rw [if_neg hin, if_neg fun h => hin h.2]
      rfl
  · rw [if_neg hslot, if_neg fun h => hslot h.1]
    rfl

/-- **The accepted values** are at the kept slots. -/
theorem Checked.kv_kept (h : Prepared B mem) (hnum : ∀ i < B.bs, numAcceptedDrafts i + 1 = len i)
    (hi : i < B.bs) (hj : j < len' i) :
    (verify B env ops predict acceptIndex numAcceptedDrafts reqs mem).mem.kv
        (keptSlot B mem len' off i (B.seqLens i + j)) =
      mem.kv (draftSlot B mem.outCacheLoc i (off i j)) := by
  have hacc : ∀ i < B.bs,
      (verify B env ops predict acceptIndex numAcceptedDrafts reqs mem).numAcceptedDrafts i + 1 = len' i :=
    fun i hi => hc.numAcceptedDrafts_eq hnum hi
  have hkv := kv_release env h hc.toOffsets hacc
  rw [hc.kv_eq, keptSlot_accepted h hc.toOffsets hi hj]
  split at hkv
  · rw [hkv, if_pos (by assumption)]
  · rw [if_neg (by assumption)]
    exact hkv.1 i hi j hj

/-- The values of the prefixes stay. -/
theorem Checked.kv_before (h : Prepared B mem) (hnum : ∀ i < B.bs, numAcceptedDrafts i + 1 = len i)
    (hi : i < B.bs) (hp : p < B.seqLens i) :
    (verify B env ops predict acceptIndex numAcceptedDrafts reqs mem).mem.kv
      (slotOf B mem.reqToToken i p) = mem.kv (slotOf B mem.reqToToken i p) := by
  have hacc : ∀ i < B.bs,
      (verify B env ops predict acceptIndex numAcceptedDrafts reqs mem).numAcceptedDrafts i + 1 = len' i :=
    fun i hi => hc.numAcceptedDrafts_eq hnum hi
  have hkv := kv_release env h hc.toOffsets hacc
  rw [hc.kv_eq]
  split at hkv
  · rw [hkv]
  · refine hkv.2 _ fun i' hi' j hj heq => ?_
    have hlen := hc.toOffsets.len_le hi'
    rw [← h.draft i' hi' j (by omega)] at heq
    obtain ⟨rfl, hpp⟩ := h.apart i' hi' _ (by omega) (Nat.le_add_right _ _) i hi p (by omega) heq
    omega

end Output

/-! ## 3. What the draft extend is given -/

/-- The slots of the accepted tokens of some requests. -/
def keptSlots (B : VerifyBatch) (mem : KVMemory β) (len : ℕ → ℕ) (off : ℕ → ℕ → ℕ) (is : List ℕ) : List ℕ :=
  is.flatMap fun i => (List.range (len i)).map fun j => keptSlot B mem len off i (B.seqLens i + j)

section Handed

variable {is : List ℕ} (h : Prepared B mem) (hoff : Offsets B len off) (his : ∀ i ∈ is, i < B.bs)

include h hoff his

/-- Slot by slot they are those of the accepted indices. -/
theorem keptSlots_slotwise (hslot : B.pageSize = 1 ∨ B.topk = 1) :
    keptSlots B mem len off is = indexSelect mem.outCacheLoc (flatIndex B len off is) := by
  rw [indexSelect_flatIndex]
  refine List.flatMap_congr fun i hi => List.map_congr_left fun j hj => ?_
  rw [keptSlot_accepted h hoff (his i hi) (List.mem_range.mp hj), if_pos hslot]

/-- After a move they are the front of each row. -/
theorem keptSlots_moved (hslot : ¬ (B.pageSize = 1 ∨ B.topk = 1)) :
    keptSlots B mem len off is =
      is.flatMap fun i => (List.range (len i)).map fun j => draftSlot B mem.outCacheLoc i j := by
  refine List.flatMap_congr fun i hi => List.map_congr_left fun j hj => ?_
  rw [keptSlot_accepted h hoff (his i hi) (List.mem_range.mp hj), if_neg hslot]

end Handed

section Output

variable {env : LaunchEnv B.bs} {ops : ReqOps ρ} {predict : ℕ → ℤ} {acceptIndex : ℕ → List ℤ}
  {numAcceptedDrafts : ℕ → ℕ} {reqs : ℕ → ρ}

theorem goingOn_sublist : (goingOn B ops reqs).Sublist (List.range B.bs) := List.filter_sublist

theorem lt_of_mem_goingOn (hi : i ∈ goingOn B ops reqs) : i < B.bs :=
  List.mem_range.mp (List.mem_of_mem_filter hi)

variable (hc : Checked B acceptIndex ops predict reqs len off len')

include hc

/-- The tokens the draft extend is given. -/
theorem Checked.inputIds_eq :
    (verify B env ops predict acceptIndex numAcceptedDrafts reqs mem).draftExtendInput.inputIds =
      (flatIndex B len' off (goingOn B ops fun i =>
        (checkRow ops predict (reqs i) (acceptIndex i)).req)).map predict := by
  cases hend : metEnd B ops predict acceptIndex reqs with
  | false =>
    rw [(hc.whole_of_not_metEnd hend).2, ← hc.flatIndex_eq]
    rw [metEnd] at hend
    simp [verify, hend]
  | true =>
    have hun := hc.unfinished_eq
      (goingOn B ops fun i => (checkRow ops predict (reqs i) (acceptIndex i)).req)
      fun i hi => lt_of_mem_goingOn hi
    rw [← hun]
    rw [metEnd] at hend
    simp only [verify, hend, Bool.not_true, Bool.false_eq_true, if_false, goingOn]
    split
    · rename_i hnil
      rw [hnil]
      rfl
    · rfl

theorem Checked.outCacheLoc_eq (h : Prepared B mem) (hnum : ∀ i < B.bs, numAcceptedDrafts i + 1 = len i)
    (hne : goingOn B ops (fun i => (checkRow ops predict (reqs i) (acceptIndex i)).req) ≠ []) :
    (verify B env ops predict acceptIndex numAcceptedDrafts reqs mem).mem.outCacheLoc =
      keptSlots B mem len' off
        (goingOn B ops fun i => (checkRow ops predict (reqs i) (acceptIndex i)).req) := by
  have hacc : ∀ i < B.bs,
      (verify B env ops predict acceptIndex numAcceptedDrafts reqs mem).numAcceptedDrafts i + 1 = len' i :=
    fun i hi => hc.numAcceptedDrafts_eq hnum hi
  have hrange : ∀ i ∈ List.range B.bs, i < B.bs := fun i hi => List.mem_range.mp hi
  have hgo : ∀ i ∈ goingOn B ops fun i => (checkRow ops predict (reqs i) (acceptIndex i)).req, i < B.bs :=
    fun i hi => lt_of_mem_goingOn hi
  cases hend : metEnd B ops predict acceptIndex reqs with
  | false =>
    rw [(hc.whole_of_not_metEnd hend).2]
    by_cases hslot : B.pageSize = 1 ∨ B.topk = 1
    · rw [keptSlots_slotwise h hc.toOffsets hrange hslot, ← hc.flatIndex_eq]
      rw [metEnd] at hend
      simp [verify, hend, if_pos hslot]
    · rw [keptSlots_moved h hc.toOffsets hrange hslot,
        ← tgtCacheLoc_eq env h hc.toOffsets hacc hslot, ← hc.flatIndex_eq]
      rw [metEnd] at hend
      simp [verify, hend, if_neg hslot]
  | true =>
    by_cases hslot : B.pageSize = 1 ∨ B.topk = 1
    · rw [keptSlots_slotwise h hc.toOffsets hgo hslot, ← hc.unfinished_eq _ hgo]
      rw [metEnd] at hend
      rw [goingOn] at hne
      simp only [verify, hend, Bool.not_true, Bool.false_eq_true, if_false, if_neg hne, if_pos hslot, goingOn]
    · have hout : (verify B env ops predict acceptIndex numAcceptedDrafts reqs mem).mem.outCacheLoc =
          contents ((goingOn B ops fun i => (checkRow ops predict (reqs i) (acceptIndex i)).req).length +
              ((goingOn B ops fun i => (checkRow ops predict (reqs i) (acceptIndex i)).req).map
                (verify B env ops predict acceptIndex numAcceptedDrafts reqs mem).numAcceptedDrafts).sum)
            (filterFinishedCacheLoc B (env.order .filter)
              ((release B env mem (flatIndex B len' off (List.range B.bs))
                (verify B env ops predict acceptIndex numAcceptedDrafts reqs mem).numAcceptedDrafts).tgtCacheLoc.getD
                  · 0)
              (verify B env ops predict acceptIndex numAcceptedDrafts reqs mem).numAcceptedDrafts
              (createNumAcceptedDraftsFilter
                (verify B env ops predict acceptIndex numAcceptedDrafts reqs mem).numAcceptedDrafts
                (goingOn B ops fun i => (checkRow ops predict (reqs i) (acceptIndex i)).req)) env.empty) := by
        rw [← hc.flatIndex_eq]
        rw [metEnd] at hend
        rw [goingOn] at hne
        simp only [verify, hend, Bool.not_true, Bool.false_eq_true, if_false, if_neg hne, if_neg hslot,
          goingOn, if_true]
      rw [hout, keptSlots_moved h hc.toOffsets hgo hslot, tgtCacheLoc_eq env h hc.toOffsets hacc hslot,
        contents_filterFinishedCacheLoc (env.perm_order .filter) goingOn_sublist
          fun i hi => (hacc i hi).trans_le (hc.toOffsets.len_le hi)]
      refine List.flatMap_congr fun i hi => ?_
      rw [hacc i (hgo i hi)]
      refine List.map_congr_left fun j hj => ?_
      have hsum : ∑ r ∈ range i,
          ((verify B env ops predict acceptIndex numAcceptedDrafts reqs mem).numAcceptedDrafts r + 1) =
            ∑ r ∈ range i, len' r :=
        sum_congr rfl fun r hr => hacc r ((mem_range.mp hr).trans (hgo i hi))
      rw [hsum, List.getD_eq_getElem?_getD,
        getElem?_flatMap_rows (fun i j => draftSlot B mem.outCacheLoc i j) (hgo i hi) (List.mem_range.mp hj)]
      rfl

/-- **The draft extend is given the kept slots** of the requests that go on, request by request. -/
theorem Checked.draftExtendCacheLoc_eq (h : Prepared B mem)
    (hnum : ∀ i < B.bs, numAcceptedDrafts i + 1 = len i) :
    (verify B env ops predict acceptIndex numAcceptedDrafts reqs mem).draftExtendCacheLoc =
      keptSlots B mem len' off
        (goingOn B ops fun i => (checkRow ops predict (reqs i) (acceptIndex i)).req) := by
  have hlen : (verify B env ops predict acceptIndex numAcceptedDrafts reqs mem).draftExtendInput.inputIds.length =
      (keptSlots B mem len' off
        (goingOn B ops fun i => (checkRow ops predict (reqs i) (acceptIndex i)).req)).length := by
    rw [hc.inputIds_eq, List.length_map, flatIndex, keptSlots]
    simp
  rw [VerifyOutput.draftExtendCacheLoc, hlen]
  split
  · rename_i h0
    exact (List.eq_nil_of_length_eq_zero h0).symm
  · rename_i h0
    refine hc.outCacheLoc_eq h hnum fun hnil => h0 ?_
    rw [hnil]
    rfl

end Output

end EagleVerify

end Sglang
