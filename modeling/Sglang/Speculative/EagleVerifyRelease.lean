/-
# What a verification leaves

From a batch whose rows lie in their pages, `prepare_for_verify` and then `verify` keep what the accepted
tokens need and nothing more (`Sound.verify_frees_rejected`): the allocator gets back, once, exactly the pages of the draft
without a kept position, the rows go on with the accepted tokens and hold their values, what was before them
has not moved, and the draft extend is given their slots, for the requests that go on.  This holds for every
page size and number of branches, whatever values the forward pass has written and wherever the requests
finish.
-/
import Sglang.Speculative.EagleVerifyMemory
import Sglang.Speculative.EagleVerifyPrepare

namespace Sglang

open Lib Finset List

namespace EagleVerify

variable {β ρ : Type} {B : VerifyBatch} {mem mem₀ : KVMemory β} {i k p q : ℕ} {len len' : ℕ → ℕ}
  {off : ℕ → ℕ → ℕ} {F : List ℕ}

/-! ## 1. What is right afterwards -/

/-- The memory after a verification, given the one before it. -/
structure Verified (B : VerifyBatch) (ops : ReqOps ρ) (predict : ℕ → ℤ) (reqs : ℕ → ρ) (len : ℕ → ℕ)
    (off : ℕ → ℕ → ℕ) (mem : KVMemory β) (out : VerifyOutput ρ β) : Prop where
  cut : ∀ i < B.bs, out.numAcceptedDrafts i + 1 ≤ len i ∧
    (∀ m ≤ out.numAcceptedDrafts i, 0 < m → ops.finished (reqAfter ops predict (reqs i)
      ((List.range m).map fun j => i * B.draftTokenNum + off i j)) = false) ∧
    out.reqs i = reqAfter ops predict (reqs i)
      ((List.range (out.numAcceptedDrafts i + 1)).map fun j => i * B.draftTokenNum + off i j) ∧
    (out.numAcceptedDrafts i + 1 = len i ∨ ops.finished (out.reqs i) = true)
  freed : ∀ q, q ∈ pagesOf B.pageSize out.freed ↔ ∃ i < B.bs,
    (∃ k < B.draftTokenNum, draftSlot B mem.outCacheLoc i k / B.pageSize = q) ∧
      ∀ p < B.seqLens i + out.numAcceptedDrafts i + 1,
        slotOf B out.mem.reqToToken i p / B.pageSize ≠ q
  apart : ∀ q ∈ pagesOf B.pageSize out.freed, ∀ i < B.bs, ∀ p < B.seqLens i + out.numAcceptedDrafts i + 1,
    slotOf B out.mem.reqToToken i p / B.pageSize ≠ q
  released : out.mem.allocator.pages = mem.allocator.pages + (pagesOf B.pageSize out.freed).val
  once : out.mem.allocator.pages.Nodup
  holds : ∀ i < B.bs, ∀ j ≤ out.numAcceptedDrafts i,
    out.mem.kv (slotOf B out.mem.reqToToken i (B.seqLens i + j)) =
      mem.kv (draftSlot B mem.outCacheLoc i (off i j))
  before : ∀ i < B.bs, ∀ p < B.seqLens i,
    slotOf B out.mem.reqToToken i p = slotOf B mem.reqToToken i p ∧
      out.mem.kv (slotOf B mem.reqToToken i p) = mem.kv (slotOf B mem.reqToToken i p)
  handed : out.draftExtendCacheLoc = (goingOn B ops out.reqs).flatMap fun i =>
    (List.range (out.numAcceptedDrafts i + 1)).map fun j =>
      slotOf B out.mem.reqToToken i (B.seqLens i + j)

/-! ## 2. What the allocator has before -/

/-- The allocator after the draft has got its slots: no page of the rows is free. -/
structure Allocated (B : VerifyBatch) (mem : KVMemory β) : Prop where
  pageSize : mem.allocator.pageSize = B.pageSize
  isNotInFreeGroup : mem.allocator.isNotInFreeGroup = true
  nodup : mem.allocator.pages.Nodup
  taken : ∀ i < B.bs, ∀ k < B.draftTokenNum,
    draftSlot B mem.outCacheLoc i k / B.pageSize ∉ mem.allocator.pages

theorem Drawn.allocated (hs : Sound B mem₀) (hd : Drawn B mem₀ mem F) : Allocated B mem where
  pageSize := hd.sameKind.pageSize.trans hs.pageSize
  isNotInFreeGroup := hd.sameKind.isNotInFreeGroup.trans hs.isNotInFreeGroup
  nodup := by
    have hnd := hs.nodup
    rw [← hd.pages] at hnd
    exact (Multiset.nodup_add.mp hnd).2.1
  taken := by
    intro i hi k hk hmem
    have hp : B.seqLens i + k < B.seqLens i + B.draftTokenNum := Nat.add_lt_add_left hk _
    rw [← hd.slotOf_draft hi hk] at hmem
    rcases Nat.lt_or_ge ((B.seqLens i + k) / B.pageSize) (pageCount B.pageSize (B.seqLens i)) with hold | hnew
    · refine hd.old_not_free hs hi hp hold ?_
      rw [← hd.pages]
      exact Multiset.mem_add.mpr (.inr hmem)
    · have hnd := hs.nodup
      rw [← hd.pages] at hnd
      exact Multiset.disjoint_left.mp (Multiset.nodup_add.mp hnd).2.2
        (Multiset.mem_coe.mpr (hd.new_free hs hi hp hnew)) hmem

theorem Prepared.nodup_maskSelect (h : Prepared B mem) (mask : ℕ → Bool) :
    (maskSelect mem.outCacheLoc mask).Nodup := by
  refine List.Nodup.map_on (fun a ha b hb heq => ?_) (nodup_range.filter _)
  rw [List.mem_filter, List.mem_range, h.length] at ha hb
  have hD : 0 < B.draftTokenNum := by
    rcases Nat.eq_zero_or_pos B.draftTokenNum with h0 | h0
    · rw [h0] at ha
      exact absurd ha.1 (Nat.not_lt_zero _)
    · exact h0
  have hsplit : ∀ a, a / B.draftTokenNum * B.draftTokenNum + a % B.draftTokenNum = a := fun a =>
    Nat.div_add_mod' _ _
  have hrow : ∀ {a}, a < B.bs * B.draftTokenNum → a / B.draftTokenNum < B.bs := fun ha =>
    (Nat.div_lt_iff_lt_mul hD).mpr ha
  obtain ⟨hi, hk⟩ := h.draft_inj (hrow ha.1) (Nat.mod_lt a hD) (hrow hb.1) (Nat.mod_lt b hD)
    (by rw [draftSlot, draftSlot, hsplit, hsplit]; exact heq)
  rw [← hsplit a, hi, hk, hsplit]

/-! ## 3. The result -/

section Output

variable {env : LaunchEnv B.bs} {ops : ReqOps ρ} {predict : ℕ → ℤ} {acceptIndex : ℕ → List ℤ}
  {numAcceptedDrafts : ℕ → ℕ} {reqs : ℕ → ρ} (hc : Checked B acceptIndex ops predict reqs len off len')
  (h : Prepared B mem) (hnum : ∀ i < B.bs, numAcceptedDrafts i + 1 = len i)

include hc h hnum

theorem Checked.mem_pagesOf_freed :
    q ∈ pagesOf B.pageSize (verify B env ops predict acceptIndex numAcceptedDrafts reqs mem).freed ↔
      ∃ i < B.bs, ∃ k < B.draftTokenNum,
        Rejected B len' off i k ∧ draftSlot B mem.outCacheLoc i k / B.pageSize = q := by
  rw [mem_pagesOf, hc.freed_eq]
  simp only [mem_freed_iff h hc.toOffsets fun i hi => hc.numAcceptedDrafts_eq hnum hi]
  constructor
  · rintro ⟨s, ⟨i, hi, k, hk, hrej, rfl⟩, rfl⟩
    exact ⟨i, hi, k, hk, hrej, rfl⟩
  · rintro ⟨i, hi, k, hk, hrej, rfl⟩
    exact ⟨_, ⟨i, hi, k, hk, hrej, rfl⟩, rfl⟩

omit hnum in
theorem Checked.nodup_freed (h1 : B.pageSize = 1) :
    (verify B env ops predict acceptIndex numAcceptedDrafts reqs mem).freed.Nodup := by
  rw [hc.freed_eq, release, if_pos h1]
  exact h.nodup_maskSelect _

theorem Checked.verified (ha : Allocated B mem) : Verified B ops predict reqs len off mem
    (verify B env ops predict acceptIndex numAcceptedDrafts reqs mem) := by
  have hacc : ∀ i < B.bs,
      (verify B env ops predict acceptIndex numAcceptedDrafts reqs mem).numAcceptedDrafts i + 1 = len' i :=
    fun i hi => hc.numAcceptedDrafts_eq hnum hi
  have hslot : ∀ i < B.bs, ∀ p,
      slotOf B (verify B env ops predict acceptIndex numAcceptedDrafts reqs mem).mem.reqToToken i p =
        keptSlot B mem len' off i p := fun i hi p => hc.slotOf_eq h hnum hi p
  have hreqs : ∀ i, (verify B env ops predict acceptIndex numAcceptedDrafts reqs mem).reqs i =
      (checkRow ops predict (reqs i) (acceptIndex i)).req := fun i => rfl
  have hpages : (verify B env ops predict acceptIndex numAcceptedDrafts reqs mem).mem.allocator.pages =
      mem.allocator.pages + (pagesOf B.pageSize
        (verify B env ops predict acceptIndex numAcceptedDrafts reqs mem).freed).val := by
    rw [← ha.pageSize]
    exact KVAllocator.pages_free_pagesOf ha.isNotInFreeGroup fun h1 =>
      hc.nodup_freed h (ha.pageSize.symm.trans h1)
  refine ⟨fun i hi => ⟨?_, fun m hm hpos => ?_, ?_, ?_⟩, fun q => ⟨?_, ?_⟩, fun q hq i hi p hp => ?_, hpages,
    ?_, fun i hi j hj => ?_, fun i hi p hp => ⟨?_, ?_⟩, ?_⟩
  · rw [hacc i hi]
    exact hc.le i hi
  · exact hc.running i hi m (by rw [← hacc i hi]; omega) hpos
  · rw [hreqs, hc.req_eq i hi, hacc i hi]
  · rw [hacc i hi]
    cases hend : (checkRow ops predict (reqs i) (acceptIndex i)).hasFinished with
    | false => exact .inl (hc.whole i hi hend).1
    | true => exact .inr (hc.ended i hi hend)
  · intro hq
    obtain ⟨i, hi, k, hk, hrej, rfl⟩ := (hc.mem_pagesOf_freed h hnum).mp hq
    refine ⟨i, hi, ⟨k, hk, rfl⟩, fun p hp => ?_⟩
    rw [hslot i hi]
    exact rejected_page h hc.toOffsets hi hk hrej hi (by rw [← hacc i hi]; omega)
  · rintro ⟨i, hi, ⟨k, hk, rfl⟩, hno⟩
    refine (hc.mem_pagesOf_freed h hnum).mpr ⟨i, hi, k, hk, ?_, rfl⟩
    by_contra hrej
    obtain ⟨p, hp, hpage⟩ := exists_kept_page h hc.toOffsets hi hk hrej
    exact hno p (by rw [← hacc i hi] at hp; omega) (by rw [hslot i hi]; exact hpage)
  · obtain ⟨i', hi', k, hk, hrej, rfl⟩ := (hc.mem_pagesOf_freed h hnum).mp hq
    rw [hslot i hi]
    exact rejected_page h hc.toOffsets hi' hk hrej hi (by rw [← hacc i hi]; omega)
  · rw [hpages]
    refine Multiset.nodup_add.mpr ⟨ha.nodup, nodup _, Multiset.disjoint_right.mpr fun {q} hq => ?_⟩
    obtain ⟨i, hi, k, hk, -, rfl⟩ := (hc.mem_pagesOf_freed h hnum).mp (mem_val.mp hq)
    exact ha.taken i hi k hk
  · rw [hslot i hi]
    exact hc.kv_kept h hnum hi (by rw [← hacc i hi]; omega)
  · rw [hslot i hi, keptSlot_before hp]
  · exact hc.kv_before h hnum hi hp
  · rw [hc.draftExtendCacheLoc_eq h hnum]
    refine flatMap_congr fun i hi => ?_
    have hlt : i < B.bs := lt_of_mem_goingOn hi
    rw [hacc i hlt]
    exact map_congr_left fun j _ => (hslot i hlt _).symm

end Output

/-- **Verification frees exactly the rejected pages**, for every row of accepted indices, every page size and
every number of branches: the batch gets its slots, the forward pass leaves any values `kv` in the cache, and
what `verify` leaves then is as it should be. -/
theorem Sound.verify_frees_rejected (hs : Sound B mem₀) (env env' : LaunchEnv B.bs)
    (hprepare : prepareForVerify B env mem₀ = some mem) (kv : ℕ → β) (ops : ReqOps ρ) (predict : ℕ → ℤ)
    (reqs : ℕ → ρ) {acceptIndex : ℕ → List ℤ} {numAcceptedDrafts : ℕ → ℕ}
    (hrows : AcceptRows B acceptIndex len off) (hnum : ∀ i < B.bs, numAcceptedDrafts i + 1 = len i) :
    Verified B ops predict reqs len off { mem with kv := kv }
      (verify B env' ops predict acceptIndex numAcceptedDrafts reqs { mem with kv := kv }) := by
  obtain ⟨F, hd⟩ := hs.exists_drawn hprepare
  obtain ⟨len', hc⟩ := exists_checked ops predict reqs hrows
  have hp := hd.prepared hs
  have ha := hd.allocated hs
  have hprepared : Prepared B { mem with kv := kv } :=
    ⟨hp.pageSize_pos, hp.length, hp.pool, hp.draft, hp.page, hp.fresh, hp.apart⟩
  exact hc.verified hprepared hnum ⟨ha.pageSize, ha.isNotInFreeGroup, ha.nodup, ha.taken⟩

/-- Two requests with a common first page, in pages of two slots. -/
def twoBatch : VerifyBatch := ⟨2, id, fun i => [3, 2].getD i 0, fun i => [3, 2].getD i 0, 4, 2, 2⟩

def twoMemory : KVMemory ℕ :=
  ⟨fun i p => if i = 0 then [2, 3, 4].getD p 0 else [2, 3].getD p 0, [], id,
    ⟨20, 2, false, [3, 4, 5, 6, 7, 8], [], true, []⟩⟩

theorem backwards_perm (_ : Launch) : [1, 0].Perm (List.range 2) := List.Perm.swap 0 1 []

/-- The programs run backwards, and one cell is copied at a time. -/
def twoEnv : LaunchEnv 2 :=
  ⟨fun _ => [1, 0], fun _ => 0, false, 1, backwards_perm, Nat.zero_lt_one⟩

/-- The second request finishes at its second token. -/
def countTokens : ReqOps ℕ := ⟨fun n _ => n + 1, fun n => n == 2⟩

/-- The accepted tokens: the first and the third of one request, three of the other. -/
def twoRows (i : ℕ) : List ℤ := if i = 0 then [0, 2, -1] else [4, 5, 7]

theorem verified_two : ∃ mem, prepareForVerify twoBatch twoEnv twoMemory = some mem ∧
    mem.outCacheLoc = [5, 6, 7, 8, 10, 11, 12, 13] ∧
    Verified twoBatch countTokens (fun _ => 0) (fun i => [10, 0].getD i 0) (fun i => [2, 3].getD i 0)
      (fun i j => if i = 0 then 2 * j else [0, 1, 3].getD j 0) mem
      (verify twoBatch twoEnv countTokens (fun _ => 0) twoRows (fun i => [1, 2].getD i 0)
        (fun i => [10, 0].getD i 0) mem) ∧
    (verify twoBatch twoEnv countTokens (fun _ => 0) twoRows (fun i => [1, 2].getD i 0)
      (fun i => [10, 0].getD i 0) mem).freed = [8, 12, 13] ∧
    (verify twoBatch twoEnv countTokens (fun _ => 0) twoRows (fun i => [1, 2].getD i 0)
      (fun i => [10, 0].getD i 0) mem).draftExtendCacheLoc = [5, 6] := by
  -- only the first request goes on in a page it has
  have hlast : ∀ i < 2, ∀ p < twoBatch.seqLens i, twoBatch.seqLens i / 2 ≤ p / 2 →
      i = 0 ∧ slotOf twoBatch twoMemory.reqToToken i p / 2 = 2 := by decide
  have howner : ∀ i < 2, ∀ p < twoBatch.seqLens i,
      2 = slotOf twoBatch twoMemory.reqToToken i p / 2 → 0 = i := by decide
  have hs : Sound twoBatch twoMemory :=
    ⟨by decide, rfl, rfl, by decide, by decide, by decide, by decide, by decide,
      fun i hi p hp hle i' hi' p' hp' heq => by
        obtain ⟨rfl, hpage⟩ := hlast i hi p hp hle
        exact howner i' hi' p' hp' (hpage.symm.trans heq)⟩
  have hrows : AcceptRows twoBatch twoRows (fun i => [2, 3].getD i 0)
      (fun i j => if i = 0 then 2 * j else [0, 1, 3].getD j 0) := by
    have hlt : ∀ i < 2, ∀ j' < [2, 3].getD i 0, ∀ j < j',
        (if i = 0 then 2 * j else [0, 1, 3].getD j 0) < if i = 0 then 2 * j' else [0, 1, 3].getD j' 0 := by
      decide
    have hpad : ∀ i < 2, twoRows i = (List.range ([2, 3].getD i 0)).map (fun j =>
        ((i * 4 + if i = 0 then 2 * j else [0, 1, 3].getD j 0 : ℕ) : ℤ)) ++
          List.replicate (if i = 0 then 1 else 0) (-1) := by decide
    exact ⟨⟨by decide, by decide, fun i hi j j' hj hj' => hlt i hi j' hj' j hj, by decide, by decide⟩,
      fun i hi => ⟨_, hpad i hi⟩⟩
  have hnum : ∀ i < twoBatch.bs, [1, 2].getD i 0 + 1 = [2, 3].getD i 0 := by decide
  obtain ⟨mem, hmem⟩ : ∃ mem, prepareForVerify twoBatch twoEnv twoMemory = some mem :=
    ⟨_, rfl⟩
  have hv := hs.verify_frees_rejected twoEnv twoEnv hmem mem.kv countTokens (fun _ => 0) (fun i => [10, 0].getD i 0) hrows
    hnum
  cases hmem
  exact ⟨_, rfl, by decide +kernel, hv, by decide +kernel, by decide +kernel⟩

end EagleVerify

end Sglang
