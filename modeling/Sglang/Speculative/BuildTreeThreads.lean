/-
# The threads that build the draft tree

What one thread of `build_tree_efficient` writes, and that the threads of a launch keep to cells of their
own: a row of the mask and a position for each, and the links of a request for its thread `0`.  So the
launch leaves in each of these cells what the thread leaves there alone.
-/
import Sglang.Lib.Footprint
import Sglang.Lib.Lanes
import Sglang.Lib.OptionLoops
import Sglang.Speculative.BuildTree

namespace Sglang

open Lib List Function

/-! ## 1. Rows of the mask -/

/-- `a` is in the row of a thread. -/
def InRow (first : ℕ → ℕ → ℕ) (width : ℕ → ℕ) (bid tid a : ℕ) : Prop :=
  first bid tid ≤ a ∧ a < first bid tid + width bid

/-- The layout keeps each of `n` threads of a block to its row. -/
structure MaskLayout.HasRows {M : Type} (layout : MaskLayout M) (n : ℕ) (first : ℕ → ℕ → ℕ)
    (width : ℕ → ℕ) : Prop where
  start_frame : ∀ bid tid m a, ¬ InRow first width bid tid a → layout.start bid tid m a = m a
  start_own : ∀ bid tid m m', (∀ a, InRow first width bid tid a → m a = m' a) →
    ∀ a, InRow first width bid tid a → layout.start bid tid m a = layout.start bid tid m' a
  mark_frame : ∀ bid tid cur m a, cur + 1 < n → ¬ InRow first width bid tid a →
    layout.mark bid tid cur m a = m a
  mark_own : ∀ bid tid cur m m', cur + 1 < n → (∀ a, InRow first width bid tid a → m a = m' a) →
    ∀ a, InRow first width bid tid a → layout.mark bid tid cur m a = layout.mark bid tid cur m' a
  apart : ∀ bid bid', ∀ tid < n, ∀ tid' < n, ∀ a, InRow first width bid tid a →
    InRow first width bid' tid' a → (bid, tid) = (bid', tid')

namespace BuildTreeInput

variable {M : Type} {inp : BuildTreeInput} {bid tid : ℕ} {d : EagleDraft} {idx l : List ℕ}
  {layout : MaskLayout M} {b : TreeBuffers M}

/-- The row of a thread after it has marked the positions `l`. -/
def marked (layout : MaskLayout M) (bid tid : ℕ) (l : List ℕ) (m : ℕ → M) : ℕ → M :=
  (l.map (· - 1)).foldl (fun m cur => layout.mark bid tid cur m) (layout.start bid tid m)

variable {n : ℕ} {width : ℕ → ℕ}

theorem marked_frame {first : ℕ → ℕ → ℕ} (h : layout.HasRows n first width)
    (hl : ∀ j ∈ l, 0 < j ∧ j < n) (m : ℕ → M) {a : ℕ} (ha : ¬ InRow first width bid tid a) :
    marked layout bid tid l m a = m a := by
  induction l using List.reverseRecOn with
  | nil => exact h.start_frame bid tid m a ha
  | append_singleton l j ih =>
    have hj := hl j (by simp)
    rw [marked, map_append, foldl_append]
    refine (h.mark_frame bid tid (j - 1) _ a (by omega) ha).trans ?_
    exact ih fun k hk => hl k (mem_append_left _ hk)

theorem marked_own {first : ℕ → ℕ → ℕ} (h : layout.HasRows n first width)
    (hl : ∀ j ∈ l, 0 < j ∧ j < n) {m m' : ℕ → M}
    (hm : ∀ a, InRow first width bid tid a → m a = m' a) :
    ∀ a, InRow first width bid tid a → marked layout bid tid l m a = marked layout bid tid l m' a := by
  induction l using List.reverseRecOn with
  | nil => exact h.start_own bid tid m m' hm
  | append_singleton l j ih =>
    have hj := hl j (by simp)
    intro a ha
    rw [marked, marked, map_append, foldl_append, foldl_append]
    exact h.mark_own bid tid (j - 1) _ _ (by omega) (ih fun k hk => hl k (mem_append_left _ hk)) a ha

/-! ## 2. One thread -/

/-- Where the arrays of a request hold a position. -/
def address (inp : BuildTreeInput) (bid i : ℕ) : ℕ := bid * inp.draftTokenNum + i

theorem address_injective (inp : BuildTreeInput) (bid : ℕ) : Function.Injective (inp.address bid) :=
  fun _ _ h => Nat.add_left_cancel h

theorem address_inj {bid' i i' : ℕ} (hi : i < inp.draftTokenNum) (hi' : i' < inp.draftTokenNum)
    (h : inp.address bid i = inp.address bid' i') : bid = bid' ∧ i = i' := by
  have hdiv := tile_div bid hi
  have hmod := Nat.mul_add_mod_of_lt (a := bid) hi
  rw [address] at h
  rw [h] at hdiv hmod
  exact ⟨(hdiv.symm.trans (tile_div bid' hi')), hmod.symm.trans (Nat.mul_add_mod_of_lt hi')⟩

/-- The links in the buffers. -/
def links (b : TreeBuffers M) : Links := ⟨b.retriveNextToken, b.retriveNextSibling⟩

/-- What thread `0` does to the links: they become those of the tree. -/
theorem foldr_linkToken (h : inp.Holds bid d idx) (b : TreeBuffers M) (is : List ℕ)
    (his : ∀ i ∈ is, 0 < i ∧ i < inp.draftTokenNum) :
    (is.foldr (inp.linkToken bid) b).treeMask = b.treeMask ∧
    (is.foldr (inp.linkToken bid) b).positions = b.positions ∧
    links (is.foldr (inp.linkToken bid) b) =
      is.foldr (link (inp.address bid) (tree d idx)) (links b) ∧
    ∀ a, (is.foldr (inp.linkToken bid) b).retriveIndex a =
      if ∃ i ∈ is, a = inp.address bid i then (a : ℤ) else b.retriveIndex a := by
  induction is with
  | nil => exact ⟨rfl, rfl, rfl, fun a => by simp⟩
  | cons i is ih =>
    obtain ⟨hmask, hpos, hlinks, hindex⟩ := ih fun j hj => his j (mem_cons_of_mem _ hj)
    obtain ⟨hipos, hin⟩ := his i mem_cons_self
    have hparent := h.parentPosition_eq hin hipos
    have hlt := h.numbered i hin hipos
    have hne : inp.parentPosition bid i ≠ inp.draftTokenNum := by omega
    obtain ⟨b', hb'⟩ : ∃ b', is.foldr (inp.linkToken bid) b = b' := ⟨_, rfl⟩
    rw [hb'] at hmask hpos hlinks hindex
    have hidx : ∀ a, Function.update b'.retriveIndex (inp.address bid i) (inp.address bid i : ℤ) a =
        if ∃ j ∈ i :: is, a = inp.address bid j then (a : ℤ) else b.retriveIndex a := by
      intro a
      by_cases ha : a = inp.address bid i
      · subst ha
        simp
      · rw [update_of_ne ha, hindex]
        simp [ha]
    rw [foldr_cons, foldr_cons, hb', ← hlinks, link, linkToken]
    simp only [hparent]
    rw [if_neg (hparent ▸ hne)]
    by_cases hnone : b'.retriveNextToken (bid * inp.draftTokenNum + tree d idx i) = -1
    · rw [if_pos hnone, if_pos (show (links b').next (inp.address bid (tree d idx i)) = -1 from hnone)]
      exact ⟨hmask, hpos, rfl, hidx⟩
    · rw [if_neg hnone,
        if_neg (show ¬ (links b').next (inp.address bid (tree d idx i)) = -1 from hnone)]
      exact ⟨hmask, hpos, rfl, hidx⟩

theorem firstThread_spec (h : inp.Holds bid d idx) (b : TreeBuffers M) :
    (inp.firstThread bid b).treeMask = b.treeMask ∧
    (inp.firstThread bid b).positions =
      Function.update b.positions (inp.address bid 0) (inp.verifiedSeqLen bid) ∧
    links (inp.firstThread bid b) =
      linkAll (inp.address bid) (tree d idx) inp.draftTokenNum (links b) ∧
    ∀ a, (inp.firstThread bid b).retriveIndex a =
      if ∃ i < inp.draftTokenNum, a = inp.address bid i then (a : ℤ) else b.retriveIndex a := by
  have hpos : 0 < inp.draftTokenNum := by
    rw [h.length]
    exact Nat.succ_pos _
  obtain ⟨b₀, hb₀⟩ : ∃ b₀ : TreeBuffers M, b₀ =
      { b with positions := Function.update b.positions (inp.address bid 0) (inp.verifiedSeqLen bid) } :=
    ⟨_, rfl⟩
  obtain ⟨hmask, hposi, hlinks, hindex⟩ := foldr_linkToken h b₀
    (List.range' 1 (inp.draftTokenNum - 1)) fun i hi => by
      rw [mem_range'_1] at hi
      omega
  have hthread : inp.firstThread bid b =
      { (List.range' 1 (inp.draftTokenNum - 1)).foldr (inp.linkToken bid) b₀ with
        retriveIndex := Function.update
          ((List.range' 1 (inp.draftTokenNum - 1)).foldr (inp.linkToken bid) b₀).retriveIndex
          (inp.address bid 0) (inp.address bid 0 : ℤ) } := by
    rw [hb₀]
    rfl
  rw [hthread]
  subst hb₀
  refine ⟨hmask, hposi, hlinks, fun a => ?_⟩
  simp only
  by_cases ha : a = inp.address bid 0
  · subst ha
    rw [update_self, if_pos ⟨0, hpos, rfl⟩]
  · rw [update_of_ne ha, hindex]
    refine if_congr ⟨?_, ?_⟩ rfl rfl
    · rintro ⟨i, hi, rfl⟩
      rw [mem_range'_1] at hi
      exact ⟨i, by omega, rfl⟩
    · rintro ⟨i, hi, rfl⟩
      have hi0 : i ≠ 0 := fun h0 => ha (by rw [h0])
      exact ⟨i, mem_range'_1.mpr (by omega), rfl⟩

/-- **A thread** marks the way up in its row, and writes its position; thread `0` links the tree. -/
theorem exists_buildThread (h : inp.Holds bid d idx) (ht : tid < inp.draftTokenNum)
    (hfit : inp.IntsFit bid ∧ layout.last bid tid < 2 ^ 31) (hl : Upward (tree d idx) tid l) (b : TreeBuffers M) :
    ∃ b', inp.buildThread bid tid layout b = some b' ∧
      b'.treeMask = marked layout bid tid l b.treeMask ∧
      b'.positions = Function.update b.positions (inp.address bid tid)
        (l.length + inp.verifiedSeqLen bid : ℕ) ∧
      links b' = (if tid = 0 then linkAll (inp.address bid) (tree d idx) inp.draftTokenNum (links b)
        else links b) ∧
      ∀ a, b'.retriveIndex a =
        if tid = 0 ∧ ∃ i < inp.draftTokenNum, a = inp.address bid i then (a : ℤ)
        else b.retriveIndex a := by
  rw [buildThread, if_neg (not_le.mpr ht), if_pos hfit]
  by_cases h0 : tid = 0
  · subst h0
    obtain ⟨hmask, hposi, hlinks, hindex⟩ := firstThread_spec h
      { b with treeMask := layout.start bid 0 b.treeMask }
    cases hl with
    | root =>
      refine ⟨_, if_pos rfl, hmask, ?_, ?_, fun a => ?_⟩
      · rw [hposi, length_nil, Nat.zero_add]
      · rw [hlinks]
        rfl
      · rw [hindex]
        simp
    | step hpos _ => exact absurd hpos (lt_irrefl 0)
  · have hlen := hl.length_le h.numbered ht
    have hwalk := h.ancestorWalk_eq hl ht (Nat.pos_of_ne_zero h0) inp.draftTokenNum (by omega)
    rw [if_neg h0, otherThread, hwalk]
    refine ⟨_, rfl, rfl, ?_, (if_neg h0).symm, fun a => ?_⟩
    · simp only [length_map]
      rfl
    · rw [if_neg fun hc => h0 hc.1]

end BuildTreeInput

end Sglang
