/-
# The kernels that build the draft tree

A transcription of `build_tree_efficient` and `build_tree_efficient_partial_packed` (`eagle_utils.cu`).
A block of the grid works on one request and has one thread for each position of the tree: position `0`
is the root, the others are the selected tokens in order.  Thread `0` links children and siblings; every
other thread walks from its token up to the root, and marks the way in its row of the mask.  The second
kernel is a copy of the first one with bits for bools.  Their indices and lengths are 32-bit integers; a
thread for which one of them overflows has no result here (`IntsFit`).

The parent of a token is found by a search for its place among the selected ones.  A token whose parent
is selected walks from place to smaller place and ends after a token of step `0` (`ancestorWalk_eq`).
-/
import Sglang.Lib.NumberedTree
import Sglang.Speculative.DraftSelect

namespace Sglang

open Lib List

/-! ## 1. The kernels -/

/-- `TreeMaskMode`, without the packed mode, which has a kernel of its own. -/
inductive TreeMaskMode where
  | fullMask
  | qlenOnly
deriving DecidableEq

/-- The arguments of the kernels that they read. -/
structure BuildTreeInput where
  parentList : ℕ → ℤ
  selectedIndex : ℕ → ℤ
  verifiedSeqLen : ℕ → ℕ
  topk : ℕ
  depth : ℕ
  draftTokenNum : ℕ

/-- The arguments that they write, with a mask of bools or bytes. -/
structure TreeBuffers (M : Type) where
  treeMask : ℕ → M
  positions : ℕ → ℤ
  retriveIndex : ℕ → ℤ
  retriveNextToken : ℕ → ℤ
  retriveNextSibling : ℕ → ℤ

/-- What a thread does to its row of the mask: the start of it, and the mark of a position on the way
to the root.  `last` is the last place of the row. -/
structure MaskLayout (M : Type) where
  last : ℕ → ℕ → ℕ
  start : ℕ → ℕ → (ℕ → M) → ℕ → M
  mark : ℕ → ℕ → ℕ → (ℕ → M) → ℕ → M

namespace BuildTreeInput

variable (inp : BuildTreeInput) (bid tid : ℕ)

/-- `selected_index` of the request. -/
def selected (c : ℕ) : ℤ := inp.selectedIndex (bid * (inp.draftTokenNum - 1) + c)

/-- `parent_tb_idx`. -/
def parentTbIdx (c : ℕ) : ℤ := inp.selected bid c / inp.topk

/-- `parent_token_idx`, or `token_idx`. -/
def parentTokenIdx (c : ℕ) : ℤ :=
  inp.parentList (bid * (inp.topk * (inp.depth - 1) + 1) + (inp.parentTbIdx bid c).toNat)

/-- The search for a token: its place, or the number of positions where it is not found. -/
def search (token : ℤ) : ℕ :=
  ((List.range inp.draftTokenNum).find? fun c => inp.selected bid c = token).getD inp.draftTokenNum

/-- `parent_position` in thread `0`. -/
def parentPosition (i : ℕ) : ℕ :=
  if inp.parentTbIdx bid (i - 1) > 0 then
    min inp.draftTokenNum (inp.search bid (inp.parentTokenIdx bid (i - 1)) + 1)
  else 0

/-- The body of the loop of thread `0`. -/
def linkToken {M : Type} (i : ℕ) (b : TreeBuffers M) : TreeBuffers M :=
  let base := bid * inp.draftTokenNum
  let b := { b with retriveIndex := Function.update b.retriveIndex (base + i) (base + i : ℕ) }
  let parentPosition := inp.parentPosition bid i
  if parentPosition = inp.draftTokenNum then b
  else if b.retriveNextToken (base + parentPosition) = -1 then
    { b with retriveNextToken := Function.update b.retriveNextToken (base + parentPosition) i }
  else
    { b with
      retriveNextToken := Function.update b.retriveNextToken (base + parentPosition) i
      retriveNextSibling := Function.update b.retriveNextSibling (base + i)
        (b.retriveNextToken (base + parentPosition)) }

/-- Thread `0`. -/
def firstThread {M : Type} (b : TreeBuffers M) : TreeBuffers M :=
  let base := bid * inp.draftTokenNum
  let b := { b with positions := Function.update b.positions base (inp.verifiedSeqLen bid) }
  let b := (List.range' 1 (inp.draftTokenNum - 1)).foldr (inp.linkToken bid) b
  { b with retriveIndex := Function.update b.retriveIndex base base }

/-- The places that `cur_position` goes through, with a bound on the rounds. -/
def ancestorWalk : ℕ → ℕ → Option (List ℕ)
  | 0, _ => none
  | fuel + 1, cur =>
    if inp.parentTbIdx bid cur = 0 then some [cur]
    else (ancestorWalk fuel (inp.search bid (inp.parentTokenIdx bid cur))).map (cur :: ·)

/-- The other threads. -/
def otherThread {M : Type} (layout : MaskLayout M) (b : TreeBuffers M) : Option (TreeBuffers M) :=
  (inp.ancestorWalk bid inp.draftTokenNum (tid - 1)).map fun places =>
    { b with
      treeMask := places.foldl (fun m cur => layout.mark bid tid cur m) b.treeMask
      positions := Function.update b.positions (bid * inp.draftTokenNum + tid)
        (places.length + inp.verifiedSeqLen bid : ℕ) }

/-- The `int` variables of a block: `seq_len`, the positions, and the indices and values read from the
other arrays. -/
def IntsFit : Prop :=
  inp.verifiedSeqLen bid + inp.draftTokenNum ≤ 2 ^ 31 ∧ (bid + 1) * inp.draftTokenNum ≤ 2 ^ 31 ∧
  (bid + 1) * (inp.topk * (inp.depth - 1) + 1) ≤ 2 ^ 31 ∧ ∀ c < inp.draftTokenNum - 1,
    (bid * (inp.topk * (inp.depth - 1) + 1) + inp.parentTbIdx bid c).natAbs < 2 ^ 31 ∧
      (inp.parentTokenIdx bid c).natAbs < 2 ^ 31

instance : Decidable (inp.IntsFit bid) := inferInstanceAs (Decidable (_ ∧ _ ∧ _ ∧ ∀ c < _, _))

/-- A thread. -/
def buildThread {M : Type} (layout : MaskLayout M) (b : TreeBuffers M) : Option (TreeBuffers M) :=
  if tid ≥ inp.draftTokenNum then some b
  else if inp.IntsFit bid ∧ layout.last bid tid < 2 ^ 31 then
    let b := { b with treeMask := layout.start bid tid b.treeMask }
    if tid = 0 then some (inp.firstThread bid b) else inp.otherThread bid tid layout b
  else none

/-- `seq_tree_idx`: where the mask of a request starts. -/
def seqTreeIdx : ℕ :=
  inp.draftTokenNum * inp.draftTokenNum * bid +
    ((List.range bid).map fun i => inp.verifiedSeqLen i * inp.draftTokenNum).sum

/-- `token_tree_idx`: the place behind the root's in the row of a thread. -/
def tokenTreeIdx (mode : TreeMaskMode) : ℕ :=
  match mode with
  | .fullMask =>
    inp.seqTreeIdx bid + (inp.verifiedSeqLen bid + inp.draftTokenNum) * tid +
      inp.verifiedSeqLen bid + 1
  | .qlenOnly =>
    inp.draftTokenNum * inp.draftTokenNum * bid + inp.draftTokenNum * tid + 1

/-- Bools: the root is marked, the other positions are not. -/
def boolLayout (mode : TreeMaskMode) : MaskLayout Bool where
  last bid tid := inp.tokenTreeIdx bid tid mode + inp.draftTokenNum
  start bid tid m :=
    (List.range (inp.draftTokenNum - 1)).foldl
      (fun m i => Function.update m (inp.tokenTreeIdx bid tid mode + i) false)
      (Function.update m (inp.tokenTreeIdx bid tid mode - 1) true)
  mark bid tid cur m := Function.update m (inp.tokenTreeIdx bid tid mode + cur) true

/-- Bits, in rows of `numBytesPerItem` bytes. -/
def packedLayout (numBytesPerItem : ℕ) : MaskLayout (BitVec 8) where
  last bid tid := (bid * inp.draftTokenNum + tid) * numBytesPerItem + inp.draftTokenNum / 8
  start bid tid m := Function.update m ((bid * inp.draftTokenNum + tid) * numBytesPerItem) 1
  mark bid tid cur m :=
    let a := (bid * inp.draftTokenNum + tid) * numBytesPerItem + (cur + 1) / 8
    Function.update m a (m a ||| (1 <<< ((cur + 1) % 8)))

/-- `build_tree_efficient`, one thread. -/
def buildTreeEfficient (mode : TreeMaskMode) (b : TreeBuffers Bool) : Option (TreeBuffers Bool) :=
  inp.buildThread bid tid (inp.boolLayout mode) b

/-- `build_tree_efficient_partial_packed`, one thread. -/
def buildTreeEfficientPartialPacked (numBytesPerItem : ℕ) (b : TreeBuffers (BitVec 8)) :
    Option (TreeBuffers (BitVec 8)) :=
  inp.buildThread bid tid (inp.packedLayout numBytesPerItem) b

/-- `num_bytes_per_item`, as `build_tree_kernel_efficient` computes it. -/
def numBytesPerItem : ℕ :=
  if inp.draftTokenNum > 16 then 4 else if inp.draftTokenNum > 8 then 2 else 1

end BuildTreeInput

/-- A launch: the threads, named by block and number, in the order in which they happen to run. -/
def launchThreads {B : Type} (kernel : ℕ → ℕ → B → Option B) (order : List (ℕ × ℕ)) (b : B) :
    Option B :=
  order.foldlM (fun b t => kernel t.1 t.2 b) b

/-! ## 2. The tree of the selected tokens -/

/-- The position of the parent of the token at a position: the root for a token of step `0`. -/
def positionParent (topk : ℕ) (parentList : List ℤ) (idx : List ℕ) (i : ℕ) : ℕ :=
  match tokenParent topk parentList (idx.getD (i - 1) 0) with
  | none => 0
  | some token => idx.idxOf token + 1

/-- The arrays of a request hold the tokens `idx` of a draft. -/
structure BuildTreeInput.Carries (inp : BuildTreeInput) (bid : ℕ) (d : EagleDraft) (idx : List ℕ) :
    Prop where
  topk : inp.topk = d.topk
  depth : inp.depth = d.numSteps
  length : inp.draftTokenNum = idx.length + 1
  selected : ∀ c < idx.length, inp.selected bid c = idx.getD c 0
  parents : ∀ t < d.parentList.length,
    inp.parentList (bid * (inp.topk * (inp.depth - 1) + 1) + t) = d.parentList.getD t 0

/-- The tokens are in order, and the parent of each of them is there too. -/
structure BuildTreeInput.Holds (inp : BuildTreeInput) (bid : ℕ) (d : EagleDraft) (idx : List ℕ) : Prop
    extends BuildTreeInput.Carries inp bid d idx where
  sorted : idx.Pairwise (· < ·)
  lt : ∀ j ∈ idx, j < d.total
  closed : ParentClosed (tokenParent d.topk d.parentList) idx.toFinset

namespace BuildTreeInput

variable {inp : BuildTreeInput} {bid : ℕ} {d : EagleDraft} {idx : List ℕ}

/-- The tree of the request. -/
def tree (d : EagleDraft) (idx : List ℕ) : ℕ → ℕ :=
  positionParent d.topk d.parentList idx

namespace Holds

variable {c : ℕ}

theorem getD_mem (h : inp.Holds bid d idx) (hc : c < idx.length) :
    idx.getD c 0 ∈ idx ∧ idx.getD c 0 < d.total := by
  rw [getD_eq_getElem _ _ hc]
  exact ⟨getElem_mem hc, h.lt _ (getElem_mem hc)⟩

theorem getD_lt (h : inp.Holds bid d idx) {a : ℕ} (hac : a < c) (hc : c < idx.length) :
    idx.getD a 0 < idx.getD c 0 := by
  rw [getD_eq_getElem _ _ (hac.trans hc), getD_eq_getElem _ _ hc]
  exact pairwise_iff_getElem.mp h.sorted a c (hac.trans hc) hc hac

theorem search_eq (h : inp.Holds bid d idx) {token : ℕ} (ht : token ∈ idx) :
    inp.search bid token = idx.idxOf token := by
  have hlt : idx.idxOf token < idx.length := idxOf_lt_length_iff.mpr ht
  have hget : idx.getD (idx.idxOf token) 0 = token := by
    rw [getD_eq_getElem _ _ hlt]
    exact getElem_idxOf hlt
  have hfind : (List.range inp.draftTokenNum).find? (fun c => inp.selected bid c = token) =
      some (idx.idxOf token) := by
    rw [find?_range_eq_some]
    refine ⟨?_, mem_range.mpr (by rw [h.length]; omega), fun c hc => ?_⟩
    · rw [h.selected _ hlt, hget]
      simp
    · have hlt' := h.getD_lt hc hlt
      rw [h.selected c (hc.trans hlt)]
      simp only [Bool.not_eq_true', decide_eq_false_iff_not]
      omega
  rw [search, hfind, Option.getD_some]

/-- What the kernel computes for a token: it belongs to step `0`, or its parent is selected before it. -/
theorem parent_cases (h : inp.Holds bid d idx) (hc : c < idx.length) :
    (inp.parentTbIdx bid c = 0 ∧ tree d idx (c + 1) = 0) ∨
      (0 < inp.parentTbIdx bid c ∧ inp.search bid (inp.parentTokenIdx bid c) + 1 = tree d idx (c + 1) ∧
        tree d idx (c + 1) < c + 1) := by
  obtain ⟨hmem, hlt⟩ := h.getD_mem hc
  have htb : inp.parentTbIdx bid c = (idx.getD c 0 / d.topk : ℕ) := by
    rw [parentTbIdx, h.selected c hc, h.topk, Int.natCast_div]
  have htree : tree d idx (c + 1) =
      match tokenParent d.topk d.parentList (idx.getD c 0) with
      | none => 0
      | some token => idx.idxOf token + 1 := rfl
  by_cases hquot : idx.getD c 0 / d.topk = 0
  · refine Or.inl ⟨by rw [htb, hquot]; rfl, ?_⟩
    rw [htree, tokenParent, if_pos hquot]
  · have htop : d.topk ≤ idx.getD c 0 :=
      not_lt.mp fun hsmall => hquot (Nat.div_eq_of_lt hsmall)
    obtain ⟨p, hp, hpj, -⟩ := d.exists_parent hlt htop
    have hparent : tokenParent d.topk d.parentList (idx.getD c 0) = some p := by
      rw [tokenParent, if_neg hquot, getD_eq_getElem?_getD, hp]
      rfl
    have hpmem : p ∈ idx :=
      mem_toFinset.mp (h.closed _ (mem_toFinset.mpr hmem) p hparent)
    have htoken : inp.parentTokenIdx bid c = p := by
      have hin := (List.getElem?_eq_some_iff.mp hp).1
      rw [parentTokenIdx, htb, Int.toNat_natCast, h.parents _ hin, getD_eq_getElem?_getD, hp]
      rfl
    rw [hparent] at htree
    refine Or.inr ⟨by rw [htb]; exact_mod_cast Nat.pos_of_ne_zero hquot, ?_, ?_⟩
    · rw [htoken, h.search_eq hpmem, htree]
    · -- the place of the parent is smaller, as the tokens are sorted
      have hplt : idx.idxOf p < idx.length := idxOf_lt_length_iff.mpr hpmem
      have hget : idx.getD (idx.idxOf p) 0 = p := by
        rw [getD_eq_getElem _ _ hplt]
        exact getElem_idxOf hplt
      have hplace : idx.idxOf p < c := by
        by_contra hge
        rcases (not_lt.mp hge).lt_or_eq with hgt | heq
        · have := h.getD_lt hgt hplt
          omega
        · rw [← heq] at hget
          omega
      rw [htree]
      exact Nat.succ_lt_succ hplace

/-- **The selected tokens form a tree**, numbered from the root. -/
theorem numbered (h : inp.Holds bid d idx) : Numbered (tree d idx) inp.draftTokenNum := by
  intro i hi hpos
  obtain ⟨c, rfl⟩ := Nat.exists_eq_add_of_le' hpos
  rw [h.length] at hi
  rcases h.parent_cases (c := c) (by omega) with ⟨-, htree⟩ | ⟨-, -, hlt⟩
  · rw [htree]
    exact Nat.succ_pos c
  · exact hlt

variable {i : ℕ}

theorem parentPosition_eq (h : inp.Holds bid d idx) (hi : i < inp.draftTokenNum)
    (hpos : 0 < i) : inp.parentPosition bid i = tree d idx i := by
  obtain ⟨c, rfl⟩ := Nat.exists_eq_add_of_le' hpos
  have hc : c < idx.length := by
    rw [h.length] at hi
    omega
  rw [parentPosition, Nat.add_sub_cancel]
  rcases h.parent_cases hc with ⟨htb, htree⟩ | ⟨htb, hsearch, hlt⟩
  · rw [if_neg (by omega), htree]
  · rw [if_pos htb, hsearch, Nat.min_eq_right (by omega)]

/-- **The walk to the root ends**, having gone through the place of every position on the way. -/
theorem ancestorWalk_eq (h : inp.Holds bid d idx) {l : List ℕ}
    (hl : Upward (tree d idx) i l) (hi : i < inp.draftTokenNum) (hpos : 0 < i) :
    ∀ fuel, l.length ≤ fuel → inp.ancestorWalk bid fuel (i - 1) = some (l.map (· - 1)) := by
  induction hl with
  | root => exact absurd hpos (lt_irrefl 0)
  | @step i l hpos' hup ih =>
    intro fuel hfuel
    obtain ⟨c, rfl⟩ := Nat.exists_eq_add_of_le' hpos'
    have hc : c < idx.length := by
      rw [h.length] at hi
      omega
    obtain ⟨fuel, rfl⟩ := Nat.exists_eq_add_of_le' (Nat.one_le_iff_ne_zero.mpr fun h0 => by
      rw [length_cons] at hfuel
      omega : 1 ≤ fuel)
    rw [length_cons, Nat.add_le_add_iff_right] at hfuel
    rw [ancestorWalk, map_cons, Nat.add_sub_cancel]
    rcases h.parent_cases hc with ⟨htb, htree⟩ | ⟨htb, hsearch, hlt⟩
    · rw [htree] at hup
      cases hup with
      | root => rw [if_pos htb, map_nil]
      | step h0 _ => exact absurd h0 (lt_irrefl 0)
    · have hpar : 0 < tree d idx (c + 1) := hsearch ▸ Nat.succ_pos _
      have hsucc : inp.search bid (inp.parentTokenIdx bid c) = tree d idx (c + 1) - 1 := by omega
      rw [if_neg htb.ne', hsucc, ih (hlt.trans hi) hpar fuel hfuel, Option.map_some]

end Holds

end BuildTreeInput

end Sglang
