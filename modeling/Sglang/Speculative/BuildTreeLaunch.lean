/-
# The launch of the tree kernels

A launch has a block for each request and a thread for each position.  The threads keep to cells of their
own, so whatever order they run in, each leaves there what it leaves alone: the row of the mask shows the
way up to the root, the position is the depth behind the prefix, and the links are those of the tree.

The packed kernel is launched with at most four bytes for a row, so its rows have room for `32` positions
and no more; and in both the size of the mask is limited by the 32-bit integers.
-/
import Sglang.Speculative.BuildTreeMask

namespace Sglang

open Lib List Function BuildTreeInput

/-! ## 1. Threads and their cells -/

/-- The requests of a launch, and the threads in the order in which they run. -/
structure TreeLaunch (inp : BuildTreeInput) (bs : ℕ) (d : ℕ → EagleDraft) (idx : ℕ → List ℕ)
    (order : List (ℕ × ℕ)) : Prop where
  holds : ∀ bid < bs, inp.Holds bid (d bid) (idx bid)
  nodup : order.Nodup
  mem_iff : ∀ t : ℕ × ℕ, t ∈ order ↔ t.1 < bs ∧ t.2 < inp.draftTokenNum

/-- No integer of a thread of a launch overflows. -/
def MaskLayout.Fits {M : Type} (layout : MaskLayout M) (inp : BuildTreeInput) (bs : ℕ) : Prop :=
  ∀ bid < bs, inp.IntsFit bid ∧ ∀ tid < inp.draftTokenNum, layout.last bid tid < 2 ^ 31

/-- The buffers that the kernels are launched with: a mask filled with one value, links that are all
`-1`, and any positions. -/
def TreeBuffers.filled {M : Type} (fill : M) (positions : ℕ → ℤ) : TreeBuffers M :=
  ⟨fun _ => fill, positions, fun _ => -1, fun _ => -1, fun _ => -1⟩

namespace TreeLaunch

variable {M : Type} {inp : BuildTreeInput} {bs : ℕ} {d : ℕ → EagleDraft} {idx : ℕ → List ℕ}
  {order : List (ℕ × ℕ)} {layout : MaskLayout M} {first : ℕ → ℕ → ℕ} {width : ℕ → ℕ}

/-- A thread as a step; it always ends (`launchThreads_eq`). -/
def thread (inp : BuildTreeInput) (layout : MaskLayout M) (t : ℕ × ℕ) (b : TreeBuffers M) :
    TreeBuffers M :=
  (inp.buildThread t.1 t.2 layout b).getD b

theorem thread_spec (h : TreeLaunch inp bs d idx order) (hfit : layout.Fits inp bs) {t : ℕ × ℕ}
    (ht : t ∈ order) :
    ∃ l, Upward (BuildTreeInput.tree (d t.1) (idx t.1)) t.2 l ∧ ∀ b : TreeBuffers M,
      inp.buildThread t.1 t.2 layout b = some (thread inp layout t b) ∧
      (thread inp layout t b).treeMask = marked layout t.1 t.2 l b.treeMask ∧
      (thread inp layout t b).positions = Function.update b.positions (inp.address t.1 t.2)
        (l.length + inp.verifiedSeqLen t.1 : ℕ) ∧
      links (thread inp layout t b) =
        (if t.2 = 0 then linkAll (inp.address t.1) (BuildTreeInput.tree (d t.1) (idx t.1))
          inp.draftTokenNum (links b) else links b) ∧
      ∀ a, (thread inp layout t b).retriveIndex a =
        if t.2 = 0 ∧ ∃ i < inp.draftTokenNum, a = inp.address t.1 i then (a : ℤ)
        else b.retriveIndex a := by
  obtain ⟨hbs, hdn⟩ := (h.mem_iff t).mp ht
  have hholds := h.holds _ hbs
  obtain ⟨l, hl⟩ := Upward.exists_of_numbered hholds.numbered t.2 hdn
  refine ⟨l, hl, fun b => ?_⟩
  obtain ⟨hints, hlast⟩ := hfit _ hbs
  obtain ⟨b', hb', hspec⟩ := exists_buildThread hholds hdn ⟨hints, hlast _ hdn⟩ hl b
  have hthread : thread inp layout t b = b' := by
    rw [thread, hb', Option.getD_some]
  rw [hthread]
  exact ⟨hb', hspec⟩

/-- **Every thread ends.** -/
theorem launchThreads_eq (h : TreeLaunch inp bs d idx order) (hfit : layout.Fits inp bs)
    (b : TreeBuffers M) :
    launchThreads (fun bid tid b => inp.buildThread bid tid layout b) order b =
      some (order.foldl (fun b t => thread inp layout t b) b) := by
  refine foldlM_eq_foldl (fun b t ht => ?_) b
  obtain ⟨l, -, hspec⟩ := h.thread_spec hfit ht
  exact (hspec b).1

theorem keepsApart_mask (h : TreeLaunch inp bs d idx order) (hfit : layout.Fits inp bs)
    (hrows : layout.HasRows inp.draftTokenNum first width) :
    KeepsApart (fun b : TreeBuffers M => b.treeMask) (thread inp layout)
      (fun t a => InRow first width t.1 t.2 a) order := by
  have hbound : ∀ t ∈ order, ∀ l, Upward (BuildTreeInput.tree (d t.1) (idx t.1)) t.2 l →
      ∀ j ∈ l, 0 < j ∧ j < inp.draftTokenNum := by
    intro t ht l hl j hj
    obtain ⟨hbs, hdn⟩ := (h.mem_iff t).mp ht
    have := hl.mem_le (h.holds _ hbs).numbered hdn j hj
    omega
  refine ⟨fun t ht b a ha => ?_, fun t ht b b' hb a ha => ?_, fun t ht t' ht' a ha ha' => ?_⟩
  · obtain ⟨l, hl, hspec⟩ := h.thread_spec hfit ht
    simp only [(hspec b).2.1]
    exact marked_frame hrows (hbound t ht l hl) _ ha
  · obtain ⟨l, hl, hspec⟩ := h.thread_spec hfit ht
    simp only [(hspec b).2.1, (hspec b').2.1]
    exact marked_own hrows (hbound t ht l hl) hb a ha
  · exact hrows.apart _ _ _ ((h.mem_iff t).mp ht).2 _ ((h.mem_iff t').mp ht').2 a ha ha'

theorem keepsApart_positions (h : TreeLaunch inp bs d idx order) (hfit : layout.Fits inp bs) :
    KeepsApart (fun b : TreeBuffers M => b.positions) (thread inp layout)
      (fun t a => a = inp.address t.1 t.2) order := by
  refine ⟨fun t ht b a ha => ?_, fun t ht b b' _ a ha => ?_, fun t ht t' ht' a ha ha' => ?_⟩
  · obtain ⟨l, -, hspec⟩ := h.thread_spec hfit ht
    simp only [(hspec b).2.2.1]
    exact update_of_ne ha _ _
  · obtain ⟨l, -, hspec⟩ := h.thread_spec hfit ht
    simp [(hspec b).2.2.1, (hspec b').2.2.1, ha]
  · obtain ⟨h1, h2⟩ := inp.address_inj ((h.mem_iff t).mp ht).2 ((h.mem_iff t').mp ht').2
      (ha.symm.trans ha')
    exact Prod.ext h1 h2

/-- The entries of a place in the arrays that hold the tree. -/
def linkCells (b : TreeBuffers M) (a : ℕ) : ℤ × ℤ × ℤ :=
  (b.retriveIndex a, b.retriveNextToken a, b.retriveNextSibling a)

theorem keepsApart_links (h : TreeLaunch inp bs d idx order) (hfit : layout.Fits inp bs) :
    KeepsApart linkCells (thread inp layout)
      (fun t a => t.2 = 0 ∧ ∃ i < inp.draftTokenNum, a = inp.address t.1 i) order := by
  refine ⟨fun t ht b a ha => ?_, fun t ht b b' hb a ha => ?_, fun t ht t' ht' a ha ha' => ?_⟩
  · obtain ⟨l, -, hspec⟩ := h.thread_spec hfit ht
    obtain ⟨-, -, -, hlinks, hindex⟩ := hspec b
    have hnext : (links (thread inp layout t b)).next a = b.retriveNextToken a ∧
        (links (thread inp layout t b)).sibling a = b.retriveNextSibling a := by
      rw [hlinks]
      by_cases h0 : t.2 = 0
      · rw [if_pos h0]
        exact linkAll_frame _ (h.holds _ ((h.mem_iff t).mp ht).1).numbered fun i hi heq =>
          ha ⟨h0, i, hi, heq⟩
      · rw [if_neg h0]
        exact ⟨rfl, rfl⟩
    rw [linkCells, hindex, if_neg ha]
    exact congrArg (Prod.mk _) (Prod.ext hnext.1 hnext.2)
  · obtain ⟨l, -, hspec⟩ := h.thread_spec hfit ht
    obtain ⟨-, -, -, hlinks, hindex⟩ := hspec b
    obtain ⟨-, -, -, hlinks', hindex'⟩ := hspec b'
    obtain ⟨h0, i, hi, rfl⟩ := ha
    rw [if_pos h0] at hlinks hlinks'
    have hsame : ∀ j < inp.draftTokenNum,
        linkCells b (inp.address t.1 j) = linkCells b' (inp.address t.1 j) := fun j hj =>
      hb _ ⟨h0, j, hj, rfl⟩
    have hnext := @linkAll_congr _ _ (inp.address t.1) (links b)
      (links b') (h.holds _ ((h.mem_iff t).mp ht).1).numbered
      (fun j hj => congrArg (·.2.1) (hsame j hj)) (fun j hj => congrArg (·.2.2) (hsame j hj)) i hi
    rw [← hlinks, ← hlinks'] at hnext
    rw [linkCells, linkCells, hindex, hindex', if_pos ⟨h0, i, hi, rfl⟩, if_pos ⟨h0, i, hi, rfl⟩]
    exact congrArg (Prod.mk _) (Prod.ext hnext.1 hnext.2)
  · obtain ⟨h0, i, hi, rfl⟩ := ha
    obtain ⟨h0', i', hi', heq⟩ := ha'
    exact Prod.ext (inp.address_inj hi hi' heq).1 (h0.trans h0'.symm)

end TreeLaunch

/-! ## 2. What the buffers say about the tree -/

section Encoding

variable {M : Type} (inp : BuildTreeInput) (bs : ℕ) (tree : ℕ → ℕ → ℕ)

/-- Positions and links. -/
structure EncodesDraftTree (b : TreeBuffers M) : Prop where
  index : ∀ bid < bs, ∀ i < inp.draftTokenNum, b.retriveIndex (inp.address bid i) = inp.address bid i
  /-- The length of the prefix and the depth. -/
  position : ∀ bid < bs, ∀ i < inp.draftTokenNum, ∃ l, Upward (tree bid) i l ∧
    b.positions (inp.address bid i) = inp.verifiedSeqLen bid + l.length
  next : ∀ bid < bs, ∀ p < inp.draftTokenNum, PointsToLeast (b.retriveNextToken (inp.address bid p))
    fun i => 0 < i ∧ i < inp.draftTokenNum ∧ tree bid i = p
  sibling : ∀ bid < bs, ∀ i < inp.draftTokenNum, 0 < i →
    PointsToLeast (b.retriveNextSibling (inp.address bid i))
      fun j => i < j ∧ j < inp.draftTokenNum ∧ tree bid j = tree bid i
  root : ∀ bid < bs, b.retriveNextSibling (inp.address bid 0) = -1

/-- The rows of bools: the prefix, and of the tree what is above the position. -/
def EncodesBools (mode : TreeMaskMode) (m : ℕ → Bool) : Prop :=
  ∀ bid < bs, ∀ i < inp.draftTokenNum,
    (∀ c < inp.prefixWidth mode bid, m (inp.rowStart mode bid i + c) = true) ∧
    ∀ j < inp.draftTokenNum,
      m (inp.rowStart mode bid i + inp.prefixWidth mode bid + j) = true ↔ IsAbove (tree bid) i j

/-- The rows of bytes: the bits are those of what is above the position. -/
def EncodesBits (m : ℕ → BitVec 8) : Prop :=
  ∀ bid < bs, ∀ i < inp.draftTokenNum, ∀ j,
    rowBit (inp.packedRow inp.numBytesPerItem bid i m) j = true ↔ IsAbove (tree bid) i j

/-- The kernel with bools, launched on a mask filled with `true`, ends and encodes the trees. -/
def BoolsEncode (mode : TreeMaskMode) (order : List (ℕ × ℕ)) : Prop :=
  ∀ positions, ∃ b,
    launchThreads (fun bid tid => inp.buildTreeEfficient bid tid mode) order
      (TreeBuffers.filled true positions) = some b ∧
    EncodesDraftTree inp bs tree b ∧ EncodesBools inp bs tree mode b.treeMask

/-- The kernel with bits, launched on a mask of zeros, ends and encodes the trees. -/
def BitsEncode (order : List (ℕ × ℕ)) : Prop :=
  ∀ positions, ∃ b,
    launchThreads (fun bid tid => inp.buildTreeEfficientPartialPacked bid tid inp.numBytesPerItem) order
      (TreeBuffers.filled 0 positions) = some b ∧
    EncodesDraftTree inp bs tree b ∧ EncodesBits inp bs tree b.treeMask

end Encoding

/-! ## 3. The result of a launch -/

namespace TreeLaunch

variable {M : Type} {inp : BuildTreeInput} {bs : ℕ} {d : ℕ → EagleDraft} {idx : ℕ → List ℕ}
  {order : List (ℕ × ℕ)} {layout : MaskLayout M} {first : ℕ → ℕ → ℕ} {width : ℕ → ℕ}

/-- Positions and links after a launch, with either layout. -/
theorem encodesTree (h : TreeLaunch inp bs d idx order) (hfit : layout.Fits inp bs) (fill : M)
    (positions : ℕ → ℤ) :
    EncodesDraftTree inp bs (fun bid => BuildTreeInput.tree (d bid) (idx bid))
      (order.foldl (fun b t => thread inp layout t b) (TreeBuffers.filled fill positions)) := by
  obtain ⟨b', hb'⟩ : ∃ b' : TreeBuffers M,
      order.foldl (fun b t => thread inp layout t b) (TreeBuffers.filled fill positions) = b' := ⟨_, rfl⟩
  have hpos : ∀ bid < bs, 0 < inp.draftTokenNum := by
    intro bid hbid
    rw [(h.holds bid hbid).length]
    exact Nat.succ_pos _
  have hmem : ∀ bid < bs, ∀ i < inp.draftTokenNum, (bid, i) ∈ order := fun bid hbid i hi =>
    (h.mem_iff _).mpr ⟨hbid, hi⟩
  -- the links of a request are what its thread `0` leaves alone
  have hcells : ∀ bid < bs, ∀ i < inp.draftTokenNum,
      b'.retriveIndex (inp.address bid i) = inp.address bid i ∧
      b'.retriveNextToken (inp.address bid i) = (linkAll (inp.address bid)
        (BuildTreeInput.tree (d bid) (idx bid)) inp.draftTokenNum ⟨fun _ => -1, fun _ => -1⟩).next
          (inp.address bid i) ∧
      b'.retriveNextSibling (inp.address bid i) = (linkAll (inp.address bid)
        (BuildTreeInput.tree (d bid) (idx bid)) inp.draftTokenNum ⟨fun _ => -1, fun _ => -1⟩).sibling
          (inp.address bid i) := by
    intro bid hbid i hi
    have h0 := hmem bid hbid 0 (hpos bid hbid)
    have halone := (h.keepsApart_links hfit).foldl_eq_alone h.nodup (TreeBuffers.filled fill positions) h0
      (⟨rfl, i, hi, rfl⟩ : (bid, 0).2 = 0 ∧ ∃ j < inp.draftTokenNum,
        inp.address bid i = inp.address (bid, 0).1 j)
    obtain ⟨l, -, hspec⟩ := h.thread_spec hfit h0
    obtain ⟨-, -, -, hlinks, hindex⟩ := hspec (TreeBuffers.filled fill positions)
    rw [hb', TreeLaunch.linkCells, TreeLaunch.linkCells, Prod.mk.injEq, Prod.mk.injEq] at halone
    refine ⟨?_, ?_, ?_⟩
    · rw [halone.1, hindex, if_pos ⟨rfl, i, hi, rfl⟩]
    · exact halone.2.1.trans (congrArg (fun s => s.next (inp.address bid i)) hlinks)
    · exact halone.2.2.trans (congrArg (fun s => s.sibling (inp.address bid i)) hlinks)
  have hspec : ∀ bid < bs, LinkedFrom (inp.address bid) (BuildTreeInput.tree (d bid) (idx bid))
      inp.draftTokenNum 1 (linkAll (inp.address bid) (BuildTreeInput.tree (d bid) (idx bid))
        inp.draftTokenNum ⟨fun _ => -1, fun _ => -1⟩) := fun bid hbid =>
    linkAll_spec (inp.address_injective bid) (h.holds bid hbid).numbered (hpos bid hbid)
      (fun _ _ => rfl) (fun _ _ => rfl)
  rw [hb']
  refine ⟨fun bid hbid i hi => (hcells bid hbid i hi).1, fun bid hbid i hi => ?_,
    fun bid hbid p hp => ?_, fun bid hbid i hi hipos => ?_, fun bid hbid => ?_⟩
  · have halone := (h.keepsApart_positions hfit).foldl_eq_alone h.nodup (TreeBuffers.filled fill positions)
      (hmem bid hbid i hi) (rfl : inp.address bid i = inp.address (bid, i).1 (bid, i).2)
    obtain ⟨l, hl, hthread⟩ := h.thread_spec hfit (hmem bid hbid i hi)
    refine ⟨l, hl, ?_⟩
    rw [hb', (hthread _).2.2.1, update_self] at halone
    rw [halone, Nat.add_comm]
    exact Nat.cast_add _ _
  · rw [(hcells bid hbid p hp).2.1]
    exact (hspec bid hbid).next p hp
  · rw [(hcells bid hbid i hi).2.2]
    exact (hspec bid hbid).sibling i hipos hi
  · rw [(hcells bid hbid 0 (hpos bid hbid)).2.2]
    exact (hspec bid hbid).unlinked 0 Nat.one_pos (hpos bid hbid)

theorem treeMask_eq (h : TreeLaunch inp bs d idx order) (hfit : layout.Fits inp bs)
    (hrows : layout.HasRows inp.draftTokenNum first width) (fill : M) (positions : ℕ → ℤ) {bid i : ℕ}
    (hbid : bid < bs) (hi : i < inp.draftTokenNum) :
    ∃ l, Upward (BuildTreeInput.tree (d bid) (idx bid)) i l ∧
      (∀ j ∈ l, 0 < j ∧ j < inp.draftTokenNum) ∧ ∀ a, InRow first width bid i a →
        (order.foldl (fun b t => thread inp layout t b) (TreeBuffers.filled fill positions)).treeMask a =
          marked layout bid i l (fun _ => fill) a := by
  have hmem : (bid, i) ∈ order := (h.mem_iff _).mpr ⟨hbid, hi⟩
  obtain ⟨l, hl, hthread⟩ := h.thread_spec hfit hmem
  refine ⟨l, hl, fun j hj => ?_, fun a ha => ?_⟩
  · have := hl.mem_le (h.holds bid hbid).numbered hi j hj
    omega
  · have halone := (h.keepsApart_mask hfit hrows).foldl_eq_alone h.nodup
      (TreeBuffers.filled fill positions) hmem ha
    simp only [(hthread _).2.1] at halone
    exact halone

theorem encodesBools (h : TreeLaunch inp bs d idx order) {mode : TreeMaskMode}
    (hfit : (inp.boolLayout mode).Fits inp bs) (positions : ℕ → ℤ) :
    EncodesBools inp bs (fun bid => BuildTreeInput.tree (d bid) (idx bid)) mode
      (order.foldl (fun b t => thread inp (inp.boolLayout mode) t b)
        (TreeBuffers.filled true positions)).treeMask := by
  intro bid hbid i hi
  have hrows := inp.hasRows_boolLayout mode (by omega)
  obtain ⟨l, hl, hbound, hrow⟩ := h.treeMask_eq hfit hrows true positions hbid hi
  have hbelow : ∀ j ∈ l, 0 < j := fun j hj => (hbound j hj).1
  refine ⟨fun c hc => ?_, fun j hj => ?_⟩
  · rw [hrow _ (by rw [InRow, rowWidth]; omega)]
    exact marked_boolLayout_prefixWidth hbelow _ hc
  · rw [hrow _ (by rw [InRow, rowWidth]; omega), marked_boolLayout hbelow _ hj]
    exact hl.eq_zero_or_mem_iff

theorem numBytesPerItem_fits (hle : inp.draftTokenNum ≤ 32) :
    inp.draftTokenNum ≤ 8 * inp.numBytesPerItem := by
  rw [numBytesPerItem]
  split
  · omega
  · split <;> omega

theorem encodesBits (h : TreeLaunch inp bs d idx order)
    (hints : (inp.packedLayout inp.numBytesPerItem).Fits inp bs) (hle : inp.draftTokenNum ≤ 32)
    (positions : ℕ → ℤ) :
    EncodesBits inp bs (fun bid => BuildTreeInput.tree (d bid) (idx bid))
      (order.foldl (fun b t => thread inp (inp.packedLayout inp.numBytesPerItem) t b)
        (TreeBuffers.filled 0 positions)).treeMask := by
  intro bid hbid i hi j
  have hfit := numBytesPerItem_fits hle
  have hrows := inp.hasRows_packedLayout inp.numBytesPerItem (by omega) hfit
  obtain ⟨l, hl, hbound, hrow⟩ := h.treeMask_eq hints hrows 0 positions hbid hi
  have hbytes : inp.packedRow inp.numBytesPerItem bid i
      (order.foldl (fun b t => thread inp (inp.packedLayout inp.numBytesPerItem) t b)
        (TreeBuffers.filled 0 positions)).treeMask =
      inp.packedRow inp.numBytesPerItem bid i
        (marked (inp.packedLayout inp.numBytesPerItem) bid i l fun _ => 0) := by
    refine map_congr_left fun r hr => hrow _ ?_
    rw [mem_range] at hr
    simp only [InRow]
    omega
  rw [hbytes, marked_packedLayout (fun k hk => ?_) (by omega) fun _ => rfl]
  · exact hl.eq_zero_or_mem_iff
  · have := hbound k hk
    omega

/-- A row of bytes has no bit for a position from `32` on, though the position is on its own way up. -/
theorem not_encodesBits {tree : ℕ → ℕ → ℕ} (hbs : 0 < bs) (hlt : 32 < inp.draftTokenNum)
    (m : ℕ → BitVec 8) : ¬ EncodesBits inp bs tree m := by
  intro henc
  have hown := (henc 0 hbs (inp.draftTokenNum - 1) (by omega) (inp.draftTokenNum - 1)).mpr .refl
  rw [rowBit_packedRow] at hown
  have hbytes : inp.numBytesPerItem ≤ 4 := by
    rw [numBytesPerItem]
    split
    · exact le_rfl
    · split <;> omega
  omega

/-- **The kernels encode the trees of a launch** whose integers do not overflow; the packed one those with at
most `32` positions for a request. -/
theorem kernels_encode (h : TreeLaunch inp bs d idx order) :
    (∀ mode, (inp.boolLayout mode).Fits inp bs →
      BoolsEncode inp bs (fun bid => BuildTreeInput.tree (d bid) (idx bid)) mode order) ∧
    ((inp.packedLayout inp.numBytesPerItem).Fits inp bs → inp.draftTokenNum ≤ 32 →
      BitsEncode inp bs (fun bid => BuildTreeInput.tree (d bid) (idx bid)) order) := by
  refine ⟨fun mode hfit positions => ?_, fun hfit hle positions => ?_⟩
  · exact ⟨_, h.launchThreads_eq hfit _, h.encodesTree hfit _ _, h.encodesBools hfit positions⟩
  · exact ⟨_, h.launchThreads_eq hfit _, h.encodesTree hfit _ _, h.encodesBits hfit hle positions⟩

/-- Two steps with one token each. -/
def chainDraft : EagleDraft where
  topk := 1
  numSteps := 2
  topkP _ := [1 / 2]
  topkIndex _ := [7]
  topkCsIndex _ := [0]
  topk_pos := Nat.one_pos
  numSteps_pos := Nat.two_pos
  length_first := rfl
  length_later _ _ _ := rfl
  probability _ p hp := by
    rw [mem_singleton.mp hp]
    norm_num
  nodup _ _ _ := nodup_singleton 0
  kept _ _ _ := by
    refine ⟨rfl, fun j hj => ?_, fun j hj i hi hout => ?_⟩
    · rw [toFinset_cons, toFinset_nil, insert_empty_eq, Finset.mem_singleton] at hj
      omega
    · exact absurd (by simpa using hi) hout

/-- Two requests with the two tokens of `chainDraft` each. -/
def chainInput (verifiedSeqLen : ℕ → ℕ) : BuildTreeInput where
  parentList a := [-1, 0, -1, 0].getD a 0
  selectedIndex a := [0, 1, 0, 1].getD a 0
  verifiedSeqLen := verifiedSeqLen
  topk := 1
  depth := 2
  draftTokenNum := 3

theorem treeLaunch_chain (verifiedSeqLen : ℕ → ℕ) :
    TreeLaunch (chainInput verifiedSeqLen) 2 (fun _ => chainDraft) (fun _ => [0, 1])
      [(1, 2), (0, 0), (0, 1), (1, 0), (1, 1), (0, 2)] := by
  refine ⟨fun bid hbid => ?_, by decide, fun t => ?_⟩
  · refine ⟨⟨rfl, rfl, rfl, fun c hc => ?_, fun c hc => ?_⟩, by decide, by decide, ?_⟩
    · replace hc : c < 2 := hc
      interval_cases bid <;> interval_cases c <;> rfl
    · replace hc : c < 2 := hc
      interval_cases bid <;> interval_cases c <;> rfl
    · unfold ParentClosed
      decide
  · obtain ⟨bid, tid⟩ := t
    simp only [mem_cons, Prod.mk.injEq, not_mem_nil, or_false, chainInput]
    omega

/-- Prefixes of `3` and `5` tokens. -/
theorem kernels_encode_chain :
    BoolsEncode (chainInput ([3, 5].getD · 0)) 2 (fun _ => BuildTreeInput.tree chainDraft [0, 1]) .fullMask
      [(1, 2), (0, 0), (0, 1), (1, 0), (1, 1), (0, 2)] ∧
    BitsEncode (chainInput ([3, 5].getD · 0)) 2 (fun _ => BuildTreeInput.tree chainDraft [0, 1])
      [(1, 2), (0, 0), (0, 1), (1, 0), (1, 1), (0, 2)] := by
  obtain ⟨hbools, hbits⟩ := kernels_encode (treeLaunch_chain ([3, 5].getD · 0))
  refine ⟨hbools .fullMask fun bid hbid => ?_, hbits (fun bid hbid => ?_) (by decide)⟩
  · interval_cases bid <;> decide +kernel
  · interval_cases bid <;> decide +kernel

/-- One step with `32` tokens. -/
def wideDraft : EagleDraft where
  topk := 32
  numSteps := 1
  topkP _ := List.replicate 32 (1 / 2)
  topkIndex _ := List.range 32
  topkCsIndex _ := []
  topk_pos := by norm_num
  numSteps_pos := Nat.one_pos
  length_first := length_replicate
  length_later i hi hlt := by omega
  probability _ p hp := by
    rw [eq_of_mem_replicate hp]
    norm_num
  nodup i hi hlt := nodup_nil
  kept i hi hlt := by omega

/-- One request with all tokens of `wideDraft`. -/
def wideInput : BuildTreeInput where
  parentList _ := 0
  selectedIndex a := a
  verifiedSeqLen _ := 3
  topk := 32
  depth := 1
  draftTokenNum := 33

/-- A launch for `33` positions, after which the last row has no bit for its own position, and one with a
prefix whose length is no `int`. -/
theorem wide_not_encoded :
    (TreeLaunch wideInput 1 (fun _ => wideDraft) (fun _ => List.range 32)
      ((List.range 33).map fun tid => (0, tid)) ∧
    ¬ BitsEncode wideInput 1 (fun _ => BuildTreeInput.tree wideDraft (List.range 32))
      ((List.range 33).map fun tid => (0, tid))) ∧
    ¬ BoolsEncode (chainInput fun _ => 2 ^ 31) 2 (fun _ => BuildTreeInput.tree chainDraft [0, 1]) .fullMask
      [(1, 2), (0, 0), (0, 1), (1, 0), (1, 1), (0, 2)] := by
  refine ⟨⟨⟨fun bid hbid => ?_, ?_, fun t => ?_⟩, ?_⟩, fun h => ?_⟩
  · obtain rfl : bid = 0 := by omega
    refine ⟨⟨rfl, rfl, rfl, fun c hc => ?_, fun t ht => ?_⟩, pairwise_lt_range, fun j hj => ?_,
      fun j hj p hp => ?_⟩
    · rw [length_range] at hc
      rw [getD_eq_getElem _ _ (by rwa [length_range])]
      simp [BuildTreeInput.selected, wideInput]
    · exact absurd ht (Nat.not_lt_zero t)
    · exact mem_range.mp hj
    · rw [mem_toFinset, mem_range] at hj
      have hquot : j / wideDraft.topk = 0 := Nat.div_eq_of_lt hj
      rw [tokenParent, if_pos hquot] at hp
      exact absurd hp (by simp)
  · exact nodup_range.map fun a b hab => (Prod.mk.inj hab).2
  · obtain ⟨bid, tid⟩ := t
    simp only [mem_map, mem_range, Prod.mk.injEq, wideInput]
    constructor
    · rintro ⟨a, ha, rfl, rfl⟩
      exact ⟨Nat.one_pos, ha⟩
    · rintro ⟨hbid, htid⟩
      exact ⟨tid, htid, by omega, rfl⟩
  · intro h
    obtain ⟨b, -, -, hbits⟩ := h fun _ => 0
    exact not_encodesBits Nat.one_pos (by decide) _ hbits
  · obtain ⟨b, hb, -⟩ := h fun _ => 0
    cases hb

end TreeLaunch

end Sglang
