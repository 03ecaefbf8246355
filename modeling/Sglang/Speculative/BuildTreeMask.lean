/-
# The rows of the tree mask

Both layouts of the mask keep every thread to a row of its own: in the mask of bools a row has a place
for each position of the tree, behind the prefix where the mask shows it, and in the packed mask it has
`numBytesPerItem` bytes.  A row ends up with the root and the positions its thread has marked
(`marked_boolLayout`, `marked_packedLayout`), and the rest of it as it was.
-/
import Sglang.Speculative.BuildTreeThreads

namespace Sglang

open Lib List Function

namespace BuildTreeInput

variable {inp : BuildTreeInput} {bid tid numBytes : ℕ} {mode : TreeMaskMode} {l : List ℕ}

/-! ## 1. A mask of bools -/

/-- The columns of a row in front of those of the tree. -/
def prefixWidth (inp : BuildTreeInput) (mode : TreeMaskMode) (bid : ℕ) : ℕ :=
  match mode with
  | .fullMask => inp.verifiedSeqLen bid
  | .qlenOnly => 0

/-- Where the rows of a request start. -/
def blockStart (inp : BuildTreeInput) (mode : TreeMaskMode) (bid : ℕ) : ℕ :=
  match mode with
  | .fullMask => inp.seqTreeIdx bid
  | .qlenOnly => inp.draftTokenNum * inp.draftTokenNum * bid

/-- The columns of a row. -/
def rowWidth (inp : BuildTreeInput) (mode : TreeMaskMode) (bid : ℕ) : ℕ :=
  inp.prefixWidth mode bid + inp.draftTokenNum

/-- Where a row starts. -/
def rowStart (inp : BuildTreeInput) (mode : TreeMaskMode) (bid tid : ℕ) : ℕ :=
  inp.blockStart mode bid + inp.rowWidth mode bid * tid

theorem tokenTreeIdx_eq (inp : BuildTreeInput) (bid tid : ℕ) (mode : TreeMaskMode) :
    inp.tokenTreeIdx bid tid mode = inp.rowStart mode bid tid + inp.prefixWidth mode bid + 1 := by
  cases mode with
  | fullMask => rfl
  | qlenOnly =>
    rw [tokenTreeIdx, rowStart, rowWidth, blockStart, prefixWidth, Nat.zero_add]

theorem blockStart_step (inp : BuildTreeInput) (mode : TreeMaskMode) (bid : ℕ) :
    inp.blockStart mode bid + inp.rowWidth mode bid * inp.draftTokenNum ≤
      inp.blockStart mode (bid + 1) := by
  apply le_of_eq
  cases mode with
  | fullMask =>
    rw [blockStart, blockStart, seqTreeIdx, seqTreeIdx, rowWidth, prefixWidth, range_succ,
      map_append, sum_append, map_singleton, sum_singleton]
    ring
  | qlenOnly =>
    rw [blockStart, blockStart, rowWidth, prefixWidth]
    ring

theorem foldl_update_window {M : Type} (base : ℕ) (v : M) (count : ℕ) (m : ℕ → M) (a : ℕ) :
    (List.range count).foldl (fun m i => Function.update m (base + i) v) m a =
      if base ≤ a ∧ a < base + count then v else m a := by
  induction count with
  | zero => rw [if_neg (by omega), range_zero, foldl_nil]
  | succ count ih =>
    rw [range_succ, foldl_append, foldl_cons, foldl_nil]
    by_cases ha : a = base + count
    · rw [ha, update_self, if_pos (by omega)]
    · rw [update_of_ne ha, ih]
      exact if_congr (by omega) rfl rfl

theorem boolLayout_start (m : ℕ → Bool) (a : ℕ) :
    (inp.boolLayout mode).start bid tid m a =
      if inp.rowStart mode bid tid + inp.prefixWidth mode bid < a ∧
        a < inp.rowStart mode bid tid + inp.prefixWidth mode bid + 1 + (inp.draftTokenNum - 1) then false
      else if a = inp.rowStart mode bid tid + inp.prefixWidth mode bid then true
      else m a := by
  simp only [boolLayout, foldl_update_window, tokenTreeIdx_eq, Nat.add_sub_cancel,
    update_apply, Nat.lt_iff_add_one_le]

theorem boolLayout_mark (cur : ℕ) (m : ℕ → Bool) (a : ℕ) :
    (inp.boolLayout mode).mark bid tid cur m a =
      if a = inp.rowStart mode bid tid + inp.prefixWidth mode bid + 1 + cur then true else m a := by
  simp [boolLayout, tokenTreeIdx_eq, update_apply]

/-- A thread keeps to its row of bools. -/
theorem hasRows_boolLayout (inp : BuildTreeInput) (mode : TreeMaskMode) (hpos : 0 < inp.draftTokenNum) :
    (inp.boolLayout mode).HasRows inp.draftTokenNum (inp.rowStart mode) (inp.rowWidth mode) := by
  refine ⟨fun bid tid m a ha => ?_, fun bid tid m m' hm a ha => ?_, fun bid tid cur m a hcur ha => ?_,
    fun bid tid cur m m' _ hm a ha => ?_, fun bid bid' tid ht tid' ht' a ha ha' => ?_⟩
  · rw [InRow, rowWidth] at ha
    rw [boolLayout_start, if_neg (by omega), if_neg (by omega)]
  · rw [boolLayout_start, boolLayout_start, hm a ha]
  · rw [InRow, rowWidth] at ha
    rw [boolLayout_mark, if_neg (by omega)]
  · rw [boolLayout_mark, boolLayout_mark, hm a ha]
  · obtain ⟨rfl, rfl⟩ := rows_apart (inp.blockStart_step mode) ht ht' ha ha'
    rfl

/-- **A row of bools**: the root and the marked positions. -/
theorem marked_boolLayout (hl : ∀ j ∈ l, 0 < j) (m : ℕ → Bool) {j : ℕ}
    (hj : j < inp.draftTokenNum) :
    marked (inp.boolLayout mode) bid tid l m
      (inp.rowStart mode bid tid + inp.prefixWidth mode bid + j) = true ↔ j = 0 ∨ j ∈ l := by
  induction l using List.reverseRecOn with
  | nil =>
    rw [marked, map_nil, foldl_nil, boolLayout_start]
    rcases Nat.eq_zero_or_pos j with rfl | hpos
    · rw [if_neg (by omega)]
      simp
    · rw [if_pos (by omega)]
      simp [hpos.ne']
  | append_singleton l i ih =>
    have hi := hl i (by simp)
    rw [marked, map_append, foldl_append, map_singleton, foldl_cons, foldl_nil, boolLayout_mark]
    by_cases hij : i = j
    · rw [if_pos (by omega)]
      simp [hij]
    · rw [if_neg (by omega)]
      refine (ih fun k hk => hl k (mem_append_left _ hk)).trans ?_
      simp [Ne.symm hij]

theorem marked_boolLayout_prefixWidth (hl : ∀ j ∈ l, 0 < j) (m : ℕ → Bool) {c : ℕ}
    (hc : c < inp.prefixWidth mode bid) :
    marked (inp.boolLayout mode) bid tid l m (inp.rowStart mode bid tid + c) =
      m (inp.rowStart mode bid tid + c) := by
  induction l using List.reverseRecOn with
  | nil =>
    rw [marked, map_nil, foldl_nil, boolLayout_start, if_neg (by omega), if_neg (by omega)]
  | append_singleton l i ih =>
    rw [marked, map_append, foldl_append, map_singleton, foldl_cons, foldl_nil,
      boolLayout_mark, if_neg (by omega)]
    exact ih fun k hk => hl k (mem_append_left _ hk)

/-! ## 2. A packed mask -/

/-- A thread keeps to its row of bytes. -/
theorem hasRows_packedLayout (inp : BuildTreeInput) (numBytes : ℕ) (hpos : 0 < numBytes)
    (hfit : inp.draftTokenNum ≤ 8 * numBytes) :
    (inp.packedLayout numBytes).HasRows inp.draftTokenNum
      (fun bid tid => (bid * inp.draftTokenNum + tid) * numBytes) (fun _ => numBytes) := by
  refine ⟨fun bid tid m a ha => ?_, fun bid tid m m' hm a ha => ?_, fun bid tid cur m a hcur ha => ?_,
    fun bid tid cur m m' hcur hm a ha => ?_, fun bid bid' tid ht tid' ht' a ha ha' => ?_⟩
  · simp only [InRow] at ha
    exact update_of_ne (by omega) _ _
  · simp [packedLayout, update_apply, hm a ha]
  · simp only [InRow] at ha
    exact update_of_ne (by omega) _ _
  · have hbyte := hm ((bid * inp.draftTokenNum + tid) * numBytes + (cur + 1) / 8) (by
      simp only [InRow]
      omega)
    simp [packedLayout, update_apply, hm a ha, hbyte]
  · have hrow : ∀ b t : ℕ, (b * inp.draftTokenNum + t) * numBytes =
        b * (inp.draftTokenNum * numBytes) + numBytes * t := fun b t => by ring
    simp only [InRow, hrow] at ha ha'
    have hstep : ∀ b : ℕ, (fun b => b * (inp.draftTokenNum * numBytes)) b +
        (fun _ : ℕ => numBytes) b * inp.draftTokenNum ≤
          (fun b => b * (inp.draftTokenNum * numBytes)) (b + 1) := fun b => by
      simp only [Nat.succ_mul, Nat.mul_comm numBytes]
      exact le_rfl
    obtain ⟨rfl, rfl⟩ := rows_apart hstep ht ht' ha ha'
    rfl

/-- A bit of a row of bytes. -/
def rowBit (row : List (BitVec 8)) (j : ℕ) : Bool := (row.getD (j / 8) 0).getLsbD (j % 8)

/-- The bytes of a row. -/
def packedRow (inp : BuildTreeInput) (numBytes bid tid : ℕ) (m : ℕ → BitVec 8) : List (BitVec 8) :=
  (List.range numBytes).map fun r => m ((bid * inp.draftTokenNum + tid) * numBytes + r)

theorem rowBit_packedRow (m : ℕ → BitVec 8) (j : ℕ) :
    rowBit (inp.packedRow numBytes bid tid m) j = true ↔ j / 8 < numBytes ∧
        (m ((bid * inp.draftTokenNum + tid) * numBytes + j / 8)).getLsbD (j % 8) = true := by
  rw [rowBit, packedRow]
  by_cases hj : j / 8 < numBytes
  · simp [List.getD, hj]
  · simp [List.getD, hj]

/-- A single bit of a byte. -/
theorem getLsbD_one_shiftLeft {i j : ℕ} (hj : j < 8) :
    ((1 <<< i : ℕ) : BitVec 8).getLsbD j = true ↔ i = j := by
  rw [BitVec.natCast_eq_ofNat, BitVec.getLsbD_ofNat, Nat.one_shiftLeft, Nat.testBit_two_pow]
  simp [hj]

/-- **A row of bytes** has the bits of the root and of the marked positions, and no others. -/
theorem marked_packedLayout (hl : ∀ j ∈ l, 0 < j ∧ j < 8 * numBytes) (hpos : 0 < numBytes)
    {m : ℕ → BitVec 8} (hm : ∀ a, m a = 0) (j : ℕ) :
    rowBit (inp.packedRow numBytes bid tid (marked (inp.packedLayout numBytes) bid tid l m)) j = true ↔
      j = 0 ∨ j ∈ l := by
  rw [rowBit_packedRow]
  induction l using List.reverseRecOn with
  | nil =>
    rw [marked, map_nil, foldl_nil, packedLayout]
    simp only [update_apply, not_mem_nil, or_false]
    by_cases hj : j / 8 = 0
    · have hone : (1 : BitVec 8) = ((1 <<< 0 : ℕ) : BitVec 8) := rfl
      rw [hj, Nat.add_zero, if_pos rfl, hone, getLsbD_one_shiftLeft (Nat.mod_lt _ (by norm_num))]
      omega
    · rw [if_neg (by omega), hm]
      simp only [BitVec.ofNat_eq_ofNat, BitVec.getLsbD_zero, Bool.false_eq_true, and_false, false_iff]
      omega
  | append_singleton l i ih =>
    have hi := hl i (by simp)
    have ih := ih fun k hk => hl k (mem_append_left _ hk)
    obtain ⟨c, rfl⟩ := Nat.exists_eq_add_of_le' hi.1
    have hbit : j % 8 < 8 := Nat.mod_lt _ (by norm_num)
    rw [marked, map_append, foldl_append, map_singleton, foldl_cons, foldl_nil]
    rw [← marked]
    simp only [packedLayout, Nat.add_sub_cancel, update_apply]
    rw [mem_append, mem_singleton, ← or_assoc, ← ih]
    by_cases hbyte : j / 8 = (c + 1) / 8
    · rw [if_pos (by omega), BitVec.getLsbD_or, Bool.or_eq_true, getLsbD_one_shiftLeft hbit, hbyte]
      have hj : (c + 1) % 8 = j % 8 ↔ j = c + 1 := by omega
      have hin : (c + 1) / 8 < numBytes := by omega
      rw [hj]
      tauto
    · rw [if_neg (by omega)]
      have hj : j ≠ c + 1 := fun heq => hbyte (by rw [heq])
      tauto

end BuildTreeInput

end Sglang
