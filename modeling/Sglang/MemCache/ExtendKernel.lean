/-
# The extend kernel and its reference

A transcription of `alloc_extend_kernel` at the level of its stores, and of `alloc_extend_naive`.  The
kernel runs one program for every request of the batch.  A program knows its request only: it finds
where its outputs and its new pages begin by summing over the requests up to its own, with masked loads,
and it stores them in three parts.  The reference goes through the batch in order and assigns slices.

A masked load leaves the lanes that are masked off at `0`, as the compiled kernel does.  The buffer
is of the values `last_loc` has; a slice that is assigned a value of another length raises.  The
`num_full_new_pages` of a request that stays in its last page are negative in the reference and `0`
here; they are not read then.

Both compute one thing (`slotAt`): the `k`-th output of a request goes on in its last page while there
is room, and from there it counts through the new pages (`allocExtendGrid_eq`, `allocExtendNaive_eq`).
-/
import Sglang.Lib.Writes
import Sglang.MemCache.Allocator
import Mathlib.Data.Nat.Size

namespace Sglang

open Lib List ExtendItem

namespace PagedTokenToKVPoolAllocator

/-! ## 1. The kernel -/

/-- `next_power_of_2`. -/
def nextPowerOf2 (n : ℕ) : ℕ := if n > 0 then 1 <<< (n - 1).size else 1

/-- `tl.load(ptr + load_offset, mask=load_offset <= pid)` over `bs_upper` lanes. -/
def loadUpTo (values : List ℕ) (bsUpper pid : ℕ) : List ℕ :=
  (List.range bsUpper).map fun k => if k ≤ pid then values.getD k 0 else 0

/-- `tl.store(ptr + base + offset, value, mask=offset < bound)`, lane by lane. -/
def storeBelow (base bound : ℕ) (offset : List ℕ) (value : ℕ → ℤ) : List (ℕ × ℤ) :=
  (offset.filter (· < bound)).map fun k => (base + k, value k)

/-- `BLOCK_EXTEND`. -/
def blockExtend : ℕ := 4096

/-- The stores of program `pid` of `alloc_extend_kernel`. -/
def allocExtendProgram (pageSize : ℕ) (batch : List ExtendItem) (freePages : List ℕ)
    (bsUpper pid : ℕ) : List (ℕ × ℤ) :=
  let seqLens := loadUpTo (batch.map seqLen) bsUpper pid
  let preLens := loadUpTo (batch.map ExtendItem.prefixLen) bsUpper pid
  let extendLens := List.zipWith (· - ·) seqLens preLens
  let seqLen := (batch.map seqLen).getD pid 0
  let preLen := (batch.map ExtendItem.prefixLen).getD pid 0
  let extendLen := seqLen - preLen
  let sumExtendLens := extendLens.sum
  let outputStartLoc := sumExtendLens - extendLen
  let numPagesAfter := seqLens.map fun s => (s + pageSize - 1) / pageSize
  let numPagesBefore := preLens.map fun s => (s + pageSize - 1) / pageSize
  let numNewPages := List.zipWith (· - ·) numPagesAfter numPagesBefore
  let numPageStartLocSelf :=
    (seqLen + pageSize - 1) / pageSize - (preLen + pageSize - 1) / pageSize
  let sumNumNewPages := numNewPages.sum
  let newPageStartLoc := sumNumNewPages - numPageStartLocSelf
  -- the old partial page
  let lastLoc := (batch.map ExtendItem.lastLoc).getD pid 0
  let numPart1 := min seqLen ((preLen + pageSize - 1) / pageSize * pageSize) - preLen
  let part1 := storeBelow outputStartLoc numPart1 (List.range pageSize) fun k => lastLoc + 1 + k
  if preLen + numPart1 = seqLen then part1
  else
    -- the new full pages, in blocks
    let numPart2 := seqLen / pageSize * pageSize - (preLen + pageSize - 1) / pageSize * pageSize
    let numBlocks := (numPart2 + blockExtend - 1) / blockExtend
    let part2 := (List.range numBlocks).flatMap fun blockId =>
      storeBelow (outputStartLoc + numPart1) numPart2
        ((List.range blockExtend).map fun k => blockId * blockExtend + k) fun offset =>
        ((freePages.getD (newPageStartLoc + offset / pageSize) 0 * pageSize + offset % pageSize :
          ℕ) : ℤ)
    if preLen + numPart1 + numPart2 = seqLen then part1 ++ part2
    else
      -- the new partial page
      let numPart3 := seqLen - seqLen / pageSize * pageSize
      let startLoc := freePages.getD (newPageStartLoc + numPageStartLocSelf - 1) 0
      part1 ++ part2 ++ storeBelow (outputStartLoc + numPart1 + numPart2) numPart3
        (List.range pageSize) fun k => ((startLoc * pageSize + k : ℕ) : ℤ)

/-- The stores of the grid `alloc_extend_kernel[(bs,)]`, program by program. -/
def allocExtendGrid (pageSize : ℕ) (batch : List ExtendItem) (freePages : List ℕ) :
    List (ℕ × ℤ) :=
  (List.range batch.length).flatMap
    (allocExtendProgram pageSize batch freePages (nextPowerOf2 batch.length))

/-! ## 2. The reference -/

/-- `torch.cumsum(values, 0)`. -/
def cumsum (values : List ℕ) : List ℕ :=
  (List.range values.length).map fun i => (values.take (i + 1)).sum

/-- `out[start:stop] = values`. -/
def assignSlice (out : List ℤ) (start stop : ℕ) (values : List ℤ) : Option (List ℤ) :=
  if values.length = ((out.take stop).drop start).length then
    some (out.take start ++ values ++ out.drop stop)
  else none

/-- The round of `alloc_extend_naive` for one request. -/
def allocExtendNaiveRound (pageSize : ℕ) (freePages : List ℕ) (prefixLen seqLen : ℕ) (lastLoc : ℤ)
    (startPos endPos startNewPages endNewPages needPage : ℕ) (out : List ℤ) :
    Option (List ℤ) := do
  let posInPage := List.range pageSize
  let num1 := min seqLen ((prefixLen + pageSize - 1) / pageSize * pageSize) - prefixLen
  let out ← (if num1 ≠ 0 then
      assignSlice out startPos (startPos + num1)
        ((posInPage.take num1).map fun k : ℕ => lastLoc + 1 + k)
    else some out)
  if prefixLen + num1 = seqLen then return out
  let num2 := (seqLen / pageSize - (prefixLen + pageSize - 1) / pageSize) * pageSize
  let out ← (if num2 ≠ 0 then
      let pages := ((freePages.take (endNewPages - needPage)).drop startNewPages).map (· * pageSize)
      assignSlice out (startPos + num1) (startPos + num1 + num2)
        (pages.flatMap fun page => posInPage.map fun k => ((page + k : ℕ) : ℤ))
    else some out)
  if prefixLen + num1 + num2 = seqLen then return out
  let num3 := seqLen - seqLen / pageSize * pageSize
  if num3 ≠ 0 then
    assignSlice out (endPos - num3) endPos
      ((posInPage.take num3).map fun k =>
        ((freePages.getD (endNewPages - 1) 0 * pageSize + k : ℕ) : ℤ))
  else some out

/-- `alloc_extend_naive`: what is in `out_indices` at the end. -/
def allocExtendNaive (pageSize : ℕ) (batch : List ExtendItem) (freePages : List ℕ)
    (outIndices : List ℤ) : Option (List ℤ) :=
  let prefixLens := batch.map ExtendItem.prefixLen
  let seqLens := batch.map seqLen
  let lastLoc := batch.map ExtendItem.lastLoc
  let extendLens := List.zipWith (· - ·) seqLens prefixLens
  let endPos := cumsum extendLens
  let startPos := List.zipWith (· - ·) endPos extendLens
  let numNewPages := List.zipWith
    (fun s q => (s + pageSize - 1) / pageSize - (q + pageSize - 1) / pageSize) seqLens prefixLens
  let numFullNewPages := List.zipWith
    (fun s q => s / pageSize - (q + pageSize - 1) / pageSize) seqLens prefixLens
  let needPage := List.zipWith (· - ·) numNewPages numFullNewPages
  let endNewPages := cumsum numNewPages
  let startNewPages := List.zipWith (· - ·) endNewPages numNewPages
  (List.range batch.length).foldlM
    (fun out i => allocExtendNaiveRound pageSize freePages (prefixLens.getD i 0) (seqLens.getD i 0)
      (lastLoc.getD i 0) (startPos.getD i 0) (endPos.getD i 0) (startNewPages.getD i 0)
      (endNewPages.getD i 0) (needPage.getD i 0) out)
    outIndices

/-! ## 3. The outputs of one request -/

variable {p start i k n : ℕ} {freePages : List ℕ} {batch : List ExtendItem} {it : ExtendItem}

/-- How many outputs go on in the last page of the request. -/
def oldLen (p : ℕ) (it : ExtendItem) : ℕ :=
  min it.seqLen (p * pageCount p it.prefixLen) - it.prefixLen

/-- The `k`-th output of a request whose new pages begin at `start`. -/
def slotAt (p : ℕ) (freePages : List ℕ) (start : ℕ) (it : ExtendItem) (k : ℕ) : ℤ :=
  if k < oldLen p it then it.lastLoc + 1 + k
  else ((freePages.getD (start + (k - oldLen p it) / p) 0 * p + (k - oldLen p it) % p : ℕ) : ℤ)

/-- The outputs of a request. -/
def outputs (p : ℕ) (freePages : List ℕ) (start : ℕ) (it : ExtendItem) : List ℤ :=
  (List.range (it.seqLen - it.prefixLen)).map (slotAt p freePages start it)

/-- The lengths of the three parts, in terms of the `m` outputs behind the old page. -/
structure Parts (p : ℕ) (it : ExtendItem) (m : ℕ) : Prop where
  pos : 0 < m
  seq_eq : it.seqLen = p * pageCount p it.prefixLen + m
  total : it.seqLen - it.prefixLen = oldLen p it + (m / p * p + m % p)
  full_pages : it.seqLen / p - pageCount p it.prefixLen = m / p
  full : it.seqLen / p * p - pageCount p it.prefixLen * p = m / p * p
  rest : it.seqLen - it.seqLen / p * p = m % p
  newPages_eq : newPages p it = pageCount p m
  div_lt : ∀ k < m, k / p < newPages p it

theorem parts (hp : 0 < p) (hle : it.prefixLen ≤ it.seqLen) :
    (it.prefixLen + oldLen p it = it.seqLen ∧ newPages p it = 0) ∨
      it.prefixLen + oldLen p it ≠ it.seqLen ∧ ∃ m, Parts p it m := by
  have hceil : it.prefixLen ≤ p * pageCount p it.prefixLen := (pageCount_le_iff hp).mp le_rfl
  have hold : oldLen p it = min it.seqLen (p * pageCount p it.prefixLen) - it.prefixLen := rfl
  have hnew : newPages p it = pageCount p it.seqLen - pageCount p it.prefixLen := rfl
  rcases Nat.lt_or_ge (p * pageCount p it.prefixLen) it.seqLen with hlt | hge
  · obtain ⟨m, hm⟩ := Nat.exists_eq_add_of_le hlt.le
    have hdm := Nat.div_add_mod m p
    rw [Nat.mul_comm] at hdm
    have hdiv : it.seqLen / p = pageCount p it.prefixLen + m / p := by
      rw [hm, Nat.mul_add_div hp]
    have hnewm : newPages p it = pageCount p m := by
      rw [hnew, hm, pageCount_mul_add hp]
      omega
    refine .inr ⟨by omega, m, by omega, hm, by omega, ?_, ?_, ?_, hnewm, ?_⟩
    · rw [hdiv, Nat.add_sub_cancel_left]
    · rw [hdiv, Nat.add_mul]
      omega
    · rw [hdiv, Nat.add_mul, Nat.mul_comm _ p]
      omega
    · intro k hk
      rw [hnewm, lt_pageCount_iff hp]
      exact (Nat.div_mul_le_self k p).trans_lt hk
  · refine .inl ⟨by omega, ?_⟩
    have := (pageCount_le_iff hp).mpr hge
    omega

/-- Part 1 fits in a page. -/
theorem oldLen_le (hp : 0 < p) (it : ExtendItem) : oldLen p it ≤ p := by
  have h : p * pageCount p it.prefixLen ≤ it.prefixLen + p - 1 := by
    rw [Nat.mul_comm]
    exact Nat.div_mul_le_self _ _
  rw [oldLen]
  omega

theorem Parts.last_page {m : ℕ} (h : Parts p it m) (hp : 0 < p) (hrest : m % p ≠ 0) :
    newPages p it - 1 = m / p := by
  have hlt := h.div_lt (m / p * p) (by
    have := Nat.div_add_mod m p
    rw [Nat.mul_comm] at this
    omega)
  rw [Nat.mul_div_cancel _ hp] at hlt
  have hle : newPages p it ≤ m / p + 1 := by
    rw [h.newPages_eq, pageCount_le_iff hp, Nat.mul_add]
    have := Nat.div_add_mod m p
    have := Nat.mod_lt m hp
    omega
  exact Nat.le_antisymm (Nat.sub_le_of_le_add hle) (Nat.le_sub_one_of_lt hlt)

theorem Parts.outputs_eq {m : ℕ} (h : Parts p it m) (hp : 0 < p) :
    outputs p freePages start it =
      ((List.range (oldLen p it)).map fun k : ℕ => it.lastLoc + 1 + k) ++
      ((List.range (m / p * p)).map fun k =>
        ((freePages.getD (start + k / p) 0 * p + k % p : ℕ) : ℤ)) ++
      (List.range (m % p)).map fun k =>
        ((freePages.getD (start + newPages p it - 1) 0 * p + k : ℕ) : ℤ) := by
  rw [outputs, h.total, range_add, range_add, map_append, map_map,
    map_append, map_map, append_assoc]
  congr 1
  · exact map_congr_left fun k hk => if_pos (mem_range.mp hk)
  congr 1
  · refine map_congr_left fun k _ => ?_
    rw [Function.comp_apply, slotAt, if_neg (by omega), Nat.add_sub_cancel_left]
  · refine map_congr_left fun k hk => ?_
    rw [mem_range] at hk
    have hkp : k < p := hk.trans (Nat.mod_lt m hp)
    have hlast := h.last_page hp (by omega)
    have hpos := h.div_lt 0 h.pos
    rw [Nat.zero_div] at hpos
    simp only [Function.comp_apply]
    rw [slotAt, if_neg (by omega), Nat.add_sub_cancel_left, Nat.add_comm (m / p * p),
      Nat.add_mul_div_right _ _ hp, Nat.div_eq_of_lt hkp, Nat.zero_add, Nat.add_mul_mod_self_right,
      Nat.mod_eq_of_lt hkp, ← hlast, Nat.add_sub_assoc (by omega)]

theorem outputs_of_full (hfull : it.prefixLen + oldLen p it = it.seqLen) :
    outputs p freePages start it
      = (List.range (oldLen p it)).map fun k : ℕ => it.lastLoc + 1 + k := by
  rw [outputs, show it.seqLen - it.prefixLen = oldLen p it by omega]
  exact map_congr_left fun k hk => if_pos (mem_range.mp hk)

@[simp]
theorem length_outputs (p : ℕ) (freePages : List ℕ) (start : ℕ) (it : ExtendItem) :
    (outputs p freePages start it).length = it.seqLen - it.prefixLen := by
  rw [outputs, length_map, length_range]

/-! ## 4. Where a request begins -/

/-- The request `i` of the batch. -/
def item (batch : List ExtendItem) (i : ℕ) : ExtendItem := batch.getD i ⟨0, 0, 0⟩

/-- The number of outputs of a batch: `extend_num_tokens`. -/
def extendNumTokens (batch : List ExtendItem) : ℕ :=
  (batch.map fun it => it.seqLen - it.prefixLen).sum

/-- The first output of request `i`. -/
def outputStart (batch : List ExtendItem) (i : ℕ) : ℕ := extendNumTokens (batch.take i)

/-- The first new page of request `i`. -/
def newPageStart (p : ℕ) (batch : List ExtendItem) (i : ℕ) : ℕ := getNumNewPages p (batch.take i)

theorem getD_map_item {β : Type} (f : ExtendItem → β) (batch : List ExtendItem) (i : ℕ) :
    (batch.map f).getD i (f ⟨0, 0, 0⟩) = f (item batch i) := by
  rw [item, getD_map]

theorem getD_seqLen (batch : List ExtendItem) (i : ℕ) :
    (batch.map seqLen).getD i 0 = (item batch i).seqLen :=
  getD_map_item seqLen batch i

theorem getD_prefixLen (batch : List ExtendItem) (i : ℕ) :
    (batch.map ExtendItem.prefixLen).getD i 0 = (item batch i).prefixLen :=
  getD_map_item ExtendItem.prefixLen batch i

theorem getD_lastLoc (batch : List ExtendItem) (i : ℕ) :
    (batch.map ExtendItem.lastLoc).getD i 0 = (item batch i).lastLoc :=
  getD_map_item ExtendItem.lastLoc batch i

theorem item_le (hle : ∀ it ∈ batch, it.prefixLen ≤ it.seqLen) (hi : i < batch.length) :
    (item batch i).prefixLen ≤ (item batch i).seqLen := by
  rw [item, getD_eq_getElem _ _ hi]
  exact hle _ (getElem_mem hi)

theorem take_succ_item (hi : i < batch.length) :
    batch.take (i + 1) = batch.take i ++ [item batch i] := by
  rw [item, getD_eq_getElem _ _ hi, take_append_getElem]

theorem outputStart_succ (hi : i < batch.length) :
    outputStart batch (i + 1)
      = outputStart batch i + ((item batch i).seqLen - (item batch i).prefixLen) := by
  rw [outputStart, take_succ_item hi, extendNumTokens, map_append]
  simp [outputStart, extendNumTokens]

theorem newPageStart_succ (hi : i < batch.length) :
    newPageStart p batch (i + 1) = newPageStart p batch i + newPages p (item batch i) := by
  rw [newPageStart, take_succ_item hi, getNumNewPages, map_append]
  simp [newPageStart, getNumNewPages]

theorem newPageStart_mono (p : ℕ) (batch : List ExtendItem) {j : ℕ} (h : i ≤ j) :
    newPageStart p batch i ≤ newPageStart p batch j := by
  obtain ⟨d, rfl⟩ := Nat.exists_eq_add_of_le h
  rw [newPageStart, newPageStart, take_add, getNumNewPages, getNumNewPages, map_append, sum_append]
  exact Nat.le_add_right _ _

theorem newPageStart_length (p : ℕ) (batch : List ExtendItem) :
    newPageStart p batch batch.length = getNumNewPages p batch := by
  rw [newPageStart, take_length]

/-- **The masked sum of a program** is the sum over the requests up to its own. -/
theorem sum_masked (g : ExtendItem → ℕ) (hi : i < batch.length) (hn : i < n) :
    ((List.range n).map fun k => if k ≤ i then g (item batch k) else 0).sum
      = ((batch.take (i + 1)).map g).sum := by
  obtain ⟨d, rfl⟩ := Nat.exists_eq_add_of_le (Nat.succ_le_of_lt hn)
  have hzero : ((List.range d).map (fun k => i.succ + k)).map
      (fun k => if k ≤ i then g (item batch k) else 0) = (List.range d).map fun _ => 0 := by
    rw [map_map]
    exact map_congr_left fun k _ => if_neg (by simp only; omega)
  have htake : (List.range i.succ).map (fun k => if k ≤ i then g (item batch k) else 0)
      = (batch.take (i + 1)).map g := by
    apply ext_getElem
    · simp
      omega
    · intro k h1 h2
      have hk : k < i + 1 := by simpa using h1
      simp only [getElem_map, getElem_range, getElem_take]
      rw [if_pos (by omega), item, getD_eq_getElem _ _ (by omega)]
  rw [range_add, map_append, hzero, htake]
  simp

theorem lt_nextPowerOf2 (hi : i < n) : i < nextPowerOf2 n := by
  rw [nextPowerOf2, if_pos (by omega), Nat.shiftLeft_eq]
  have := Nat.lt_size_self (n - 1)
  omega

theorem zipWith_loadUpTo (f g : ExtendItem → ℕ) (op : ℕ → ℕ → ℕ) (hop : op 0 0 = 0)
    (hf : f ⟨0, 0, 0⟩ = 0) (hg : g ⟨0, 0, 0⟩ = 0) (n i : ℕ) :
    List.zipWith op (loadUpTo (batch.map f) n i) (loadUpTo (batch.map g) n i)
      = (List.range n).map fun k =>
        if k ≤ i then op (f (item batch k)) (g (item batch k)) else 0 := by
  rw [loadUpTo, loadUpTo, zipWith_map, zipWith_self]
  refine map_congr_left fun k _ => ?_
  split
  · have h1 := getD_map_item f batch k
    have h2 := getD_map_item g batch k
    rw [hf] at h1
    rw [hg] at h2
    rw [h1, h2]
  · exact hop

/-- `output_start_loc`. -/
theorem sum_extendLens (hi : i < batch.length) (hn : i < n) :
    (List.zipWith (· - ·) (loadUpTo (batch.map seqLen) n i)
      (loadUpTo (batch.map ExtendItem.prefixLen) n i)).sum = outputStart batch (i + 1) := by
  rw [zipWith_loadUpTo seqLen ExtendItem.prefixLen _ rfl rfl rfl]
  exact sum_masked (fun it => it.seqLen - it.prefixLen) hi hn

theorem sum_numNewPages (hi : i < batch.length) (hn : i < n) :
    (List.zipWith (· - ·) ((loadUpTo (batch.map seqLen) n i).map fun s => (s + p - 1) / p)
      ((loadUpTo (batch.map ExtendItem.prefixLen) n i).map fun s => (s + p - 1) / p)).sum
        = newPageStart p batch (i + 1) := by
  rw [zipWith_map, zipWith_loadUpTo seqLen ExtendItem.prefixLen
    (fun s q => (s + p - 1) / p - (q + p - 1) / p) (by simp) rfl rfl]
  exact sum_masked (newPages p) hi hn

/-! ## 5. The kernel -/

theorem filter_range_lt {b n : ℕ} (h : b ≤ n) :
    (List.range n).filter (· < b) = List.range b := by
  obtain ⟨d, rfl⟩ := Nat.exists_eq_add_of_le h
  rw [range_add, filter_append, filter_eq_self.mpr fun k hk => by simpa using hk,
    filter_eq_nil_iff.mpr fun k hk => ?_, append_nil]
  obtain ⟨j, -, rfl⟩ := mem_map.mp hk
  simp

theorem storeBelow_range {base b n : ℕ} (h : b ≤ n) (value : ℕ → ℤ) :
    storeBelow base b (List.range n) value = consecutive base ((List.range b).map value) := by
  rw [storeBelow, filter_range_lt h, consecutive_map_range]

/-- **The loop over blocks** stores every offset below the bound once. -/
theorem storeBelow_blocks (base b block : ℕ) (hblock : 0 < block) (value : ℕ → ℤ) :
    (List.range ((b + block - 1) / block)).flatMap (fun blockId =>
      storeBelow base b ((List.range block).map fun k => blockId * block + k) value)
      = consecutive base ((List.range b).map value) := by
  have hblocks : ∀ n, (List.range n).flatMap (fun j => (List.range block).map fun k => j * block + k)
      = List.range (n * block) := by
    intro n
    induction n with
    | zero => simp
    | succ n ih =>
      rw [range_succ, flatMap_append, ih, flatMap_singleton, Nat.add_mul, Nat.one_mul, range_add]
  have hle : b ≤ (b + block - 1) / block * block := by
    rw [Nat.mul_comm]
    exact (pageCount_le_iff hblock).mp le_rfl
  simp only [storeBelow]
  rw [← map_flatMap, ← filter_flatMap, hblocks, filter_range_lt hle, consecutive_map_range]

/-- **What a program stores**: the outputs of its request, side by side, each one once. -/
theorem allocExtendProgram_eq (hp : 0 < p) (hi : i < batch.length) (hn : i < n)
    (hle : (item batch i).prefixLen ≤ (item batch i).seqLen) :
    allocExtendProgram p batch freePages n i = consecutive (outputStart batch i)
        (outputs p freePages (newPageStart p batch i) (item batch i)) := by
  have hout : outputStart batch (i + 1) - ((item batch i).seqLen - (item batch i).prefixLen)
      = outputStart batch i := by
    rw [outputStart_succ hi, Nat.add_sub_cancel]
  have hnew : newPageStart p batch (i + 1) - newPages p (item batch i) = newPageStart p batch i := by
    rw [newPageStart_succ hi, Nat.add_sub_cancel]
  unfold allocExtendProgram
  simp only [sum_extendLens hi hn, sum_numNewPages hi hn, getD_seqLen, getD_prefixLen,
    getD_lastLoc, hout]
  generalize item batch i = it at hle hnew
  generalize outputStart batch i = out
  generalize hstart : newPageStart p batch i = start at hnew
  have hceil : (it.prefixLen + p - 1) / p = pageCount p it.prefixLen := rfl
  have hself : (it.seqLen + p - 1) / p - pageCount p it.prefixLen = newPages p it := rfl
  have hold : min it.seqLen (pageCount p it.prefixLen * p) - it.prefixLen = oldLen p it := by
    rw [oldLen, Nat.mul_comm]
  simp only [hself, hceil, hold, hnew, storeBelow_range (oldLen_le hp it)]
  rcases parts hp hle with ⟨hfull, -⟩ | ⟨hmore, m, hm⟩
  · rw [if_pos hfull, outputs_of_full hfull]
  · rw [if_neg hmore]
    simp only [hm.full, hm.rest, storeBelow_range (Nat.mod_lt m hp).le]
    have hblocks := storeBelow_blocks (out + oldLen p it) (m / p * p) blockExtend
      (by decide) fun k => ((freePages.getD (start + k / p) 0 * p + k % p : ℕ) : ℤ)
    rw [hblocks, hm.outputs_eq hp, consecutive_append, consecutive_append]
    simp only [length_append, length_map, length_range]
    have htotal := hm.total
    split
    · rename_i hend
      have hz : m % p = 0 := by omega
      rw [hz]
      simp
    · rw [Nat.add_assoc out]

/-- The outputs of a batch, request by request. -/
def batchOutputs (p : ℕ) (batch : List ExtendItem) (freePages : List ℕ) (n : ℕ) : List ℤ :=
  (List.range n).flatMap fun i => outputs p freePages (newPageStart p batch i) (item batch i)

/-- **The stores of the grid** are those of one long list of outputs. -/
theorem allocExtendGrid_eq (hp : 0 < p) (hle : ∀ it ∈ batch, it.prefixLen ≤ it.seqLen) :
    allocExtendGrid p batch freePages
      = consecutive 0 (batchOutputs p batch freePages batch.length) := by
  have hflat := (flatMap_consecutive (outputStart batch)
    (fun i => outputs p freePages (newPageStart p batch i) (item batch i)) batch.length
    fun i hi => by rw [outputStart_succ hi, length_outputs]).1
  rw [show outputStart batch 0 = 0 from rfl] at hflat
  rw [batchOutputs, ← hflat]
  refine flatMap_congr fun i hi => ?_
  rw [mem_range] at hi
  exact allocExtendProgram_eq hp hi (lt_nextPowerOf2 hi) (item_le hle hi)

/-! ## 6. The reference -/

theorem assignSlice_window {pre old post values : List ℤ} {stop : ℕ} (hstart : start = pre.length)
    (hstop : stop = start + old.length) (h : values.length = old.length) :
    assignSlice (pre ++ old ++ post) start stop values = some (pre ++ values ++ post) := by
  have htake : (pre ++ old ++ post).take stop = pre ++ old := by
    rw [hstop, hstart, ← length_append, take_left]
  have hdrop : (pre ++ old ++ post).drop stop = post := by
    rw [hstop, hstart, ← length_append, drop_left]
  have hpre : (pre ++ old ++ post).take start = pre := by
    rw [hstart, append_assoc, take_left]
  unfold assignSlice
  rw [htake, hdrop, hpre, hstart, drop_left, if_pos h]

/-- Nor does an empty part change the buffer. -/
theorem assignSlice_ite {pre old post values : List ℤ} {stop : ℕ} (hn : values.length = n)
    (hstart : start = pre.length) (hstop : stop = start + n) (h : old.length = n) :
    (if n ≠ 0 then assignSlice (pre ++ old ++ post) start stop values
      else some (pre ++ old ++ post)) = some (pre ++ values ++ post) := by
  split
  · exact assignSlice_window hstart (by omega) (by omega)
  · rename_i hz
    rw [not_not] at hz
    rw [eq_nil_of_length_eq_zero (hn.trans hz), eq_nil_of_length_eq_zero (h.trans hz)]

/-- The slots of some pages, slot by slot. -/
theorem flatMap_pages (hp : 0 < p) (pages : List ℕ) :
    (pages.map (· * p)).flatMap (fun page => (List.range p).map fun k => ((page + k : ℕ) : ℤ))
      = (List.range (pages.length * p)).map fun k =>
        ((pages.getD (k / p) 0 * p + k % p : ℕ) : ℤ) := by
  have hexp := take_expand hp (le_refl (p * pages.length))
  rw [take_of_length_le (by rw [length_expand])] at hexp
  have hcast := congrArg (List.map fun s : ℕ => (s : ℤ)) hexp
  rw [map_map, Nat.mul_comm] at hcast
  rw [show (fun k => ((pages.getD (k / p) 0 * p + k % p : ℕ) : ℤ))
      = (fun s : ℕ => (s : ℤ)) ∘ fun k => pages.getD (k / p) 0 * p + k % p from rfl, ← hcast,
    expand, map_flatMap, flatMap_map]
  refine flatMap_congr fun q _ => ?_
  rw [range'_eq_map_range, map_map]
  rfl

/-- **A round of the reference** fills the part of its request with its outputs. -/
theorem allocExtendNaiveRound_eq (hp : 0 < p) (hle : it.prefixLen ≤ it.seqLen)
    (hfree : start + newPages p it ≤ freePages.length) {pre old post : List ℤ}
    (hold : old.length = it.seqLen - it.prefixLen) :
    allocExtendNaiveRound p freePages it.prefixLen it.seqLen it.lastLoc pre.length
      (pre.length + (it.seqLen - it.prefixLen)) start (start + newPages p it)
      (newPages p it - (it.seqLen / p - pageCount p it.prefixLen)) (pre ++ old ++ post)
      = some (pre ++ outputs p freePages start it ++ post) := by
  have hceil : (it.prefixLen + p - 1) / p = pageCount p it.prefixLen := rfl
  have holdLen : min it.seqLen (pageCount p it.prefixLen * p) - it.prefixLen = oldLen p it := by
    rw [oldLen, Nat.mul_comm]
  have htake : ∀ {b}, b ≤ p → (List.range p).take b = List.range b := by
    intro b hb
    rw [take_range, min_eq_left hb]
  unfold allocExtendNaiveRound
  simp only [hceil, holdLen, htake (oldLen_le hp it)]
  rcases parts hp hle with ⟨hfull, -⟩ | ⟨hmore, m, hm⟩
  · rw [assignSlice_ite (by simp) rfl rfl (by omega), outputs_of_full hfull]
    simp [hfull]
  · have hdm := Nat.div_add_mod m p
    have htotal := hm.total
    -- the three parts of the window
    obtain ⟨old₁, old₂, old₃, rfl, h₁, h₂, h₃⟩ : ∃ old₁ old₂ old₃, old = old₁ ++ (old₂ ++ old₃) ∧
        old₁.length = oldLen p it ∧ old₂.length = m / p * p ∧ old₃.length = m % p := by
      refine ⟨old.take (oldLen p it), (old.drop (oldLen p it)).take (m / p * p),
        (old.drop (oldLen p it)).drop (m / p * p), ?_, ?_, ?_, ?_⟩
      · rw [take_append_drop, take_append_drop]
      · rw [length_take]
        omega
      · rw [length_take, length_drop]
        omega
      · rw [length_drop, length_drop]
        omega
    have hpages : ((freePages.take (start + newPages p it - (newPages p it - m / p))).drop
        start).length = m / p := by
      have hle' : m / p ≤ newPages p it := by
        rw [hm.newPages_eq]
        refine Nat.div_le_of_le_mul (((pageCount_le_iff hp).mp le_rfl).trans ?_)
        exact le_rfl
      rw [length_drop, length_take]
      generalize m / p = c at hle' ⊢
      omega
    have hget : ∀ j < m / p, ((freePages.take (start + newPages p it - (newPages p it - m / p))).drop
        start).getD j 0 = freePages.getD (start + j) 0 := by
      intro j hj
      rw [getD_eq_getElem?_getD, getD_eq_getElem?_getD, getElem?_drop,
        getElem?_take_of_lt (by rw [length_drop, length_take] at hpages; omega)]
    have hpart2 : (((freePages.take (start + newPages p it - (newPages p it - m / p))).drop
        start).map (· * p)).flatMap (fun page => (List.range p).map fun k => ((page + k : ℕ) : ℤ))
        = (List.range (m / p * p)).map fun k =>
          ((freePages.getD (start + k / p) 0 * p + k % p : ℕ) : ℤ) := by
      rw [flatMap_pages hp, hpages]
      refine map_congr_left fun k hk => ?_
      rw [hget _ (Nat.div_lt_of_lt_mul (by rw [Nat.mul_comm]; exact mem_range.mp hk))]
    have hnum3 : pre.length + (it.seqLen - it.prefixLen) - m % p
        = (pre.length + oldLen p it) + m / p * p := by omega
    simp only [hm.full_pages, hm.rest, hpart2, htake (Nat.mod_lt m hp).le, hnum3]
    rw [hm.outputs_eq hp]
    generalize hv₁ : (List.range (oldLen p it)).map (fun k : ℕ => it.lastLoc + 1 + (k : ℤ)) = v₁
    generalize hv₂ : (List.range (m / p * p)).map (fun k =>
      ((freePages.getD (start + k / p) 0 * p + k % p : ℕ) : ℤ)) = v₂
    generalize hv₃ : (List.range (m % p)).map (fun k =>
      ((freePages.getD (start + newPages p it - 1) 0 * p + k : ℕ) : ℤ)) = v₃
    have hl₁ : v₁.length = oldLen p it := by rw [← hv₁, length_map, length_range]
    have hl₂ : v₂.length = m / p * p := by rw [← hv₂, length_map, length_range]
    have hl₃ : v₃.length = m % p := by rw [← hv₃, length_map, length_range]
    have e₁ : pre ++ (old₁ ++ (old₂ ++ old₃)) ++ post = pre ++ old₁ ++ (old₂ ++ old₃ ++ post) := by
      simp
    have e₂ : pre ++ v₁ ++ (old₂ ++ old₃ ++ post) = (pre ++ v₁) ++ old₂ ++ (old₃ ++ post) := by simp
    have e₃ : pre ++ v₁ ++ v₂ ++ (old₃ ++ post) = (pre ++ v₁ ++ v₂) ++ old₃ ++ post := by simp
    rw [e₁, assignSlice_ite hl₁ rfl rfl h₁]
    simp only [Option.bind_eq_bind, Option.bind_some]
    rw [if_neg hmore, e₂, assignSlice_ite hl₂ (by rw [length_append, hl₁]) rfl h₂]
    simp only [Option.bind_some]
    rw [e₃, assignSlice_ite hl₃ (by simp only [length_append]; omega) (by omega) h₃]
    split
    · rename_i hend
      have hz : v₃ = [] := eq_nil_of_length_eq_zero (by omega)
      have hz' : old₃ = [] := eq_nil_of_length_eq_zero (by omega)
      rw [hz, hz']
      simp
    · simp

theorem getD_zipWith (op : ℕ → ℕ → ℕ) {xs ys : List ℕ} (hx : i < xs.length) (hy : i < ys.length) :
    (List.zipWith op xs ys).getD i 0 = op (xs.getD i 0) (ys.getD i 0) := by
  rw [getD_eq_getElem _ _ (by rw [length_zipWith]; omega), getElem_zipWith,
    getD_eq_getElem _ _ hx, getD_eq_getElem _ _ hy]

@[simp]
theorem length_cumsum (values : List ℕ) : (cumsum values).length = values.length := by
  rw [cumsum, length_map, length_range]

/-- `end_pos` and `end_new_pages`, and what they are without the request's own share. -/
theorem getD_cumsum (g : ExtendItem → ℕ) (hi : i < batch.length) :
    (cumsum (batch.map g)).getD i 0 = ((batch.take (i + 1)).map g).sum ∧
      (List.zipWith (· - ·) (cumsum (batch.map g)) (batch.map g)).getD i 0
        = ((batch.take i).map g).sum := by
  have hcum : (cumsum (batch.map g)).getD i 0 = ((batch.take (i + 1)).map g).sum := by
    rw [cumsum, getD_eq_getElem _ _ (by simpa using hi), getElem_map, getElem_range, map_take]
  refine ⟨hcum, ?_⟩
  have hown : (batch.map g).getD i 0 = g (item batch i) := by
    rw [item, getD_eq_getElem _ _ (by simpa using hi), getElem_map, getD_eq_getElem _ _ hi]
  rw [getD_zipWith _ (by simpa using hi) (by simpa using hi), hcum, hown, take_succ_item hi,
    map_append]
  simp

theorem length_batchOutputs (p : ℕ) (freePages : List ℕ) (hn : n ≤ batch.length) :
    (batchOutputs p batch freePages n).length = outputStart batch n := by
  have h := (flatMap_consecutive (outputStart batch)
    (fun i => outputs p freePages (newPageStart p batch i) (item batch i)) n
    fun i hi => by rw [outputStart_succ (by omega), length_outputs]).2
  rw [show outputStart batch 0 = 0 from rfl, Nat.zero_add] at h
  exact h.symm

theorem outputStart_length (batch : List ExtendItem) :
    outputStart batch batch.length = extendNumTokens batch := by
  rw [outputStart, take_length]

theorem outputStart_mono (batch : List ExtendItem) {j : ℕ} (h : i ≤ j) :
    outputStart batch i ≤ outputStart batch j := by
  obtain ⟨d, rfl⟩ := Nat.exists_eq_add_of_le h
  rw [outputStart, outputStart, take_add, extendNumTokens, extendNumTokens, map_append, sum_append]
  exact Nat.le_add_right _ _

/-- **The reference** computes the outputs, request by request. -/
theorem allocExtendNaive_eq (hp : 0 < p) (hle : ∀ it ∈ batch, it.prefixLen ≤ it.seqLen)
    (hfree : getNumNewPages p batch ≤ freePages.length) {out : List ℤ}
    (hout : out.length = extendNumTokens batch) :
    allocExtendNaive p batch freePages out
      = some (batchOutputs p batch freePages batch.length) := by
  unfold allocExtendNaive
  have hext : List.zipWith (· - ·) (batch.map seqLen) (batch.map ExtendItem.prefixLen)
      = batch.map fun it => it.seqLen - it.prefixLen := by
    rw [zipWith_map, zipWith_self]
  have hnew : List.zipWith (fun s q => (s + p - 1) / p - (q + p - 1) / p)
      (batch.map seqLen) (batch.map ExtendItem.prefixLen)
      = batch.map (newPages p) := by
    rw [zipWith_map, zipWith_self]
    rfl
  have hfull : List.zipWith (fun s q => s / p - (q + p - 1) / p)
      (batch.map seqLen) (batch.map ExtendItem.prefixLen)
      = batch.map fun it => it.seqLen / p - pageCount p it.prefixLen := by
    rw [zipWith_map, zipWith_self]
    rfl
  simp only [hext, hnew, hfull, zipWith_map, zipWith_self]
  -- after `n` rounds the first `n` parts are done
  have hrun : ∀ n ≤ batch.length, (List.range n).foldlM
      (fun out i => allocExtendNaiveRound p freePages
        ((batch.map ExtendItem.prefixLen).getD i 0) ((batch.map seqLen).getD i 0)
        ((batch.map ExtendItem.lastLoc).getD i 0)
        ((List.zipWith (· - ·) (cumsum (batch.map fun it => it.seqLen - it.prefixLen))
          (batch.map fun it => it.seqLen - it.prefixLen)).getD i 0)
        ((cumsum (batch.map fun it => it.seqLen - it.prefixLen)).getD i 0)
        ((List.zipWith (· - ·) (cumsum (batch.map (newPages p))) (batch.map (newPages p))).getD i 0)
        ((cumsum (batch.map (newPages p))).getD i 0)
        ((batch.map fun it => newPages p it
          - (it.seqLen / p - pageCount p it.prefixLen)).getD i 0) out) out
      = some (batchOutputs p batch freePages n ++ out.drop (outputStart batch n)) := by
    intro n hn
    induction n with
    | zero => rfl
    | succ n ih =>
      have hlt : n < batch.length := hn
      have hneed : (batch.map fun it => newPages p it
          - (it.seqLen / p - pageCount p it.prefixLen)).getD n 0
          = newPages p (item batch n)
            - ((item batch n).seqLen / p - pageCount p (item batch n).prefixLen) := by
        rw [item, getD_eq_getElem _ _ (by simpa using hlt), getElem_map, getD_eq_getElem _ _ hlt]
      obtain ⟨hend, hstart⟩ := getD_cumsum (fun it => it.seqLen - it.prefixLen) hlt
      obtain ⟨hendNew, hstartNew⟩ := getD_cumsum (newPages p) hlt
      rw [range_succ, foldlM_append, ih (by omega)]
      simp only [foldlM_cons, foldlM_nil, Option.bind_eq_bind, Option.bind_some, hneed,
        getD_seqLen, getD_prefixLen, getD_lastLoc, hend, hstart, hendNew, hstartNew]
      have hs : ((batch.take n).map fun it => it.seqLen - it.prefixLen).sum
          = (batchOutputs p batch freePages n).length := (length_batchOutputs p freePages hlt.le).symm
      have he : ((batch.take (n + 1)).map fun it => it.seqLen - it.prefixLen).sum
          = (batchOutputs p batch freePages n).length
            + ((item batch n).seqLen - (item batch n).prefixLen) := by
        rw [← hs]
        exact outputStart_succ hlt
      have hsn : ((batch.take n).map (newPages p)).sum = newPageStart p batch n := rfl
      have hen : ((batch.take (n + 1)).map (newPages p)).sum
          = newPageStart p batch n + newPages p (item batch n) := newPageStart_succ hlt
      have hroom : outputStart batch (n + 1) ≤ out.length := by
        rw [hout, ← outputStart_length]
        exact outputStart_mono batch hn
      have hpages : newPageStart p batch n + newPages p (item batch n) ≤ freePages.length := by
        rw [← newPageStart_succ hlt]
        refine (newPageStart_mono p batch hn).trans ?_
        rwa [newPageStart_length]
      have hsucc := outputStart_succ hlt
      generalize hL : (item batch n).seqLen - (item batch n).prefixLen = L at he hsucc
      have hsplit : out.drop (outputStart batch n)
          = (out.drop (outputStart batch n)).take L ++ out.drop (outputStart batch (n + 1)) := by
        rw [hsucc, ← drop_drop, take_append_drop]
      rw [hs, he, hsn, hen, hsplit, ← append_assoc, ← hL,
        allocExtendNaiveRound_eq hp (item_le hle hlt) hpages (by
          rw [length_take, length_drop]
          omega)]
      rw [batchOutputs, batchOutputs, range_succ, flatMap_append, flatMap_singleton]
      rfl
  rw [hrun batch.length le_rfl, outputStart_length, ← hout, drop_length, append_nil]

/-! ## 7. The model of the allocator -/

theorem extendProgram_eq (hp : 0 < p) (hle : it.prefixLen ≤ it.seqLen) :
    extendProgram p freePages start it = (outputs p freePages start it).map Int.toNat := by
  have hceil : (it.prefixLen + p - 1) / p = pageCount p it.prefixLen := rfl
  have hold : min it.seqLen (pageCount p it.prefixLen * p) - it.prefixLen = oldLen p it := by
    rw [oldLen, Nat.mul_comm]
  unfold extendProgram
  simp only [hceil, hold]
  rcases parts hp hle with ⟨hfull, -⟩ | ⟨hmore, m, hm⟩
  · rw [if_pos hfull, outputs_of_full hfull, map_map]
    rfl
  · have htotal := hm.total
    rw [if_neg hmore, hm.outputs_eq hp, hm.full, hm.rest]
    simp only [map_append, map_map, Function.comp_def, Int.toNat_natCast]
    split
    · rename_i hend
      have hz : m % p = 0 := by omega
      rw [hz]
      simp
    · rfl

/-- The two models of the kernel agree: summed over again by each program, or carried along. -/
theorem allocExtendKernel_eq (hp : 0 < p) (freePages : List ℕ) : ∀ (batch : List ExtendItem)
    (start : ℕ), (∀ it ∈ batch, it.prefixLen ≤ it.seqLen) →
    allocExtendKernel p freePages start batch = (List.range batch.length).flatMap fun i =>
        (outputs p freePages (start + newPageStart p batch i) (item batch i)).map Int.toNat
  | [], _, _ => rfl
  | it :: batch, start, hle => by
    rw [allocExtendKernel, extendProgram_eq hp (hle it mem_cons_self),
      allocExtendKernel_eq hp freePages batch _ fun x hx => hle x (mem_cons_of_mem _ hx),
      length_cons, range_succ_eq_map, flatMap_cons, flatMap_map]
    congr 1
    refine flatMap_congr fun i _ => ?_
    have hstart : newPageStart p (it :: batch) i.succ = newPages p it + newPageStart p batch i := by
      simp [newPageStart, getNumNewPages]
    rw [Nat.add_assoc]
    rfl

end PagedTokenToKVPoolAllocator

end Sglang
