/-
# The cache layout of paged top-k drafting

A transcription of the kernels `assign_draft_cache_locs` and `generate_draft_decode_kv_indices`
(`speculative/spec_utils.py`), with the lengths `_draft_preprocess_decode` computes for them
(`speculative/eagle_worker.py`).  The first kernel lays the allocated slots out in the rows of the
requests, one padded run of pages for each branch, and compacts the slots of the draft tokens in place at
the front of `out_cache_loc`; the second recomputes the padded addresses.  Program for program the two
agree.  What can go wrong is the compaction: it is skipped when no last page is partial, and the entries
it overwrites may be ones another program still has to read (`layout_agrees_iff`).
-/
import Sglang.Lib.Lanes
import Mathlib.Data.Nat.Size

namespace Sglang

open Lib Finset

/-! ## 1. The lengths -/

/-- `next_power_of_2`. -/
def nextPowerOf2 (n : ℕ) : ℕ := if n > 0 then 1 <<< (n - 1).size else 1

/-- The arguments of a draft decode: the batch and the server's settings. -/
structure DraftBatch where
  numSeqs : ℕ
  reqPoolIndices : ℕ → ℕ
  seqLens : ℕ → ℕ
  topk : ℕ
  speculativeNumSteps : ℕ
  pageSize : ℕ

namespace DraftBatch

/-- `last_page_lens`. -/
def lastPageLens (B : DraftBatch) (pid : ℕ) : ℕ := B.seqLens pid % B.pageSize

/-- `num_new_pages_per_topk`. -/
def numNewPagesPerTopk (B : DraftBatch) (pid : ℕ) : ℕ :=
  (B.lastPageLens pid + B.speculativeNumSteps + B.pageSize - 1) / B.pageSize

/-- `extend_lens` of `get_last_loc_large_page_size_large_top_k`. -/
def extendLens (B : DraftBatch) (pid : ℕ) : ℕ :=
  B.seqLens pid / B.pageSize * B.pageSize + B.numNewPagesPerTopk pid * (B.pageSize * B.topk) -
    B.seqLens pid

/-- `last_page_lens_cumsum`. -/
def lastPageLensCumsum (B : DraftBatch) (pid : ℕ) : ℕ := ∑ j ∈ range (pid + 1), B.lastPageLens j

/-- `duplicate_cache_len`. -/
def duplicateCacheLen (B : DraftBatch) : ℕ := (∑ j ∈ range B.numSeqs, B.lastPageLens j) * (B.topk - 1)

/-- `extend_num_tokens`, the number of slots that are allocated. -/
def extendNumTokens (B : DraftBatch) : ℕ := ∑ j ∈ range B.numSeqs, B.extendLens j

end DraftBatch

/-! ## 2. `assign_draft_cache_locs` -/

/-- The tensors the kernels write: the rows of `req_to_token` and the three lists. -/
structure DraftMemory where
  reqToToken : ℕ → ℕ → ℕ
  outCacheLoc : ℕ → ℕ
  sourceCacheLoc : ℕ → ℕ
  targetCacheLoc : ℕ → ℕ

namespace DraftBatch

/-- `cum_copy_len`: the lanes that are masked off count for nothing. -/
def cumCopyLen (B : DraftBatch) (pid : ℕ) : ℕ :=
  ∑ j ∈ range (nextPowerOf2 B.numSeqs), if j < pid then B.extendLens j else 0

/-- `copy_len`. -/
def copyLen (B : DraftBatch) (pid : ℕ) : ℕ :=
  if B.pageSize = 1 ∨ B.topk = 1 then B.topk * B.speculativeNumSteps else B.extendLens pid

/-- `out_cache_ptr`. -/
def outCachePtr (B : DraftBatch) (pid : ℕ) : ℕ :=
  if B.pageSize = 1 ∨ B.topk = 1 then pid * B.topk * B.speculativeNumSteps else B.cumCopyLen pid

/-- `prefix_base`, as a position of the request's row. -/
def prefixBase (B : DraftBatch) (pid : ℕ) : ℕ := B.seqLens pid - B.lastPageLens pid

/-- Part 1: copy from `out_cache_loc` to the row of the request. -/
def copyLocs (B : DraftBatch) (pid : ℕ) (mem : DraftMemory) : DraftMemory :=
  { mem with
    reqToToken := Function.update mem.reqToToken (B.reqPoolIndices pid)
      (storeBlocks 128 (B.copyLen pid) (B.seqLens pid)
        (fun o => mem.outCacheLoc (B.outCachePtr pid + o)) (mem.reqToToken (B.reqPoolIndices pid))) }

/-- Part 2 for one branch: the slots of the last page, and of the places they are copied to. -/
def duplicateBranch (B : DraftBatch) (pid : ℕ) (mem : DraftMemory) (topkId : ℕ) : DraftMemory :=
  let row := mem.reqToToken (B.reqPoolIndices pid)
  let addr := fun o => (B.topk - 1) * (B.lastPageLensCumsum pid - B.lastPageLens pid) +
    (topkId - 1) * B.lastPageLens pid + o
  let mask := fun o => decide (o < B.lastPageLens pid)
  { mem with
    sourceCacheLoc := storeLanes B.pageSize addr mask (fun o => row (B.prefixBase pid + o))
      mem.sourceCacheLoc
    targetCacheLoc := storeLanes B.pageSize addr mask
      (fun o => row (B.prefixBase pid + topkId * B.numNewPagesPerTopk pid * B.pageSize + o))
      mem.targetCacheLoc }

/-- Part 3 for one branch: the slots of its draft tokens to their place in `out_cache_loc`. -/
def compactBranch (B : DraftBatch) (pid : ℕ) (mem : DraftMemory) (topkId : ℕ) : DraftMemory :=
  let row := mem.reqToToken (B.reqPoolIndices pid)
  { mem with
    outCacheLoc := storeLanes (nextPowerOf2 (B.speculativeNumSteps + B.pageSize))
      (fun it => pid * B.speculativeNumSteps * B.topk + topkId * B.speculativeNumSteps + it -
        B.lastPageLens pid)
      (fun it => decide (it < B.speculativeNumSteps + B.lastPageLens pid) &&
        decide (it ≥ B.lastPageLens pid))
      (fun it => row (B.prefixBase pid + topkId * B.numNewPagesPerTopk pid * B.pageSize + it))
      mem.outCacheLoc }

/-- The program of one request. -/
def assignProgram (B : DraftBatch) (mem : DraftMemory) (pid : ℕ) : DraftMemory :=
  let mem := B.copyLocs pid mem
  if (B.pageSize ≠ 1 ∧ B.topk ≠ 1) ∧ B.duplicateCacheLen > 0 then
    let mem := (List.range' 1 (B.topk - 1)).foldl (B.duplicateBranch pid) mem
    (List.range B.topk).foldl (B.compactBranch pid) mem
  else mem

/-- `assign_draft_cache_locs`, its programs run one after another in the given order. -/
def assignDraftCacheLocs (B : DraftBatch) (order : List ℕ) (mem : DraftMemory) : DraftMemory :=
  order.foldl B.assignProgram mem

/-- The entry of `out_cache_loc[: num_seqs * topk * steps]` that `draft_forward` uses, after its
`reshape`, for a request, a branch and a step. -/
def retained (B : DraftBatch) (mem : DraftMemory) (pid topkId step : ℕ) : ℕ :=
  mem.outCacheLoc ((pid * B.topk + topkId) * B.speculativeNumSteps + step)

/-! ## 3. `generate_draft_decode_kv_indices` -/

/-- `start`, as a position of the row. -/
def start (B : DraftBatch) (bid topkId : ℕ) : ℕ :=
  if B.pageSize = 1 ∨ B.topk = 1 then B.seqLens bid + topkId * B.speculativeNumSteps
  else
    let lastPageLen := B.seqLens bid % B.pageSize
    let numNewPagesPerTopk := (lastPageLen + B.speculativeNumSteps + B.pageSize - 1) / B.pageSize
    B.seqLens bid / B.pageSize * B.pageSize + topkId * numNewPagesPerTopk * B.pageSize + lastPageLen

/-- `kv_offset`, where the indices of a request and a branch start in the iteration's part of
`kv_indices`. -/
def kvOffset (B : DraftBatch) (iters bid topkId : ℕ) : ℕ :=
  (∑ j ∈ range (nextPowerOf2 B.numSeqs), if j < bid then B.seqLens j else 0) * B.topk +
    bid * iters * B.topk + topkId * (B.seqLens bid + iters)

/-- What the program of `iters`, `bid` and `topk_id` stores in `kv_indices`: the prefix, in blocks, and
the slots of the branch so far. -/
def generateProgram (B : DraftBatch) (mem : DraftMemory) (iters bid topkId : ℕ) (kvIndices : ℕ → ℕ) :
    ℕ → ℕ :=
  let row := mem.reqToToken (B.reqPoolIndices bid)
  let kvPtr := B.kvOffset iters bid topkId
  let kvIndices := storeBlocks 128 (B.seqLens bid) kvPtr row kvIndices
  storeLanes (nextPowerOf2 B.speculativeNumSteps) (fun o => kvPtr + B.seqLens bid + o)
    (fun o => decide (o < iters)) (fun o => row (B.start bid topkId + o)) kvIndices

/-- The slot that is read for a step of a branch. -/
def draftSlot (B : DraftBatch) (mem : DraftMemory) (bid topkId step : ℕ) : ℕ :=
  mem.reqToToken (B.reqPoolIndices bid) (B.start bid topkId + step)

/-! ## 4. The shape of the layout -/

variable {B : DraftBatch} {mem : DraftMemory} {pid topkId step o j : ℕ} {order : List ℕ}

theorem le_nextPowerOf2 (n : ℕ) : n ≤ nextPowerOf2 n := by
  rcases Nat.eq_zero_or_pos n with rfl | h
  · exact Nat.zero_le _
  · have hlt := Nat.lt_size_self (n - 1)
    rw [nextPowerOf2, if_pos h]
    omega

/-- The length of a branch in the row, padding included. -/
def branchLen (B : DraftBatch) (pid : ℕ) : ℕ := B.numNewPagesPerTopk pid * B.pageSize

/-- The number of entries that are retained for a request. -/
def numDrafts (B : DraftBatch) : ℕ := B.topk * B.speculativeNumSteps

/-- Where the slots of a request start among those that are allocated. -/
def cumExtendLens (B : DraftBatch) (pid : ℕ) : ℕ := ∑ j ∈ range pid, B.extendLens j

/-- The entry, among those that are allocated, that becomes the slot of a step of a branch. -/
def slotIndex (B : DraftBatch) (pid topkId step : ℕ) : ℕ :=
  B.cumExtendLens pid + (topkId * B.branchLen pid + step)

variable {r : ℕ}

theorem sum_range_ite_lt (f : ℕ → ℕ) {n : ℕ} (h : r ≤ n) :
    (∑ j ∈ range n, if j < r then f j else 0) = ∑ j ∈ range r, f j := by
  rw [← sum_filter]
  congr 1
  ext j
  simp only [mem_filter, mem_range]
  omega

theorem cumCopyLen_eq (h : pid < B.numSeqs) : B.cumCopyLen pid = B.cumExtendLens pid :=
  sum_range_ite_lt _ (h.le.trans (le_nextPowerOf2 _))

theorem prefixBase_add_last (pid : ℕ) : B.prefixBase pid + B.lastPageLens pid = B.seqLens pid := by
  have h := Nat.mod_le (B.seqLens pid) B.pageSize
  rw [prefixBase, lastPageLens]
  omega

theorem div_mul_pageSize (pid : ℕ) : B.seqLens pid / B.pageSize * B.pageSize = B.prefixBase pid := by
  have h := Nat.div_add_mod' (B.seqLens pid) B.pageSize
  rw [prefixBase, lastPageLens]
  omega

section Paged

variable (hp : 1 < B.pageSize) (ht : 1 < B.topk)
include hp

theorem lastPageLens_lt (pid : ℕ) : B.lastPageLens pid < B.pageSize := Nat.mod_lt _ (by omega)

/-- A branch has room for the copy of the last page and the draft tokens. -/
theorem last_add_steps_le (pid : ℕ) :
    B.lastPageLens pid + B.speculativeNumSteps ≤ B.branchLen pid := by
  have hmod := Nat.mod_lt (B.lastPageLens pid + B.speculativeNumSteps + B.pageSize - 1)
    (show B.pageSize > 0 by omega)
  have hdiv := Nat.div_add_mod' (B.lastPageLens pid + B.speculativeNumSteps + B.pageSize - 1)
    B.pageSize
  rw [branchLen, numNewPagesPerTopk]
  omega

include ht

theorem extendLens_eq (pid : ℕ) :
    B.extendLens pid + B.lastPageLens pid = B.topk * B.branchLen pid := by
  have hlen := B.last_add_steps_le hp pid
  have hpre := B.prefixBase_add_last pid
  have hle : B.branchLen pid ≤ B.topk * B.branchLen pid := Nat.le_mul_of_pos_left _ (by omega)
  have heq : B.numNewPagesPerTopk pid * (B.pageSize * B.topk) = B.topk * B.branchLen pid := by
    rw [branchLen]
    ring
  rw [extendLens, B.div_mul_pageSize]
  omega

theorem start_eq (pid topkId : ℕ) :
    B.start pid topkId = B.seqLens pid + topkId * B.branchLen pid := by
  have h : ¬ (B.pageSize = 1 ∨ B.topk = 1) := by omega
  have hpre := B.prefixBase_add_last pid
  have hlen : topkId * B.numNewPagesPerTopk pid * B.pageSize = topkId * B.branchLen pid := by
    rw [branchLen, Nat.mul_assoc]
  rw [start, if_neg h]
  change B.seqLens pid / B.pageSize * B.pageSize + topkId * B.numNewPagesPerTopk pid * B.pageSize +
    B.lastPageLens pid = _
  rw [B.div_mul_pageSize]
  omega

/-- The slots of a branch are among those of its request. -/
theorem branch_lt_extendLens (pid : ℕ) (hb : topkId < B.topk) (hs : step < B.speculativeNumSteps) :
    topkId * B.branchLen pid + step < B.extendLens pid := by
  have hext := B.extendLens_eq hp ht pid
  have hlen := B.last_add_steps_le hp pid
  have hmul : (topkId + 1) * B.branchLen pid ≤ B.topk * B.branchLen pid := Nat.mul_le_mul_right _ hb
  rw [Nat.succ_mul] at hmul
  omega

end Paged

/-! ## 5. What a program does -/

theorem foldl_duplicateBranch (pid : ℕ) (l : List ℕ) (mem : DraftMemory) (hp : 1 < B.pageSize) :
    l.foldl (B.duplicateBranch pid) mem =
      { mem with
        sourceCacheLoc := l.foldl
          (fun m topkId => overwrite ((B.topk - 1) * (B.lastPageLensCumsum pid - B.lastPageLens pid) +
            (topkId - 1) * B.lastPageLens pid) (B.lastPageLens pid)
            (fun o => mem.reqToToken (B.reqPoolIndices pid) (B.prefixBase pid + o)) m)
          mem.sourceCacheLoc
        targetCacheLoc := l.foldl
          (fun m topkId => overwrite ((B.topk - 1) * (B.lastPageLensCumsum pid - B.lastPageLens pid) +
            (topkId - 1) * B.lastPageLens pid) (B.lastPageLens pid)
            (fun o => mem.reqToToken (B.reqPoolIndices pid)
              (B.prefixBase pid + topkId * B.branchLen pid + o)) m)
          mem.targetCacheLoc } := by
  induction l generalizing mem with
  | nil => rfl
  | cons topkId l ih =>
    have hlast := (B.lastPageLens_lt hp pid).le
    rw [List.foldl_cons, ih]
    simp [duplicateBranch, storeLanes_front hlast, branchLen, Nat.mul_assoc]

theorem foldl_compactBranch (pid : ℕ) (l : List ℕ) (mem : DraftMemory) (hp : 1 < B.pageSize) :
    l.foldl (B.compactBranch pid) mem =
      { mem with
        outCacheLoc := l.foldl
          (fun m topkId => overwrite (pid * B.numDrafts + topkId * B.speculativeNumSteps)
            B.speculativeNumSteps
            (fun s => mem.reqToToken (B.reqPoolIndices pid)
              (B.seqLens pid + topkId * B.branchLen pid + s)) m)
          mem.outCacheLoc } := by
  induction l generalizing mem with
  | nil => rfl
  | cons topkId l ih =>
    have hlast := B.lastPageLens_lt hp pid
    have hpre := B.prefixBase_add_last pid
    have hpow := le_nextPowerOf2 (B.speculativeNumSteps + B.pageSize)
    have hbase : pid * B.speculativeNumSteps * B.topk = pid * B.numDrafts := by
      rw [numDrafts]
      ring
    have hstore : B.compactBranch pid mem topkId =
        { mem with
          outCacheLoc := overwrite (pid * B.numDrafts + topkId * B.speculativeNumSteps)
            B.speculativeNumSteps
            (fun s => mem.reqToToken (B.reqPoolIndices pid)
              (B.seqLens pid + topkId * B.branchLen pid + s)) mem.outCacheLoc } := by
      rw [compactBranch, storeLanes_eq_overwrite (B.lastPageLens pid)
        (pid * B.numDrafts + topkId * B.speculativeNumSteps) B.speculativeNumSteps,
        Nat.min_eq_left (by omega)]
      · congr 2
        funext s
        rw [branchLen, ← Nat.mul_assoc]
        congr 1
        omega
      · intro l _
        simp only [Bool.and_eq_true, decide_eq_true_eq]
        omega
      · intro l _ _
        omega
    rw [List.foldl_cons, ih, hstore, List.foldl_cons]

/-- The row of a request with the slots it is given, when its program reads them from `out`. -/
def newRow (B : DraftBatch) (pid : ℕ) (out row : ℕ → ℕ) : ℕ → ℕ :=
  overwrite (B.seqLens pid) (B.extendLens pid) (fun o => out (B.cumExtendLens pid + o)) row

/-- Where the part of a request starts in the source and target lists. -/
def listStart (B : DraftBatch) (pid : ℕ) : ℕ :=
  (B.topk - 1) * ∑ j ∈ range pid, B.lastPageLens j

section Program

variable (hp : 1 < B.pageSize) (ht : 1 < B.topk)
include hp ht

theorem copyLocs_eq (hpid : pid < B.numSeqs) :
    B.copyLocs pid mem =
      { mem with
        reqToToken := Function.update mem.reqToToken (B.reqPoolIndices pid)
          (B.newRow pid mem.outCacheLoc (mem.reqToToken (B.reqPoolIndices pid))) } := by
  have h : ¬ (B.pageSize = 1 ∨ B.topk = 1) := by omega
  rw [copyLocs, storeBlocks_eq_overwrite (by omega), copyLen, if_neg h, outCachePtr, if_neg h,
    cumCopyLen_eq hpid]
  rfl

/-- Where every last page is full, a program only fills the row of its request. -/
theorem assignProgram_of_full (hpid : pid < B.numSeqs) (hd : B.duplicateCacheLen = 0) :
    B.assignProgram mem pid =
      { mem with
        reqToToken := Function.update mem.reqToToken (B.reqPoolIndices pid)
          (B.newRow pid mem.outCacheLoc (mem.reqToToken (B.reqPoolIndices pid))) } := by
  rw [assignProgram, if_neg (by omega), copyLocs_eq hp ht hpid]

/-- **What the program of a request does when some last page is partial.** -/
theorem assignProgram_of_partialPage (hpid : pid < B.numSeqs) (hd : 0 < B.duplicateCacheLen) :
    let row := B.newRow pid mem.outCacheLoc (mem.reqToToken (B.reqPoolIndices pid))
    B.assignProgram mem pid =
      { reqToToken := Function.update mem.reqToToken (B.reqPoolIndices pid) row
        outCacheLoc := overwrite (pid * B.numDrafts) B.numDrafts
          (fun j => row (B.start pid (j / B.speculativeNumSteps) + j % B.speculativeNumSteps))
          mem.outCacheLoc
        sourceCacheLoc := overwrite (B.listStart pid) ((B.topk - 1) * B.lastPageLens pid)
          (fun j => row (B.prefixBase pid + j % B.lastPageLens pid)) mem.sourceCacheLoc
        targetCacheLoc := overwrite (B.listStart pid) ((B.topk - 1) * B.lastPageLens pid)
          (fun j => row (B.prefixBase pid + (j / B.lastPageLens pid + 1) * B.branchLen pid +
            j % B.lastPageLens pid)) mem.targetCacheLoc } := by
  intro row
  have hcum : (B.topk - 1) * (B.lastPageLensCumsum pid - B.lastPageLens pid) = B.listStart pid := by
    rw [lastPageLensCumsum, sum_range_succ, Nat.add_sub_cancel, listStart]
  rw [assignProgram, if_pos ⟨by omega, hd⟩, copyLocs_eq hp ht hpid, foldl_duplicateBranch _ _ _ hp,
    foldl_compactBranch _ _ _ hp, hcum, List.range'_eq_map_range]
  simp only [List.foldl_map, Function.update_self, Nat.add_sub_cancel_left]
  rw [foldl_overwrite_tiles B.topk fun topkId s => row (B.seqLens pid + topkId * B.branchLen pid + s),
    foldl_overwrite_tiles (B.topk - 1) fun _ o => row (B.prefixBase pid + o),
    foldl_overwrite_tiles (B.topk - 1) fun topkId o =>
      row (B.prefixBase pid + (1 + topkId) * B.branchLen pid + o)]
  simp only [start_eq hp ht, Nat.add_comm 1]
  rfl

end Program

/-! ## 6. Runs of the programs -/

/-- The programs that run before the one of a request. -/
def runsBefore (order : List ℕ) (pid : ℕ) : List ℕ := order.takeWhile (· ≠ pid)

theorem runsBefore_append {pre post : List ℕ} (h : pid ∉ pre) :
    runsBefore (pre ++ pid :: post) pid = pre := by
  have hpre : ∀ w ∈ pre, decide (w ≠ pid) = true := fun w hw =>
    decide_eq_true fun he => h (he ▸ hw)
  rw [runsBefore, List.takeWhile_append_of_pos hpre, List.takeWhile_cons_of_neg (by simp),
    List.append_nil]

/-- An order of the programs, around the one of a request. -/
theorem exists_runsBefore (horder : order.Perm (List.range B.numSeqs)) (hpid : pid < B.numSeqs) :
    ∃ pre post, order = pre ++ pid :: post ∧ runsBefore order pid = pre ∧ pid ∉ pre ∧ pid ∉ post ∧
      (∀ w ∈ pre, w ∉ post) ∧ (∀ w ∈ pre, w < B.numSeqs) ∧ ∀ w ∈ post, w < B.numSeqs := by
  have hnodup : order.Nodup := horder.nodup_iff.mpr List.nodup_range
  have hlt : ∀ w ∈ order, w < B.numSeqs := fun w hw => List.mem_range.mp (horder.mem_iff.mp hw)
  obtain ⟨pre, post, rfl⟩ := List.append_of_mem (horder.mem_iff.mpr (List.mem_range.mpr hpid))
  have hdis := (List.nodup_append.mp hnodup).2.2
  have hpre : pid ∉ pre := fun h => hdis _ h _ List.mem_cons_self rfl
  have hpost : pid ∉ post := (List.nodup_cons.mp (List.nodup_append.mp hnodup).2.1).1
  exact ⟨pre, post, rfl, runsBefore_append hpre, hpre, hpost,
    fun w h1 h2 => hdis _ h1 _ (List.mem_cons_of_mem _ h2) rfl,
    fun w h => hlt w (List.mem_append_left _ h),
    fun w h => hlt w (List.mem_append_right _ (List.mem_cons_of_mem _ h))⟩

variable {w a : ℕ}

/-- The window of a request among consecutive windows is apart from those of the others. -/
theorem outside_window {start len : ℕ → ℕ} (hmono : Monotone start)
    (hsucc : ∀ r, start (r + 1) = start r + len r) (hne : w ≠ r)
    (ha : start r ≤ a ∧ a < start r + len r) : a < start w ∨ start w + len w ≤ a := by
  rcases Nat.lt_or_gt_of_ne hne with h | h
  · have h1 := hmono (Nat.succ_le_of_lt h)
    have h2 := hsucc w
    simp only [Nat.succ_eq_add_one] at h1
    omega
  · have h1 := hmono (Nat.succ_le_of_lt h)
    have h2 := hsucc r
    simp only [Nat.succ_eq_add_one] at h1
    omega

theorem cumExtendLens_succ (pid : ℕ) :
    B.cumExtendLens (pid + 1) = B.cumExtendLens pid + B.extendLens pid :=
  sum_range_succ _ _

theorem cumExtendLens_mono : Monotone B.cumExtendLens :=
  monotone_nat_of_le_succ fun pid => by rw [cumExtendLens_succ]; omega

theorem listStart_succ (pid : ℕ) :
    B.listStart (pid + 1) = B.listStart pid + (B.topk - 1) * B.lastPageLens pid := by
  rw [listStart, sum_range_succ, Nat.mul_add]
  rfl

theorem listStart_mono : Monotone B.listStart :=
  monotone_nat_of_le_succ fun pid => by rw [listStart_succ]; omega

section Run

variable (hp : 1 < B.pageSize) (ht : 1 < B.topk)
include hp ht

/-- A program leaves the rows of the other requests alone. -/
theorem assignProgram_row (hw : w < B.numSeqs) (hne : B.reqPoolIndices pid ≠ B.reqPoolIndices w) :
    (B.assignProgram mem w).reqToToken (B.reqPoolIndices pid) =
      mem.reqToToken (B.reqPoolIndices pid) := by
  rcases Nat.eq_zero_or_pos B.duplicateCacheLen with hd | hd
  · rw [assignProgram_of_full hp ht hw hd]
    exact Function.update_of_ne hne _ _
  · rw [assignProgram_of_partialPage hp ht hw hd]
    exact Function.update_of_ne hne _ _

/-- A program only writes the entries of `out_cache_loc` that are retained for its request. -/
theorem assignProgram_out (hw : w < B.numSeqs) (ha : a / B.numDrafts ≠ w) :
    (B.assignProgram mem w).outCacheLoc a = mem.outCacheLoc a := by
  rcases Nat.eq_zero_or_pos B.duplicateCacheLen with hd | hd
  · rw [assignProgram_of_full hp ht hw hd]
  · rw [assignProgram_of_partialPage hp ht hw hd]
    dsimp only
    refine overwrite_of_outside ?_
    by_contra hin
    refine ha (Nat.div_eq_of_lt_le (by omega) ?_)
    rw [Nat.succ_mul]
    omega

theorem run_row {pre : List ℕ} (hpre : ∀ w ∈ pre, w < B.numSeqs)
    (hne : ∀ w ∈ pre, B.reqPoolIndices pid ≠ B.reqPoolIndices w) :
    (B.assignDraftCacheLocs pre mem).reqToToken (B.reqPoolIndices pid) =
      mem.reqToToken (B.reqPoolIndices pid) := by
  induction pre generalizing mem with
  | nil => rfl
  | cons w pre ih =>
    rw [List.forall_mem_cons] at hpre hne
    exact (ih hpre.2 hne.2).trans (assignProgram_row hp ht hpre.1 hne.1)

theorem run_out {pre : List ℕ} (hpre : ∀ w ∈ pre, w < B.numSeqs) (ha : a / B.numDrafts ∉ pre) :
    (B.assignDraftCacheLocs pre mem).outCacheLoc a = mem.outCacheLoc a := by
  induction pre generalizing mem with
  | nil => rfl
  | cons w pre ih =>
    rw [List.forall_mem_cons] at hpre
    rw [List.mem_cons, not_or] at ha
    exact (ih hpre.2 ha.2).trans (assignProgram_out hp ht hpre.1 ha.1)

theorem run_lists {pre : List ℕ} (hpre : ∀ w ∈ pre, w < B.numSeqs) (hpid : pid ∉ pre)
    (ha : B.listStart pid ≤ a ∧ a < B.listStart pid + (B.topk - 1) * B.lastPageLens pid) :
    (B.assignDraftCacheLocs pre mem).sourceCacheLoc a = mem.sourceCacheLoc a ∧
      (B.assignDraftCacheLocs pre mem).targetCacheLoc a = mem.targetCacheLoc a := by
  induction pre generalizing mem with
  | nil => exact ⟨rfl, rfl⟩
  | cons w pre ih =>
    rw [List.forall_mem_cons] at hpre
    rw [List.mem_cons, not_or] at hpid
    obtain ⟨h1, h2⟩ := @ih (B.assignProgram mem w) hpre.2 hpid.2
    refine ⟨h1.trans ?_, h2.trans ?_⟩ <;>
    · rcases Nat.eq_zero_or_pos B.duplicateCacheLen with hd | hd
      · rw [assignProgram_of_full hp ht hpre.1 hd]
      · rw [assignProgram_of_partialPage hp ht hpre.1 hd]
        dsimp only
        exact overwrite_of_outside (outside_window listStart_mono listStart_succ (Ne.symm hpid.1) ha)

/-- A run goes through the program of each request, with the row of the request still untouched. -/
theorem run_split (mem : DraftMemory) (horder : order.Perm (List.range B.numSeqs))
    (hinj : Set.InjOn B.reqPoolIndices (Set.Iio B.numSeqs)) (hpid : pid < B.numSeqs) :
    ∃ post, pid ∉ post ∧ (∀ w ∈ runsBefore order pid, w ∉ post) ∧ (∀ w ∈ post, w < B.numSeqs) ∧
      B.assignDraftCacheLocs order mem = B.assignDraftCacheLocs post
        (B.assignProgram (B.assignDraftCacheLocs (runsBefore order pid) mem) pid) ∧
      (B.assignDraftCacheLocs (runsBefore order pid) mem).reqToToken (B.reqPoolIndices pid) =
        mem.reqToToken (B.reqPoolIndices pid) := by
  obtain ⟨pre, post, rfl, hbefore, hpre, hpost, hdis, hlt, hlt'⟩ := exists_runsBefore horder hpid
  rw [hbefore]
  refine ⟨post, hpost, hdis, hlt', List.foldl_append, run_row hp ht hlt fun w hw he => ?_⟩
  exact hpre (hinj hpid (hlt w hw) he ▸ hw)

/-- **The row of a request in the end.**  It holds the entries its own program found. -/
theorem row_of_run (mem : DraftMemory) (horder : order.Perm (List.range B.numSeqs))
    (hinj : Set.InjOn B.reqPoolIndices (Set.Iio B.numSeqs)) (hpid : pid < B.numSeqs) :
    (B.assignDraftCacheLocs order mem).reqToToken (B.reqPoolIndices pid) =
      B.newRow pid (B.assignDraftCacheLocs (runsBefore order pid) mem).outCacheLoc
        (mem.reqToToken (B.reqPoolIndices pid)) := by
  obtain ⟨post, hpost, -, hlt, hrun, hrow⟩ := run_split hp ht mem horder hinj hpid
  have hne : ∀ w ∈ post, B.reqPoolIndices pid ≠ B.reqPoolIndices w := fun w hw he =>
    hpost (hinj hpid (hlt w hw) he ▸ hw)
  rw [hrun, run_row hp ht hlt hne]
  rcases Nat.eq_zero_or_pos B.duplicateCacheLen with hd | hd
  · rw [assignProgram_of_full hp ht hpid hd]
    dsimp only
    rw [Function.update_self, hrow]
  · rw [assignProgram_of_partialPage hp ht hpid hd]
    dsimp only
    rw [Function.update_self, hrow]

/-- The slot that is read in the end is the entry that the request's own program found. -/
theorem draftSlot_of_run (mem : DraftMemory) (horder : order.Perm (List.range B.numSeqs))
    (hinj : Set.InjOn B.reqPoolIndices (Set.Iio B.numSeqs)) (hpid : pid < B.numSeqs)
    (hb : topkId < B.topk) (hs : step < B.speculativeNumSteps) :
    B.draftSlot (B.assignDraftCacheLocs order mem) pid topkId step =
      (B.assignDraftCacheLocs (runsBefore order pid) mem).outCacheLoc
        (B.slotIndex pid topkId step) := by
  rw [draftSlot, row_of_run hp ht mem horder hinj hpid, start_eq hp ht, Nat.add_assoc, newRow,
    overwrite_apply_add (branch_lt_extendLens hp ht pid hb hs), slotIndex]

/-- Where some last page is partial, the entries retained for a request are its row's. -/
theorem out_of_run (mem : DraftMemory) (horder : order.Perm (List.range B.numSeqs))
    (hinj : Set.InjOn B.reqPoolIndices (Set.Iio B.numSeqs)) (hd : 0 < B.duplicateCacheLen)
    (hpid : pid < B.numSeqs) (hj : j < B.numDrafts) :
    (B.assignDraftCacheLocs order mem).outCacheLoc (pid * B.numDrafts + j) =
      B.draftSlot (B.assignDraftCacheLocs order mem) pid (j / B.speculativeNumSteps)
        (j % B.speculativeNumSteps) := by
  obtain ⟨post, hpost, -, hlt, hrun, hrow⟩ := run_split hp ht mem horder hinj hpid
  have hdiv : (pid * B.numDrafts + j) / B.numDrafts = pid := tile_div pid hj
  rw [draftSlot, row_of_run hp ht mem horder hinj hpid, hrun,
    run_out hp ht hlt (hdiv.symm ▸ hpost), assignProgram_of_partialPage hp ht hpid hd]
  dsimp only
  rw [overwrite_apply_add hj, hrow]

/-- The part of a request in the source and target lists. -/
theorem lists_of_run (mem : DraftMemory) (horder : order.Perm (List.range B.numSeqs))
    (hinj : Set.InjOn B.reqPoolIndices (Set.Iio B.numSeqs)) (hd : 0 < B.duplicateCacheLen)
    (hpid : pid < B.numSeqs) (hj : j < (B.topk - 1) * B.lastPageLens pid) :
    let mem' := B.assignDraftCacheLocs order mem
    mem'.sourceCacheLoc (B.listStart pid + j) =
        mem'.reqToToken (B.reqPoolIndices pid) (B.prefixBase pid + j % B.lastPageLens pid) ∧
      mem'.targetCacheLoc (B.listStart pid + j) = mem'.reqToToken (B.reqPoolIndices pid)
          (B.prefixBase pid + (j / B.lastPageLens pid + 1) * B.branchLen pid +
            j % B.lastPageLens pid) := by
  obtain ⟨post, hpost, -, hlt, hrun, hrow⟩ := run_split hp ht mem horder hinj hpid
  have hin : B.listStart pid ≤ B.listStart pid + j ∧
      B.listStart pid + j < B.listStart pid + (B.topk - 1) * B.lastPageLens pid := by omega
  dsimp only
  rw [row_of_run hp ht mem horder hinj hpid, hrun, (run_lists hp ht hlt hpost hin).1,
    (run_lists hp ht hlt hpost hin).2, assignProgram_of_partialPage hp ht hpid hd]
  dsimp only
  rw [overwrite_apply_add hj, overwrite_apply_add hj, hrow]
  exact ⟨rfl, rfl⟩

end Run

/-! ## 7. When the layouts agree -/

/-- The two kernels agree on the layout of the draft tokens. -/
structure LayoutAgrees (B : DraftBatch) (mem mem' : DraftMemory) : Prop where
  /-- What is retained for a step is the slot that is read for it. -/
  retained_eq : ∀ pid < B.numSeqs, ∀ topkId < B.topk, ∀ step < B.speculativeNumSteps,
    B.retained mem' pid topkId step = B.draftSlot mem' pid topkId step
  /-- No slot serves two draft tokens. -/
  distinct : ∀ pid < B.numSeqs, ∀ topkId < B.topk, ∀ step < B.speculativeNumSteps,
    ∀ pid' < B.numSeqs, ∀ topkId' < B.topk, ∀ step' < B.speculativeNumSteps,
      B.draftSlot mem' pid topkId step = B.draftSlot mem' pid' topkId' step' →
        pid = pid' ∧ topkId = topkId' ∧ step = step'
  /-- The lists pair the last partial page of each prefix with the head of each further branch. -/
  lists_eq : (List.range B.duplicateCacheLen).map
      (fun i => (mem'.sourceCacheLoc i, mem'.targetCacheLoc i)) =
    (List.range B.numSeqs).flatMap fun pid => (List.range' 1 (B.topk - 1)).flatMap fun topkId =>
      (List.range (B.lastPageLens pid)).map fun o =>
        (mem.reqToToken (B.reqPoolIndices pid) (B.prefixBase pid + o),
          mem'.reqToToken (B.reqPoolIndices pid)
            (B.prefixBase pid + topkId * (B.numNewPagesPerTopk pid * B.pageSize) + o))

/-- The compaction has been done where it is needed, and only over entries that are not needed: with
every last page full the branches are not padded; otherwise no program runs before that of a request
whose slots it overwrites. -/
def CompactionSafe (B : DraftBatch) (order : List ℕ) : Prop :=
  (B.duplicateCacheLen = 0 → B.numSeqs = 0 ∨ B.pageSize ∣ B.speculativeNumSteps) ∧
  (0 < B.duplicateCacheLen → ∀ pid < B.numSeqs, ∀ topkId < B.topk, ∀ step < B.speculativeNumSteps,
    B.slotIndex pid topkId step / B.numDrafts ∉ runsBefore order pid)

instance (order : List ℕ) : Decidable (B.CompactionSafe order) :=
  inferInstanceAs (Decidable (_ ∧ _))

section Agreement

variable (hp : 1 < B.pageSize) (ht : 1 < B.topk)
include hp ht

theorem slotIndex_lt (hpid : pid < B.numSeqs) (hb : topkId < B.topk)
    (hs : step < B.speculativeNumSteps) : B.slotIndex pid topkId step < B.extendNumTokens := by
  have hlt := branch_lt_extendLens hp ht pid hb hs
  have hmono := B.cumExtendLens_mono (Nat.succ_le_of_lt hpid)
  have hsucc := B.cumExtendLens_succ pid
  change B.slotIndex pid topkId step < B.cumExtendLens B.numSeqs
  rw [slotIndex]
  simp only [Nat.succ_eq_add_one] at hmono
  omega

theorem slotIndex_inj {pid' topkId' step' : ℕ} (hb : topkId < B.topk)
    (hs : step < B.speculativeNumSteps) (hb' : topkId' < B.topk) (hs' : step' < B.speculativeNumSteps)
    (h : B.slotIndex pid topkId step = B.slotIndex pid' topkId' step') :
    pid = pid' ∧ topkId = topkId' ∧ step = step' := by
  have hlt := branch_lt_extendLens hp ht pid hb hs
  have hlt' := branch_lt_extendLens hp ht pid' hb' hs'
  simp only [slotIndex] at h
  have hpid : pid = pid' := by
    by_contra hne
    have := outside_window cumExtendLens_mono B.cumExtendLens_succ hne
      (show B.cumExtendLens pid' ≤ B.cumExtendLens pid' + (topkId' * B.branchLen pid' + step') ∧
        B.cumExtendLens pid' + (topkId' * B.branchLen pid' + step') <
          B.cumExtendLens pid' + B.extendLens pid' by omega)
    omega
  subst hpid
  have hlen := B.last_add_steps_le hp pid
  have heq : topkId * B.branchLen pid + step = topkId' * B.branchLen pid + step' := by omega
  have hdiv := congrArg (· / B.branchLen pid) heq
  have hmod := congrArg (· % B.branchLen pid) heq
  simp only [tile_div topkId (show step < B.branchLen pid by omega),
    tile_div topkId' (show step' < B.branchLen pid by omega),
    Nat.mul_add_mod_of_lt (show step < B.branchLen pid by omega),
    Nat.mul_add_mod_of_lt (show step' < B.branchLen pid by omega)] at hdiv hmod
  exact ⟨rfl, hdiv, hmod⟩

theorem lists_eq_of_run (mem : DraftMemory) (horder : order.Perm (List.range B.numSeqs))
    (hinj : Set.InjOn B.reqPoolIndices (Set.Iio B.numSeqs)) :
    let mem' := B.assignDraftCacheLocs order mem
    (List.range B.duplicateCacheLen).map (fun i => (mem'.sourceCacheLoc i, mem'.targetCacheLoc i)) =
      (List.range B.numSeqs).flatMap fun pid => (List.range' 1 (B.topk - 1)).flatMap fun topkId =>
        (List.range (B.lastPageLens pid)).map fun o =>
          (mem.reqToToken (B.reqPoolIndices pid) (B.prefixBase pid + o),
            mem'.reqToToken (B.reqPoolIndices pid)
              (B.prefixBase pid + topkId * (B.numNewPagesPerTopk pid * B.pageSize) + o)) := by
  intro mem'
  have hlen : B.duplicateCacheLen = B.listStart B.numSeqs := Nat.mul_comm _ _
  rw [hlen, map_range_sum _ (fun pid => (B.topk - 1) * B.lastPageLens pid) B.listStart
    (fun pid j => (mem.reqToToken (B.reqPoolIndices pid) (B.prefixBase pid + j % B.lastPageLens pid),
      mem'.reqToToken (B.reqPoolIndices pid) (B.prefixBase pid +
        (j / B.lastPageLens pid + 1) * B.branchLen pid + j % B.lastPageLens pid)))]
  · refine List.flatMap_congr fun pid _ => ?_
    rw [map_range_sum _ (fun _ => B.lastPageLens pid) (fun b => b * B.lastPageLens pid)
      (fun b o => (mem.reqToToken (B.reqPoolIndices pid) (B.prefixBase pid + o),
        mem'.reqToToken (B.reqPoolIndices pid) (B.prefixBase pid + (b + 1) * B.branchLen pid + o))),
      List.range'_eq_map_range, List.flatMap_map]
    · simp [Nat.add_comm 1, branchLen]
    · exact Nat.zero_mul _
    · exact fun b _ => Nat.succ_mul _ _
    · intro b _ o ho
      rw [tile_div b ho, Nat.mul_add_mod_of_lt ho]
  · simp [listStart]
  · exact fun pid _ => listStart_succ pid
  · intro pid hpid j hj
    have hd : 0 < B.duplicateCacheLen := by
      have h1 := B.listStart_mono (Nat.succ_le_of_lt hpid)
      have h2 := B.listStart_succ pid
      simp only [Nat.succ_eq_add_one] at h1
      omega
    have hlast : j % B.lastPageLens pid < B.lastPageLens pid := by
      refine Nat.mod_lt _ (Nat.pos_of_ne_zero fun h => ?_)
      rw [h] at hj
      omega
    have hpre := B.prefixBase_add_last pid
    obtain ⟨h1, h2⟩ := lists_of_run hp ht mem horder hinj hd hpid hj
    rw [h1, h2, row_of_run hp ht mem horder hinj hpid, newRow, overwrite_of_outside (.inl (by omega))]

/-- Where some last page is partial, what is retained is always what is read. -/
theorem retained_of_run (mem : DraftMemory) (horder : order.Perm (List.range B.numSeqs))
    (hinj : Set.InjOn B.reqPoolIndices (Set.Iio B.numSeqs)) (hd : 0 < B.duplicateCacheLen)
    (hpid : pid < B.numSeqs) (hb : topkId < B.topk) (hs : step < B.speculativeNumSteps) :
    B.retained (B.assignDraftCacheLocs order mem) pid topkId step =
      B.draftSlot (B.assignDraftCacheLocs order mem) pid topkId step := by
  have hj : topkId * B.speculativeNumSteps + step < B.numDrafts := by
    have h := Nat.mul_le_mul_right B.speculativeNumSteps hb
    rw [Nat.succ_mul] at h
    rw [numDrafts]
    omega
  have h := out_of_run hp ht mem horder hinj hd hpid hj
  rw [tile_div topkId hs, Nat.mul_add_mod_of_lt hs] at h
  rw [retained, ← h, numDrafts]
  congr 1
  ring

theorem run_out_of_full {pre : List ℕ} (hd : B.duplicateCacheLen = 0)
    (hpre : ∀ w ∈ pre, w < B.numSeqs) :
    (B.assignDraftCacheLocs pre mem).outCacheLoc = mem.outCacheLoc := by
  induction pre generalizing mem with
  | nil => rfl
  | cons w pre ih =>
    rw [List.forall_mem_cons] at hpre
    refine (ih hpre.2).trans ?_
    rw [assignProgram_of_full hp ht hpre.1 hd]

omit hp in
theorem last_eq_zero (hd : B.duplicateCacheLen = 0) (hpid : pid < B.numSeqs) :
    B.lastPageLens pid = 0 := by
  rcases Nat.mul_eq_zero.mp hd with h | h
  · exact sum_eq_zero_iff.mp h pid (mem_range.mpr hpid)
  · omega

omit ht in
/-- With a full last page the branches are not padded exactly when the steps fill whole pages. -/
theorem branchLen_eq_steps (hlast : B.lastPageLens pid = 0) :
    B.branchLen pid = B.speculativeNumSteps ↔ B.pageSize ∣ B.speculativeNumSteps := by
  constructor
  · exact fun h => h ▸ Nat.dvd_mul_left _ _
  · rintro ⟨c, hc⟩
    have hdiv : (B.pageSize * c + (B.pageSize - 1)) / B.pageSize = c := by
      rw [Nat.mul_add_div (by omega), Nat.div_eq_of_lt (by omega), Nat.add_zero]
    rw [branchLen, numNewPagesPerTopk, hlast, Nat.zero_add, hc, Nat.add_sub_assoc (by omega), hdiv,
      Nat.mul_comm]

theorem cumExtendLens_of_full (hd : B.duplicateCacheLen = 0)
    (hdvd : B.pageSize ∣ B.speculativeNumSteps) (hpid : pid ≤ B.numSeqs) :
    B.cumExtendLens pid = pid * B.numDrafts := by
  induction pid with
  | zero => simp [cumExtendLens]
  | succ pid ih =>
    have hlast := last_eq_zero ht hd hpid
    have hext := B.extendLens_eq hp ht pid
    rw [(branchLen_eq_steps hp hlast).mpr hdvd] at hext
    rw [cumExtendLens_succ, ih (by omega), Nat.succ_mul, numDrafts]
    omega

/-- Without the compaction, what is retained is what is read where the branches are not padded. -/
theorem retained_of_full (mem : DraftMemory) (horder : order.Perm (List.range B.numSeqs))
    (hinj : Set.InjOn B.reqPoolIndices (Set.Iio B.numSeqs)) (hd : B.duplicateCacheLen = 0)
    (hdvd : B.pageSize ∣ B.speculativeNumSteps) (hpid : pid < B.numSeqs) (hb : topkId < B.topk)
    (hs : step < B.speculativeNumSteps) :
    B.retained (B.assignDraftCacheLocs order mem) pid topkId step =
      B.draftSlot (B.assignDraftCacheLocs order mem) pid topkId step := by
  obtain ⟨pre, post, -, hbefore, -, -, -, hlt, -⟩ := exists_runsBefore horder hpid
  have hlt' : ∀ w ∈ order, w < B.numSeqs := fun w hw => List.mem_range.mp (horder.mem_iff.mp hw)
  have hlen := (branchLen_eq_steps hp (last_eq_zero ht hd hpid)).mpr hdvd
  rw [draftSlot_of_run hp ht mem horder hinj hpid hb hs, hbefore, retained,
    run_out_of_full hp ht hd hlt', run_out_of_full hp ht hd hlt, slotIndex,
    cumExtendLens_of_full hp ht hd hdvd hpid.le, hlen, numDrafts]
  congr 1
  ring

/-- An entry that a program overwrote before it was read serves two draft tokens. -/
theorem draftSlot_of_overwritten (mem : DraftMemory) (horder : order.Perm (List.range B.numSeqs))
    (hinj : Set.InjOn B.reqPoolIndices (Set.Iio B.numSeqs)) (hd : 0 < B.duplicateCacheLen)
    (hpid : pid < B.numSeqs) (hb : topkId < B.topk) (hs : step < B.speculativeNumSteps)
    (hw : B.slotIndex pid topkId step / B.numDrafts ∈ runsBefore order pid) :
    ∃ pid' < B.numSeqs, pid' ≠ pid ∧ ∃ topkId' < B.topk, ∃ step' < B.speculativeNumSteps,
      B.draftSlot (B.assignDraftCacheLocs order mem) pid topkId step =
        B.draftSlot (B.assignDraftCacheLocs order mem) pid' topkId' step' := by
  obtain ⟨pre, post, rfl, hbefore, hpre, -, hdis, hlt, hlt'⟩ := exists_runsBefore horder hpid
  have hsteps : 0 < B.speculativeNumSteps := by omega
  have hk : 0 < B.numDrafts := Nat.mul_pos (by omega) hsteps
  rw [hbefore] at hw
  obtain ⟨q, hq⟩ : ∃ q, B.slotIndex pid topkId step = q := ⟨_, rfl⟩
  rw [hq] at hw
  have hmod : q % B.numDrafts < B.numDrafts := Nat.mod_lt _ hk
  have hne : q / B.numDrafts ≠ pid := fun h => hpre (h ▸ hw)
  refine ⟨q / B.numDrafts, hlt _ hw, hne, q % B.numDrafts / B.speculativeNumSteps, ?_,
    q % B.numDrafts % B.speculativeNumSteps, Nat.mod_lt _ hsteps, ?_⟩
  · exact (Nat.div_lt_iff_lt_mul hsteps).mpr hmod
  · -- neither the program itself nor the later ones touch the entry again
    have hrest : ∀ w ∈ pid :: post, w < B.numSeqs := List.forall_mem_cons.mpr ⟨hpid, hlt'⟩
    have hnot : q / B.numDrafts ∉ pid :: post := by
      rw [List.mem_cons, not_or]
      exact ⟨hne, hdis _ hw⟩
    have hrun : B.assignDraftCacheLocs (pre ++ pid :: post) mem =
        B.assignDraftCacheLocs (pid :: post) (B.assignDraftCacheLocs pre mem) := List.foldl_append
    rw [← out_of_run hp ht mem horder hinj hd (hlt _ hw) hmod,
      draftSlot_of_run hp ht mem horder hinj hpid hb hs, hbefore, hq, Nat.div_add_mod', hrun,
      run_out hp ht hrest hnot]

/-- **When the layouts agree.**  Run in any order, the programs leave a layout the two kernels agree on
exactly if the compaction is safe. -/
theorem layout_agrees_iff (mem : DraftMemory) (horder : order.Perm (List.range B.numSeqs))
    (hinj : Set.InjOn B.reqPoolIndices (Set.Iio B.numSeqs))
    (hslots : Set.InjOn mem.outCacheLoc (Set.Iio B.extendNumTokens)) :
    B.LayoutAgrees mem (B.assignDraftCacheLocs order mem) ↔ B.CompactionSafe order := by
  have hlt : ∀ w ∈ order, w < B.numSeqs := fun w hw => List.mem_range.mp (horder.mem_iff.mp hw)
  have hlt' : ∀ pid < B.numSeqs, ∀ w ∈ runsBefore order pid, w < B.numSeqs := fun pid _ w hw =>
    hlt w ((List.takeWhile_prefix _).subset hw)
  constructor
  · intro h
    refine ⟨fun hd => ?_, fun hd pid hpid topkId hb step hs hw => ?_⟩
    · rcases Nat.eq_zero_or_pos B.numSeqs with hn | hn
      · exact .inl hn
      refine .inr ?_
      by_contra hdvd
      have hsteps : 0 < B.speculativeNumSteps := Nat.pos_of_ne_zero fun h0 => hdvd (h0 ▸ dvd_zero _)
      have hne := mt (branchLen_eq_steps hp (last_eq_zero ht hd hn)).mp hdvd
      -- the first step of the second branch is looked for beside the padding
      have heq := h.retained_eq 0 hn 1 ht 0 hsteps
      have hq := slotIndex_lt hp ht hn ht hsteps
      have hle := B.last_add_steps_le hp 0
      rw [draftSlot_of_run hp ht mem horder hinj hn ht hsteps, retained, run_out_of_full hp ht hd hlt,
        run_out_of_full hp ht hd (hlt' 0 hn)] at heq
      have hidx : B.slotIndex 0 1 0 = B.branchLen 0 := by
        simp [slotIndex, cumExtendLens]
      rw [hidx] at heq hq
      simp only [Nat.zero_mul, Nat.zero_add, Nat.one_mul, Nat.add_zero] at heq
      have hmem : B.speculativeNumSteps ∈ Set.Iio B.extendNumTokens :=
        lt_of_le_of_lt (show B.speculativeNumSteps ≤ B.branchLen 0 by omega) hq
      exact hne (hslots hmem hq heq).symm
    · obtain ⟨pid', hpid', hne, topkId', hb', step', hs', heq⟩ :=
        draftSlot_of_overwritten hp ht mem horder hinj hd hpid hb hs hw
      exact hne (h.distinct pid hpid topkId hb step hs pid' hpid' topkId' hb' step' hs' heq).1.symm
  · intro h
    have hslot : ∀ pid < B.numSeqs, ∀ topkId < B.topk, ∀ step < B.speculativeNumSteps,
        B.draftSlot (B.assignDraftCacheLocs order mem) pid topkId step =
          mem.outCacheLoc (B.slotIndex pid topkId step) := by
      intro pid hpid topkId hb step hs
      rw [draftSlot_of_run hp ht mem horder hinj hpid hb hs]
      rcases Nat.eq_zero_or_pos B.duplicateCacheLen with hd | hd
      · rw [run_out_of_full hp ht hd (hlt' pid hpid)]
      · exact run_out hp ht (hlt' pid hpid) (h.2 hd pid hpid topkId hb step hs)
    refine ⟨fun pid hpid topkId hb step hs => ?_, ?_, lists_eq_of_run hp ht mem horder hinj⟩
    · rcases Nat.eq_zero_or_pos B.duplicateCacheLen with hd | hd
      · rcases h.1 hd with hn | hdvd
        · omega
        · exact retained_of_full hp ht mem horder hinj hd hdvd hpid hb hs
      · exact retained_of_run hp ht mem horder hinj hd hpid hb hs
    · intro pid hpid topkId hb step hs pid' hpid' topkId' hb' step' hs' heq
      rw [hslot pid hpid topkId hb step hs, hslot pid' hpid' topkId' hb' step' hs'] at heq
      exact slotIndex_inj hp ht hb hs hb' hs'
        (hslots (slotIndex_lt hp ht hpid hb hs) (slotIndex_lt hp ht hpid' hb' hs') heq)

end Agreement

/-- What the iterations after a step store for it in `kv_indices`. -/
theorem generateProgram_draftSlot (mem : DraftMemory) (kvIndices : ℕ → ℕ) {iters bid : ℕ}
    (hiters : iters ≤ B.speculativeNumSteps) (hs : step < iters) :
    B.generateProgram mem iters bid topkId kvIndices
      (B.kvOffset iters bid topkId + B.seqLens bid + step) = B.draftSlot mem bid topkId step := by
  have hpow := le_nextPowerOf2 B.speculativeNumSteps
  rw [generateProgram, storeLanes_front (by omega), overwrite_apply_add hs, draftSlot]

/-- One request of `seqLen` tokens, with the slots `100`, `101`, … allocated. -/
def soloBatch (seqLen : ℕ) : DraftBatch :=
  { numSeqs := 1, reqPoolIndices := id, seqLens := fun _ => seqLen, topk := 2
    speculativeNumSteps := 3, pageSize := 4 }

def freshMemory : DraftMemory :=
  { reqToToken := fun _ pos => pos, outCacheLoc := fun i => 100 + i, sourceCacheLoc := fun _ => 0
    targetCacheLoc := fun _ => 0 }

/-- Two branches of three steps after one full page: the second branch is retained one slot early. -/
theorem layout_disagrees :
    ¬ (soloBatch 4).LayoutAgrees freshMemory ((soloBatch 4).assignDraftCacheLocs [0] freshMemory) := by
  intro h
  have h1 := h.retained_eq 0 (by decide) 1 (by decide) 0 (by decide)
  have h2 : ¬ (soloBatch 4).retained ((soloBatch 4).assignDraftCacheLocs [0] freshMemory) 0 1 0 =
      (soloBatch 4).draftSlot ((soloBatch 4).assignDraftCacheLocs [0] freshMemory) 0 1 0 := by
    decide +kernel
  exact h2 h1

/-- Two requests with a partial last page, the program of the first run first: they agree. -/
theorem layout_agrees_small :
    { soloBatch 5 with numSeqs := 2 }.CompactionSafe [0, 1] ∧
      { soloBatch 5 with numSeqs := 2 }.LayoutAgrees freshMemory
        ({ soloBatch 5 with numSeqs := 2 }.assignDraftCacheLocs [0, 1] freshMemory) := by
  have hsafe : { soloBatch 5 with numSeqs := 2 }.CompactionSafe [0, 1] := by decide
  refine ⟨hsafe, (layout_agrees_iff (by decide) (by decide) freshMemory (by decide)
    (fun _ _ _ _ h => h) fun i _ j _ h => ?_).mpr hsafe⟩
  exact Nat.add_left_cancel h

/-- Two requests: the second one's program, run first, overwrites a slot of the first. -/
example :
    let B : DraftBatch :=
      { numSeqs := 2, reqPoolIndices := id, seqLens := fun _ => 1, topk := 2
        speculativeNumSteps := 1, pageSize := 2 }
    let mem := B.assignDraftCacheLocs [1, 0] freshMemory
    B.draftSlot mem 0 1 0 = 103 ∧ B.draftSlot mem 1 0 0 = 103 := by decide +kernel

end DraftBatch

end Sglang
