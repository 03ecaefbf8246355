/-
# The staged path sends what the slice path sends

A prefill rank gathers its slices of every layer and token into one row of bytes, writes the row
at its writer's place in the decode rank's staging region, and the decode rank scatters the rows
with a layout that it computes from its own side.  Reading back what was gathered gives the same
slices of tokens, so the decode buffers are the same `received`.
-/
import Sglang.Disaggregation.KvArrival

namespace Sglang.Disaggregation

open Lib List

/-! ## 1. Rows of a staging region -/

variable {R : Nat}

section Rows

variable {H s d : Nat} (T : KvTransfer H s d)

/-- Heads in each slice between the two groups. -/
def sliceHeads (H s d : Nat) : Nat := if s > d then headsPerRank H s else headsPerRank H d

theorem numHeadsToSend_eq {E : Nat} :
    (computeHeadSliceParams s d R E H).numHeadsToSend = sliceHeads H s d := by
  rw [sliceHeads]
  split
  · next h => rw [computeHeadSliceParams_down h]
  · next h => rw [computeHeadSliceParams_up (Nat.not_lt.1 h)]

namespace KvTransfer

/-- Bytes of one token's slice. -/
def sliceBytes : Nat := sliceHeads H s d * T.headBytes

/-- Bytes of one layer in a writer's row, and of the whole row. -/
def layerBytes : Nat := T.numTokens * T.sliceBytes

def rowBytes : Nat := 2 * T.numLayers * T.layerBytes

variable {T}

theorem layerBytes_eq : T.prefillPages.length * T.pageSize * sliceHeads H s d * T.headDim *
    T.dtypeSize = T.layerBytes := by
  rw [layerBytes, sliceBytes, headBytes, numTokens]
  ring

theorem rowBytes_eq : T.prefillPages.length * T.pageSize * sliceHeads H s d * T.headDim *
    T.dtypeSize * T.numLayers * 2 = T.rowBytes := by
  rw [layerBytes_eq, rowBytes]
  ring

variable {t : Nat}

theorem tokenIndices_getD {pages : List Nat} (hlen : pages.length * T.pageSize = T.numTokens)
    (ht : t < T.numTokens) : (tokenIndices pages T.pageSize).getD t 0 = T.slot pages t := by
  rw [tokenIndices]
  split
  · next hone => rw [slot, hone, Nat.div_one, Nat.mod_one, Nat.mul_one, Nat.add_zero]
  · rw [rowMajor, hlen, getD_eq_getElem _ _ (by simpa using ht)]
    simp [slot]

/-- A byte of a row, from its layer, token and byte of the slice. -/
def rowAt (T : KvTransfer H s d) (i t x : Nat) : Nat :=
  i * T.layerBytes + (t * T.sliceBytes + x)

variable {i x : Nat}

theorem rowAt_lt (hi : i < 2 * T.numLayers) (ht : t < T.numTokens)
    (hx : x < T.sliceBytes) : T.rowAt i t x < T.rowBytes :=
  radix_lt hi (radix_lt ht hx)

/-- What rank's buffers `mem` put at each place of a row. -/
def rowValue (T : KvTransfer H s d) (mem : Buffers) (srcHeadStart : Nat) : Nat → Byte := fun z =>
  mem (z / T.layerBytes) (T.slot T.prefillPages (z % T.layerBytes / T.sliceBytes) * T.tokenBytes s +
    (srcHeadStart * T.headBytes + z % T.layerBytes % T.sliceBytes))

variable {st : Nat}

theorem rowValue_at {mem : Buffers} (ht : t < T.numTokens)
    (hx : x < T.sliceBytes) : T.rowValue mem st (T.rowAt i t x) =
      mem i (T.slot T.prefillPages t * T.tokenBytes s + (st * T.headBytes + x)) := by
  have hlt : t * T.sliceBytes + x < T.layerBytes := radix_lt ht hx
  rw [rowValue, rowAt, radix_div hlt, Nat.mul_add_mod_of_lt hlt, radix_div hx, Nat.mul_add_mod_of_lt hx]

/-- **Gathering fills the row**: reading layer `i`, token `t` and byte `x` of the row gives that
byte of the slice. -/
theorem gathered_at {mem : Buffers} {staging : Store Unit Byte}
    (hi : i < 2 * T.numLayers) (ht : t < T.numTokens) (hx : x < T.sliceBytes) :
    writeAll staging (gatherAllLayersToStaging (T.tensors s) mem T.prefillPages st
      (sliceHeads H s d) T.pageSize) () (T.rowAt i t x) =
      mem i (T.slot T.prefillPages t * T.tokenBytes s + (st * T.headBytes + x)) := by
  have hmem : ∀ w, w ∈ gatherAllLayersToStaging (T.tensors s) mem T.prefillPages st
      (sliceHeads H s d) T.pageSize ↔ ∃ i < 2 * T.numLayers, ∃ t < T.numTokens,
        w = ⟨(), i * T.layerBytes + t * T.sliceBytes, T.sliceBytes, fun x => mem i
          (T.slot T.prefillPages t * T.tokenBytes s + st * T.headBytes + x)⟩ := by
    intro w
    simp only [gatherAllLayersToStaging, tensors, mem_flatMap, mem_map, mem_range, layerBytes_eq]
    constructor
    · rintro ⟨i, hi, t, ht, rfl⟩
      exact ⟨i, hi, t, ht, by rw [tokenIndices_getD rfl ht]; rfl⟩
    · rintro ⟨i, hi, t, ht, rfl⟩
      exact ⟨i, hi, t, ht, by rw [tokenIndices_getD rfl ht]; rfl⟩
  have hval : T.rowValue mem st (T.rowAt i t x) = _ := rowValue_at ht hx
  rw [← hval]
  refine writeAll_covered (v := fun _ => T.rowValue mem st) (fun w hw => ?_) ?_
  · obtain ⟨i', hi', t', ht', rfl⟩ := (hmem w).1 hw
    intro y hy
    have hat : i' * T.layerBytes + t' * T.sliceBytes + y = T.rowAt i' t' y := Nat.add_assoc _ _ _
    dsimp only
    rw [hat, rowValue_at ht' hy, Nat.add_assoc]
  · refine ⟨_, (hmem _).2 ⟨i, hi, t, ht, rfl⟩, rfl, ?_, ?_⟩
    · simp only [rowAt]; omega
    · simp only [rowAt]; omega

end KvTransfer

end Rows

/-! ## 2. What each writer puts into the region -/

variable {r : Nat}

section Region

variable {H s d E : Nat} {T : KvTransfer H s d} {kv : KvData} (S : Senders H s d T E kv)

/-- The place of target rank `r` among the writers of the region. -/
def writerOf (s d r : Nat) : Nat := r % numWriters s d

theorem numWriters_pos (hd : 0 < d) : 0 < numWriters s d := by
  rw [numWriters]
  split
  · next h => exact Nat.div_pos (by omega) (by omega)
  · exact Nat.one_pos

variable {H' j : Nat}

theorem take_writerBytes {numTokens bytesPerHeadToken numLayers R' : Nat}
    (hj : j < numWriters s d) :
    (((computeStagingLayout s d R' H' numTokens bytesPerHeadToken numLayers).2.1).take j).sum =
      j * (numTokens * sliceHeads H' s d * bytesPerHeadToken * numLayers * 2) := by
  rw [computeStagingLayout]
  simp [numHeadsToSend_eq, Nat.min_eq_left hj.le]

/-- The row that prefill rank `r` gathers. -/
def Senders.row (staging : Nat → Store Unit Byte) (r : Nat) : Nat → Byte :=
  writeAll (staging r) (gatherAllLayersToStaging (T.tensors s) (S.mem r) T.prefillPages
    (computeHeadSliceParams s d (S.engine r) E H).srcHeadStart (sliceHeads H s d) T.pageSize) ()

/-- What a rank sends through staging buffers: its own, and the decode rank's region at
`dstStagingPtr`. -/
def Senders.staged (staging : Nat → Store Unit Byte) (stagingSize : Nat → Nat)
    (dstStagingPtr dstStagingSize r : Nat) : Option (List (Write Unit Byte)) :=
  (sendKvcacheStaged (T.kvArgs s (S.engine r)) (T.tensors s) s (S.mem r) (staging r)
    (stagingSize r) T.prefillPages dstStagingPtr dstStagingSize E d).map fun w => [w]

theorem computeHeadSliceParams_local :
    computeHeadSliceParams s d (R % s) E H = computeHeadSliceParams s d R E H := by
  rw [computeHeadSliceParams, computeHeadSliceParams, Nat.mod_mod]

theorem writerIdx_eq (hd : 0 < d) :
    (if numWriters s d > 1 then r % numWriters s d else 0) = writerOf s d r := by
  have hpos := numWriters_pos (s := s) hd
  rw [writerOf]
  split
  · rfl
  · rw [show numWriters s d = 1 by omega, Nat.mod_one]

/-- What a rank's staged send is, when it does not fall back. -/
theorem staged_eq (hH : 0 < H) (hd : 0 < d) (hr : r ∈ targetTpRanks d s E)
    (staging : Nat → Store Unit Byte) (stagingSize : Nat → Nat) (ptr size : Nat) :
    S.staged staging stagingSize ptr size r =
      if T.rowBytes ≤ stagingSize r ∧ numWriters s d * T.rowBytes ≤ size then
        some [⟨(), ptr + writerOf s d r * T.rowBytes, T.rowBytes, S.row staging r⟩]
      else none := by
  have htotal : resolveTotalKvHeads (T.kvArgs s (S.engine r)) s = some H := if_pos hH
  have hrow : T.prefillPages.length * T.pageSize * sliceHeads H s d * (T.headDim * T.dtypeSize) *
      T.numLayers * 2 = T.rowBytes := by rw [← KvTransfer.rowBytes_eq]; ring
  have hoff : ((computeStagingLayout s d E H (T.prefillPages.length * T.pageSize)
      (T.headDim * T.dtypeSize) T.numLayers).2.1.take (writerOf s d r)).sum =
      writerOf s d r * T.rowBytes := by
    rw [writerOf, take_writerBytes (Nat.mod_lt _ (numWriters_pos hd)), hrow]
  have hneed : (computeStagingLayout s d E H (T.prefillPages.length * T.pageSize)
      (T.headDim * T.dtypeSize) T.numLayers).2.2 = numWriters s d * T.rowBytes := by
    rw [computeStagingLayout]
    simp [numHeadsToSend_eq, hrow]
  have hwriters : (computeStagingLayout s d E H (T.prefillPages.length * T.pageSize)
      (T.headDim * T.dtypeSize) T.numLayers).1 = numWriters s d := rfl
  have hlocal : (T.kvArgs s (S.engine r)).engineRank % s = r := S.engine_mod r hr
  have hslice : computeHeadSliceParams s d r E H = computeHeadSliceParams s d (S.engine r) E H := by
    rw [← S.engine_mod r hr, computeHeadSliceParams_local, S.engine_mod r hr]
  rw [Senders.staged, sendKvcacheStaged, htotal]
  simp only [Option.bind_some, hlocal, hwriters, hneed, writerIdx_eq hd, hoff, hslice,
    numHeadsToSend_eq, KvTransfer.tensors, KvTransfer.rowBytes_eq]
  by_cases hfits : T.rowBytes ≤ stagingSize r
  · by_cases hsize : numWriters s d * T.rowBytes ≤ size
    · simp only [hfits, hsize, not_true, Nat.not_lt.2 hsize, if_false, and_self, if_true,
        Option.map_some]
      rfl
    · simp [hfits, hsize, Nat.not_le.1 hsize]
  · simp [hfits]

/-! ## 3. Reading the region back -/

/-- The target rank in place `j` of the writers. -/
def rankAt (s d E j : Nat) : Nat := if s > d then E % d * (s / d) + j else E % d / (d / s)

theorem rankAt_mem (hs : 0 < s) (hd : 0 < d) (hj : j < numWriters s d) :
    rankAt s d E j ∈ targetTpRanks d s E ∧ writerOf s d (rankAt s d E j) = j := by
  rw [numWriters] at hj
  rw [rankAt, writerOf, numWriters]
  split
  · next h =>
    rw [if_pos h, Nat.max_eq_right hd] at hj
    exact ⟨(mem_targetTpRanks_down h).2 ⟨j, hj, rfl⟩, by rw [Nat.max_eq_right hd, Nat.mul_add_mod_of_lt hj]⟩
  · next h =>
    rw [if_neg h] at hj
    exact ⟨(mem_targetTpRanks_up hs (Nat.not_lt.1 h)).2 rfl, by rw [Nat.mod_one]; omega⟩

theorem rankAt_writerOf (hs : 0 < s) (hd : 0 < d) (hr : r ∈ targetTpRanks d s E) :
    rankAt s d E (writerOf s d r) = r := by
  rw [rankAt, writerOf, numWriters]
  split
  · next h =>
    obtain ⟨j, hj, rfl⟩ := (mem_targetTpRanks_down h).1 hr
    rw [Nat.max_eq_right hd, Nat.mul_add_mod_of_lt hj]
  · next h => exact ((mem_targetTpRanks_up hs (Nat.not_lt.1 h)).1 hr).symm

variable {staging : Nat → Store Unit Byte} {stagingSize : Nat → Nat} {ptr size : Nat}
  {arrived : List (Write Unit Byte)}

/-- The rows that arrived, whichever order they came in. -/
theorem region_at (hH : 0 < H) (hs : 0 < s) (hd : 0 < d)
    (harr : S.Arrive (S.staged staging stagingSize ptr size) arrived) (region : Store Unit Byte)
    {z : Nat} (hj : j < numWriters s d) (hz : z < T.rowBytes) :
    writeAll region arrived () (ptr + (j * T.rowBytes + z)) = S.row staging (rankAt s d E j) z := by
  obtain ⟨sent, hsent, hperm⟩ := harr
  have hrow : ∀ r ∈ targetTpRanks d s E,
      sent r = [⟨(), ptr + writerOf s d r * T.rowBytes, T.rowBytes, S.row staging r⟩] := by
    intro r hr
    have h := hsent r hr
    rw [staged_eq S hH hd hr] at h
    split at h
    · exact (Option.some.inj h).symm
    · cases h
  have hmem : ∀ w, w ∈ arrived ↔ ∃ r ∈ targetTpRanks d s E,
      w = ⟨(), ptr + writerOf s d r * T.rowBytes, T.rowBytes, S.row staging r⟩ := by
    intro w
    rw [hperm.mem_iff, mem_flatMap]
    refine exists_congr fun r => and_congr_right fun hr => ?_
    rw [hrow r hr, mem_singleton]
  have hv : writeAll region arrived () (ptr + (j * T.rowBytes + z)) =
      S.row staging (rankAt s d E ((ptr + (j * T.rowBytes + z) - ptr) / T.rowBytes))
        ((ptr + (j * T.rowBytes + z) - ptr) % T.rowBytes) := by
    refine writeAll_covered (v := fun _ a =>
      S.row staging (rankAt s d E ((a - ptr) / T.rowBytes)) ((a - ptr) % T.rowBytes))
      (fun w hw => ?_) ?_
    · obtain ⟨r, hr, rfl⟩ := (hmem w).1 hw
      intro x hx
      dsimp only at hx ⊢
      rw [Nat.add_assoc, Nat.add_sub_cancel_left, radix_div hx, Nat.mul_add_mod_of_lt hx,
        rankAt_writerOf hs hd hr]
    · obtain ⟨hr, hw⟩ := rankAt_mem (E := E) hs hd hj
      refine ⟨_, (hmem _).2 ⟨_, hr, rfl⟩, rfl, ?_, ?_⟩
      · rw [hw]; dsimp only; omega
      · rw [hw]; dsimp only; omega
  rw [hv, Nat.add_sub_cancel_left, radix_div hz, Nat.mul_add_mod_of_lt hz]

theorem computeHeadSliceParams_localDst :
    computeHeadSliceParams s d R (E % d) H' = computeHeadSliceParams s d R E H' := by
  rw [computeHeadSliceParams, computeHeadSliceParams, Nat.mod_mod]

/-- What the decode rank scatters. -/
def KvTransfer.scatter (T : KvTransfer H s d) (E : Nat) (view : Nat → Byte) :
    List (Write Nat Byte) :=
  scatterStagingToKv (T.tensors d) view T.decodePages T.pageSize s d (E % d)
    (decodeTotalKvHeads H d)

theorem scatter_mem (hshape : Shape H s d) (hd : 0 < d) {view : Nat → Byte}
    {w : Write Nat Byte} : w ∈ T.scatter E view ↔
      ∃ j < numWriters s d, ∃ i < 2 * T.numLayers, ∃ t < T.numTokens,
        w = ⟨i, T.slot T.decodePages t * T.tokenBytes d +
          (computeHeadSliceParams s d (S.engine (rankAt s d E j)) E H).dstHeadStart * T.headBytes,
          T.sliceBytes, fun x => view (j * T.rowBytes + T.rowAt i t x)⟩ := by
  have hs : 0 < s := by cases hshape <;> positivity
  have hlen : T.decodePages.length * T.pageSize = T.numTokens := by
    rw [← T.length_eq, KvTransfer.numTokens]
  have hplace : ∀ j < numWriters s d,
      (computeHeadSliceParams s d j (E % d) (decodeTotalKvHeads H d)).numHeadsToSend =
          sliceHeads H s d ∧
        (computeHeadSliceParams s d j (E % d) (decodeTotalKvHeads H d)).dstHeadStart =
          (computeHeadSliceParams s d (S.engine (rankAt s d E j)) E H).dstHeadStart := by
    intro j hj
    rw [computeHeadSliceParams_localDst]
    have hw := writer_slice (E := E) (R := S.engine (rankAt s d E j)) hshape hd hj fun h => by
      rw [S.engine_mod _ (rankAt_mem hs hd hj).1, rankAt, if_pos h]
    rw [hw.1, numHeadsToSend_eq]
    exact ⟨rfl, hw.2⟩
  have hwrite : ∀ j < numWriters s d, ∀ i t, t < T.numTokens →
      (⟨i, (tokenIndices T.decodePages T.pageSize).getD t 0 *
            (headsPerRank H d * (T.headDim * T.dtypeSize)) +
          (computeHeadSliceParams s d j (E % d) (decodeTotalKvHeads H d)).dstHeadStart *
            (T.headDim * T.dtypeSize),
        (computeHeadSliceParams s d j (E % d) (decodeTotalKvHeads H d)).numHeadsToSend *
            (T.headDim * T.dtypeSize), fun x => view
          (j * (T.decodePages.length * T.pageSize *
              (computeHeadSliceParams s d j (E % d) (decodeTotalKvHeads H d)).numHeadsToSend *
              T.headDim * T.dtypeSize * T.numLayers * 2) +
            i * (T.decodePages.length * T.pageSize *
              (computeHeadSliceParams s d j (E % d) (decodeTotalKvHeads H d)).numHeadsToSend *
              T.headDim * T.dtypeSize) +
            t * ((computeHeadSliceParams s d j (E % d) (decodeTotalKvHeads H d)).numHeadsToSend *
              (T.headDim * T.dtypeSize)) + x)⟩ : Write Nat Byte) =
        ⟨i, T.slot T.decodePages t * T.tokenBytes d +
          (computeHeadSliceParams s d (S.engine (rankAt s d E j)) E H).dstHeadStart * T.headBytes,
          T.sliceBytes, fun x => view (j * T.rowBytes + T.rowAt i t x)⟩ := by
    intro j hj i t ht
    rw [(hplace j hj).1, (hplace j hj).2, KvTransfer.tokenIndices_getD hlen ht, ← T.length_eq,
      KvTransfer.rowBytes_eq, KvTransfer.layerBytes_eq]
    simp only [KvTransfer.rowAt, ← Nat.add_assoc]
    rfl
  rw [KvTransfer.scatter, scatterStagingToKv]
  simp only [KvTransfer.tensors, mem_flatMap, mem_map, mem_range, hlen]
  refine exists_congr fun j => and_congr_right fun hj => exists_congr fun i =>
    and_congr_right fun _ => exists_congr fun t => and_congr_right fun ht => ?_
  rw [← hwrite j hj i t ht, hlen]
  exact eq_comm

/-- **The staged path leaves `received`**: whatever the staging buffers held, once every rank has
written its row the scatter leaves the decode buffers as the slices do. -/
theorem staged_received (hshape : Shape H s d) (hH : 0 < H) (hs : 0 < s) (hd : 0 < d)
    (harr : S.Arrive (S.staged staging stagingSize ptr size) arrived) (region : Store Unit Byte)
    (old : Buffers) :
    writeAll old (T.scatter E fun x => writeAll region arrived () (ptr + x)) =
      T.received (E % d) kv old := by
  refine KvTransfer.received_of_slices (fun w hw => ?_) (fun i hi t ht h hh => ?_) old
  · obtain ⟨j, hj, i, hi, t, ht, rfl⟩ := (scatter_mem S hshape hd).1 hw
    have hr := (rankAt_mem (E := E) hs hd hj).1
    have hfit := slice_fits hshape hr (S.engine_mod _ hr)
    rw [numHeadsToSend_eq] at hfit
    refine ⟨⟨_, t, _, _, _, ht, hfit, rfl, rfl, fun x hx => ?_⟩, hi⟩
    dsimp only
    rw [region_at S hH hs hd harr region hj (KvTransfer.rowAt_lt hi ht hx), Senders.row,
      KvTransfer.gathered_at hi ht hx,
      KvTransfer.holds_slice (S.holds _ hr) hfit.inSource hi ht hx]
  · obtain ⟨r, hr, hin⟩ := slice_covers (E := E) hshape hh
    have hin' := hin _ (S.engine_mod r hr)
    rw [numHeadsToSend_eq, ← rankAt_writerOf hs hd hr] at hin'
    exact ⟨_, (scatter_mem S hshape hd).2 ⟨writerOf s d r, Nat.mod_lt _ (numWriters_pos hd), i, hi,
      t, ht, rfl⟩, rfl, _, _, hin'.1, hin'.2, rfl, rfl⟩

end Region

/-! ## 4. Where the heads arrive -/

section Main

variable {H s d : Nat}

/-- Every prefill rank that serves a decode rank can send, and in whichever order the parts arrive
the decode rank's pages then hold exactly its own heads of every token. -/
def HeadsArrive (H s d : Nat) : Prop :=
  ∀ (T : KvTransfer H s d) (E : Nat) (kv : KvData) (S : Senders H s d T E kv) (old : Buffers),
    (∀ r ∈ targetTpRanks d s E, (S.transfer r).isSome) ∧
      ∀ arrived, S.Arrive S.transfer arrived →
        T.Holds d (E % d) T.decodePages kv (writeAll old arrived)

/-- Whatever the staging buffers hold: when they are large enough the staged sends succeed, and
whenever they do, the decode buffers end equal to those of `send_kvcache_slice`. -/
def StagedAgrees (H s d : Nat) : Prop :=
  ∀ (T : KvTransfer H s d) (E : Nat) (kv : KvData) (S : Senders H s d T E kv) (old : Buffers)
    (staging : Nat → Store Unit Byte) (stagingSize : Nat → Nat) (ptr size : Nat)
    (region : Store Unit Byte),
    ((∀ r, T.rowBytes ≤ stagingSize r) → numWriters s d * T.rowBytes ≤ size →
      ∀ r ∈ targetTpRanks d s E, (S.staged staging stagingSize ptr size r).isSome) ∧
    ∀ arrived sliced, S.Arrive (S.staged staging stagingSize ptr size) arrived →
      S.Arrive S.slices sliced →
      writeAll old (T.scatter E fun x => writeAll region arrived () (ptr + x)) =
        writeAll old sliced

theorem shape_pos (hshape : Shape H s d) : 0 < H ∧ 0 < s ∧ 0 < d := by
  cases hshape <;> refine ⟨?_, ?_, ?_⟩ <;> positivity

theorem stagedAgrees (hshape : Shape H s d) : StagedAgrees H s d := by
  obtain ⟨hH, hs, hd⟩ := shape_pos hshape
  intro T E kv S old staging stagingSize ptr size region
  refine ⟨fun hrow hsize r hr => ?_, fun arrived sliced harr hslice => ?_⟩
  · rw [staged_eq S hH hd hr, if_pos ⟨hrow r, hsize⟩]
    rfl
  · rw [staged_received S hshape hH hs hd harr region old, S.slices_received hshape hH hslice old]

/-- Whatever is sent, the decode buffers are `received`. -/
theorem transfer_received (hshape : Shape H s d) {T : KvTransfer H s d} {E : Nat} {kv : KvData}
    (S : Senders H s d T E kv) {arrived : List (Write Nat Byte)}
    (harr : S.Arrive S.transfer arrived) (old : Buffers) :
    writeAll old arrived = T.received (E % d) kv old := by
  obtain ⟨hH, hs, hd⟩ := shape_pos hshape
  by_cases hsd : s = d
  · subst hsd
    exact pages_received S (fun h hh => sentHead_own hshape (by omega) hh) harr old
  · have hsend : S.transfer = S.slices := funext fun r => if_neg hsd
    rw [hsend] at harr
    exact S.slices_received hshape hH harr old

theorem transfer_isSome (hshape : Shape H s d) {T : KvTransfer H s d} {E : Nat} {kv : KvData}
    (S : Senders H s d T E kv) (hr : r ∈ targetTpRanks d s E) :
    (S.transfer r).isSome := by
  by_cases hsd : s = d
  · rw [Senders.transfer, transferKv, if_pos hsd]; rfl
  · rw [Senders.transfer, transferKv, if_neg hsd]
    exact Option.isSome_iff_exists.2 ⟨_, S.slices_eq hshape (shape_pos hshape).1 hr⟩

theorem headsArrive_of (hshape : Shape H s d) (hrep : ¬ (s < H ∧ H < d)) : HeadsArrive H s d := by
  intro T E kv S old
  refine ⟨fun r hr => transfer_isSome hshape S hr, fun arrived harr => ?_⟩
  rw [transfer_received hshape S harr old]
  exact KvTransfer.holds_received fun h hh => sentHead_own hshape hrep hh

/-- One token of one layer, one byte for each head. -/
def oneToken (H s d : Nat) : KvTransfer H s d where
  pageSize := 1
  headDim := 1
  dtypeSize := 1
  numLayers := 1
  prefillPages := [0]
  decodePages := [0]
  pageSize_pos := Nat.one_pos
  headDim_pos := Nat.one_pos
  dtypeSize_pos := Nat.one_pos
  numLayers_pos := Nat.one_pos
  length_eq := rfl
  decode_nodup := nodup_cons.2 ⟨not_mem_nil, nodup_nil⟩

/-- Each head holds whether it is head 0. -/
def headZero : KvData := fun _ _ h _ => if h = 0 then 0 else 1

/-- Each prefill rank holds its heads of the one token. -/
def oneTokenSenders (hs : 0 < s) (hd : 0 < d) (hle : s ∣ d) :
    Senders H s d (oneToken H s d) 1 headZero where
  mem r _ a := headZero 0 0 (headOf H s r a) 0
  engine r := r
  engine_mod r hr := by
    rw [mem_targetTpRanks_up hs (Nat.le_of_dvd hd hle)] at hr
    have hlt : 1 % d < d / s * s := by rw [Nat.div_mul_cancel hle]; exact Nat.mod_lt _ hd
    exact Nat.mod_eq_of_lt (hr ▸ Nat.div_lt_of_lt_mul hlt)
  holds r hr := by
    intro i hi t ht h hh b hb
    have hb0 : b = 0 := by simp only [KvTransfer.headBytes, oneToken] at hb; omega
    have ht0 : t = 0 := by simp only [KvTransfer.numTokens, oneToken, length_singleton] at ht; omega
    subst hb0 ht0
    simp [KvTransfer.slot, KvTransfer.headBytes, oneToken, headZero]

theorem not_headsArrive_of (hshape : Shape H s d) (hsH : s < H) (hHd : H < d) (hdvd : s ∣ d) :
    ¬ HeadsArrive H s d := by
  obtain ⟨hH, hs, hd⟩ := shape_pos hshape
  obtain ⟨hd1, hsent, hown⟩ := sentHead_one (E := 1) hshape hsH hHd
  have hmod : 1 % d = 1 := Nat.mod_eq_of_lt hd1
  intro hall
  obtain ⟨hsome, hholds⟩ := hall (oneToken H s d) 1 headZero (oneTokenSenders hs hd hdvd) fun _ _ => 0
  let S : Senders H s d (oneToken H s d) 1 headZero := oneTokenSenders hs hd hdvd
  have harr : S.Arrive S.transfer ((targetTpRanks d s 1).flatMap fun r => (S.transfer r).getD []) :=
    ⟨fun r => (S.transfer r).getD [], fun r hr => by
      obtain ⟨ws, hws⟩ := Option.isSome_iff_exists.1 (hsome r hr)
      exact hws.trans (congrArg some (congrArg (Option.getD · []) hws).symm), List.Perm.refl _⟩
  have hlayer : 0 < 2 * (oneToken H s d).numLayers := Nat.two_pos
  have htoken : 0 < (oneToken H s d).numTokens := Nat.one_pos
  have hbyte : 0 < (oneToken H s d).headBytes := Nat.one_pos
  have hhead := headsPerRank_pos H d
  have hzero := hholds _ harr 0 hlayer 0 htoken 0 hhead 0 hbyte
  rw [transfer_received hshape S harr, KvTransfer.received,
    if_pos (KvTransfer.inPages_of_cell hlayer htoken hhead hbyte),
    KvTransfer.sentValue_cell htoken hhead hbyte, hsent hmod, hmod, hown] at hzero
  exact absurd hzero (by decide)

/-- **KV heads arrive where the decode rank expects them, and the staged path agrees**, for exactly
those powers of two where the number of heads is not strictly between the two group sizes with
the prefill group the smaller one. -/
theorem heads_arrive_iff (a b c : Nat) :
    HeadsArrive (2 ^ a) (2 ^ b) (2 ^ c) ∧ StagedAgrees (2 ^ a) (2 ^ b) (2 ^ c) ↔
      ¬ (2 ^ b < 2 ^ a ∧ 2 ^ a < 2 ^ c) := by
  have hshape := shape_two_pow a b c
  constructor
  · rintro ⟨hall, -⟩ ⟨hba, hac⟩
    have hdvd : 2 ^ b ∣ 2 ^ c := Nat.pow_dvd_pow 2
      ((Nat.pow_lt_pow_iff_right Nat.one_lt_two).1 (hba.trans hac)).le
    exact not_headsArrive_of hshape hba hac hdvd hall
  · exact fun hrep => ⟨headsArrive_of hshape hrep, stagedAgrees hshape⟩

/-- Two heads, one prefill rank and four decode ranks: decode rank 1 is sent head 1. -/
theorem heads_not_arrive : ¬ HeadsArrive 2 1 4 :=
  not_headsArrive_of (shape_two_pow 1 0 2) (by decide) (by decide) (by decide)

end Main

end Sglang.Disaggregation
