/-
# Both ends agree on who sends what to whom

A rank that needs an expert looks up the rank that sends it (`recvSource`), a rank that has the expert
computes the list of the ranks it has to send it to (`sendDsts`).  Neither asks the other.  The lists they
start from are the same for all ranks of a node, and the two chunk computations are inverse, so a rank is
in the list of the one that it looks up, and in no other (`mem_sendDsts_iff`).
-/
import Sglang.Lib.EvenSplit
import Sglang.Eplb.ExpertLocationUpdater

namespace Sglang

open Lib List Option

/-! ## 1. Chunks -/

namespace ChunkUtils

theorem index_of_mem {α : Type} [DecidableEq α] {l : List α} {a : α} (ha : a ∈ l) :
    index l a = some (l.idxOf a) := if_pos ha

theorem chunkIndexFromElementIndex_eq {n m i : ℕ} (hm : 0 < m) (hi : i < n) :
    chunkIndexFromElementIndex n m i = some (splitIndex n m i) := by
  unfold chunkIndexFromElementIndex splitIndex
  rw [if_neg hm.ne']
  dsimp only
  split
  · rfl
  · rename_i hshort
    rw [if_neg]
    intro h0
    have hdiv := Nat.div_add_mod n m
    rw [h0] at hdiv
    rw [h0] at hshort
    omega

theorem elementSliceFromChunkIndex_eq {n m c : ℕ} (hm : 0 < m) :
    elementSliceFromChunkIndex n m c = some (splitStart n m c, splitStart n m (c + 1)) := by
  rw [elementSliceFromChunkIndex, if_neg hm.ne', splitStart_succ]
  rfl

variable {c : ChunkUtils}

theorem chunkValueFromElementValue_eq (hne : c.chunkValues ≠ []) {e : ℕ} (he : e ∈ c.elementValues) :
    ∃ v ∈ c.chunkValues, c.chunkValueFromElementValue e = some v := by
  have hm : 0 < c.chunkValues.length := length_pos_of_ne_nil hne
  have hi := idxOf_lt_length_iff.mpr he
  have hlt := splitIndex_lt hm hi
  refine ⟨_, getElem_mem hlt, ?_⟩
  rw [chunkValueFromElementValue, index_of_mem he]
  simp [chunkIndexFromElementIndex_eq hm hi]

/-- **The elements of a chunk** are those whose look-up gives its value. -/
theorem elementValuesFromChunkValue_spec (hc : c.chunkValues.Nodup) (he : c.elementValues.Nodup)
    {v : ℕ} (hv : v ∈ c.chunkValues) :
    ∃ l, c.elementValuesFromChunkValue v = some l ∧ l.Nodup ∧
      ∀ e, e ∈ l ↔ e ∈ c.elementValues ∧ c.chunkValueFromElementValue e = some v := by
  rw [elementValuesFromChunkValue]
  by_cases hnil : c.elementValues.length = 0
  · rw [if_pos hnil]
    refine ⟨[], rfl, nodup_nil, fun e => ?_⟩
    rw [eq_nil_of_length_eq_zero hnil]
    simp
  · have hm : 0 < c.chunkValues.length := length_pos_of_mem hv
    rw [if_neg hnil, index_of_mem hv]
    simp only [bind_eq_bind, bind_some, elementSliceFromChunkIndex_eq hm]
    refine ⟨_, rfl, (he.sublist (take_sublist _ _)).sublist (drop_sublist _ _), fun e => ?_⟩
    by_cases hmem : e ∈ c.elementValues
    · have hi := idxOf_lt_length_iff.mpr hmem
      have hlt := splitIndex_lt hm hi
      rw [mem_slice_iff he hmem, chunkValueFromElementValue, index_of_mem hmem]
      simp only [bind_eq_bind, bind_some, chunkIndexFromElementIndex_eq hm hi,
        getElem?_eq_getElem hlt, hmem, true_and, Option.some.injEq]
      constructor
      · intro h
        have hidx := idxOf_lt_length_iff.mpr hv
        have hget : c.chunkValues[c.chunkValues.idxOf v] = v := getElem_idxOf hidx
        simpa only [h] using hget
      · intro h
        rw [← h, hc.idxOf_getElem _ hlt]
    · rw [mem_slice he]
      exact iff_of_false (fun h => hmem h.1) fun h => hmem h.1

end ChunkUtils

/-- **`_deduplicate_ordered`** keeps each of the values of an ordered list once. -/
theorem deduplicateOrdered_spec (arr : List ℕ) (h : arr.Pairwise (· ≤ ·)) :
    (deduplicateOrdered arr).Pairwise (· < ·) ∧ ∀ x, x ∈ deduplicateOrdered arr ↔ x ∈ arr := by
  induction arr using List.reverseRecOn with
  | nil => exact ⟨List.Pairwise.nil, fun _ => Iff.rfl⟩
  | append_singleton arr a ih =>
    obtain ⟨harr, -, hle⟩ := pairwise_append.mp h
    obtain ⟨hlt, hmem⟩ := ih harr
    rw [deduplicateOrdered, foldl_append, ← deduplicateOrdered]
    simp only [foldl_cons, foldl_nil]
    split
    · rename_i hlast
      refine ⟨hlt, fun x => ?_⟩
      have ha : a ∈ arr := (hmem a).mp (mem_of_getLast? hlast)
      rw [hmem, mem_append, mem_singleton]
      exact ⟨Or.inl, fun hx => hx.elim id fun hxa => hxa ▸ ha⟩
    · rename_i hlast
      refine ⟨pairwise_append.mpr ⟨hlt, pairwise_singleton _ _, fun x hx y hy => ?_⟩,
        fun x => by rw [mem_append, mem_append, hmem]⟩
      rw [mem_singleton.mp hy]
      have hxa : x ≤ a := hle x ((hmem x).mp hx) a (mem_singleton_self a)
      refine lt_of_le_of_ne hxa ?_
      rintro rfl
      -- the greatest value is the last one
      obtain ⟨l, z, hl⟩ := (eq_nil_or_concat' (deduplicateOrdered arr)).resolve_left
        (ne_nil_of_mem hx)
      have hz : z ∈ deduplicateOrdered arr := hl ▸ mem_append_right _ (mem_singleton_self z)
      have hzx : z ≤ x := hle z ((hmem z).mp hz) x (mem_singleton_self x)
      rw [hl] at hx hlt hlast
      rcases mem_append.mp hx with hx | hx
      · have := (pairwise_append.mp hlt).2.2 x hx z (mem_singleton_self z)
        omega
      · rw [mem_singleton.mp hx, getLast?_concat] at hlast
        exact hlast rfl

/-! ## 2. The ranks of an expert -/

/-- All ranks together: as many slots as ranks times local slots, and each expert of the new map in the
old one. -/
structure ExpertMigration extends ExpertUpdate where
  worldSize : ℕ
  gpuPerNode_pos : 0 < numGpuPerNode
  old_length : oldPhysicalToLogicalMap.length = worldSize * numLocalPhysicalExperts
  new_length : newPhysicalToLogicalMap.length = worldSize * numLocalPhysicalExperts
  covered : ∀ L ∈ newPhysicalToLogicalMap, L ∈ oldPhysicalToLogicalMap
  active : ∀ isActive ∈ activeRanks, ∀ r, isActive r = true

namespace ExpertMigration

variable (m : ExpertMigration) {rank r a b : ℕ} {L : ℤ}

/-- The expert is in a slot of the rank before. -/
def Has (rank : ℕ) (L : ℤ) : Prop := ∃ x ∈ m.localRange rank, m.oldPhysicalToLogicalMap[x]? = some L

/-- The expert is in a slot of the rank afterwards. -/
def Gets (rank : ℕ) (L : ℤ) : Prop := ∃ x ∈ m.localRange rank, m.newPhysicalToLogicalMap[x]? = some L

/-- The rank gets an expert that it does not have. -/
def Needs (rank : ℕ) (L : ℤ) : Prop := m.Gets rank L ∧ ¬ m.Has rank L

variable {m}

theorem mem_localRange {u : ExpertUpdate} {x : ℕ} : x ∈ u.localRange rank ↔
    rank * u.numLocalPhysicalExperts ≤ x ∧
      x < rank * u.numLocalPhysicalExperts + u.numLocalPhysicalExperts := by
  rw [ExpertUpdate.localRange, mem_range'_1]

theorem div_eq_iff_mem_localRange {u : ExpertUpdate} {x : ℕ} (hpos : 0 < u.numLocalPhysicalExperts) :
    x / u.numLocalPhysicalExperts = rank ↔ x ∈ u.localRange rank := by
  rw [mem_localRange, Nat.div_eq_iff hpos]
  omega

theorem mem_ranksOf {map : List ℤ} (hlen : map.length = m.oldPhysicalToLogicalMap.length) :
    r ∈ m.ranksOf map L ↔ ∃ x ∈ m.localRange r, map[x]? = some L := by
  have hpos : ∀ x : ℕ, map[x]? = some L → 0 < m.numLocalPhysicalExperts := by
    intro x hx
    have hlt := (List.getElem?_eq_some_iff.mp hx).1
    rw [hlen, m.old_length] at hlt
    exact Nat.pos_of_ne_zero fun h0 => by rw [h0] at hlt; exact Nat.not_lt_zero _ hlt
  rw [ExpertUpdate.ranksOf, List.mem_map]
  constructor
  · rintro ⟨x, hx, rfl⟩
    have hx := of_decide_eq_true (mem_filter.mp hx).2
    exact ⟨x, (div_eq_iff_mem_localRange (hpos x hx)).mp rfl, hx⟩
  · rintro ⟨x, hmem, hx⟩
    have hlt := (List.getElem?_eq_some_iff.mp hx).1
    exact ⟨x, mem_filter.mpr ⟨mem_range.mpr (hlen ▸ hlt), decide_eq_true hx⟩,
      (div_eq_iff_mem_localRange (hpos x hx)).mpr hmem⟩

theorem pairwise_ranksOf (u : ExpertUpdate) (map : List ℤ) (L : ℤ) :
    (u.ranksOf map L).Pairwise (· ≤ ·) := by
  rw [ExpertUpdate.ranksOf, pairwise_map]
  exact (pairwise_lt_range.sublist filter_sublist).imp fun h => Nat.div_le_div_right h.le

/-- **`all_src_ranks`** are the ranks that have the expert. -/
theorem mem_allSrcRanks : r ∈ m.allSrcRanks L ↔ m.Has r L := by
  rw [ExpertUpdate.allSrcRanks, (deduplicateOrdered_spec _ (pairwise_ranksOf _ _ _)).2, mem_ranksOf rfl]
  rfl

theorem nodup_allSrcRanks (u : ExpertUpdate) (L : ℤ) : (u.allSrcRanks L).Nodup :=
  (deduplicateOrdered_spec _ (pairwise_ranksOf _ _ _)).1.imp fun h => h.ne

/-- **`need_comm_dst_ranks`** are the ranks that need it. -/
theorem mem_needCommDstRanks : r ∈ m.needCommDstRanks L ↔ m.Needs r L := by
  rw [ExpertUpdate.needCommDstRanks,
    (deduplicateOrdered_spec _ ((pairwise_ranksOf _ _ _).sublist filter_sublist)).2,
    mem_filter, mem_ranksOf (m.new_length.trans m.old_length.symm), decide_eq_true_iff,
    mem_allSrcRanks]
  rfl

theorem nodup_needCommDstRanks (u : ExpertUpdate) (L : ℤ) : (u.needCommDstRanks L).Nodup :=
  (deduplicateOrdered_spec _ ((pairwise_ranksOf _ _ _).sublist filter_sublist)).1.imp fun h => h.ne

/-- An expert that is needed is somewhere. -/
theorem Needs.allSrcRanks_ne_nil (hL : m.Needs r L) : m.allSrcRanks L ≠ [] := by
  obtain ⟨x, -, hx⟩ := hL.1
  obtain ⟨y, hy⟩ := mem_iff_getElem?.mp (m.covered L (mem_of_getElem? hx))
  have hlt := (List.getElem?_eq_some_iff.mp hy).1
  rw [m.old_length] at hlt
  have hpos : 0 < m.numLocalPhysicalExperts :=
    Nat.pos_of_ne_zero fun h0 => by rw [h0] at hlt; exact Nat.not_lt_zero _ hlt
  exact ne_nil_of_mem (mem_allSrcRanks.mpr ⟨y, (div_eq_iff_mem_localRange hpos).mp rfl, hy⟩)

end ExpertMigration

/-! ## 3. The two look-ups -/

namespace ExpertUpdate

variable (u : ExpertUpdate) (rank : ℕ) (L : ℤ)

/-- The rank from which `rank` receives an expert. -/
def recvSource : Option ℕ :=
  let info := u.computeCommInfo rank L
  if rank ∈ info.needCommSelfNodeDstRanks then info.sameNodeMapping.chunkValueFromElementValue rank
  else info.crossNodeMapping.chunkValueFromElementValue rank

/-- The ranks to which `rank` sends an expert. -/
def sendDsts : Option (List ℕ) := do
  let info := u.computeCommInfo rank L
  let sameNodeDstRanks ← info.sameNodeMapping.elementValuesFromChunkValue rank
  let crossNodeDstRanks ← info.crossNodeMapping.elementValuesFromChunkValue rank
  return sameNodeDstRanks ++ crossNodeDstRanks

variable {u rank L} {a b : ℕ}

theorem computeCommInfo_congr (h : a / u.numGpuPerNode = b / u.numGpuPerNode) :
    u.computeCommInfo a L = u.computeCommInfo b L := by
  rw [computeCommInfo, h, ← computeCommInfo]

theorem mem_needSelf : b ∈ (u.computeCommInfo rank L).needCommSelfNodeDstRanks ↔
    (b ∈ u.needCommDstRanks L ∧ b / u.numGpuPerNode = rank / u.numGpuPerNode) ∧
      rank / u.numGpuPerNode ∈ (u.allSrcRanks L).map (· / u.numGpuPerNode) := by
  have hpos : ((u.allSrcRanks L).filter (· / u.numGpuPerNode = rank / u.numGpuPerNode)).length > 0 ↔
      rank / u.numGpuPerNode ∈ (u.allSrcRanks L).map (· / u.numGpuPerNode) := by
    rw [gt_iff_lt]
    simp
  unfold computeCommInfo
  dsimp only
  split
  · rename_i h
    rw [mem_filter, decide_eq_true_iff]
    exact (and_iff_left (hpos.mp h)).symm
  · rename_i h
    exact iff_of_false not_mem_nil fun hc => h (hpos.mpr hc.2)

theorem mem_crossElements : b ∈ (u.computeCommInfo rank L).crossNodeMapping.elementValues ↔
    b ∈ u.needCommDstRanks L ∧ b / u.numGpuPerNode ∉ (u.allSrcRanks L).map (· / u.numGpuPerNode) := by
  unfold computeCommInfo
  rw [mem_filter, decide_eq_true_iff]

theorem nodup_sameNodeMapping :
    (u.computeCommInfo rank L).sameNodeMapping.chunkValues.Nodup ∧
      (u.computeCommInfo rank L).sameNodeMapping.elementValues.Nodup := by
  unfold computeCommInfo
  refine ⟨(ExpertMigration.nodup_allSrcRanks u L).filter _, ?_⟩
  dsimp only
  split
  · exact (ExpertMigration.nodup_needCommDstRanks u L).filter _
  · exact nodup_nil

theorem nodup_crossNodeMapping :
    (u.computeCommInfo rank L).crossNodeMapping.chunkValues.Nodup ∧
      (u.computeCommInfo rank L).crossNodeMapping.elementValues.Nodup :=
  ⟨ExpertMigration.nodup_allSrcRanks u L, (ExpertMigration.nodup_needCommDstRanks u L).filter _⟩

theorem mem_sameChunks : a ∈ (u.computeCommInfo rank L).sameNodeMapping.chunkValues ↔
    a ∈ u.allSrcRanks L ∧ a / u.numGpuPerNode = rank / u.numGpuPerNode := by
  unfold computeCommInfo
  rw [mem_filter, decide_eq_true_iff]

end ExpertUpdate

namespace ExpertMigration

open ExpertUpdate ChunkUtils

variable {m : ExpertMigration} {a b : ℕ} {L : ℤ}

/-- A rank that needs an expert finds a rank that has it. -/
theorem recvSource_spec (hL : m.Needs b L) : ∃ a, m.recvSource b L = some a ∧ m.Has a L := by
  unfold recvSource
  dsimp only
  split
  · rename_i hself
    obtain ⟨c, hc, hnode⟩ := List.mem_map.mp (mem_needSelf.mp hself).2
    obtain ⟨a, ha, heq⟩ := chunkValueFromElementValue_eq
      (ne_nil_of_mem (mem_sameChunks.mpr ⟨hc, hnode⟩)) hself
    exact ⟨a, heq, mem_allSrcRanks.mp (mem_sameChunks.mp ha).1⟩
  · rename_i hself
    have hneed : b ∈ m.needCommDstRanks L := mem_needCommDstRanks.mpr hL
    obtain ⟨a, ha, heq⟩ := chunkValueFromElementValue_eq (e := b) hL.allSrcRanks_ne_nil
      (mem_crossElements.mpr ⟨hneed, fun hc => hself (mem_needSelf.mpr ⟨⟨hneed, rfl⟩, hc⟩)⟩)
    exact ⟨a, heq, mem_allSrcRanks.mp ha⟩

/-- **A rank sends an expert to those that look it up there**, once to each. -/
theorem sendDsts_spec (ha : m.Has a L) : ∃ l, m.sendDsts a L = some l ∧ l.Nodup ∧
    ∀ b, b ∈ l ↔ m.Needs b L ∧ m.recvSource b L = some a := by
  have hsrc : a ∈ m.allSrcRanks L := mem_allSrcRanks.mpr ha
  have hsameNodup := @nodup_sameNodeMapping m.toExpertUpdate a L
  have hcrossNodup := @nodup_crossNodeMapping m.toExpertUpdate a L
  obtain ⟨same, hsame, hsn, hsmem⟩ := elementValuesFromChunkValue_spec hsameNodup.1 hsameNodup.2
    (mem_sameChunks.mpr ⟨hsrc, rfl⟩)
  obtain ⟨cross, hcross, hcn, hcmem⟩ :=
    elementValuesFromChunkValue_spec hcrossNodup.1 hcrossNodup.2 hsrc
  refine ⟨same ++ cross, ?_, ?_, fun b => ?_⟩
  · simp only [sendDsts, hsame, hcross, bind_eq_bind, bind_some]
    rfl
  · refine nodup_append.mpr ⟨hsn, hcn, ?_⟩
    rintro x hx y hy rfl
    have hself := mem_needSelf.mp ((hsmem x).mp hx).1
    have hnot := (mem_crossElements.mp ((hcmem x).mp hy).1).2
    rw [hself.1.2] at hnot
    exact hnot hself.2
  · rw [mem_append, hsmem, hcmem, ← mem_needCommDstRanks]
    by_cases hb : b / m.numGpuPerNode ∈ (m.allSrcRanks L).map (· / m.numGpuPerNode)
    · -- some rank of the node has the expert
      rw [or_iff_left fun h => (mem_crossElements.mp h.1).2 hb]
      constructor
      · rintro ⟨hmem, heq⟩
        have hself := mem_needSelf.mp hmem
        refine ⟨hself.1.1, ?_⟩
        rw [recvSource, computeCommInfo_congr hself.1.2]
        exact (if_pos hmem).trans heq
      · rintro ⟨hneed, heq⟩
        have hmem := mem_needSelf.mpr ⟨⟨hneed, rfl⟩, hb⟩
        rw [recvSource] at heq
        rw [if_pos hmem] at heq
        have hnodes : b / m.numGpuPerNode = a / m.numGpuPerNode := by
          obtain ⟨c, hc, hcn⟩ := List.mem_map.mp hb
          obtain ⟨v, hv, hveq⟩ := chunkValueFromElementValue_eq
            (ne_nil_of_mem (mem_sameChunks.mpr ⟨hc, hcn⟩)) hmem
          rw [heq, Option.some.injEq] at hveq
          rw [← hveq] at hv
          exact (mem_sameChunks.mp hv).2.symm
        rw [← computeCommInfo_congr hnodes]
        exact ⟨hmem, heq⟩
    · have hself : ∀ {c}, b ∉ (m.computeCommInfo c L).needCommSelfNodeDstRanks := by
        intro c h
        have := mem_needSelf.mp h
        rw [← this.1.2] at this
        exact hb this.2
      rw [or_iff_right fun h => hself h.1]
      refine and_congr ?_ ?_
      · exact mem_crossElements.trans (and_iff_left hb)
      · rw [recvSource, if_neg hself]
        rfl

end ExpertMigration

end Sglang
