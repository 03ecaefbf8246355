/-
# What a rank prepares

The rounds of `_handle_recv` and of `_create_isend_ops` in closed form.  An expert is received into the
first slot of the rank that gets it and sent from the first slot that has it; a slot that changes is
written from its own row of the temporary buffers, or from that of the first slot that gets the same
expert.  Nothing raises: the look-ups of a migration succeed.
-/
import Sglang.Lib.KeyedSort
import Sglang.Lib.OptionLoops
import Sglang.Eplb.CommInfo

namespace Sglang

open Lib List Option

namespace ExpertUpdate

variable (u : ExpertUpdate) (rank : ℕ) {α : Type}

/-! ## 1. Closed forms -/

/-- The logical expert of a location. -/
def expertAt (map : List ℤ) (x : ℕ) : ℤ := map[x]?.getD 0

/-- The first local slot with the expert. -/
def firstSlot (map : List ℤ) (L : ℤ) : ℕ :=
  ((u.localRange rank).find? fun x => map[x]? = some L).getD 0

/-- The local row of a location. -/
def row (x : ℕ) : ℕ := x % u.numLocalPhysicalExperts

/-- The location whose row of the temporary buffers is copied to a location, where there is one. -/
def copySource (dst : ℕ) : Option ℕ :=
  let L := expertAt u.newPhysicalToLogicalMap dst
  if expertAt u.oldPhysicalToLogicalMap dst = L then none
  else if ∃ x ∈ u.localRange rank, u.oldPhysicalToLogicalMap[x]? = some L then some dst
  else some (u.firstSlot rank u.newPhysicalToLogicalMap L)

/-- The location is received. -/
def Receives (dst : ℕ) : Prop :=
  (¬ ∃ x ∈ u.localRange rank,
      u.oldPhysicalToLogicalMap[x]? = some (expertAt u.newPhysicalToLogicalMap dst)) ∧
    u.firstSlot rank u.newPhysicalToLogicalMap (expertAt u.newPhysicalToLogicalMap dst) = dst

/-- The location is filled from another slot of the rank. -/
def FilledHere (dst : ℕ) : Prop :=
  expertAt u.oldPhysicalToLogicalMap dst ≠ expertAt u.newPhysicalToLogicalMap dst ∧
    ∃ x ∈ u.localRange rank,
      u.oldPhysicalToLogicalMap[x]? = some (expertAt u.newPhysicalToLogicalMap dst)

instance (dst : ℕ) : Decidable (u.Receives rank dst) := by unfold Receives; infer_instance

instance (dst : ℕ) : Decidable (u.FilledHere rank dst) := by unfold FilledHere; infer_instance

/-- The entry of an expert that is received. -/
def recvInfo (dst : ℕ) : P2POpInfo :=
  let L := expertAt u.newPhysicalToLogicalMap dst
  (L, (List.range u.numTensors).map fun i =>
    ⟨.irecv, i, u.row dst, (u.recvSource rank L).getD 0⟩)

/-- The entry of an expert that is there. -/
def isendInfo (L : ℤ) : P2POpInfo :=
  (L, ((u.sendDsts rank L).getD []).flatMap fun dstRank => (List.range u.numTensors).map fun i =>
    ⟨.isend, i, u.row (u.firstSlot rank u.oldPhysicalToLogicalMap L), dstRank⟩)

/-- What a round of `_handle_recv` comes to. -/
def recvRound (weights : Cell → α) (s : RecvState α) (dst : ℕ) : RecvState α where
  tempBuffers := if u.FilledHere rank dst then
      copyRows u.numTensors weights (u.row (u.firstSlot rank u.oldPhysicalToLogicalMap
        (expertAt u.newPhysicalToLogicalMap dst))) s.tempBuffers (u.row dst)
    else s.tempBuffers
  buffer2weightCopyInfos := s.buffer2weightCopyInfos ++ ((u.copySource rank dst).map (·, dst)).toList
  p2pOpInfos := s.p2pOpInfos ++ if u.Receives rank dst then [u.recvInfo rank dst] else []

/-- The experts of the slots, each once. -/
def handled (l : List ℕ) : List ℤ :=
  l.foldl (fun s x =>
    let L := expertAt u.oldPhysicalToLogicalMap x
    if L ∈ s then s else s ++ [L]) []

end ExpertUpdate

namespace ExpertMigration

open ExpertUpdate

variable {m : ExpertMigration} {rank x dst : ℕ} {L : ℤ} {α : Type}

/-! ## 2. Slots -/

/-- The slots of a rank are in both maps. -/
theorem lt_of_mem_localRange (hr : rank < m.worldSize) (hx : x ∈ m.localRange rank) :
    x < m.worldSize * m.numLocalPhysicalExperts := by
  obtain ⟨-, h2⟩ := mem_localRange.mp hx
  have hle : (rank + 1) * m.numLocalPhysicalExperts ≤ m.worldSize * m.numLocalPhysicalExperts :=
    Nat.mul_le_mul_right _ hr
  rw [Nat.succ_mul] at hle
  omega

theorem getElem?_old (hr : rank < m.worldSize) (hx : x ∈ m.localRange rank) :
    m.oldPhysicalToLogicalMap[x]? = some (expertAt m.oldPhysicalToLogicalMap x) := by
  have hlt := lt_of_mem_localRange hr hx
  rw [← m.old_length] at hlt
  rw [expertAt, getElem?_eq_getElem hlt, getD_some]

theorem getElem?_new (hr : rank < m.worldSize) (hx : x ∈ m.localRange rank) :
    m.newPhysicalToLogicalMap[x]? = some (expertAt m.newPhysicalToLogicalMap x) := by
  have hlt := lt_of_mem_localRange hr hx
  rw [← m.new_length] at hlt
  rw [expertAt, getElem?_eq_getElem hlt, getD_some]

theorem getLocalExpertLocation_eq (hx : x ∈ m.localRange rank) :
    m.getLocalExpertLocation rank x = some (m.row x) := by
  rw [getLocalExpertLocation, if_pos, row]
  rw [Nat.succ_mul]
  exact mem_localRange.mp hx

theorem nodup_localRange (u : ExpertUpdate) (rank : ℕ) : (u.localRange rank).Nodup :=
  nodup_range'

theorem row_injOn {y : ℕ} (hx : x ∈ m.localRange rank) (hy : y ∈ m.localRange rank)
    (h : m.row x = m.row y) : x = y := by
  have h2 := mem_localRange.mp hy
  have hpos : 0 < m.numLocalPhysicalExperts := by omega
  have hx' := (div_eq_iff_mem_localRange hpos).mpr hx
  have hy' := (div_eq_iff_mem_localRange hpos).mpr hy
  rw [← Nat.div_add_mod x m.numLocalPhysicalExperts, ← Nat.div_add_mod y m.numLocalPhysicalExperts,
    hx', hy', ← row, ← row, h]

theorem firstSlot_spec {u : ExpertUpdate} {map : List ℤ}
    (h : ∃ x ∈ u.localRange rank, map[x]? = some L) :
    (u.localRange rank).find? (fun x => map[x]? = some L) = some (u.firstSlot rank map L) ∧
      u.firstSlot rank map L ∈ u.localRange rank ∧ map[u.firstSlot rank map L]? = some L := by
  obtain ⟨x, hx, hL⟩ := h
  obtain ⟨y, hy⟩ : ∃ y, (u.localRange rank).find? (fun x => map[x]? = some L) = some y := by
    rw [← isSome_iff_exists, find?_isSome]
    exact ⟨x, hx, decide_eq_true hL⟩
  have hfirst : u.firstSlot rank map L = y := by rw [firstSlot, hy, getD_some]
  rw [hfirst]
  exact ⟨hy, mem_of_find?_eq_some hy, by simpa using find?_some hy⟩

theorem firstSlot_of_split {u : ExpertUpdate} {map : List ℤ} {pre post : List ℕ}
    (hsplit : u.localRange rank = pre ++ x :: post) (hx : map[x]? = some L) :
    u.firstSlot rank map L = (pre.find? fun x => map[x]? = some L).getD x := by
  rw [firstSlot, hsplit, find?_append]
  cases pre.find? (fun x => decide (map[x]? = some L)) with
  | some y => rfl
  | none => simp [hx]

theorem localRange_split {u : ExpertUpdate} (hx : x ∈ u.localRange rank) :
    ∃ post, u.localRange rank = List.range' (rank * u.numLocalPhysicalExperts)
      (x - rank * u.numLocalPhysicalExperts) ++ x :: post := by
  obtain ⟨h1, h2⟩ := mem_localRange.mp hx
  obtain ⟨d, rfl⟩ := Nat.exists_eq_add_of_le h1
  obtain ⟨e, he⟩ : ∃ e, u.numLocalPhysicalExperts = d + (e + 1) :=
    ⟨u.numLocalPhysicalExperts - d - 1, by omega⟩
  refine ⟨List.range' (rank * u.numLocalPhysicalExperts + d + 1) e, ?_⟩
  rw [Nat.add_sub_cancel_left, localRange]
  rw [he, ← range'_append_1, range'_succ]

/-! ## 3. The rounds -/

theorem createP2pRecv_eq (hdst : dst ∈ m.localRange rank) (s : RecvState α) (L : ℤ) (src : ℕ) :
    m.createP2pRecvAndBuffer2weightCopy rank s L src dst = some { s with
      p2pOpInfos := s.p2pOpInfos ++
        [(L, (List.range m.numTensors).map fun i => ⟨.irecv, i, m.row dst, src⟩)]
      buffer2weightCopyInfos := s.buffer2weightCopyInfos ++ [(dst, dst)] } := by
  have hops : (List.range m.numTensors).mapM (fun i => do
      let row ← m.getLocalExpertLocation rank dst
      return (⟨.irecv, i, row, src⟩ : P2POp))
      = some ((List.range m.numTensors).map fun i => ⟨.irecv, i, m.row dst, src⟩) := by
    simp only [getLocalExpertLocation_eq hdst, bind_eq_bind, bind_some]
    exact mapM_pure
  rw [createP2pRecvAndBuffer2weightCopy, hops]
  rfl

/-- **A round of `_handle_recv`.** -/
theorem handleRecvOfDstExpertLocation_eq (hr : rank < m.worldSize) (hdst : dst ∈ m.localRange rank)
    (weights : Cell → α) (s : RecvState α) :
    m.handleRecvOfDstExpertLocation rank weights s dst = some (m.recvRound rank weights s dst) := by
  have hnew := getElem?_new hr hdst
  obtain ⟨L, hL⟩ : ∃ L, L = expertAt m.newPhysicalToLogicalMap dst := ⟨_, rfl⟩
  rw [← hL] at hnew
  have hgets : m.Gets rank L := ⟨dst, hdst, hnew⟩
  rw [handleRecvOfDstExpertLocation, hnew, getElem?_old hr hdst]
  simp only [bind_eq_bind, bind_some]
  by_cases hsame : expertAt m.oldPhysicalToLogicalMap dst = L
  · have hhas : ∃ x ∈ m.localRange rank, m.oldPhysicalToLogicalMap[x]? = some L :=
      ⟨dst, hdst, hsame ▸ getElem?_old hr hdst⟩
    simp [recvRound, copySource, Receives, FilledHere, ← hL, hsame, hhas]
  by_cases hhas : ∃ x ∈ m.localRange rank, m.oldPhysicalToLogicalMap[x]? = some L
  · obtain ⟨hfind, hmem, -⟩ := firstSlot_spec hhas
    simp [recvRound, copySource, Receives, FilledHere, ← hL, hsame, hhas, hfind,
      getLocalExpertLocation_eq hdst, getLocalExpertLocation_eq hmem]
  · have hfind : (m.localRange rank).find? (fun x => m.oldPhysicalToLogicalMap[x]? = some L) = none := by
      rw [find?_eq_none]
      intro x hx hc
      exact hhas ⟨x, hx, by simpa using hc⟩
    obtain ⟨post, hsplit⟩ := localRange_split hdst
    have hfirst := firstSlot_of_split hsplit hnew
    rw [if_neg hsame, hfind]
    cases hpre : (List.range' (rank * m.numLocalPhysicalExperts)
        (dst - rank * m.numLocalPhysicalExperts)).find?
          (fun x => m.newPhysicalToLogicalMap[x]? = some L) with
    | some src =>
      rw [hpre] at hfirst
      have hlt : src < dst := by
        have := mem_range'_1.mp (mem_of_find?_eq_some hpre)
        omega
      simp [recvRound, copySource, Receives, FilledHere, ← hL, hsame, hhas, hfirst, hlt.ne]
    | none =>
      rw [hpre] at hfirst
      obtain ⟨a, ha, -⟩ := recvSource_spec (m := m) ⟨hgets, hhas⟩
      have hstate : m.createP2pRecvAndBuffer2weightCopy rank s L a dst
          = some (m.recvRound rank weights s dst) := by
        rw [createP2pRecv_eq hdst]
        simp [recvRound, copySource, Receives, FilledHere, recvInfo, ← hL, hsame, hhas, hfirst, ha]
      rw [recvSource] at ha
      split at ha
      · rename_i hself
        rw [if_pos hself, ha, bind_some, hstate]
      · rename_i hself
        rw [if_neg hself, ha, bind_some, hstate]

theorem handleRecv_eq (hr : rank < m.worldSize) (weights tempBuffers : Cell → α) :
    m.handleRecv rank weights tempBuffers = some ((m.localRange rank).foldl
      (m.recvRound rank weights) ⟨tempBuffers, [], []⟩) :=
  foldlM_eq_foldl (fun s _ hx => handleRecvOfDstExpertLocation_eq hr hx weights s) _

section Rounds

variable (u : ExpertUpdate) (weights : Cell → α) (s : RecvState α) (l : List ℕ)

theorem recvRounds_copyInfos : (l.foldl (u.recvRound rank weights) s).buffer2weightCopyInfos
    = s.buffer2weightCopyInfos ++ l.flatMap fun dst =>
      ((u.copySource rank dst).map (·, dst)).toList := by
  induction l generalizing s with
  | nil => simp
  | cons x l ih =>
    rw [foldl_cons, ih, flatMap_cons, ← append_assoc]
    rfl

theorem recvRounds_p2pOpInfos : (l.foldl (u.recvRound rank weights) s).p2pOpInfos
    = s.p2pOpInfos ++ (l.filter (u.Receives rank ·)).map (u.recvInfo rank) := by
  induction l generalizing s with
  | nil => simp
  | cons x l ih =>
    rw [foldl_cons, ih]
    by_cases hx : u.Receives rank x <;> simp [recvRound, hx]

/-- **A row that is filled** has the weights of the first slot with the expert. -/
theorem recvRounds_tempBuffers {i : ℕ} (hi : i < u.numTensors) (hdst : dst ∈ l)
    (hfill : u.FilledHere rank dst) (hinj : ∀ x ∈ l, u.row x = u.row dst → x = dst) :
    (l.foldl (u.recvRound rank weights) s).tempBuffers (i, u.row dst)
      = weights (i, u.row (u.firstSlot rank u.oldPhysicalToLogicalMap
          (expertAt u.newPhysicalToLogicalMap dst))) := by
  induction l using List.reverseRecOn with
  | nil => exact absurd hdst not_mem_nil
  | append_singleton l x ih =>
    rw [foldl_append, foldl_cons, foldl_nil, recvRound]
    dsimp only
    by_cases hx : u.row x = u.row dst
    · obtain rfl := hinj x (mem_append_right _ (mem_singleton_self x)) hx
      rw [if_pos hfill, copyRows, if_pos ⟨hi, rfl⟩]
    · have hmem : dst ∈ l := (mem_append.mp hdst).resolve_right fun h =>
        hx (by rw [mem_singleton.mp h])
      have hrest := ih hmem fun y hy => hinj y (mem_append_left _ hy)
      split
      · rw [copyRows, if_neg fun hc => hx hc.2.symm]
        exact hrest
      · exact hrest

end Rounds

theorem handled_spec (u : ExpertUpdate) (l : List ℕ) : (u.handled l).Nodup ∧
    ∀ L, L ∈ u.handled l ↔ ∃ x ∈ l, expertAt u.oldPhysicalToLogicalMap x = L := by
  induction l using List.reverseRecOn with
  | nil => exact ⟨nodup_nil, fun L => by simp [handled]⟩
  | append_singleton l x ih =>
    rw [handled, foldl_append, ← handled, foldl_cons, foldl_nil]
    have hstep : ∀ L, (∃ y ∈ l ++ [x], expertAt u.oldPhysicalToLogicalMap y = L) ↔
        L ∈ u.handled l ∨ expertAt u.oldPhysicalToLogicalMap x = L := by
      intro L
      rw [ih.2]
      simp [or_and_right, exists_or]
    dsimp only
    split
    · rename_i hmem
      refine ⟨ih.1, fun L => ?_⟩
      rw [hstep]
      exact ⟨Or.inl, fun h => h.elim id fun he => he ▸ hmem⟩
    · rename_i hmem
      refine ⟨nodup_append.mpr ⟨ih.1, nodup_singleton _, ?_⟩, fun L => ?_⟩
      · rintro L hL L' hL' rfl
        rw [mem_singleton.mp hL'] at hL
        exact hmem hL
      · rw [hstep, mem_append, mem_singleton, eq_comm (a := L)]

/-- An expert that is there is sent with all that look it up. -/
theorem createIsendOpsOfLogicalExpertId_eq (hx : x ∈ m.localRange rank)
    (hL : m.oldPhysicalToLogicalMap[x]? = some L)
    (hfirst : m.firstSlot rank m.oldPhysicalToLogicalMap L = x) :
    m.createIsendOpsOfLogicalExpertId rank L x = some (m.isendInfo rank L) := by
  obtain ⟨l, hdsts, -⟩ := sendDsts_spec (m := m) ⟨x, hx, hL⟩
  have hinfo : m.isendInfo rank L = (L, l.flatMap fun dstRank => (List.range m.numTensors).map
      fun i => ⟨.isend, i, m.row x, dstRank⟩) := by
    rw [isendInfo, hdsts, hfirst]
    rfl
  rw [hinfo]
  simp only [sendDsts, bind_eq_bind, bind_eq_some_iff] at hdsts
  obtain ⟨same, hsame, cross, hcross, heq⟩ := hdsts
  cases heq
  simp only [createIsendOpsOfLogicalExpertId, hsame, hcross, bind_eq_bind, bind_some,
    getLocalExpertLocation_eq hx]
  rfl

/-- **`_create_isend_ops`** sends each expert from the first slot that has it. -/
theorem createIsendOps_eq (hr : rank < m.worldSize) (infos : List P2POpInfo) :
    m.createIsendOps rank infos
      = some (infos ++ (m.handled (m.localRange rank)).map (m.isendInfo rank)) := by
  have hpre : ∀ pre post, m.localRange rank = pre ++ post →
      pre.foldlM (m.createIsendOpsRound rank) ([], infos)
        = some (m.handled pre, infos ++ (m.handled pre).map (m.isendInfo rank)) := by
    intro pre
    induction pre using List.reverseRecOn with
    | nil => intro post _; simp [handled]
    | append_singleton pre x ih =>
      intro post hsplit
      rw [append_assoc] at hsplit
      have hx : x ∈ m.localRange rank := by
        rw [hsplit]
        exact mem_append_right _ (mem_cons_self ..)
      have hold := getElem?_old hr hx
      have hnext : m.handled (pre ++ [x]) = if expertAt m.oldPhysicalToLogicalMap x ∈ m.handled pre
          then m.handled pre else m.handled pre ++ [expertAt m.oldPhysicalToLogicalMap x] := by
        rw [handled, foldl_append]
        rfl
      rw [foldlM_append, ih _ hsplit]
      simp only [bind_eq_bind, bind_some, foldlM_cons, foldlM_nil, createIsendOpsRound, hold]
      rw [hnext]
      split
      · rfl
      · rename_i hmem
        have hfirst : m.firstSlot rank m.oldPhysicalToLogicalMap
            (expertAt m.oldPhysicalToLogicalMap x) = x := by
          rw [firstSlot_of_split hsplit hold]
          have hnone : pre.find? (fun y => m.oldPhysicalToLogicalMap[y]?
              = some (expertAt m.oldPhysicalToLogicalMap x)) = none := by
            rw [find?_eq_none]
            intro y hy hc
            refine hmem (((handled_spec _ pre).2 _).mpr ⟨y, hy, ?_⟩)
            have hyl : y ∈ m.localRange rank := by
              rw [hsplit]
              exact mem_append_left _ hy
            have hc' : m.oldPhysicalToLogicalMap[y]? = _ := of_decide_eq_true hc
            rw [getElem?_old hr hyl, Option.some.injEq] at hc'
            exact hc'
          rw [hnone, getD_none]
        rw [createIsendOpsOfLogicalExpertId_eq hx hold hfirst]
        simp only [bind_some, map_append, map_cons, map_nil, append_assoc]
        rfl
  rw [createIsendOps, hpre _ [] (append_nil _).symm]
  rfl

/-! ## 4. The batch of a rank -/

/-- An entry has operations of one direction. -/
def OneWay (info : P2POpInfo) : Prop := ∃ d : P2PDirection, ∀ op ∈ info.2, op.op = d

theorem oneWay_recvInfo (u : ExpertUpdate) (dst : ℕ) : OneWay (u.recvInfo rank dst) := by
  refine ⟨.irecv, fun op hop => ?_⟩
  obtain ⟨i, -, rfl⟩ := List.mem_map.mp hop
  rfl

theorem oneWay_isendInfo (u : ExpertUpdate) (L : ℤ) : OneWay (u.isendInfo rank L) := by
  refine ⟨.isend, fun op hop => ?_⟩
  obtain ⟨d, -, hop⟩ := mem_flatMap.mp hop
  obtain ⟨i, -, rfl⟩ := List.mem_map.mp hop
  rfl

theorem filterP2pOps_eq {infos : List P2POpInfo} (h : ∀ info ∈ infos, OneWay info) :
    m.filterP2pOps infos = some (infos, []) := by
  rw [filterP2pOps]
  cases hact : m.activeRanks with
  | none => rfl
  | some isActive =>
    have hall : ∀ r, isActive r = true := m.active isActive (by rw [hact]; rfl)
    have hone : ∀ info ∈ infos, filterP2pOp isActive info = some (info, []) := by
      intro info hinfo
      obtain ⟨d, hd⟩ := h info hinfo
      have hnot : ¬ (info.2.any (·.op = .isend) = true ∧ info.2.any (·.op = .irecv) = true) := by
        rintro ⟨h1, h2⟩
        obtain ⟨op, hop, ho⟩ := List.any_eq_true.mp h1
        obtain ⟨op', hop', ho'⟩ := List.any_eq_true.mp h2
        simp_all
      have hfilter : info.2.filter (fun op => isActive op.peer) = info.2 :=
        filter_eq_self.mpr fun op _ => hall _
      have hany : info.2.any (fun op => !isActive op.peer) = false := by
        rw [List.any_eq_false]
        intro op _
        simp [hall]
      rw [filterP2pOp, if_neg hnot]
      simp only [hfilter, hany, Bool.false_eq_true, and_false, if_false]
      split <;> rfl
    have hmap : infos.mapM (filterP2pOp isActive) = some (infos.map fun info => (info, [])) :=
      mapM_eq_map hone
    simp only [hmap, bind_eq_bind, bind_some, List.map_map]
    congr 2
    · exact List.map_id _
    · rw [flatten_eq_nil_iff]
      rintro l hl
      obtain ⟨info, -, rfl⟩ := List.mem_map.mp hl
      rfl

/-- `p2p_op_infos` before it is sorted. -/
def p2pOpInfos (u : ExpertUpdate) (rank : ℕ) : List P2POpInfo :=
  ((u.localRange rank).filter (u.Receives rank ·)).map (u.recvInfo rank) ++
    (u.handled (u.localRange rank)).map (u.isendInfo rank)

/-- `buffer2weight_copy_infos`. -/
def copyInfos (u : ExpertUpdate) (rank : ℕ) : List (ℕ × ℕ) :=
  (u.localRange rank).flatMap fun dst => ((u.copySource rank dst).map (·, dst)).toList

/-- The temporary buffers when the batch is posted. -/
def filledBuffers (u : ExpertUpdate) (rank : ℕ) (weights tempBuffers : Cell → α) : Cell → α :=
  ((u.localRange rank).foldl (u.recvRound rank weights) ⟨tempBuffers, [], []⟩).tempBuffers

/-- **A rank prepares its batch** without an exception. -/
theorem prepare_eq (hr : rank < m.worldSize) (weights tempBuffers : Cell → α) :
    m.prepare rank weights tempBuffers = some ⟨filledBuffers m.toExpertUpdate rank weights tempBuffers,
      copyInfos m.toExpertUpdate rank, sortByKey (p2pOpInfos m.toExpertUpdate rank), []⟩ := by
  have hway : ∀ info ∈ p2pOpInfos m.toExpertUpdate rank, OneWay info := by
    intro info hinfo
    rcases mem_append.mp hinfo with h | h
    · obtain ⟨dst, -, rfl⟩ := List.mem_map.mp h
      exact oneWay_recvInfo _ dst
    · obtain ⟨L, -, rfl⟩ := List.mem_map.mp h
      exact oneWay_isendInfo _ L
  rw [prepare, handleRecv_eq hr]
  simp only [bind_eq_bind, bind_some, createIsendOps_eq hr, recvRounds_p2pOpInfos,
    recvRounds_copyInfos, nil_append]
  rw [← p2pOpInfos, filterP2pOps_eq hway]
  rfl

end ExpertMigration

end Sglang
