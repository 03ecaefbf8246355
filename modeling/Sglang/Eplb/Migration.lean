/-
# Every migration moves the weights

All ranks run `update_expert_weights_single_layer` at once, and their transfers are matched in the order
in which they were posted.  What one rank sends to another is, in expert and tensor order, what the other
has posted to receive from it (`sendLabels_eq_recvLabels`), so the ranks are an exchange of
`Lib.Rendezvous` that is matched and separate: whatever the order of the steps, no run gets stuck, every
run ends, and each slot then has the weights of a slot that had its new expert before
(`migration_correct`).
-/
import Sglang.Lib.Rendezvous
import Sglang.Eplb.RankPlan

namespace Sglang

open Lib List Option

/-! ## 1. The operations between two ranks -/

/-- The operations of one direction with one peer, in order, with their experts. -/
def opsWith (infos : List P2POpInfo) (d : P2PDirection) (peer : ℕ) : List (ℤ × P2POp) :=
  infos.flatMap fun info => (info.2.filter fun op => op.op = d ∧ op.peer = peer).map (info.1, ·)

/-- The expert and the tensor of an operation. -/
def opLabel (x : ℤ × P2POp) : ℤ × ℕ := (x.1, x.2.tensorIndex)

/-- The row that an operation reads or writes. -/
def opCell (x : ℤ × P2POp) : Cell := (x.2.tensorIndex, x.2.row)

namespace ExpertUpdate

variable (u : ExpertUpdate)

/-- What a rank posts and copies, whatever its weights are. -/
def plan (rank : ℕ) : Option (Prepared Unit) := u.prepare rank (fun _ => ()) fun _ => ()

/-- The batch of a rank. -/
def batch (rank : ℕ) : List P2POpInfo := ((u.plan rank).map (·.sortedInfos)).getD []

/-- The experts and tensors that `a` sends to `b`. -/
def sendLabels (a b : ℕ) : List (ℤ × ℕ) := (opsWith (u.batch a) .isend b).map opLabel

/-- The experts and tensors that `b` has posted to receive from `a`. -/
def recvLabels (a b : ℕ) : List (ℤ × ℕ) := (opsWith (u.batch b) .irecv a).map opLabel

end ExpertUpdate

namespace ExpertMigration

open ExpertUpdate

variable (m : ExpertMigration)

instance (rank : ℕ) (L : ℤ) : Decidable (m.Has rank L) := by unfold Has; infer_instance

instance (rank : ℕ) (L : ℤ) : Decidable (m.Needs rank L) := by unfold Needs Gets; infer_instance

/-- The experts that `a` sends to `b`. -/
def commExperts (a b : ℕ) : Finset ℤ :=
  m.newPhysicalToLogicalMap.toFinset.filter fun L => m.Needs b L ∧ m.recvSource b L = some a

variable {m} {a b rank dst : ℕ} {L : ℤ}

theorem mem_commExperts : L ∈ m.commExperts a b ↔ m.Needs b L ∧ m.recvSource b L = some a := by
  rw [commExperts, Finset.mem_filter, List.mem_toFinset]
  refine and_iff_right_of_imp fun h => ?_
  obtain ⟨x, -, hx⟩ := h.1.1
  exact mem_of_getElem? hx

theorem batch_eq (hr : rank < m.worldSize) :
    m.batch rank = sortByKey (p2pOpInfos m.toExpertUpdate rank) := by
  rw [batch, plan, prepare_eq hr]
  rfl

/-- The operations of an expert that is sent. -/
theorem filter_isendOps {l : List ℕ} (hl : l.Nodup) (n row b : ℕ) :
    (l.flatMap fun d => (List.range n).map fun i => (⟨.isend, i, row, d⟩ : P2POp)).filter
        (fun op => op.op = .isend ∧ op.peer = b)
      = if b ∈ l then (List.range n).map fun i => ⟨.isend, i, row, b⟩ else [] := by
  induction l with
  | nil => rfl
  | cons d l ih =>
    obtain ⟨hd, hl⟩ := nodup_cons.mp hl
    rw [flatMap_cons, filter_append, ih hl]
    by_cases hdb : d = b
    · subst hdb
      rw [if_neg hd, if_pos (mem_cons_self ..), append_nil, filter_eq_self]
      intro op hop
      obtain ⟨i, -, rfl⟩ := List.mem_map.mp hop
      simp
    · have hnil : ((List.range n).map fun i => (⟨.isend, i, row, d⟩ : P2POp)).filter
          (fun op => op.op = .isend ∧ op.peer = b) = [] := by
        rw [filter_eq_nil_iff]
        intro op hop
        obtain ⟨i, -, rfl⟩ := List.mem_map.mp hop
        simp [hdb]
      rw [hnil]
      simp [Ne.symm hdb]

/-- Entries of the other direction do not count. -/
theorem filter_recvInfo_isend (u : ExpertUpdate) :
    (u.recvInfo rank dst).2.filter (fun op => op.op = .isend ∧ op.peer = b) = [] := by
  rw [filter_eq_nil_iff]
  intro op hop
  obtain ⟨i, -, rfl⟩ := List.mem_map.mp hop
  simp

theorem filter_isendInfo_irecv (u : ExpertUpdate) :
    (u.isendInfo rank L).2.filter (fun op => op.op = .irecv ∧ op.peer = a) = [] := by
  rw [filter_eq_nil_iff]
  intro op hop
  obtain ⟨d, -, hop⟩ := mem_flatMap.mp hop
  obtain ⟨i, -, rfl⟩ := List.mem_map.mp hop
  simp

theorem mem_handled (hr : rank < m.worldSize) : L ∈ m.handled (m.localRange rank) ↔ m.Has rank L := by
  rw [(handled_spec _ _).2]
  refine exists_congr fun x => and_congr_right fun hx => ?_
  rw [getElem?_old hr hx, Option.some.injEq]

/-- **What `a` sends to `b`.** -/
theorem opsWith_isend (ha : a < m.worldSize) (b : ℕ) : opsWith (m.batch a) .isend b
    = ((m.commExperts a b).sort (· ≤ ·)).flatMap fun L => (List.range m.numTensors).map fun i =>
      (L, ⟨.isend, i, m.row (m.firstSlot a m.oldPhysicalToLogicalMap L), b⟩) := by
  have hentry : ∀ L, m.Has a L → ((m.isendInfo a L).2.filter
      (fun op => op.op = .isend ∧ op.peer = b)).map ((m.isendInfo a L).1, ·)
      = if L ∈ m.commExperts a b then (List.range m.numTensors).map fun i =>
        (L, ⟨.isend, i, m.row (m.firstSlot a m.oldPhysicalToLogicalMap L), b⟩) else [] := by
    intro L hL
    obtain ⟨l, hl, hnodup, hmem⟩ := sendDsts_spec hL
    have hops : (m.isendInfo a L).2 = l.flatMap fun d => (List.range m.numTensors).map fun i =>
        ⟨.isend, i, m.row (m.firstSlot a m.oldPhysicalToLogicalMap L), d⟩ := by
      rw [isendInfo, hl]
      rfl
    rw [hops, filter_isendOps hnodup, ← if_congr (hmem b |>.trans mem_commExperts.symm) rfl rfl]
    split
    · rw [List.map_map]
      rfl
    · rfl
  rw [batch_eq ha]
  refine flatMap_sortByKey ?_ ?_ ?_
  · rw [p2pOpInfos, filter_append, map_append]
    have hnil : (((m.localRange a).filter (m.Receives a ·)).map (m.recvInfo a)).filter
        (fun x => !((x.2.filter fun op => op.op = .isend ∧ op.peer = b).map (x.1, ·)).isEmpty) = [] := by
      rw [filter_eq_nil_iff]
      intro x hx
      obtain ⟨dst, -, rfl⟩ := List.mem_map.mp hx
      rw [filter_recvInfo_isend]
      simp
    rw [hnil, map_nil]
    refine List.Nodup.sublist (filter_sublist.map Prod.fst) ?_
    rw [List.map_map]
    have hid : (Prod.fst ∘ m.isendInfo a) = id := rfl
    rw [hid, List.map_id]
    exact (handled_spec _ _).1
  · intro x hx hne
    rcases mem_append.mp hx with hx | hx
    · obtain ⟨dst, -, rfl⟩ := List.mem_map.mp hx
      rw [filter_recvInfo_isend] at hne
      exact absurd rfl hne
    · obtain ⟨L, hL, rfl⟩ := List.mem_map.mp hx
      have he := hentry L ((mem_handled ha).mp hL)
      rw [he] at hne ⊢
      by_cases hS : L ∈ m.commExperts a b
      · rw [if_pos hS]
        exact ⟨hS, rfl⟩
      · rw [if_neg hS] at hne
        exact absurd rfl hne
  · intro L hL hne
    obtain ⟨hneeds, hsrc⟩ := mem_commExperts.mp hL
    obtain ⟨a', ha', hhas⟩ := recvSource_spec hneeds
    cases ha'.symm.trans hsrc
    refine ⟨m.isendInfo a L, mem_append_right _ (List.mem_map_of_mem ((mem_handled ha).mpr hhas)),
      rfl, ?_⟩
    rw [hentry L hhas, if_pos hL]
    exact hne

theorem Receives.needs (hr : rank < m.worldSize) (hdst : dst ∈ m.localRange rank)
    (h : m.Receives rank dst) : m.Needs rank (expertAt m.newPhysicalToLogicalMap dst) :=
  ⟨⟨dst, hdst, getElem?_new hr hdst⟩, h.1⟩

/-- An expert that is needed is received into the first slot that gets it. -/
theorem Needs.receives (h : m.Needs rank L) :
    m.firstSlot rank m.newPhysicalToLogicalMap L ∈ m.localRange rank ∧
      expertAt m.newPhysicalToLogicalMap (m.firstSlot rank m.newPhysicalToLogicalMap L) = L ∧
      m.Receives rank (m.firstSlot rank m.newPhysicalToLogicalMap L) := by
  obtain ⟨-, hmem, hL⟩ := firstSlot_spec h.1
  have hat : expertAt m.newPhysicalToLogicalMap (m.firstSlot rank m.newPhysicalToLogicalMap L) = L := by
    rw [expertAt, hL, getD_some]
  refine ⟨hmem, hat, ?_⟩
  rw [Receives, hat]
  exact ⟨h.2, rfl⟩

/-- **What `b` has posted to receive from `a`.** -/
theorem opsWith_irecv (hb : b < m.worldSize) (a : ℕ) : opsWith (m.batch b) .irecv a
    = ((m.commExperts a b).sort (· ≤ ·)).flatMap fun L => (List.range m.numTensors).map fun i =>
      (L, ⟨.irecv, i, m.row (m.firstSlot b m.newPhysicalToLogicalMap L), a⟩) := by
  have hentry : ∀ dst ∈ m.localRange b, m.Receives b dst → ((m.recvInfo b dst).2.filter
      (fun op => op.op = .irecv ∧ op.peer = a)).map ((m.recvInfo b dst).1, ·)
      = if expertAt m.newPhysicalToLogicalMap dst ∈ m.commExperts a b then
        (List.range m.numTensors).map fun i => (expertAt m.newPhysicalToLogicalMap dst,
          ⟨.irecv, i, m.row (m.firstSlot b m.newPhysicalToLogicalMap
            (expertAt m.newPhysicalToLogicalMap dst)), a⟩) else [] := by
    intro dst hdst hrec
    have hneeds := Receives.needs hb hdst hrec
    obtain ⟨src, hsrc, -⟩ := recvSource_spec hneeds
    have hops : (m.recvInfo b dst).2 = (List.range m.numTensors).map fun i =>
        ⟨.irecv, i, m.row dst, src⟩ := by
      rw [recvInfo, hsrc]
      rfl
    have hS : expertAt m.newPhysicalToLogicalMap dst ∈ m.commExperts a b ↔ src = a := by
      rw [mem_commExperts, and_iff_right hneeds, hsrc, Option.some.injEq]
    rw [hops, if_congr hS rfl rfl, hrec.2]
    split
    · rename_i he
      subst he
      have hself : ((List.range m.numTensors).map fun i =>
          (⟨.irecv, i, m.row dst, src⟩ : P2POp)).filter
            (fun op => op.op = .irecv ∧ op.peer = src) = (List.range m.numTensors).map fun i =>
          ⟨.irecv, i, m.row dst, src⟩ := by
        rw [filter_eq_self]
        intro op hop
        obtain ⟨i, -, rfl⟩ := List.mem_map.mp hop
        simp
      rw [hself, List.map_map]
      rfl
    · rename_i hne
      rw [map_eq_nil_iff, filter_eq_nil_iff]
      intro op hop
      obtain ⟨i, -, rfl⟩ := List.mem_map.mp hop
      simp [hne]
  rw [batch_eq hb]
  refine flatMap_sortByKey ?_ ?_ ?_
  · rw [p2pOpInfos, filter_append, map_append]
    have hnil : ((m.handled (m.localRange b)).map (m.isendInfo b)).filter
        (fun x => !((x.2.filter fun op => op.op = .irecv ∧ op.peer = a).map (x.1, ·)).isEmpty) = [] := by
      rw [filter_eq_nil_iff]
      intro x hx
      obtain ⟨L, -, rfl⟩ := List.mem_map.mp hx
      rw [filter_isendInfo_irecv]
      simp
    rw [hnil, map_nil, append_nil]
    refine List.Nodup.sublist (filter_sublist.map Prod.fst) ?_
    rw [List.map_map]
    refine List.Nodup.map_on ?_ ((nodup_localRange _ b).filter _)
    intro x hx y hy hxy
    have hx' := of_decide_eq_true (mem_filter.mp hx).2
    have hy' := of_decide_eq_true (mem_filter.mp hy).2
    have hxy' : expertAt m.newPhysicalToLogicalMap x = expertAt m.newPhysicalToLogicalMap y := hxy
    rw [← hx'.2, ← hy'.2, hxy']
  · intro x hx hne
    rcases mem_append.mp hx with hx | hx
    · obtain ⟨dst, hdst, rfl⟩ := List.mem_map.mp hx
      have he := hentry dst (mem_filter.mp hdst).1 (of_decide_eq_true (mem_filter.mp hdst).2)
      rw [he] at hne ⊢
      by_cases hS : expertAt m.newPhysicalToLogicalMap dst ∈ m.commExperts a b
      · rw [if_pos hS]
        exact ⟨hS, rfl⟩
      · rw [if_neg hS] at hne
        exact absurd rfl hne
    · obtain ⟨L, -, rfl⟩ := List.mem_map.mp hx
      rw [filter_isendInfo_irecv] at hne
      exact absurd rfl hne
  · intro L hL hne
    obtain ⟨hmem, hat, hrec⟩ := (mem_commExperts.mp hL).1.receives
    refine ⟨m.recvInfo b (m.firstSlot b m.newPhysicalToLogicalMap L),
      mem_append_left _ (List.mem_map_of_mem (mem_filter.mpr ⟨hmem, decide_eq_true hrec⟩)),
      hat, ?_⟩
    rw [hentry _ hmem hrec, hat, if_pos hL]
    exact hne

/-- **The two ends of each channel agree**, in expert and tensor order. -/
theorem sendLabels_eq_recvLabels (ha : a < m.worldSize) (hb : b < m.worldSize) :
    m.sendLabels a b = m.recvLabels a b := by
  rw [sendLabels, recvLabels, opsWith_isend ha, opsWith_irecv hb, map_flatMap, map_flatMap]
  refine flatMap_congr fun L _ => ?_
  rw [List.map_map, List.map_map]
  rfl

/-! ## 2. The ranks as an exchange -/

variable {α : Type}

/-- The ranks of a migration: what they send and receive, what they fill their temporary buffers with
before, and what they copy back afterwards. -/
def exchange (m : ExpertMigration) (α : Type) : Exchange (Fin m.worldSize) Cell Cell α where
  sends a b := (opsWith (m.batch a) .isend b).map opCell
  recvs a b := (opsWith (m.batch b) .irecv a).map opCell
  fill a weights tempBuffers :=
    ((m.prepare a weights tempBuffers).map (·.tempBuffers)).getD tempBuffers
  drain a tempBuffers weights :=
    ((m.plan a).bind fun p =>
      m.executeBuffer2weightCopies a tempBuffers weights p.buffer2weightCopyInfos).getD weights

/-- The experts and tensors that go from `a` to `b`. -/
def transfers (m : ExpertMigration) (a b : ℕ) : List (ℤ × ℕ) :=
  ((m.commExperts a b).sort (· ≤ ·)).flatMap fun L => (List.range m.numTensors).map (L, ·)

theorem mem_transfers {x : ℤ × ℕ} : x ∈ m.transfers a b ↔ x.1 ∈ m.commExperts a b ∧ x.2 < m.numTensors := by
  rw [transfers, mem_flatMap]
  constructor
  · rintro ⟨L, hL, hx⟩
    obtain ⟨i, hi, rfl⟩ := List.mem_map.mp hx
    exact ⟨(Finset.mem_sort _).mp hL, mem_range.mp hi⟩
  · rintro ⟨hL, hi⟩
    exact ⟨x.1, (Finset.mem_sort _).mpr hL, List.mem_map.mpr ⟨x.2, mem_range.mpr hi, rfl⟩⟩

theorem nodup_transfers (m : ExpertMigration) (a b : ℕ) : (m.transfers a b).Nodup := by
  rw [transfers, nodup_flatMap]
  refine ⟨fun L _ => nodup_range.map fun i j h => (Prod.mk.inj h).2, ?_⟩
  refine (Finset.sort_nodup _ _).imp fun {L L'} hne => ?_
  intro x hx hx'
  obtain ⟨i, -, rfl⟩ := List.mem_map.mp hx
  obtain ⟨j, -, h⟩ := List.mem_map.mp hx'
  exact hne (Prod.mk.inj h).1.symm

theorem exchange_sends (a b : Fin m.worldSize) : (m.exchange α).sends a b =
    (m.transfers a b).map fun x => (x.2, m.row (m.firstSlot a m.oldPhysicalToLogicalMap x.1)) := by
  rw [exchange, transfers, map_flatMap]
  dsimp only
  rw [opsWith_isend a.isLt, map_flatMap]
  refine flatMap_congr fun L _ => ?_
  rw [List.map_map, List.map_map]
  rfl

theorem exchange_recvs (a b : Fin m.worldSize) : (m.exchange α).recvs a b =
    (m.transfers a b).map fun x => (x.2, m.row (m.firstSlot b m.newPhysicalToLogicalMap x.1)) := by
  rw [exchange, transfers, map_flatMap]
  dsimp only
  rw [opsWith_irecv b.isLt, map_flatMap]
  refine flatMap_congr fun L _ => ?_
  rw [List.map_map, List.map_map]
  rfl

/-- Experts that a rank needs are received into different rows. -/
theorem eq_of_row_eq {L L' : ℤ} (h : m.Needs rank L) (h' : m.Needs rank L')
    (hrow : m.row (m.firstSlot rank m.newPhysicalToLogicalMap L)
      = m.row (m.firstSlot rank m.newPhysicalToLogicalMap L')) : L = L' := by
  rw [← h.receives.2.1, ← h'.receives.2.1, row_injOn h.receives.1 h'.receives.1 hrow]

theorem exchange_matched (m : ExpertMigration) : (m.exchange α).Matched := fun a b => by
  rw [exchange_sends, exchange_recvs, length_map, length_map]

theorem exchange_separate (m : ExpertMigration) : (m.exchange α).Separate := by
  intro a a' b k k' y hk hk'
  rw [exchange_recvs, getElem?_map, map_eq_some_iff] at hk hk'
  obtain ⟨x, hx, rfl⟩ := hk
  obtain ⟨x', hx', heq⟩ := hk'
  obtain ⟨hL, -⟩ := mem_transfers.mp (mem_of_getElem? hx)
  obtain ⟨hL', -⟩ := mem_transfers.mp (mem_of_getElem? hx')
  obtain ⟨hneeds, hsrc⟩ := mem_commExperts.mp hL
  obtain ⟨hneeds', hsrc'⟩ := mem_commExperts.mp hL'
  obtain ⟨hi, hrow⟩ := Prod.mk.inj heq
  have hexp : x'.1 = x.1 := eq_of_row_eq hneeds' hneeds hrow
  rw [hexp, hsrc, Option.some.injEq] at hsrc'
  obtain rfl : a = a' := Fin.ext hsrc'
  refine ⟨rfl, ?_⟩
  rw [Prod.ext hexp hi] at hx'
  exact (getElem?_inj (List.getElem?_eq_some_iff.mp hx).1 (nodup_transfers m a b)).mp
    (hx.trans hx'.symm)

/-! ## 3. What is copied back -/

section Copies

variable {rank : ℕ} {tempBuffers weights : Cell → α} {n i r : ℕ} {infos : List (ℕ × ℕ)}

theorem executeBuffer2weightCopies_eq
    (h : ∀ x ∈ infos, x.1 ∈ m.localRange rank ∧ x.2 ∈ m.localRange rank) :
    m.executeBuffer2weightCopies rank tempBuffers weights infos = some (infos.foldl (fun w x =>
      copyRows m.numTensors tempBuffers (m.row x.1) w (m.row x.2)) weights) :=
  foldlM_eq_foldl (fun w x hx => by
    simp only [getLocalExpertLocation_eq (h x hx).1, getLocalExpertLocation_eq (h x hx).2,
      bind_eq_bind, bind_some]
    rfl) weights

theorem copies_of_not {u : ExpertUpdate} (h : ∀ x ∈ infos, u.row x.2 ≠ r) :
    infos.foldl (fun w x => copyRows n tempBuffers (u.row x.1) w (u.row x.2)) weights (i, r)
      = weights (i, r) := by
  induction infos generalizing weights with
  | nil => rfl
  | cons x l ih =>
    rw [foldl_cons, ih fun y hy => h y (mem_cons_of_mem _ hy), copyRows,
      if_neg fun hc => h x (mem_cons_self ..) hc.2.symm]

theorem copies_of_mem {u : ExpertUpdate} {src dst : ℕ} (hi : i < n) (hmem : (src, dst) ∈ infos)
    (honly : ∀ x ∈ infos, u.row x.2 = u.row dst → x.1 = src) :
    infos.foldl (fun w x => copyRows n tempBuffers (u.row x.1) w (u.row x.2)) weights (i, u.row dst)
      = tempBuffers (i, u.row src) := by
  induction infos using List.reverseRecOn with
  | nil => exact absurd hmem not_mem_nil
  | append_singleton l x ih =>
    rw [foldl_append, foldl_cons, foldl_nil, copyRows]
    by_cases hx : u.row x.2 = u.row dst
    · rw [if_pos ⟨hi, hx.symm⟩, honly x (mem_append_right _ (mem_singleton_self x)) hx]
    · rw [if_neg fun hc => hx hc.2.symm]
      refine ih ((mem_append.mp hmem).resolve_right fun h => hx ?_)
        fun y hy => honly y (mem_append_left _ hy)
      rw [← mem_singleton.mp h]

end Copies

theorem mem_copyInfos {u : ExpertUpdate} {x : ℕ × ℕ} :
    x ∈ copyInfos u rank ↔ x.2 ∈ u.localRange rank ∧ u.copySource rank x.2 = some x.1 := by
  rw [copyInfos, mem_flatMap]
  constructor
  · rintro ⟨dst, hdst, hx⟩
    obtain ⟨src, hsrc, rfl⟩ := map_eq_some_iff.mp (mem_toList.mp hx)
    exact ⟨hdst, hsrc⟩
  · rintro ⟨hdst, hsrc⟩
    exact ⟨x.2, hdst, mem_toList.mpr (map_eq_some_iff.mpr ⟨x.1, hsrc, rfl⟩)⟩

/-- Rows are copied between slots of the rank. -/
theorem copySource_mem (hdst : dst ∈ m.localRange rank) (hr : rank < m.worldSize) {src : ℕ}
    (h : m.copySource rank dst = some src) : src ∈ m.localRange rank := by
  rw [copySource] at h
  split at h
  · cases h
  · split at h
    · cases h
      exact hdst
    · cases h
      exact (firstSlot_spec ⟨dst, hdst, getElem?_new hr hdst⟩).2.1

/-- **What is copied over a slot.** -/
theorem exchange_drain (b : Fin m.worldSize) (hdst : dst ∈ m.localRange b) {i : ℕ}
    (hi : i < m.numTensors) (tempBuffers weights : Cell → α) :
    (m.exchange α).drain b tempBuffers weights (i, m.row dst) =
      match m.copySource b dst with
      | none => weights (i, m.row dst)
      | some src => tempBuffers (i, m.row src) := by
  have hinfos : ∀ x ∈ copyInfos m.toExpertUpdate b,
      x.1 ∈ m.localRange b ∧ x.2 ∈ m.localRange b := fun x hx => by
    obtain ⟨h1, h2⟩ := mem_copyInfos.mp hx
    exact ⟨copySource_mem h1 b.isLt h2, h1⟩
  have hdrain : (m.exchange α).drain b tempBuffers weights = (copyInfos m.toExpertUpdate b).foldl
      (fun w x => copyRows m.numTensors tempBuffers (m.row x.1) w (m.row x.2)) weights := by
    simp [exchange, plan, prepare_eq b.isLt, executeBuffer2weightCopies_eq hinfos]
  have hsame : ∀ x ∈ copyInfos m.toExpertUpdate b, m.row x.2 = m.row dst → x.2 = dst :=
    fun x hx he => row_injOn (hinfos x hx).2 hdst he
  rw [hdrain]
  cases hsrc : m.copySource b dst with
  | none =>
    refine copies_of_not fun x hx he => ?_
    have hcopy := (mem_copyInfos.mp hx).2
    rw [hsame x hx he, hsrc] at hcopy
    cases hcopy
  | some src =>
    refine copies_of_mem hi (mem_copyInfos.mpr ⟨hdst, hsrc⟩) fun x hx he => ?_
    have hcopy := (mem_copyInfos.mp hx).2
    rw [hsame x hx he, hsrc] at hcopy
    exact (Option.some.inj hcopy).symm

/-! ## 4. The migration -/

/-- A slot has, afterwards, the weights that a slot with its new expert had before. -/
def Migrated (m : ExpertMigration) (weights weights' : Fin m.worldSize → Cell → α)
    (b : Fin m.worldSize) (dst : ℕ) : Prop :=
  ∃ a : Fin m.worldSize, ∃ src ∈ m.localRange a,
    m.oldPhysicalToLogicalMap[src]? = m.newPhysicalToLogicalMap[dst]? ∧
      ∀ i < m.numTensors, weights' b (i, m.row dst) = weights a (i, m.row src)

theorem Has.lt_worldSize (h : m.Has a L) : a < m.worldSize := by
  obtain ⟨x, hx, hL⟩ := h
  have hlt := (List.getElem?_eq_some_iff.mp hL).1
  rw [m.old_length] at hlt
  by_contra hge
  have hle := Nat.mul_le_mul_right m.numLocalPhysicalExperts (not_lt.mp hge)
  have := (mem_localRange.mp hx).1
  omega

/-- **The slots of a rank that has finished.** -/
theorem migrated_of_drain (b : Fin m.worldSize) (hdst : dst ∈ m.localRange b)
    {weights weights' : Fin m.worldSize → Cell → α} {tempBuffers cells : Cell → α}
    (hdrain : weights' b = (m.exchange α).drain b cells (weights b))
    (hrecv : ∀ (a : Fin m.worldSize) (k : ℕ) (x y : Cell), ((m.exchange α).sends a b)[k]? = some x →
      ((m.exchange α).recvs a b)[k]? = some y → cells y = weights a x)
    (hfill : ∀ y, (∀ a, y ∉ (m.exchange α).recvs a b) →
      cells y = (m.exchange α).fill b (weights b) tempBuffers y) :
    Migrated m weights weights' b dst := by
  have hnew := getElem?_new b.isLt hdst
  have hfinal : ∀ i < m.numTensors, weights' b (i, m.row dst) =
      match m.copySource b dst with
      | none => weights b (i, m.row dst)
      | some src => cells (i, m.row src) := fun i hi => by
    rw [hdrain]
    exact exchange_drain b hdst hi cells (weights b)
  generalize hL : expertAt m.newPhysicalToLogicalMap dst = L at hnew
  by_cases hold : expertAt m.oldPhysicalToLogicalMap dst = L
  · -- the slot is unchanged
    refine ⟨b, dst, hdst, by rw [hnew, getElem?_old b.isLt hdst, hold], fun i hi => ?_⟩
    rw [hfinal i hi, copySource, hL, if_pos hold]
  by_cases hhas : m.Has b L
  · -- the rank has the expert
    obtain ⟨-, hmem, hsrc⟩ := firstSlot_spec hhas
    refine ⟨b, _, hmem, by rw [hnew, hsrc], fun i hi => ?_⟩
    have hcopy : m.copySource b dst = some dst := by
      rw [copySource, hL, if_neg hold]
      exact if_pos hhas
    rw [hfinal i hi, hcopy]
    have hnot : ∀ a, (i, m.row dst) ∉ (m.exchange α).recvs a b := by
      intro a hc
      rw [exchange_recvs, List.mem_map] at hc
      obtain ⟨x, hx, he⟩ := hc
      have hneeds := (mem_commExperts.mp (mem_transfers.mp hx).1).1
      obtain ⟨hm, hat, -⟩ := hneeds.receives
      have hdst' := row_injOn hm hdst (Prod.mk.inj he).2
      rw [hdst', hL] at hat
      exact hneeds.2 (hat ▸ hhas)
    have hfilled : (m.exchange α).fill b (weights b) tempBuffers
        = filledBuffers m.toExpertUpdate b (weights b) tempBuffers := by
      simp [exchange, prepare_eq b.isLt]
    change cells (i, m.row dst) = _
    rw [hfill _ hnot, hfilled, filledBuffers, recvRounds_tempBuffers _ _ _ _ hi hdst ?_
      fun x hx he => row_injOn hx hdst he, hL]
    rw [FilledHere, hL]
    exact ⟨hold, hhas⟩
  · -- another rank sends it
    have hneeds : m.Needs b L := ⟨⟨dst, hdst, hnew⟩, hhas⟩
    obtain ⟨a, hsource, hahas⟩ := recvSource_spec hneeds
    obtain ⟨-, hmem, hsrc⟩ := firstSlot_spec hahas
    refine ⟨⟨a, hahas.lt_worldSize⟩, _, hmem, by rw [hnew, hsrc], fun i hi => ?_⟩
    have hcopy : m.copySource b dst = some (m.firstSlot b m.newPhysicalToLogicalMap L) := by
      rw [copySource, hL, if_neg hold]
      exact if_neg hhas
    rw [hfinal i hi, hcopy]
    have hcomm : L ∈ m.commExperts a b := mem_commExperts.mpr ⟨hneeds, hsource⟩
    have htransfer : (L, i) ∈ m.transfers a b := mem_transfers.mpr ⟨hcomm, hi⟩
    obtain ⟨k, hk⟩ := mem_iff_getElem?.mp htransfer
    refine hrecv ⟨a, hahas.lt_worldSize⟩ k _ _ ?_ ?_
    · rw [exchange_sends, getElem?_map, hk]
      rfl
    · rw [exchange_recvs, getElem?_map, hk]
      rfl

/-- **Expert weight migration is correct and its messages match.**  Every rank computes its operations
without an exception.  For each ordered pair of ranks, what the first sends and what the second has
posted to receive from it are the same experts and tensors in the same order.  Whatever the order in which
the ranks start, the transfers take place and the ranks copy back, no run gets stuck and every run ends;
and then each slot has the weights that a slot with its new expert had before. -/
theorem migration_correct (m : ExpertMigration) (weights tempBuffers : Fin m.worldSize → Cell → α) :
    (∀ a : Fin m.worldSize, (m.prepare a (weights a) (tempBuffers a)).isSome) ∧
    (∀ a b : Fin m.worldSize, m.sendLabels a b = m.recvLabels a b) ∧
    (∀ run : ℕ → Exchange.State (Fin m.worldSize) Cell Cell α,
      ¬ ∀ n, Exchange.Step (m.exchange α) (run n) (run (n + 1))) ∧
    ∀ s, Relation.ReflTransGen (Exchange.Step (m.exchange α)) (Exchange.start weights tempBuffers) s →
      (¬ Exchange.Finished s → ∃ s', Exchange.Step (m.exchange α) s s') ∧
      (Exchange.Finished s → ∀ b : Fin m.worldSize, ∀ dst ∈ m.localRange b, Migrated m weights s.source b dst) := by
  refine ⟨fun a => ?_, fun a b => sendLabels_eq_recvLabels a.isLt b.isLt, Exchange.no_infinite_run,
    fun s hrun => ⟨Exchange.progress (exchange_matched m) (.run hrun), fun hfin b dst hdst => ?_⟩⟩
  · rw [prepare_eq a.isLt]
    rfl
  · obtain ⟨cells, hdrain, hrecv, hfill⟩ := Exchange.outcome (exchange_separate m) hrun hfin b
    exact migrated_of_drain b hdst hdrain hrecv hfill

/-- Two nodes of two ranks with three slots each. -/
def twoNodes : ExpertMigration where
  numTensors := 2
  oldPhysicalToLogicalMap := [0, 1, 2, 3, 0, 1, 2, 3, 4, 5, 4, 5]
  newPhysicalToLogicalMap := [0, 2, 1, 5, 5, 0, 2, 3, 1, 3, 4, 5]
  numLocalPhysicalExperts := 3
  numGpuPerNode := 2
  activeRanks := some fun _ => true
  worldSize := 4
  gpuPerNode_pos := Nat.two_pos
  old_length := rfl
  new_length := rfl
  covered := by decide
  active := by simp

/-- Slot `0` keeps its expert, slot `1` gets one that its rank has, slot `4` the one that slot `3` gets from
the other node, and slot `9` one from the other rank of its node.  Weights that say which expert they are of
end up where they should. -/
theorem migration_correct_twoNodes :
    (twoNodes.copySource 0 0 = none ∧ twoNodes.copySource 0 1 = some 1 ∧
      twoNodes.copySource 1 4 = some 3 ∧ 5 ∈ twoNodes.commExperts 3 1 ∧ 3 ∈ twoNodes.commExperts 2 3) ∧
    ∀ s, Relation.ReflTransGen (Exchange.Step (twoNodes.exchange ℤ)) (Exchange.start
        (fun a c => expertAt twoNodes.oldPhysicalToLogicalMap (a * 3 + c.2)) fun _ _ => 0) s →
      Exchange.Finished s → ∀ b : Fin 4, ∀ dst ∈ twoNodes.localRange b, ∀ i < 2,
        s.source b (i, twoNodes.row dst) = expertAt twoNodes.newPhysicalToLogicalMap dst := by
  refine ⟨by decide +kernel, fun s hrun hfin b dst hdst i hi => ?_⟩
  obtain ⟨a, src, hsrc, hsame, hweights⟩ :=
    ((migration_correct twoNodes _ _).2.2.2 s hrun).2 hfin b dst hdst
  have hslot : (a : ℕ) * 3 + src % 3 = src := by
    have hmem : (a : ℕ) * 3 ≤ src ∧ src < (a : ℕ) * 3 + 3 := mem_localRange.mp hsrc
    omega
  rw [hweights i hi]
  change expertAt _ ((a : ℕ) * 3 + src % 3) = _
  rw [hslot, expertAt, hsame, expertAt]

end ExpertMigration

end Sglang
