/-
# Which batches fit the pool of adapters

A set of adapters fits when, together with the pinned adapters, it has no more members than the
pool has slots (`Fits`).  `validate_lora_batch` decides this, and a set that fits can be fetched.
Without overlap loading a batch is fetched before it runs, so what matters is that the adapters of
all requests in flight fit.  With overlap loading nothing is fetched for a batch, so what matters is
that the adapters of all requests in flight stay resident.

Both hold from pass to pass except for the adapter of a chunked request that is carried over: it is
in the next batch, and the set that the pass checks does not have it.
-/
import Mathlib.Data.Finset.Powerset
import Sglang.Lora.LoRAScheduling

namespace Sglang

open Lib Lib.SlotPool List Finset

namespace Lora

/-! ## 1. Sets that fit -/

/-- The pinned adapters. -/
def pinnedUids (loraRefs : List LoRARef) : Finset Uid :=
  ((loraRefs.filter LoRARef.pinned).map fun ref => some ref.loraId).toFinset

variable {uid : Uid}

theorem isPinned_iff {loraRefs : List LoRARef} :
    isPinned loraRefs uid = true ↔ uid ∈ pinnedUids loraRefs := by
  cases uid with
  | none => simp [isPinned, pinnedUids]
  | some id =>
    simp only [isPinned, pinnedUids, any_eq_true, Bool.and_eq_true, beq_iff_eq,
      mem_toFinset, List.mem_map, List.mem_filter, Option.some.injEq]
    exact ⟨fun ⟨ref, hin, hid, hpin⟩ => ⟨ref, ⟨hin, hpin⟩, hid⟩,
      fun ⟨ref, ⟨hin, hpin⟩, hid⟩ => ⟨ref, hin, hid, hpin⟩⟩

theorem card_pinnedUids {loraRefs : List LoRARef} (hnodup : (loraRefs.map LoRARef.loraId).Nodup) :
    (pinnedUids loraRefs).card = loraRefs.countP LoRARef.pinned := by
  have hsub : ((loraRefs.filter LoRARef.pinned).map LoRARef.loraId).Nodup :=
    hnodup.sublist (filter_sublist.map _)
  have hmap : ((loraRefs.filter LoRARef.pinned).map fun ref => some ref.loraId).Nodup := by
    rw [show (fun ref : LoRARef => some ref.loraId) = some ∘ LoRARef.loraId from rfl, ← List.map_map]
    exact hsub.map (Option.some_injective _)
  rw [pinnedUids, toFinset_card_of_nodup hmap, length_map, countP_eq_length_filter]

namespace LoRAManager

/-- The adapters and the pinned ones have room in the pool. -/
def Fits (manager : LoRAManager) (uids : Finset Uid) : Prop :=
  (uids ∪ pinnedUids manager.loraRefs).card ≤ manager.maxLorasPerBatch

instance (manager : LoRAManager) (uids : Finset Uid) : Decidable (manager.Fits uids) :=
  inferInstanceAs (Decidable (_ ≤ _))

theorem Fits.mono {manager : LoRAManager} {uids uids' : Finset Uid} (h : manager.Fits uids)
    (hsub : uids' ⊆ uids) : manager.Fits uids' :=
  (card_le_card (union_subset_union_left hsub)).trans h

/-- The manager as the server was started, with a sound pool. -/
structure Good (config : ServerConfig) (manager : LoRAManager) : Prop where
  maxLoras : manager.maxLorasPerBatch = config.maxLorasPerBatch
  refs : manager.loraRefs = config.loraRefs
  pinned : manager.numPinnedLoras = config.loraRefs.countP LoRARef.pinned
  pool : manager.memoryPool.Good
  length : manager.memoryPool.bufferIdToUid.length = config.maxLorasPerBatch

variable {config : ServerConfig} {manager : LoRAManager} {uids : List Uid}

theorem Good.card_pinned (h : Good config manager) :
    (pinnedUids manager.loraRefs).card = manager.numPinnedLoras := by
  rw [h.refs, h.pinned, card_pinnedUids config.nodup]

/-- **`validate_lora_batch` decides whether a set fits.** -/
theorem Good.validateLoraBatch (h : Good config manager) (hnodup : uids.Nodup)
    (hload : ∀ uid ∈ uids, isLoaded manager.loraRefs uid = true) :
    manager.validateLoraBatch uids = some (decide (manager.Fits uids.toFinset)) := by
  have hcard : uids.toFinset.card = uids.length := toFinset_card_of_nodup hnodup
  have hinter : (uids.toFinset ∩ pinnedUids manager.loraRefs).card =
      uids.countP (isPinned manager.loraRefs) := by
    rw [countP_eq_length_filter, ← toFinset_card_of_nodup (hnodup.filter _)]
    congr 1
    ext uid
    simp [isPinned_iff]
  have hunion := card_union_add_card_inter uids.toFinset (pinnedUids manager.loraRefs)
  rw [h.card_pinned] at hunion
  have hle : uids.countP (isPinned manager.loraRefs) ≤ manager.numPinnedLoras := by
    rw [← hinter, ← h.card_pinned]
    exact card_le_card Finset.inter_subset_right
  rw [LoRAManager.validateLoraBatch]
  split
  · next hlong =>
    congr 1
    rw [eq_comm, decide_eq_false_iff_not, Fits]
    omega
  split
  · next hlong hzero =>
    congr 1
    rw [eq_comm, decide_eq_true_iff, Fits]
    omega
  simp only
  rw [if_neg (by omega)]
  congr 1
  rw [decide_eq_decide, Fits]
  omega

theorem Good.card_kept (h : Good config manager) {curUids : List Uid}
    (hfit : manager.Fits curUids.toFinset) :
    (LoRAMemoryPool.kept manager.loraRefs curUids manager.memoryPool).card ≤
      manager.memoryPool.bufferIdToUid.length := by
  rw [h.length, ← h.maxLoras]
  refine (card_le_card (union_subset_union_right ?_)).trans hfit
  intro uid huid
  exact isPinned_iff.1 (Finset.mem_filter.1 huid).2

/-- **A set that fits is fetched.** -/
theorem Good.fetchNewLoras (h : Good config manager) (iter : SetOrder) (new running : List Uid)
    (hnodup : (new ∪ running).Nodup) (hfit : manager.Fits (new ∪ running).toFinset)
    (hload : ∀ uid ∈ new ∪ running, isLoaded manager.loraRefs uid = true) :
    ∃ pool, manager.fetchNewLoras iter new running = some { manager with memoryPool := pool } ∧
      Good config { manager with memoryPool := pool } ∧
      LoRAMemoryPool.Served manager.loraRefs (iter.order (new ∪ running))
        (iter.order (new ∪ running)) manager.memoryPool pool := by
  have hperm := iter.perm (new ∪ running)
  have hset : (iter.order (new ∪ running)).toFinset = (new ∪ running).toFinset :=
    toFinset_eq_of_perm _ _ hperm
  have hkept := h.card_kept (hset ▸ hfit)
  obtain ⟨pool, hpool, hserved⟩ := h.pool.prepareLoraBatch hkept
    fun uid huid => hload uid (hperm.mem_iff.1 huid)
  have hlen : (new ∪ running).length ≤ manager.maxLorasPerBatch := by
    rw [← toFinset_card_of_nodup hnodup]
    exact (card_le_card subset_union_left).trans hfit
  refine ⟨pool, ?_, ⟨h.maxLoras, h.refs, h.pinned, hserved.good, hserved.length.trans h.length⟩,
    hserved⟩
  rw [LoRAManager.fetchNewLoras, if_pos hlen, hpool]
  rfl

theorem Good.fetchNewLoras_resident (h : Good config manager) (iter : SetOrder)
    (hnodup : uids.Nodup) (hres : uids.toFinset ⊆ manager.memoryPool.resident)
    (hload : ∀ uid ∈ uids, isLoaded manager.loraRefs uid = true) :
    (manager.fetchNewLoras iter uids []).isSome = true := by
  have hunion : uids ∪ ([] : List Uid) = uids := by
    induction uids with
    | nil => rfl
    | cons uid uids ih =>
      rw [nodup_cons] at hnodup
      have ih' := ih hnodup.2 (fun v hv => hres (by simp at hv; simp [hv]))
        fun v hv => hload v (List.mem_cons_of_mem _ hv)
      rw [cons_union, ih', insert_of_not_mem hnodup.1]
  have hcap := SlotPool.card_add_empties h.pool.distinct
  have hperm := iter.perm uids
  have hset : (iter.order uids).toFinset = uids.toFinset := toFinset_eq_of_perm _ _ hperm
  have hlen : uids.length ≤ manager.maxLorasPerBatch := by
    rw [← toFinset_card_of_nodup hnodup, h.maxLoras, ← h.length, ← hcap]
    exact (card_le_card hres).trans (Nat.le_add_right _ _)
  have hkept : (LoRAMemoryPool.kept manager.loraRefs (iter.order uids) manager.memoryPool).card ≤
      manager.memoryPool.bufferIdToUid.length := by
    rw [← hcap]
    refine (card_le_card ?_).trans (Nat.le_add_right _ _)
    rw [LoRAMemoryPool.kept, hset]
    exact union_subset hres (Finset.filter_subset _ _)
  obtain ⟨pool, hpool, -⟩ := h.pool.prepareLoraBatch hkept
    fun uid huid => hload uid (hperm.mem_iff.1 huid)
  rw [LoRAManager.fetchNewLoras, hunion, if_pos hlen, hpool]
  rfl

end LoRAManager

/-! ## 2. The loop over the waiting queue -/

/-- The adapters of a waiting queue. -/
def queueUids (queue : List (Req × Verdict)) : Finset Uid :=
  (queue.map fun entry => entry.1.loraId).toFinset

theorem queueUids_cons (entry : Req × Verdict) (queue : List (Req × Verdict)) :
    queueUids (entry :: queue) = insert entry.1.loraId (queueUids queue) := by
  rw [queueUids, List.map_cons, toFinset_cons, queueUids]

/-- Where the loop stands with `queue` still to come: `running` are the adapters of the running
batch, `carried` that of the chunked request, and `waiting` those of the whole queue. -/
structure Adder.Good (config : ServerConfig) (overlap : Bool) (running carried waiting : Finset Uid)
    (queue : List (Req × Verdict)) (adder : Adder) : Prop where
  manager : LoRAManager.Good config adder.loraManager
  eventsNodup : adder.overlapLoadEvents.Nodup
  runningNodup : adder.runningLoras.Nodup
  loaded : ∀ uid, uid ∈ adder.runningLoras ∨ uid ∈ adder.overlapLoadEvents ∨
    uid ∈ queueUids queue → isLoaded config.loraRefs uid = true
  lower : running ⊆ adder.runningLoras.toFinset
  upper : adder.runningLoras.toFinset ⊆ running ∪ waiting
  rest : queueUids queue ⊆ waiting
  canRun : ∀ req ∈ adder.canRunList, req.loraId ∈ adder.runningLoras ∨ req.loraId ∈ carried
  newChunked : ∀ req, adder.newChunkedReq = some req →
    req.loraId ∈ adder.runningLoras ∨ req.loraId ∈ carried
  fits : overlap = false → adder.loraManager.Fits adder.runningLoras.toFinset
  resident : overlap = true → adder.runningLoras.toFinset ∪ adder.overlapLoadEvents.toFinset ∪
    carried ⊆ adder.loraManager.memoryPool.resident
  safe : overlap = true → (∀ uid ∈ carried, uid ∈ running ∨ isPinned config.loraRefs uid = true) ∨
    (queueUids queue \ adder.loraManager.memoryPool.resident).card ≤
      empties adder.loraManager.memoryPool.bufferIdToUid

section Scan

variable {config : ServerConfig} {overlap : Bool} {running carried waiting : Finset Uid}
  {queue : List (Req × Verdict)} {adder : Adder} {req : Req} {verdict : Verdict}

theorem Adder.Good.skip
    (h : Adder.Good config overlap running carried waiting ((req, verdict) :: queue) adder) :
    Adder.Good config overlap running carried waiting queue adder :=
  { h with
    loaded := fun uid huid => h.loaded uid (huid.imp id (Or.imp id fun hq => by
      rw [queueUids_cons]; exact Finset.mem_insert_of_mem hq))
    rest := fun uid huid => h.rest (by rw [queueUids_cons]; exact Finset.mem_insert_of_mem huid)
    safe := fun hon => (h.safe hon).imp id fun hcard => by
      refine (card_le_card (sdiff_subset_sdiff ?_ (Finset.Subset.refl _))).trans hcard
      rw [queueUids_cons]
      exact Finset.subset_insert _ _ }

/-- A request whose adapter may run is let in. -/
theorem Adder.Good.addOneReq
    (h : Adder.Good config overlap running carried waiting queue adder) (verdict : Verdict)
    (hload : isLoaded config.loraRefs req.loraId = true) (hwait : req.loraId ∈ waiting)
    (hfits : overlap = false → adder.loraManager.Fits (insert req.loraId adder.runningLoras.toFinset))
    (hres : overlap = true → req.loraId ∈ adder.loraManager.memoryPool.resident) :
    Adder.Good config overlap running carried waiting queue (adder.addOneReq req verdict) := by
  have hset : (adder.runningLoras.insert req.loraId).toFinset =
      insert req.loraId adder.runningLoras.toFinset := by
    ext uid
    simp [mem_insert_iff]
  have hin : ∀ uid, uid ∈ adder.runningLoras → uid ∈ adder.runningLoras.insert req.loraId :=
    fun uid huid => List.mem_insert_of_mem huid
  have hself : req.loraId ∈ adder.runningLoras.insert req.loraId := List.mem_insert_self
  refine { h with
    runningNodup := h.runningNodup.insert
    loaded := fun uid huid => ?_
    lower := ?_
    upper := ?_
    canRun := fun r hr => ?_
    newChunked := fun r hr => ?_
    fits := fun hoff => ?_
    resident := fun hon => ?_ }
  · rcases huid with huid | huid
    · rcases mem_insert_iff.1 huid with rfl | huid
      · exact hload
      · exact h.loaded uid (.inl huid)
    · exact h.loaded uid (.inr huid)
  · rw [Adder.addOneReq, hset]
    exact h.lower.trans (Finset.subset_insert _ _)
  · rw [Adder.addOneReq, hset]
    exact insert_subset (Finset.mem_union_right _ hwait) h.upper
  · simp only [Adder.addOneReq] at hr ⊢
    split at hr
    · rcases mem_append.1 hr with hr | hr
      · exact (h.canRun r hr).imp (hin _) id
      · rw [List.mem_singleton.1 hr]
        exact .inl hself
    · exact (h.canRun r hr).imp (hin _) id
  · simp only [Adder.addOneReq] at hr ⊢
    split at hr
    · cases hold : adder.newChunkedReq with
      | none =>
        rw [hold] at hr
        cases hr
        exact .inl hself
      | some r' =>
        rw [hold] at hr
        cases hr
        exact (h.newChunked _ hold).imp (hin _) id
    · exact (h.newChunked r hr).imp (hin _) id
  · rw [Adder.addOneReq, hset]
    exact hfits hoff
  · have hall := h.resident hon
    rw [Adder.addOneReq, hset, insert_union, insert_union]
    exact insert_subset (hres hon) hall

theorem Adder.Good.startLoad (hon : overlap = true)
    (h : Adder.Good config overlap running carried waiting ((req, verdict) :: queue) adder)
    (hnew : req.loraId ∉ adder.overlapLoadEvents) {pool : LoRAMemoryPool} {cur : List Uid}
    (hcur : ∀ uid, uid ∈ cur ↔
      uid = req.loraId ∨ uid ∈ adder.runningLoras ∨ uid ∈ adder.overlapLoadEvents)
    (hmanager : LoRAManager.Good config { adder.loraManager with memoryPool := pool })
    (hserved : LoRAMemoryPool.Served adder.loraManager.loraRefs cur cur adder.loraManager.memoryPool
      pool) :
    Adder.Good config overlap running carried waiting queue
      { adder with
        loraManager := { adder.loraManager with memoryPool := pool }
        overlapLoadEvents := adder.overlapLoadEvents ++ [req.loraId] } := by
  have hall := h.resident hon
  have hold : ∀ uid, uid ∈ cur → uid ≠ req.loraId →
      uid ∈ adder.loraManager.memoryPool.resident := by
    intro uid huid hne
    refine hall (Finset.mem_union_left _ ?_)
    rw [mem_union, mem_toFinset, mem_toFinset]
    exact ((hcur uid).1 huid).resolve_left hne
  have hmiss : cur.toFinset \ adder.loraManager.memoryPool.resident ⊆
      queueUids ((req, verdict) :: queue) \ adder.loraManager.memoryPool.resident := by
    intro uid huid
    rw [mem_sdiff, mem_toFinset] at huid
    rw [mem_sdiff, queueUids_cons, mem_insert]
    refine ⟨.inl ?_, huid.2⟩
    by_contra hne
    exact huid.2 (hold uid huid.1 hne)
  have hreq : req.loraId ∈ pool.resident := hserved.served _ ((hcur _).2 (.inl rfl))
  have hstay : ∀ uid ∈ carried, uid ∈ pool.resident := by
    intro uid huid
    have hres : uid ∈ adder.loraManager.memoryPool.resident := hall (Finset.mem_union_right _ huid)
    rcases h.safe hon with hsafe | hcard
    · refine hserved.kept (mem_inter.2 ⟨?_, hres⟩)
      rw [LoRAMemoryPool.kept, mem_union, mem_toFinset, Finset.mem_filter]
      rcases hsafe uid huid with hrun | hpin
      · exact .inl ((hcur uid).2 (.inr (.inl (mem_toFinset.1 (h.lower hrun)))))
      · exact .inr ⟨hres, by rw [h.manager.refs]; exact hpin⟩
    · exact (hserved.room ((card_le_card hmiss).trans hcard)).1 hres
  have hskip := h.skip
  refine { hskip with
    manager := hmanager
    eventsNodup := ?_
    loaded := fun uid huid => ?_
    fits := fun hoff => ?_
    resident := fun _ => ?_
    safe := fun _ => ?_ }
  · exact h.eventsNodup.append (nodup_singleton _) (by simpa using hnew)
  · rcases huid with huid | huid | huid
    · exact hskip.loaded uid (.inl huid)
    · rcases mem_append.1 huid with huid | huid
      · exact hskip.loaded uid (.inr (.inl huid))
      · refine h.loaded uid (.inr (.inr ?_))
        rw [List.mem_singleton.1 huid, queueUids_cons]
        exact Finset.mem_insert_self _ _
    · exact hskip.loaded uid (.inr (.inr huid))
  · rw [hon] at hoff
    cases hoff
  · intro uid huid
    simp only [mem_union, mem_toFinset, mem_append, List.mem_singleton] at huid
    rcases huid with (hrun | hev | rfl) | hcar
    · exact hserved.served uid ((hcur uid).2 (.inr (.inl hrun)))
    · exact hserved.served uid ((hcur uid).2 (.inr (.inr hev)))
    · exact hreq
    · exact hstay uid hcar
  · refine (h.safe hon).imp id fun hcard => ?_
    obtain ⟨hsub, hemp⟩ := hserved.room ((card_le_card hmiss).trans hcard)
    have hdisj : Disjoint (cur.toFinset \ adder.loraManager.memoryPool.resident)
        (queueUids queue \ pool.resident) := by
      rw [Finset.disjoint_left]
      intro uid huid huid'
      rw [mem_sdiff, mem_toFinset] at huid
      exact (mem_sdiff.1 huid').2 (hserved.served uid huid.1)
    have hboth : (cur.toFinset \ adder.loraManager.memoryPool.resident) ∪
        (queueUids queue \ pool.resident) ⊆
        queueUids ((req, verdict) :: queue) \ adder.loraManager.memoryPool.resident := by
      refine union_subset hmiss (sdiff_subset_sdiff ?_ hsub)
      rw [queueUids_cons]
      exact Finset.subset_insert _ _
    have hsum := card_le_card hboth
    rw [card_union_of_disjoint hdisj] at hsum
    dsimp only
    omega

/-- **What the check of a waiting request does**: it does not raise, keeps what stands, and when it
lets the request in, the adapters with this one fit, or this one is resident. -/
theorem Adder.Good.canScheduleLoraReq (iter : SetOrder)
    (h : Adder.Good config overlap running carried waiting ((req, verdict) :: queue) adder) :
    ∃ ok manager events, canScheduleLoraReq iter overlap adder req verdict =
        some (ok, manager, events) ∧
      Adder.Good config overlap running carried waiting queue
        { adder with loraManager := manager, overlapLoadEvents := events } ∧
      (ok = true → (overlap = false →
          manager.Fits (insert req.loraId adder.runningLoras.toFinset)) ∧
        (overlap = true → req.loraId ∈ manager.memoryPool.resident)) := by
  have hskip := h.skip
  have hload : isLoaded config.loraRefs req.loraId = true :=
    h.loaded _ (.inr (.inr (by rw [queueUids_cons]; exact Finset.mem_insert_self _ _)))
  rw [Lora.canScheduleLoraReq]
  split
  · exact ⟨false, _, _, rfl, hskip, by simp⟩
  split
  · next hrun =>
    refine ⟨true, _, _, rfl, hskip, fun _ => ⟨fun hoff => ?_, fun hon => ?_⟩⟩
    · rw [insert_eq_of_mem (mem_toFinset.2 hrun)]
      exact h.fits hoff
    · exact h.resident hon (Finset.mem_union_left _ (Finset.mem_union_left _ (mem_toFinset.2 hrun)))
  next hrun =>
  split
  · next hon =>
    rw [LoRAManager.tryOverlapLoadLora]
    split
    · next hev =>
      have hres := h.resident hon (Finset.mem_union_left _
        (Finset.mem_union_right _ (mem_toFinset.2 hev)))
      split
      · refine ⟨true, _, _, rfl, { hskip with
          eventsNodup := h.eventsNodup.erase _
          loaded := fun uid huid => hskip.loaded uid (huid.imp id (Or.imp List.mem_of_mem_erase id))
          resident := fun _ uid huid => h.resident hon ?_ }, fun _ =>
            ⟨fun hoff => absurd (hon.symm.trans hoff) (by decide), fun _ => hres⟩⟩
        simp only [mem_union, mem_toFinset] at huid ⊢
        exact huid.imp (Or.imp id List.mem_of_mem_erase) id
      · exact ⟨false, _, _, rfl, hskip, by simp⟩
    · next hev =>
      have hnodup : (adder.runningLoras ∪ adder.overlapLoadEvents).Nodup :=
        h.eventsNodup.union _
      have hmem : ∀ uid, uid ∈ (adder.runningLoras ∪ adder.overlapLoadEvents).insert req.loraId ↔
          uid = req.loraId ∨ uid ∈ adder.runningLoras ∨ uid ∈ adder.overlapLoadEvents := by
        intro uid
        rw [mem_insert_iff, mem_union_iff]
      have hloaded : ∀ uid ∈ (adder.runningLoras ∪ adder.overlapLoadEvents).insert req.loraId,
          isLoaded adder.loraManager.loraRefs uid = true := by
        intro uid huid
        rw [h.manager.refs]
        rcases (hmem uid).1 huid with rfl | huid | huid
        · exact hload
        · exact h.loaded uid (.inl huid)
        · exact h.loaded uid (.inr (.inl huid))
      rw [LoRAManager.tryStartOverlapLoad,
        h.manager.validateLoraBatch (hnodup.insert) hloaded, Option.bind_some]
      split
      · next hfit =>
        obtain ⟨pool, hpool, hgood, hserved⟩ := h.manager.fetchNewLoras iter
          [req.loraId] (adder.runningLoras ∪ adder.overlapLoadEvents) hnodup.insert (of_decide_eq_true hfit) hloaded
        rw [hpool]
        refine ⟨false, _, _, rfl, h.startLoad hon hev (fun uid => ?_) hgood hserved, by simp⟩
        exact ((iter.perm _).mem_iff).trans (hmem uid)
      · exact ⟨false, _, _, rfl, hskip, by simp⟩
  · next hoff =>
    have hload' : ∀ uid ∈ adder.runningLoras.insert req.loraId,
        isLoaded adder.loraManager.loraRefs uid = true := by
      intro uid huid
      rw [h.manager.refs]
      rcases mem_insert_iff.1 huid with rfl | huid
      · exact hload
      · exact h.loaded uid (.inl huid)
    have hset : (adder.runningLoras.insert req.loraId).toFinset =
        insert req.loraId adder.runningLoras.toFinset := by
      ext uid
      simp [mem_insert_iff]
    rw [h.manager.validateLoraBatch h.runningNodup.insert hload', hset]
    refine ⟨_, _, _, rfl, hskip, fun hok => ⟨fun _ => of_decide_eq_true hok, fun hon => ?_⟩⟩
    exact absurd hon hoff

/-- Where the loop stops before the end. -/
theorem Adder.Good.stop : ∀ {queue : List (Req × Verdict)},
    Adder.Good config overlap running carried waiting queue adder →
      Adder.Good config overlap running carried waiting [] adder
  | [], h => h
  | _ :: _, h => Adder.Good.stop h.skip

/-- **The loop does not raise**, and what stands when it starts stands when it ends. -/
theorem Adder.Good.scanWaitingQueue (iter : SetOrder) : ∀ (queue : List (Req × Verdict))
    {adder : Adder}, Adder.Good config overlap running carried waiting queue adder →
      ∃ adder', scanWaitingQueue iter overlap adder queue = some adder' ∧
        Adder.Good config overlap running carried waiting [] adder'
  | [], adder, h => ⟨adder, rfl, h⟩
  | (req, verdict) :: queue, adder, h => by
    have hload : isLoaded config.loraRefs req.loraId = true :=
      h.loaded _ (.inr (.inr (by rw [queueUids_cons]; exact Finset.mem_insert_self _ _)))
    have hwait : req.loraId ∈ waiting :=
      h.rest (by rw [queueUids_cons]; exact Finset.mem_insert_self _ _)
    obtain ⟨ok, manager, events, hcan, hgood, hok⟩ := h.canScheduleLoraReq iter
    rw [Lora.scanWaitingQueue, hcan]
    cases ok with
    | false => exact Adder.Good.scanWaitingQueue iter queue hgood
    | true =>
      split
      · exact ⟨_, rfl, hgood.stop⟩
      split
      · exact Adder.Good.scanWaitingQueue iter queue hgood
      have hadd := hgood.addOneReq verdict hload hwait (hok rfl).1 (hok rfl).2
      split
      · exact Adder.Good.scanWaitingQueue iter queue hadd
      · exact ⟨_, rfl, hadd.stop⟩

end Scan

/-! ## 3. Passes -/

variable {s : Scheduler}

namespace Scheduler

/-- The requests that are in a batch now or will be without being checked again. -/
def inFlight (s : Scheduler) : List Req := s.runningBatch ++ s.lastBatch ++ s.chunkedReq.toList

def inFlightUids (s : Scheduler) : Finset Uid := (s.inFlight.map Req.loraId).toFinset

/-- What holds between passes: without overlap loading the adapters in flight fit, with it they are
resident. -/
structure Good (config : ServerConfig) (s : Scheduler) : Prop where
  manager : LoRAManager.Good config s.loraManager
  eventsNodup : s.overlapLoadEvents.Nodup
  loaded : ∀ uid, uid ∈ s.inFlightUids ∨ uid ∈ s.overlapLoadEvents →
    isLoaded config.loraRefs uid = true
  fits : s.enableLoraOverlapLoading = false → s.loraManager.Fits s.inFlightUids
  resident : s.enableLoraOverlapLoading = true →
    s.inFlightUids ∪ s.overlapLoadEvents.toFinset ⊆ s.loraManager.memoryPool.resident

/-- The chunked request that is carried over finds room.  Without overlap loading: whichever
adapters of the queue fit beside the running ones still fit with its adapter.  With it: its adapter
is running or pinned, or there is an empty slot for every adapter of the queue that has none. -/
def Roomy (s : Scheduler) (queue : List (Req × Verdict)) : Prop :=
  ∀ req, s.chunkedReq = some req →
    if s.enableLoraOverlapLoading then
      req.loraId ∈ loraIds s.runningBatch ∨ isPinned s.loraManager.loraRefs req.loraId = true ∨
        (queueUids queue \ s.loraManager.memoryPool.resident).card ≤
          empties s.loraManager.memoryPool.bufferIdToUid
    else ∀ uids ⊆ queueUids queue,
      s.loraManager.Fits ((loraIds s.runningBatch).toFinset ∪ uids) →
        s.loraManager.Fits (insert req.loraId ((loraIds s.runningBatch).toFinset ∪ uids))

instance (s : Scheduler) (queue : List (Req × Verdict)) : Decidable (s.Roomy queue) :=
  inferInstanceAs (Decidable (∀ req, req ∈ s.chunkedReq → if s.enableLoraOverlapLoading = true then
    req.loraId ∈ loraIds s.runningBatch ∨ _ ∨ _ else ∀ uids ⊆ queueUids queue, _))

/-- Fewer requests in flight. -/
theorem Good.of_subset {config : ServerConfig} {s' : Scheduler} (h : s.Good config)
    (hm : s'.loraManager = s.loraManager) (he : s'.overlapLoadEvents = s.overlapLoadEvents)
    (ho : s'.enableLoraOverlapLoading = s.enableLoraOverlapLoading)
    (hsub : s'.inFlightUids ⊆ s.inFlightUids) : s'.Good config where
  manager := hm ▸ h.manager
  eventsNodup := he ▸ h.eventsNodup
  loaded uid huid := h.loaded uid (huid.imp (fun hin => hsub hin) fun hin => he ▸ hin)
  fits hoff := by rw [hm]; exact (h.fits (ho ▸ hoff)).mono hsub
  resident hon := by
    rw [hm, he]
    exact (union_subset_union_left hsub).trans (h.resident (ho ▸ hon))

theorem mem_inFlightUids : uid ∈ s.inFlightUids ↔ ∃ req, (req ∈ s.runningBatch ∨ req ∈ s.lastBatch ∨
      s.chunkedReq = some req) ∧ req.loraId = uid := by
  simp only [inFlightUids, inFlight, mem_toFinset, List.mem_map, mem_append,
    Option.mem_toList, or_assoc]

theorem Good.mergeLastBatch {config : ServerConfig} (h : s.Good config)
    (input : PassInput) : (s.mergeLastBatch input).Good config := by
  refine h.of_subset rfl rfl rfl fun uid huid => ?_
  obtain ⟨req, hreq, rfl⟩ := mem_inFlightUids.1 huid
  refine mem_inFlightUids.2 ⟨req, ?_, rfl⟩
  simp only [Scheduler.mergeLastBatch, mem_append, List.mem_filter, not_mem_nil, false_or] at hreq
  exact hreq.elim (Or.imp id fun hlast => .inl hlast.1) fun hchunk => .inr (.inr hchunk)

/-- The adapter of the chunked request. -/
def carriedUids (s : Scheduler) : Finset Uid := (s.chunkedReq.map Req.loraId).toList.toFinset

theorem mem_carriedUids :
    uid ∈ s.carriedUids ↔ ∃ req, s.chunkedReq = some req ∧ req.loraId = uid := by
  simp [carriedUids]

variable {input : PassInput}

theorem addChunkedReq_carried {req : Req}
    (h : req ∈ (s.addChunkedReq input).1 ∨ (s.addChunkedReq input).2 = some req) :
    req.loraId ∈ s.carriedUids := by
  rw [mem_carriedUids]
  rw [addChunkedReq] at h
  split at h
  · simp at h
  · next r hr =>
    refine ⟨r, hr, ?_⟩
    split at h
    · rcases h with h | h
      · rw [List.mem_singleton.1 h]
      · split at h
        · cases h; rfl
        · cases h
    · rcases h with h | h
      · cases h
      · cases h; rfl

theorem mem_loraIds {reqs : List Req} : uid ∈ loraIds reqs ↔ ∃ req ∈ reqs, req.loraId = uid := by
  rw [loraIds, mem_dedup, List.mem_map]

/-- **A prefill pass does not raise, and what it leaves in flight fits or is resident**, when the
chunked request finds room. -/
theorem Good.getNewBatchPrefill {config : ServerConfig} (h : s.Good config) (iter : SetOrder)
    (hqueue : ∀ uid ∈ queueUids input.waitingQueue, isLoaded config.loraRefs uid = true)
    (hroom : s.Roomy input.waitingQueue) :
    ∃ s' canRunList, s.getNewBatchPrefill iter input = some (s', canRunList) ∧
      s'.lastBatch = s.lastBatch ∧
      s'.enableLoraOverlapLoading = s.enableLoraOverlapLoading ∧
      Good config { s' with lastBatch := canRunList } := by
  have hrunning : ∀ uid ∈ loraIds s.runningBatch, uid ∈ s.inFlightUids := by
    intro uid huid
    obtain ⟨req, hreq, rfl⟩ := mem_loraIds.1 huid
    exact mem_inFlightUids.2 ⟨req, .inl hreq, rfl⟩
  have hcarried : s.carriedUids ⊆ s.inFlightUids := by
    intro uid huid
    obtain ⟨req, hreq, rfl⟩ := mem_carriedUids.1 huid
    exact mem_inFlightUids.2 ⟨req, .inr (.inr hreq), rfl⟩
  have hset : (loraIds s.runningBatch).toFinset ⊆ s.inFlightUids :=
    fun uid huid => hrunning uid (mem_toFinset.1 huid)
  have hstart : Adder.Good config s.enableLoraOverlapLoading (loraIds s.runningBatch).toFinset
      s.carriedUids (queueUids input.waitingQueue) input.waitingQueue
      { loraManager := s.loraManager
        overlapLoadEvents := s.overlapLoadEvents
        runningLoras := loraIds s.runningBatch
        canRunList := (s.addChunkedReq input).1
        newChunkedReq := (s.addChunkedReq input).2 } := by
    refine ⟨h.manager, h.eventsNodup, nodup_dedup _, fun uid huid => ?_,
      Finset.Subset.refl _, subset_union_left, Finset.Subset.refl _,
      fun req hreq => .inr (addChunkedReq_carried (.inl hreq)),
      fun req hreq => .inr (addChunkedReq_carried (.inr hreq)), fun hoff => ?_, fun hon => ?_,
      fun hon => ?_⟩
    · rcases huid with huid | huid | huid
      · exact h.loaded uid (.inl (hrunning uid huid))
      · exact h.loaded uid (.inr huid)
      · exact hqueue uid huid
    · exact (h.fits hoff).mono hset
    · refine (union_subset ?_ ?_).trans (h.resident hon)
      · exact union_subset_union_left hset
      · exact hcarried.trans subset_union_left
    · cases hchunk : s.chunkedReq with
      | none => exact .inl fun uid huid => by simp [mem_carriedUids, hchunk] at huid
      | some req =>
        have hreq := hroom req hchunk
        rw [if_pos hon, h.manager.refs] at hreq
        rcases hreq with hin | hpin | hcard
        · refine .inl fun uid huid => ?_
          obtain ⟨r, hr, rfl⟩ := mem_carriedUids.1 huid
          obtain rfl := Option.some.inj (hchunk.symm.trans hr)
          exact .inl (mem_toFinset.2 hin)
        · refine .inl fun uid huid => ?_
          obtain ⟨r, hr, rfl⟩ := mem_carriedUids.1 huid
          obtain rfl := Option.some.inj (hchunk.symm.trans hr)
          exact .inr hpin
        · exact .inr hcard
  obtain ⟨adder, hscan, hgood⟩ := hstart.scanWaitingQueue iter input.waitingQueue
  refine ⟨{ s with
      loraManager := adder.loraManager
      overlapLoadEvents := adder.overlapLoadEvents
      runningBatch := s.runningBatch.filter fun req => !input.preempted req
      chunkedReq := adder.newChunkedReq }, adder.canRunList, ?_, rfl, rfl, ?_⟩
  · rw [Scheduler.getNewBatchPrefill]
    simp only [hscan]
    rfl
  have hflight : inFlightUids { s with
      loraManager := adder.loraManager
      overlapLoadEvents := adder.overlapLoadEvents
      runningBatch := s.runningBatch.filter fun req => !input.preempted req
      lastBatch := adder.canRunList
      chunkedReq := adder.newChunkedReq } ⊆ adder.runningLoras.toFinset ∪ s.carriedUids := by
    intro uid huid
    rw [mem_union, mem_toFinset]
    obtain ⟨req, hreq, rfl⟩ := mem_inFlightUids.1 huid
    rcases hreq with hreq | hreq | hreq
    · refine .inl (mem_toFinset.1 (hgood.lower ?_))
      exact mem_toFinset.2 (mem_loraIds.2 ⟨req, List.mem_of_mem_filter hreq, rfl⟩)
    · exact hgood.canRun req hreq
    · exact hgood.newChunked req hreq
  refine ⟨hgood.manager, hgood.eventsNodup, fun uid huid => ?_, fun hoff => ?_, fun hon => ?_⟩
  · rcases huid with huid | huid
    · rcases mem_union.1 (hflight huid) with hin | hin
      · exact hgood.loaded uid (.inl (mem_toFinset.1 hin))
      · exact h.loaded uid (.inl (hcarried hin))
    · exact hgood.loaded uid (.inr (.inl huid))
  · refine LoRAManager.Fits.mono ?_ hflight
    cases hchunk : s.chunkedReq with
    | none =>
      have hempty : s.carriedUids = ∅ := by simp [carriedUids, hchunk]
      rw [hempty, union_empty]
      exact hgood.fits hoff
    | some req =>
      have hone : s.carriedUids = {req.loraId} := by simp [carriedUids, hchunk]
      have hreq := hroom req hchunk
      rw [if_neg (by simpa using hoff)] at hreq
      have hsplit : (loraIds s.runningBatch).toFinset ∪
          (adder.runningLoras.toFinset \ (loraIds s.runningBatch).toFinset) =
          adder.runningLoras.toFinset := union_sdiff_of_subset hgood.lower
      have hwait : adder.runningLoras.toFinset \ (loraIds s.runningBatch).toFinset ⊆
          queueUids input.waitingQueue := by
        intro uid huid
        rw [mem_sdiff] at huid
        exact (mem_union.1 (hgood.upper huid.1)).resolve_left huid.2
      have hfits := hreq _ hwait
      have hmanager : ∀ uids, adder.loraManager.Fits uids ↔ s.loraManager.Fits uids := by
        intro uids
        rw [LoRAManager.Fits, LoRAManager.Fits, hgood.manager.refs, h.manager.refs,
          hgood.manager.maxLoras, h.manager.maxLoras]
      rw [hsplit, ← hmanager, ← hmanager] at hfits
      rw [hone, union_comm]
      exact hfits (hgood.fits hoff)
  · refine union_subset (hflight.trans ?_) ?_
    · refine (union_subset_union_left ?_).trans (hgood.resident hon)
      exact subset_union_left
    · exact (subset_union_right.trans subset_union_left).trans (hgood.resident hon)

/-- **A pass does not raise**, and the batch it returns is in flight. -/
theorem Good.getNextBatchToRun {config : ServerConfig} (h : s.Good config) (iter : SetOrder)
    (hqueue : ∀ uid ∈ queueUids input.waitingQueue, isLoaded config.loraRefs uid = true)
    (hroom : (s.mergeLastBatch input).Roomy input.waitingQueue) :
    ∃ s' batch, s.getNextBatchToRun iter input = some (s', batch) ∧ s'.Good config ∧
      ∀ req ∈ batch, req ∈ s'.inFlight := by
  obtain ⟨q, canRunList, hq, hlast, -, hgood⟩ :=
    (h.mergeLastBatch input).getNewBatchPrefill iter hqueue hroom
  rw [Scheduler.getNextBatchToRun, hq, Option.map_some]
  have hrunning : ∀ (keep : Req → Bool) (req : Req), req ∈ q.runningBatch.filter keep →
      req.loraId ∈ inFlightUids { q with lastBatch := canRunList } := fun keep req hreq =>
    mem_inFlightUids.2 ⟨req, .inl (List.mem_of_mem_filter hreq), rfl⟩
  have hlast' : q.lastBatch = [] := hlast
  dsimp only
  by_cases hempty : canRunList = []
  · rw [if_pos hempty]
    refine ⟨_, _, rfl, hgood.of_subset rfl rfl rfl fun uid huid => ?_, fun req hreq => ?_⟩
    · obtain ⟨req, hreq, rfl⟩ := mem_inFlightUids.1 huid
      rcases hreq with hreq | hreq | hreq
      · exact hrunning _ req hreq
      · rw [hlast'] at hreq; cases hreq
      · exact mem_inFlightUids.2 ⟨req, .inr (.inr hreq), rfl⟩
    · exact mem_append_left _ (mem_append_left _ hreq)
  rw [if_neg hempty]
  by_cases hmixed : input.mixed = true
  · rw [if_pos hmixed]
    refine ⟨_, _, rfl, hgood.of_subset rfl rfl rfl fun uid huid => ?_, fun req hreq => ?_⟩
    · obtain ⟨req, hreq, rfl⟩ := mem_inFlightUids.1 huid
      rcases hreq with hreq | hreq | hreq
      · cases hreq
      · rcases mem_append.1 hreq with hreq | hreq
        · exact mem_inFlightUids.2 ⟨req, .inr (.inl hreq), rfl⟩
        · exact hrunning _ req hreq
      · exact mem_inFlightUids.2 ⟨req, .inr (.inr hreq), rfl⟩
    · exact mem_append_left _ (mem_append_right _ hreq)
  · rw [if_neg hmixed]
    exact ⟨_, _, rfl, hgood, fun req hreq =>
      mem_append_left _ (mem_append_right _ hreq)⟩

/-- The adapters of the batch can be fetched, and when it runs each of its requests is computed
with the weights of its own adapter, which is resident. -/
structure BatchFits (iter : SetOrder) (s : Scheduler) (batch : List Req) : Prop where
  fetch : (s.loraManager.fetchNewLoras iter (loraIds batch) []).isSome = true
  runs : ∃ s', s.forward iter batch = some s' ∧ ∀ req ∈ batch,
    (s'.loraManager.memoryPool.uidToBufferId req.loraId).isSome = true ∧
      s'.loraManager.memoryPool.weights (s'.loraManager.memoryPool.weightIndex req.loraId) =
        req.loraId

/-- A batch of requests in flight fits, and after it has run what holds between passes holds. -/
theorem Good.forward {config : ServerConfig} (h : s.Good config) (iter : SetOrder)
    {batch : List Req} (hbatch : ∀ req ∈ batch, req ∈ s.inFlight) :
    BatchFits iter s batch ∧ ∀ s', s.forward iter batch = some s' → s'.Good config := by
  have huids : ∀ uid ∈ loraIds batch, uid ∈ s.inFlightUids := by
    intro uid huid
    obtain ⟨req, hreq, rfl⟩ := mem_loraIds.1 huid
    exact mem_toFinset.2 (List.mem_map_of_mem (hbatch req hreq))
  have hunion : ∀ uid, uid ∈ loraIds batch ∪ [] ↔ uid ∈ loraIds batch := by simp
  have hload : ∀ uid ∈ loraIds batch, isLoaded s.loraManager.loraRefs uid = true := fun uid huid => by
    rw [h.manager.refs]
    exact h.loaded uid (.inl (huids uid huid))
  have hown : ∀ manager, LoRAManager.Good config manager → ∀ req ∈ batch,
      req.loraId ∈ manager.memoryPool.resident →
        (manager.memoryPool.uidToBufferId req.loraId).isSome = true ∧
          manager.memoryPool.weights (manager.memoryPool.weightIndex req.loraId) = req.loraId :=
    fun manager hm req _ hres => ⟨hm.pool.mem_resident.1 hres, hm.pool.weightIndex hres⟩
  cases hmode : s.enableLoraOverlapLoading with
  | true =>
    have hres : ∀ uid ∈ loraIds batch, uid ∈ s.loraManager.memoryPool.resident := fun uid huid =>
      h.resident hmode (Finset.mem_union_left _ (huids uid huid))
    have hforward : s.forward iter batch = some s := by
      rw [Scheduler.forward]
      split <;> rfl
    refine ⟨⟨h.manager.fetchNewLoras_resident iter (nodup_dedup _)
      (fun uid huid => hres uid (mem_toFinset.1 huid)) hload, s, hforward,
      fun req hreq => hown _ h.manager req hreq (hres _ (mem_loraIds.2 ⟨req, hreq, rfl⟩))⟩,
      fun s' hs' => ?_⟩
    rw [hforward] at hs'
    cases hs'
    exact h
  | false =>
    obtain ⟨pool, hpool, hgood, hserved⟩ := h.manager.fetchNewLoras iter (loraIds batch) []
      (nodup_nil.union _) ((h.fits hmode).mono fun uid huid =>
        huids uid ((hunion uid).1 (mem_toFinset.1 huid)))
      fun uid huid => hload uid ((hunion uid).1 huid)
    have hafter : s.forward iter batch = some s ∧ batch = [] ∨ s.forward iter batch = some { s with
          loraManager := { s.loraManager with memoryPool := pool } } := by
      rw [Scheduler.forward]
      split
      · next hempty => exact .inl ⟨rfl, hempty⟩
      · rw [hmode, hpool]
        exact .inr rfl
    have hkeep : Good config { s with loraManager := { s.loraManager with memoryPool := pool } } :=
      ⟨hgood, h.eventsNodup, h.loaded, h.fits, fun hon => by simp [hmode] at hon⟩
    rcases hafter with ⟨hafter, hempty⟩ | hafter
    · refine ⟨⟨by rw [hpool]; rfl, s, hafter, fun req hreq => ?_⟩, fun s' hs' => ?_⟩
      · rw [hempty] at hreq; cases hreq
      · rw [hafter] at hs'; cases hs'; exact h
    · refine ⟨⟨by rw [hpool]; rfl, _, hafter, fun req hreq => hown _ hgood req hreq ?_⟩,
        fun s' hs' => ?_⟩
      · refine hserved.served _ ((iter.perm _).mem_iff.2 ((hunion _).2 ?_))
        exact mem_loraIds.2 ⟨req, hreq, rfl⟩
      · rw [hafter] at hs'; cases hs'; exact hkeep

end Scheduler

/-! ## 4. Runs -/

/-- The requests of the waiting queue name adapters that are loaded. -/
def PassInput.Registered (config : ServerConfig) (input : PassInput) : Prop :=
  ∀ uid ∈ queueUids input.waitingQueue, isLoaded config.loraRefs uid = true

instance (config : ServerConfig) (input : PassInput) : Decidable (input.Registered config) :=
  inferInstanceAs (Decidable (∀ uid ∈ queueUids input.waitingQueue, _))

/-- The states between the passes of a run, all of whose passes are `allowed`. -/
inductive Reaches (config : ServerConfig) (iter : SetOrder)
    (allowed : Scheduler → PassInput → Prop) : Scheduler → Prop
  | start {s : Scheduler} (h : config.start iter = some s) : Reaches config iter allowed s
  | pass {s s' s'' : Scheduler} {input : PassInput} {batch : List Req}
      (h : Reaches config iter allowed s) (hreg : input.Registered config) (hok : allowed s input)
      (hpass : s.getNextBatchToRun iter input = some (s', batch))
      (hrun : s'.forward iter batch = some s'') : Reaches config iter allowed s''

/-- A chunked request that the pass carries over finds room. -/
def ChunkRoomy (s : Scheduler) (input : PassInput) : Prop :=
  (s.mergeLastBatch input).Roomy input.waitingQueue

instance (s : Scheduler) (input : PassInput) : Decidable (ChunkRoomy s input) :=
  inferInstanceAs (Decidable (Scheduler.Roomy _ _))

theorem ServerConfig.start_good {config : ServerConfig} {iter : SetOrder} :
    ∃ s, config.start iter = some s ∧ s.Good config := by
  have hgood : LoRAManager.Good config
      { maxLorasPerBatch := config.maxLorasPerBatch
        loraRefs := config.loraRefs
        numPinnedLoras := config.loraRefs.countP LoRARef.pinned
        memoryPool :=
          { bufferIdToUid := List.replicate config.maxLorasPerBatch none
            uidToBufferId := fun _ => none
            weights := fun _ => none
            evictionPolicy := ⟨config.evictionKind, []⟩ } } :=
    ⟨rfl, rfl, rfl, LoRAMemoryPool.good_empty _ _, length_replicate⟩
  obtain ⟨pool, hpool, hnew, -⟩ := hgood.fetchNewLoras iter [none] [] (by decide) (by
    refine (card_union_le _ _).trans ?_
    change _ ≤ config.maxLorasPerBatch
    rw [card_pinnedUids config.nodup]
    have hlt := config.pinned_lt
    have hone : ([none] ∪ [] : List Uid).toFinset.card = 1 := by decide
    omega) (by simp [isLoaded])
  refine ⟨_, by rw [ServerConfig.start, hpool]; rfl, hnew, nodup_nil, fun uid huid => ?_,
    fun _ => ?_, fun _ => ?_⟩
  · simp [Scheduler.inFlightUids, Scheduler.inFlight] at huid
  · change (∅ ∪ pinnedUids config.loraRefs).card ≤ config.maxLorasPerBatch
    rw [empty_union, card_pinnedUids config.nodup]
    exact config.pinned_lt.le
  · simp [Scheduler.inFlightUids, Scheduler.inFlight]

theorem Reaches.good {config : ServerConfig} {iter : SetOrder}
    (h : Reaches config iter ChunkRoomy s) : s.Good config := by
  induction h with
  | start h =>
    obtain ⟨s, hs, hgood⟩ := @ServerConfig.start_good config iter
    rw [hs] at h
    cases h
    exact hgood
  | pass _ hreg hok hpass hrun ih =>
    obtain ⟨s', batch, hpass', hgood, hflight⟩ := ih.getNextBatchToRun iter hreg hok
    rw [hpass] at hpass'
    cases hpass'
    exact (hgood.forward iter hflight).2 _ hrun

/-- **Every batch fits the pool of adapters**, in every run in which each chunked request that is
carried over finds room: no pass raises, the adapters of its batch can be fetched, and every
request is computed with its own adapter. -/
theorem every_batch_fits {config : ServerConfig} {iter : SetOrder} {s : Scheduler}
    {input : PassInput} (h : Reaches config iter ChunkRoomy s) (hreg : input.Registered config)
    (hroom : ChunkRoomy s input) :
    ∃ s' batch, s.getNextBatchToRun iter input = some (s', batch) ∧
      s'.BatchFits iter batch := by
  obtain ⟨s', batch, hpass, hgood, hflight⟩ := h.good.getNextBatchToRun iter hreg hroom
  exact ⟨s', batch, hpass, (hgood.forward iter hflight).1⟩

/-! ## 5. A chunked request that finds no room -/

/-- One pass and its batch. -/
def Scheduler.onePass (iter : SetOrder) (s : Scheduler) (input : PassInput) : Option Scheduler :=
  (s.getNextBatchToRun iter input).bind fun (s', batch) => s'.forward iter batch

theorem Reaches.passes {config : ServerConfig} {iter : SetOrder} :
    ∀ (inputs : List PassInput) {s s' : Scheduler}, Reaches config iter (fun _ _ => True) s →
      (∀ input ∈ inputs, input.Registered config) →
      inputs.foldlM (Scheduler.onePass iter) s = some s' → Reaches config iter (fun _ _ => True) s'
  | [], s, s', h, _, hs => Option.some.inj hs ▸ h
  | input :: inputs, s, s', h, hreg, hs => by
    rw [foldlM_cons] at hs
    obtain ⟨q, hq, hrest⟩ := Option.bind_eq_some_iff.1 hs
    obtain ⟨⟨r, batch⟩, hpass, hrun⟩ := Option.bind_eq_some_iff.1 hq
    exact Reaches.passes inputs (.pass h (hreg _ List.mem_cons_self) trivial hpass hrun)
      (fun i hi => hreg i (List.mem_cons_of_mem _ hi)) hrest

/-- Three adapters and a pool of two slots. -/
def threeAdapters (overlap : Bool) : ServerConfig where
  maxLorasPerBatch := 2
  enableLoraOverlapLoading := overlap
  evictionKind := .lru
  loraRefs := [⟨0, false⟩, ⟨1, false⟩, ⟨2, false⟩]
  maxLoras_pos := by decide
  nodup := by decide
  pinned_lt := by decide

def listOrder : SetOrder := ⟨id, fun l => List.Perm.refl l⟩

/-- A pass that schedules whatever the adapters allow; a marked request is cut to a chunk. -/
def scheduling (queue : List (Req × Bool)) (chunkTruncated : Bool) : PassInput where
  waitingQueue := queue.map fun (req, truncated) =>
    (req, ⟨true, true, false, false, true, truncated, true⟩)
  finished _ := false
  preempted _ := false
  retracted _ := false
  chunkScheduled := true
  chunkTruncated := chunkTruncated
  mixed := false

/-- The adapter 0 of a chunked request is carried over, and a request of the adapter 1 is let in beside it. -/
theorem every_batch_fits_carried : ∃ s s' batch,
    ((threeAdapters false).start listOrder).bind (·.onePass listOrder
      (scheduling [(⟨0, some 0⟩, true)] true)) = some s ∧
    s.chunkedReq = some ⟨0, some 0⟩ ∧
    s.getNextBatchToRun listOrder (scheduling [(⟨1, some 1⟩, false)] false) = some (s', batch) ∧
    batch = [⟨0, some 0⟩, ⟨1, some 1⟩] ∧ s'.BatchFits listOrder batch := by
  obtain ⟨s, hs⟩ := Option.isSome_iff_exists.1 (by decide : (((threeAdapters false).start listOrder).bind
    (·.onePass listOrder (scheduling [(⟨0, some 0⟩, true)] true))).isSome = true)
  obtain ⟨s₀, hs₀, hone⟩ := Option.bind_eq_some_iff.1 hs
  obtain ⟨⟨s₁, batch₁⟩, hpass₁, hrun₁⟩ := Option.bind_eq_some_iff.1 hone
  have hfirst : ((threeAdapters false).start listOrder).map (fun s =>
      decide (ChunkRoomy s (scheduling [(⟨0, some 0⟩, true)] true))) = some true := by decide +kernel
  rw [hs₀, Option.map_some, Option.some.injEq, decide_eq_true_eq] at hfirst
  have hsecond : (((threeAdapters false).start listOrder).bind
      (·.onePass listOrder (scheduling [(⟨0, some 0⟩, true)] true))).map (fun s =>
        (decide (ChunkRoomy s (scheduling [(⟨1, some 1⟩, false)] false)), s.chunkedReq,
          (s.getNextBatchToRun listOrder (scheduling [(⟨1, some 1⟩, false)] false)).map Prod.snd)) =
      some (true, some ⟨0, some 0⟩, some [⟨0, some 0⟩, ⟨1, some 1⟩]) := by decide +kernel
  rw [hs, Option.map_some, Option.some.injEq, Prod.mk.injEq, Prod.mk.injEq, decide_eq_true_eq] at hsecond
  obtain ⟨hroom, hchunk, hbatch⟩ := hsecond
  obtain ⟨s', batch, hpass, hfits⟩ := every_batch_fits
    (.pass (.start hs₀) (by decide +kernel) hfirst hpass₁ hrun₁) (by decide +kernel) hroom
  rw [hpass, Option.map_some, Option.some.injEq] at hbatch
  exact ⟨s, s', batch, hs, hchunk, hpass, hbatch, hfits⟩

/-- The adapter 0 of a chunked request is carried over and two requests of other adapters are let
in: three adapters in a pool of two slots.  With overlap loading the load of adapter 1 takes the
slot of the chunked request, whose weight index is then that of the base model. -/
theorem batch_not_fits :
    (¬ ∀ (config : ServerConfig) (iter : SetOrder) (s : Scheduler) (input : PassInput),
      config.enableLoraOverlapLoading = false → Reaches config iter (fun _ _ => True) s →
      input.Registered config →
      ∃ s' batch, s.getNextBatchToRun iter input = some (s', batch) ∧ s'.BatchFits iter batch) ∧
    ¬ ∀ (config : ServerConfig) (iter : SetOrder) (s : Scheduler) (input : PassInput),
      config.enableLoraOverlapLoading = true → Reaches config iter (fun _ _ => True) s →
      input.Registered config →
      ∃ s' batch, s.getNextBatchToRun iter input = some (s', batch) ∧ s'.BatchFits iter batch := by
  constructor
  · intro hall
    obtain ⟨s, hs⟩ := Option.isSome_iff_exists.1 (by decide :
      (((threeAdapters false).start listOrder).bind fun s =>
        [scheduling [(⟨0, some 0⟩, true)] true].foldlM (Scheduler.onePass listOrder) s).isSome = true)
    obtain ⟨s₀, hs₀, hrun⟩ := Option.bind_eq_some_iff.1 hs
    obtain ⟨s', batch, hpass, hfits⟩ := hall (threeAdapters false) listOrder s
      (scheduling [(⟨1, some 1⟩, false), (⟨2, some 2⟩, false)] false) rfl
      (Reaches.passes _ (.start hs₀) (by decide +kernel) hrun) (by decide +kernel)
    have hbad : ((((threeAdapters false).start listOrder).bind fun s =>
        [scheduling [(⟨0, some 0⟩, true)] true].foldlM (Scheduler.onePass listOrder) s).bind fun s =>
        (s.getNextBatchToRun listOrder
          (scheduling [(⟨1, some 1⟩, false), (⟨2, some 2⟩, false)] false)).map fun (s, batch) =>
          (s.loraManager.fetchNewLoras listOrder (loraIds batch) []).isSome) = some false := by
      decide
    rw [hs, Option.bind_some, hpass] at hbad
    exact absurd (hfits.fetch.symm.trans (Option.some.inj hbad)) (by decide)
  · intro hall
    obtain ⟨s, hs⟩ := Option.isSome_iff_exists.1 (by decide :
      (((threeAdapters true).start listOrder).bind fun s =>
        [scheduling [(⟨0, some 0⟩, true)] true, scheduling [(⟨0, some 0⟩, true)] true].foldlM
          (Scheduler.onePass listOrder) s).isSome = true)
    obtain ⟨s₀, hs₀, hrun⟩ := Option.bind_eq_some_iff.1 hs
    obtain ⟨s', batch, hpass, hfits⟩ := hall (threeAdapters true) listOrder s
      (scheduling [(⟨1, some 1⟩, false)] false) rfl
      (Reaches.passes _ (.start hs₀) (by decide +kernel) hrun) (by decide +kernel)
    obtain ⟨s'', hforward, hown⟩ := hfits.runs
    have hbad : ((((threeAdapters true).start listOrder).bind fun s =>
        [scheduling [(⟨0, some 0⟩, true)] true, scheduling [(⟨0, some 0⟩, true)] true].foldlM
          (Scheduler.onePass listOrder) s).bind fun s =>
        (s.getNextBatchToRun listOrder (scheduling [(⟨1, some 1⟩, false)] false)).bind
          fun (s, batch) => (s.forward listOrder batch).map fun s =>
            decide (∀ req ∈ batch, (s.loraManager.memoryPool.uidToBufferId req.loraId).isSome = true))
        = some false := by
      decide
    rw [hs, Option.bind_some, hpass, Option.bind_some] at hbad
    dsimp only at hbad
    rw [hforward, Option.map_some, Option.some.injEq, decide_eq_false_iff_not] at hbad
    exact hbad fun req hreq => (hown req hreq).1

end Lora

end Sglang
