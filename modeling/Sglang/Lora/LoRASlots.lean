/-
# The table of slots over loads, unloads and fetches

`load_lora_adapter` and `unload_lora_adapter` of `lora_manager.py`, in runs with `fetch_new_loras`.  An
adapter that is unloaded keeps its slot, and a pinned one may have none yet; what `validate_lora_batch`
accepts has room all the same, since it counts the pinned adapters that are loaded and no others are pinned
in the pool.

A fetch of an accepted set raises only when an adapter of the set is not loaded, and never for want of a
slot (`fetches_sound`).
-/
import Sglang.Lora.LoRABatches

namespace Sglang.Lora

open Lib Lib.SlotPool List Finset Option

attribute [local instance] lawfulBEq_uid

namespace LoRAManager

/-! ## 1. Loads and unloads -/

/-- `load_lora_adapter`; `none` is a rejected adapter, or an assertion that fails.  `compatible` is what the
checks of names and shapes say, and the loading of the weights. -/
def loadLoraAdapter (compatible : Bool) (manager : LoRAManager) (ref : LoRARef) : Option LoRAManager :=
  if ref.loraId ∈ manager.loraRefs.map LoRARef.loraId then none
  else if !compatible then none
  else if ref.pinned ∧ manager.numPinnedLoras + 1 ≥ manager.maxLorasPerBatch then none
  else some { manager with
    loraRefs := manager.loraRefs ++ [ref]
    numPinnedLoras := manager.numPinnedLoras + ref.pinned.toNat }

/-- `unload_lora_adapter`. -/
def unloadLoraAdapter (manager : LoRAManager) (loraId : ℕ) : Option LoRAManager :=
  (manager.loraRefs.find? (·.loraId = loraId)).map fun ref => { manager with
    loraRefs := manager.loraRefs.erase ref
    numPinnedLoras := manager.numPinnedLoras - ref.pinned.toNat }

/-- Runs from a pool that is empty. -/
inductive SlotRun (iter : SetOrder) : LoRAManager → Prop
  | start {kind : EvictionKind} {maxLorasPerBatch : ℕ} : 0 < maxLorasPerBatch →
    SlotRun iter
      { maxLorasPerBatch := maxLorasPerBatch
        loraRefs := []
        numPinnedLoras := 0
        memoryPool :=
          { bufferIdToUid := List.replicate maxLorasPerBatch none
            uidToBufferId := fun _ => none
            weights := fun _ => none
            evictionPolicy := ⟨kind, []⟩ } }
  | load {manager manager' : LoRAManager} {compatible : Bool} {ref : LoRARef} : SlotRun iter manager →
    manager.loadLoraAdapter compatible ref = some manager' → SlotRun iter manager'
  | unload {manager manager' : LoRAManager} {loraId : ℕ} : SlotRun iter manager →
    manager.unloadLoraAdapter loraId = some manager' → SlotRun iter manager'
  | fetch {manager manager' : LoRAManager} {new running : List Uid} : SlotRun iter manager →
    (new ∪ running).Nodup → manager.validateLoraBatch (new ∪ running) = some true →
    manager.fetchNewLoras iter new running = some manager' → SlotRun iter manager'

/-- The two maps of the table are inverse to each other. -/
def TableInverse (pool : LoRAMemoryPool) : Prop :=
  ∀ uid b, pool.uidToBufferId uid = some b ↔ pool.bufferIdToUid[b]? = some (some uid)

/-- The pool in the loop of `prepare_lora_batch`, when the adapters `done` have their slots. -/
def loopPool (iter : SetOrder) (manager : LoRAManager) (curUids done : List Uid) : Option LoRAMemoryPool :=
  done.foldlM (LoRAMemoryPool.loadUid manager.loraRefs (iter.order curUids))
    { manager.memoryPool with
      evictionPolicy := (iter.order curUids).foldl EvictionPolicy.markUsed manager.memoryPool.evictionPolicy }

/-- What is claimed of a fetch of an accepted set.  At every round that needs a slot there is one, neither
the search for a victim nor the search for a candidate fails, and what must not be evicted is still there
when the slot has been found. -/
structure FetchSound (iter : SetOrder) (manager : LoRAManager) (new running : List Uid) : Prop where
  returns : (∀ uid ∈ new ∪ running, isLoaded manager.loraRefs uid = true) →
    (manager.fetchNewLoras iter new running).isSome = true
  requested : ∀ manager', manager.fetchNewLoras iter new running = some manager' →
    TableInverse manager'.memoryPool ∧
      ∀ uid ∈ new ∪ running, (manager'.memoryPool.uidToBufferId uid).isSome = true
  noShortage : ∀ done uid todo pool, iter.order (new ∪ running) = done ++ uid :: todo →
    loopPool iter manager (new ∪ running) done = some pool → pool.uidToBufferId uid = none →
    ∃ b pool', pool.getAvailableBufferSlot manager.loraRefs (iter.order (new ∪ running)) = some (b, pool') ∧
      ∀ v, (manager.memoryPool.uidToBufferId v).isSome = true →
        v ∈ new ∪ running ∨ isPinned manager.loraRefs v = true → (pool'.uidToBufferId v).isSome = true
  keeps : ∀ manager', manager.fetchNewLoras iter new running = some manager' →
    ∀ v, (manager.memoryPool.uidToBufferId v).isSome = true →
      v ∈ new ∪ running ∨ isPinned manager.loraRefs v = true →
        (manager'.memoryPool.uidToBufferId v).isSome = true

/-! ## 2. The invariant -/

variable {iter : SetOrder} {config : ServerConfig} {manager manager' : LoRAManager} {new running : List Uid}
  {ref : LoRARef}

/-- **What is accepted fits**, whether its adapters are loaded or not. -/
theorem Good.fits_of_validate (h : Good config manager) {uids : List Uid} (hnodup : uids.Nodup)
    (hvalid : manager.validateLoraBatch uids = some true) : manager.Fits uids.toFinset := by
  by_cases hload : ∀ uid ∈ uids, isLoaded manager.loraRefs uid = true
  · rw [h.validateLoraBatch hnodup hload] at hvalid
    exact of_decide_eq_true (Option.some.inj hvalid)
  -- without pinned adapters nothing else is looked at
  rw [LoRAManager.validateLoraBatch] at hvalid
  split at hvalid
  · cases hvalid
  split at hvalid
  · rename_i hle hzero
    have hcard := h.card_pinned
    rw [hzero, card_eq_zero] at hcard
    rw [Fits, hcard, union_empty, toFinset_card_of_nodup hnodup]
    exact not_lt.mp hle
  · cases hvalid

theorem Good.loop (h : Good config manager) {uids done todo : List Uid} {pool : LoRAMemoryPool}
    (hfit : manager.Fits uids.toFinset) (hsplit : iter.order uids = done ++ todo)
    (hpool : loopPool iter manager uids done = some pool) :
    LoRAMemoryPool.Served manager.loraRefs (iter.order uids) done
      { manager.memoryPool with
        evictionPolicy := (iter.order uids).foldl EvictionPolicy.markUsed manager.memoryPool.evictionPolicy }
      pool ∧ (LoRAMemoryPool.kept manager.loraRefs (iter.order uids) pool).card ≤ pool.bufferIdToUid.length := by
  have hset : (iter.order uids).toFinset = uids.toFinset := toFinset_eq_of_perm _ _ (iter.perm uids)
  have hkept := h.card_kept (hset ▸ hfit)
  have hdone : ∀ uid ∈ done, uid ∈ iter.order uids := fun uid huid => hsplit ▸ mem_append_left _ huid
  have hserved := LoRAMemoryPool.Good.served_of_foldlM done (h.pool.markAll (iter.order uids)) hkept hdone
    (fun id hid => LoRAMemoryPool.mem_markAll _ _ (.inr hid)) hpool
  refine ⟨hserved, ?_⟩
  rw [hserved.length]
  exact (card_le_card (hserved.kept_subset hdone)).trans hkept

/-- **A fetch of an accepted set is sound.** -/
theorem Good.fetchSound (h : Good config manager) (hnodup : (new ∪ running).Nodup)
    (hvalid : manager.validateLoraBatch (new ∪ running) = some true) :
    FetchSound iter manager new running := by
  have hfit := h.fits_of_validate hnodup hvalid
  have hmem : ∀ uid, uid ∈ iter.order (new ∪ running) ↔ uid ∈ new ∪ running := fun uid =>
    (iter.perm _).mem_iff
  have hall (manager') (heq : manager.fetchNewLoras iter new running = some manager') :
      LoRAMemoryPool.Served manager.loraRefs (iter.order (new ∪ running)) (iter.order (new ∪ running))
        { manager.memoryPool with
          evictionPolicy := (iter.order (new ∪ running)).foldl EvictionPolicy.markUsed
            manager.memoryPool.evictionPolicy } manager'.memoryPool := by
    rw [LoRAManager.fetchNewLoras] at heq
    split at heq
    · obtain ⟨pool, hpool, rfl⟩ := map_eq_some_iff.mp heq
      exact (h.loop hfit (append_nil _).symm hpool).1
    · cases heq
  have hstays {v : Uid} (hv : (manager.memoryPool.uidToBufferId v).isSome = true)
      (hin : v ∈ new ∪ running ∨ isPinned manager.loraRefs v = true) :
      v ∈ LoRAMemoryPool.kept manager.loraRefs (iter.order (new ∪ running)) manager.memoryPool ∩
        manager.memoryPool.resident := by
    have hres := h.pool.mem_resident.2 hv
    rw [mem_inter, LoRAMemoryPool.kept, mem_union, List.mem_toFinset, Finset.mem_filter, hmem]
    exact ⟨hin.imp_right fun hp => ⟨hres, hp⟩, hres⟩
  refine ⟨fun hload => ?_, fun manager' heq => ?_, fun done uid todo pool hsplit hpool hmiss => ?_,
    fun manager' heq v hv hin => ?_⟩
  · obtain ⟨pool, hpool, -⟩ := h.fetchNewLoras iter new running hnodup hfit hload
    rw [hpool]
    rfl
  · have hserved := hall manager' heq
    exact ⟨hserved.good.agree, fun uid huid => hserved.good.mem_resident.1
      (hserved.served uid ((hmem uid).2 huid))⟩
  · obtain ⟨hserved, hcard⟩ := h.loop hfit hsplit hpool
    have huid : uid ∈ iter.order (new ∪ running) := by rw [hsplit]; simp
    have hres : uid ∉ pool.resident := fun hin => by simpa [hmiss] using hserved.good.mem_resident.1 hin
    obtain ⟨b, pool', hslot, hfor⟩ := hserved.good.getAvailableBufferSlot hcard huid hres
    refine ⟨b, pool', hslot, fun v hv hin => hfor.good.mem_resident.1 (hfor.kept ?_)⟩
    have hvp := hserved.kept (hstays hv hin)
    rw [mem_inter, LoRAMemoryPool.kept, mem_union, List.mem_toFinset, Finset.mem_filter, hmem]
    exact ⟨hin.imp_right fun hp => ⟨hvp, hp⟩, hvp⟩
  · have hserved := hall manager' heq
    exact hserved.good.mem_resident.1 (hserved.kept (hstays hv hin))

theorem Good.load {compatible : Bool} (h : Good config manager)
    (heq : manager.loadLoraAdapter compatible ref = some manager') :
    ∃ config', Good config' manager' := by
  unfold loadLoraAdapter at heq
  split at heq
  · cases heq
  rename_i hnew
  split at heq
  · cases heq
  split at heq
  · cases heq
  rename_i hpin
  cases heq
  have hrefs := h.refs
  have hpinned := h.pinned
  rw [← hrefs] at hpinned
  have hlt : (manager.loraRefs ++ [ref]).countP LoRARef.pinned < config.maxLorasPerBatch := by
    have := config.pinned_lt
    rw [← hrefs] at this
    have hmax := h.maxLoras
    rw [countP_append, countP_singleton]
    split <;> rename_i hp
    · have := not_le.mp fun hle => hpin ⟨hp, hle⟩
      omega
    · omega
  have hnodup : ((manager.loraRefs ++ [ref]).map LoRARef.loraId).Nodup := by
    rw [map_append, nodup_append_comm]
    exact nodup_cons.mpr ⟨hnew, hrefs ▸ config.nodup⟩
  refine ⟨{ config with loraRefs := _, nodup := hnodup, pinned_lt := hlt }, h.maxLoras, rfl, ?_, h.pool,
    h.length⟩
  rw [hpinned, countP_append, countP_singleton]
  cases ref.pinned <;> rfl

theorem Good.unload {loraId : ℕ} (h : Good config manager)
    (heq : manager.unloadLoraAdapter loraId = some manager') : ∃ config', Good config' manager' := by
  obtain ⟨ref, href, rfl⟩ := map_eq_some_iff.mp heq
  have hrefs := h.refs
  have hpinned := h.pinned
  rw [← hrefs] at hpinned
  have hperm := perm_cons_erase (mem_of_find?_eq_some href)
  have hcount := hperm.countP_eq LoRARef.pinned
  rw [countP_cons] at hcount
  have hnodup : ((manager.loraRefs.erase ref).map LoRARef.loraId).Nodup :=
    List.Nodup.sublist (erase_sublist.map _) (hrefs ▸ config.nodup)
  have hlt : (manager.loraRefs.erase ref).countP LoRARef.pinned < config.maxLorasPerBatch := by
    have := config.pinned_lt
    rw [← hrefs] at this
    omega
  refine ⟨{ config with loraRefs := _, nodup := hnodup, pinned_lt := hlt }, h.maxLoras, rfl, ?_, h.pool,
    h.length⟩
  rw [hpinned, hcount]
  cases ref.pinned <;> simp

theorem SlotRun.good (h : SlotRun iter manager) : ∃ config, Good config manager := by
  induction h with
  | @start kind maxLorasPerBatch hpos =>
    exact ⟨⟨maxLorasPerBatch, false, kind, [], hpos, nodup_nil, hpos⟩, rfl, rfl, rfl,
      LoRAMemoryPool.good_empty _ _, length_replicate⟩
  | load _ heq ih =>
    obtain ⟨config, h⟩ := ih
    exact h.load heq
  | unload _ heq ih =>
    obtain ⟨config, h⟩ := ih
    exact h.unload heq
  | fetch _ hnodup hvalid heq ih =>
    obtain ⟨config, h⟩ := ih
    have hfit := h.fits_of_validate hnodup hvalid
    rw [fetchNewLoras] at heq
    split at heq
    · obtain ⟨pool, hpool, rfl⟩ := map_eq_some_iff.mp heq
      have hserved := (h.loop hfit (append_nil _).symm hpool).1
      exact ⟨config, h.maxLoras, h.refs, h.pinned, hserved.good, hserved.length.trans h.length⟩
    · cases heq

/-! ## 3. The guarantee -/

/-- **The table of slots** is sound in every run, and so is every fetch of an accepted set. -/
theorem fetches_sound (h : SlotRun iter manager) : TableInverse manager.memoryPool ∧
    ∀ new running : List Uid, (new ∪ running).Nodup →
      manager.validateLoraBatch (new ∪ running) = some true → FetchSound iter manager new running := by
  obtain ⟨config, hgood⟩ := h.good
  exact ⟨hgood.pool.agree, fun new running hnodup hvalid => hgood.fetchSound hnodup hvalid⟩

/-- Two slots, with a pinned adapter in the first: the fetch of a third adapter evicts the one in the
second. -/
theorem fetches_sound_example : ∃ manager manager', TableInverse manager.memoryPool ∧
    FetchSound listOrder manager [some 8] [] ∧
    manager.memoryPool.bufferIdToUid = [some (some 4), some (some 7)] ∧
    manager.fetchNewLoras listOrder [some 8] [] = some manager' ∧
    manager'.memoryPool.bufferIdToUid = [some (some 4), some (some 8)] := by
  have h₀ := @SlotRun.start listOrder .lru 2 (by decide)
  have h₁ := @SlotRun.load listOrder _ _ true ⟨4, true⟩ h₀ rfl
  have h₂ := @SlotRun.load listOrder _ _ true ⟨7, false⟩ h₁ rfl
  have h₃ := @SlotRun.load listOrder _ _ true ⟨8, false⟩ h₂ rfl
  have h₄ := @SlotRun.fetch listOrder _ _ [some 4] [some 7] h₃ (by decide) (by decide) rfl
  obtain ⟨htable, hfetch⟩ := fetches_sound h₄
  exact ⟨_, _, htable, hfetch [some 8] [] (by decide) (by decide), rfl, rfl, rfl⟩

end LoRAManager

end Sglang.Lora
