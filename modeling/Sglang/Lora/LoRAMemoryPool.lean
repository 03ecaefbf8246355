/-
# The memory pool of adapters

A transcription of the part of `LoRAMemoryPool` of `mem_pool.py` that decides which adapters have a
buffer, with the eviction policies of `eviction_policy.py`.  Each buffer has one slot.  Preparing a
batch loads the adapters that have none, into empty slots first, then over adapters that are
neither in the batch nor pinned, and over the base model last.

An adapter is named by its identifier and the base model is `none`, as in the source.  What a
buffer holds is named by the adapter whose weights were copied there last; a buffer that was never
filled holds zeros, which is what the base model uses.
-/
import Sglang.Lib.SlotPool

namespace Sglang

open Lib Lib.SlotPool List Option Finset Function

namespace Lora

/-! ## 1. The pool -/

/-- An adapter, or the base model. -/
abbrev Uid := Option ℕ

/-- The part of `LoRARef` that a batch reads. -/
structure LoRARef where
  loraId : ℕ
  pinned : Bool
  deriving DecidableEq

def isPinned (loraRefs : List LoRARef) : Uid → Bool
  | none => false
  | some id => loraRefs.any fun ref => ref.loraId == id && ref.pinned

def isLoaded (loraRefs : List LoRARef) : Uid → Bool
  | none => true
  | some id => loraRefs.any fun ref => ref.loraId == id

inductive EvictionKind
  | lru
  | fifo

/-- Both policies keep the adapters in an order and evict the first that they may. -/
structure EvictionPolicy where
  kind : EvictionKind
  order : List ℕ

namespace EvictionPolicy

def markUsed (policy : EvictionPolicy) : Uid → EvictionPolicy
  | none => policy
  | some id =>
    match policy.kind with
    | .lru => { policy with order := policy.order.filter (· ≠ id) ++ [id] }
    | .fifo => if id ∈ policy.order then policy else { policy with order := policy.order ++ [id] }

/-- `none` where the source's assertion fails. -/
def selectVictim (policy : EvictionPolicy) (candidates : List Uid) : Option Uid :=
  match policy.order.find? fun id => decide (some id ∈ candidates) with
  | some id => some (some id)
  | none => if none ∈ candidates then some none else none

def remove (policy : EvictionPolicy) : Uid → EvictionPolicy
  | none => policy
  | some id => { policy with order := policy.order.filter (· ≠ id) }

end EvictionPolicy

structure LoRAMemoryPool where
  bufferIdToUid : List (Option Uid)
  uidToBufferId : Uid → Option ℕ
  weights : ℕ → Uid
  evictionPolicy : EvictionPolicy

namespace LoRAMemoryPool

/-- `none` where the source raises. -/
def getAvailableBufferSlot (loraRefs : List LoRARef) (curUids : List Uid) (pool : LoRAMemoryPool) :
    Option (ℕ × LoRAMemoryPool) :=
  match pool.bufferIdToUid.findIdx? Option.isNone with
  | some bufferId => some (bufferId, pool)
  | none =>
    let candidates := pool.bufferIdToUid.filterMap fun slot => slot.bind fun uid =>
      if uid ∈ curUids then none else if isPinned loraRefs uid then none else some uid
    if candidates = [] then none
    else
      let nonNoneCandidates := candidates.filter (· ≠ none)
      let candidatesToUse := if nonNoneCandidates = [] then candidates else nonNoneCandidates
      (pool.evictionPolicy.selectVictim candidatesToUse).bind fun victimUid =>
        (pool.uidToBufferId victimUid).map fun victimBufferId =>
          (victimBufferId, { pool with
            uidToBufferId := Function.update pool.uidToBufferId victimUid none
            evictionPolicy := pool.evictionPolicy.remove victimUid
            bufferIdToUid := pool.bufferIdToUid.set victimBufferId none })

/-- One round of the loop of `prepare_lora_batch`. -/
def loadUid (loraRefs : List LoRARef) (curUids : List Uid) (pool : LoRAMemoryPool) (uid : Uid) :
    Option LoRAMemoryPool :=
  if (pool.uidToBufferId uid).isSome then some pool
  else
    (getAvailableBufferSlot loraRefs curUids pool).bind fun (bufferId, pool) =>
      if isLoaded loraRefs uid then
        some { pool with
          weights := Function.update pool.weights bufferId uid
          uidToBufferId := Function.update pool.uidToBufferId uid (some bufferId)
          bufferIdToUid := pool.bufferIdToUid.set bufferId (some uid) }
      else none

/-- The set of adapters comes in the order in which it is iterated. -/
def prepareLoraBatch (loraRefs : List LoRARef) (curUids : List Uid) (pool : LoRAMemoryPool) :
    Option LoRAMemoryPool :=
  curUids.foldlM (loadUid loraRefs curUids)
    { pool with evictionPolicy := curUids.foldl EvictionPolicy.markUsed pool.evictionPolicy }

/-- The buffer that a request's adapter is computed with. -/
def weightIndex (pool : LoRAMemoryPool) (uid : Uid) : ℕ := (pool.uidToBufferId uid).getD 0

/-- The adapters that have a buffer. -/
def resident (pool : LoRAMemoryPool) : Finset Uid := residents pool.bufferIdToUid

/-! ## 2. The invariant -/

/-- The two maps agree, each buffer holds the weights of its adapter, and the policy knows every
adapter that it may have to evict. -/
structure Good (pool : LoRAMemoryPool) : Prop where
  distinct : Distinct pool.bufferIdToUid
  agree : ∀ uid b, pool.uidToBufferId uid = some b ↔ pool.bufferIdToUid[b]? = some (some uid)
  weights : ∀ b uid, pool.bufferIdToUid[b]? = some (some uid) → pool.weights b = uid
  tracked : ∀ id, some id ∈ pool.resident → id ∈ pool.evictionPolicy.order

variable {loraRefs : List LoRARef} {curUids : List Uid} {pool : LoRAMemoryPool} {uid : Uid}

theorem Good.mem_resident (h : pool.Good) :
    uid ∈ pool.resident ↔ (pool.uidToBufferId uid).isSome = true := by
  rw [resident, SlotPool.mem_residents, mem_iff_getElem?, isSome_iff_exists]
  exact exists_congr fun b => (h.agree uid b).symm

theorem good_empty (n : ℕ) (kind : EvictionKind) :
    Good ⟨List.replicate n none, fun _ => none, fun _ => none, ⟨kind, []⟩⟩ where
  distinct := by
    rw [Distinct, reduceOption_replicate_none]
    exact nodup_nil
  agree uid b := by simp [getElem?_replicate]
  weights b uid hb := by simp [getElem?_replicate] at hb
  tracked id hid := by
    rw [resident, residents, reduceOption_replicate_none] at hid
    cases hid

/-- **A resident adapter is computed with its own weights.** -/
theorem Good.weightIndex (h : pool.Good) (hmem : uid ∈ pool.resident) :
    pool.weights (pool.weightIndex uid) = uid := by
  obtain ⟨b, hb⟩ := isSome_iff_exists.1 (h.mem_resident.1 hmem)
  rw [LoRAMemoryPool.weightIndex, hb]
  exact h.weights b uid ((h.agree uid b).1 hb)

theorem mem_markUsed {policy : EvictionPolicy} {id : ℕ} (h : id ∈ policy.order) (uid : Uid) :
    id ∈ (policy.markUsed uid).order := by
  cases uid with
  | none => exact h
  | some used =>
    rw [EvictionPolicy.markUsed]
    split
    · by_cases hid : id = used
      · simp [hid]
      · simp [h, hid]
    · split
      · exact h
      · exact mem_append_left _ h

theorem markUsed_mem {policy : EvictionPolicy} {id : ℕ} : id ∈ (policy.markUsed (some id)).order := by
  rw [EvictionPolicy.markUsed]
  split
  · simp
  · split
    · assumption
    · simp

theorem mem_markAll {id : ℕ} : ∀ (uids : List Uid) (policy : EvictionPolicy),
    id ∈ policy.order ∨ some id ∈ uids → id ∈ (uids.foldl EvictionPolicy.markUsed policy).order
  | [], policy, h => by simpa using h
  | uid :: uids, policy, h => by
    refine mem_markAll uids _ ?_
    rcases h with h | h
    · exact .inl (mem_markUsed h uid)
    · rcases List.mem_cons.1 h with rfl | h
      · exact .inl markUsed_mem
      · exact .inr h

theorem Good.markAll (h : pool.Good) (uids : List Uid) :
    Good { pool with evictionPolicy := uids.foldl EvictionPolicy.markUsed pool.evictionPolicy } where
  distinct := h.distinct
  agree := h.agree
  weights := h.weights
  tracked id hid := mem_markAll uids _ (.inl (h.tracked id hid))

/-! ## 3. A slot for an adapter -/

theorem selectVictim_mem (policy : EvictionPolicy) {candidates : List Uid} (hne : candidates ≠ [])
    (htracked : ∀ id, some id ∈ candidates → id ∈ policy.order) :
    ∃ victim ∈ candidates, policy.selectVictim candidates = some victim := by
  rw [EvictionPolicy.selectVictim]
  cases hfind : policy.order.find? fun id => decide (some id ∈ candidates) with
  | some id => exact ⟨some id, by simpa using find?_some hfind, rfl⟩
  | none =>
    have hnone := find?_eq_none.1 hfind
    obtain ⟨uid, huid⟩ := exists_mem_of_ne_nil _ hne
    cases uid with
    | none => exact ⟨none, huid, by simp [huid]⟩
    | some id => exact absurd (by simpa using huid) (hnone id (htracked id huid))

/-- The adapters that loading the batch must not evict. -/
def kept (loraRefs : List LoRARef) (curUids : List Uid) (pool : LoRAMemoryPool) : Finset Uid :=
  curUids.toFinset ∪ pool.resident.filter fun uid => isPinned loraRefs uid = true

/-- What getting a slot for an adapter of the batch does. -/
structure SlotFor (loraRefs : List LoRARef) (curUids : List Uid) (pool : LoRAMemoryPool) (b : ℕ)
    (pool' : LoRAMemoryPool) : Prop where
  good : pool'.Good
  length : pool'.bufferIdToUid.length = pool.bufferIdToUid.length
  slot : pool'.bufferIdToUid[b]? = some none
  order : ∀ id, some id ∈ curUids → id ∈ pool.evictionPolicy.order →
    id ∈ pool'.evictionPolicy.order
  resident : pool'.resident ⊆ pool.resident
  kept : kept loraRefs curUids pool ∩ pool.resident ⊆ pool'.resident
  room : 0 < empties pool.bufferIdToUid → pool' = pool

theorem Good.evict (h : pool.Good) {victim : Uid} {b : ℕ} (hb : pool.uidToBufferId victim = some b)
    (hcur : victim ∉ curUids) (hpin : isPinned loraRefs victim = false)
    (hfull : empties pool.bufferIdToUid = 0) :
    SlotFor loraRefs curUids pool b { pool with
      uidToBufferId := Function.update pool.uidToBufferId victim none
      evictionPolicy := pool.evictionPolicy.remove victim
      bufferIdToUid := pool.bufferIdToUid.set b none } := by
  have hslot := (h.agree victim b).1 hb
  have hlt : b < pool.bufferIdToUid.length := (List.getElem?_eq_some_iff.1 hslot).1
  obtain ⟨hdist, hres, hemp⟩ := SlotPool.vacate h.distinct hslot
  have hother : ∀ (uid : Uid) (b' : ℕ), uid ≠ victim →
      ((pool.bufferIdToUid.set b none)[b']? = some (some uid) ↔
        pool.bufferIdToUid[b']? = some (some uid)) := by
    intro uid b' hne
    by_cases hbb : b = b'
    · subst hbb
      rw [getElem?_set_self hlt, hslot]
      simp [Ne.symm hne]
    · rw [getElem?_set_ne hbb]
  have hgone : ∀ b' : ℕ, (pool.bufferIdToUid.set b none)[b']? ≠ some (some victim) := by
    intro b' hb'
    have hmem : victim ∈ residents (pool.bufferIdToUid.set b none) :=
      SlotPool.mem_residents.2 (mem_of_getElem? hb')
    rw [hres] at hmem
    exact notMem_erase _ _ hmem
  have horder : ∀ id, some id ≠ victim → id ∈ pool.evictionPolicy.order →
      id ∈ (pool.evictionPolicy.remove victim).order := by
    intro id hne hid
    cases victim with
    | none => exact hid
    | some v => simpa [EvictionPolicy.remove, hid] using hne
  refine ⟨⟨hdist, fun uid b' => ?_, fun b' uid hb' => ?_, fun id hid => ?_⟩, length_set,
    getElem?_set_self hlt, fun id hid => horder id fun heq => hcur (heq ▸ hid), ?_, ?_, ?_⟩
  · by_cases huid : uid = victim
    · subst huid
      simp only [update_self, reduceCtorEq, false_iff]
      exact hgone b'
    · rw [hother uid b' huid]
      simp only [update_of_ne huid]
      exact h.agree uid b'
  · refine h.weights b' uid ((hother uid b' fun heq => ?_).1 hb')
    exact hgone b' (heq ▸ hb')
  · rw [LoRAMemoryPool.resident, hres, mem_erase] at hid
    exact horder id hid.1 (h.tracked id hid.2)
  · rw [LoRAMemoryPool.resident, hres]
    exact Finset.erase_subset _ _
  · intro uid huid
    rw [mem_inter, LoRAMemoryPool.kept, mem_union, List.mem_toFinset, Finset.mem_filter] at huid
    rw [LoRAMemoryPool.resident, hres]
    refine mem_erase.2 ⟨fun heq => ?_, huid.2⟩
    subst heq
    rcases huid.1 with hin | ⟨_, hp⟩
    · exact hcur hin
    · rw [hpin] at hp; cases hp
  · omega

/-- **There is a slot for every adapter of a batch** that fits beside the pinned adapters. -/
theorem Good.getAvailableBufferSlot (h : pool.Good)
    (hcard : (kept loraRefs curUids pool).card ≤ pool.bufferIdToUid.length)
    (huid : uid ∈ curUids) (hmiss : uid ∉ pool.resident) :
    ∃ b pool', getAvailableBufferSlot loraRefs curUids pool = some (b, pool') ∧
      SlotFor loraRefs curUids pool b pool' := by
  rw [LoRAMemoryPool.getAvailableBufferSlot]
  cases hfind : pool.bufferIdToUid.findIdx? Option.isNone with
  | some b =>
    obtain ⟨hlt, hb, -⟩ := findIdx?_eq_some_iff_getElem.1 hfind
    have hslot : pool.bufferIdToUid[b]? = some none := by
      rw [getElem?_eq_getElem hlt]
      simpa using hb
    exact ⟨b, pool, rfl, h, rfl, hslot, fun _ _ hid => hid, Finset.Subset.refl _,
      Finset.inter_subset_right, fun _ => rfl⟩
  | none =>
    have hfull : empties pool.bufferIdToUid = 0 := by
      refine SlotPool.empties_eq_zero fun hin => ?_
      simpa using findIdx?_eq_none_iff.1 hfind _ hin
    set candidates := pool.bufferIdToUid.filterMap fun slot => slot.bind fun uid =>
      if uid ∈ curUids then none else if isPinned loraRefs uid then none else some uid
      with hcandidates
    have hmem : ∀ v, v ∈ candidates ↔
        v ∈ pool.resident ∧ v ∉ curUids ∧ isPinned loraRefs v = false := by
      intro v
      rw [List.mem_filterMap, LoRAMemoryPool.resident, SlotPool.mem_residents]
      constructor
      · rintro ⟨_ | w, hw, hv⟩
        · cases hv
        · simp only [bind_some] at hv
          split at hv
          · cases hv
          · split at hv
            · cases hv
            · next hcur hpin =>
              cases hv
              exact ⟨hw, hcur, Bool.eq_false_iff.2 hpin⟩
      · rintro ⟨hin, hcur, hpin⟩
        exact ⟨some v, hin, by simp [hcur, hpin]⟩
    obtain ⟨v, hv, hout⟩ := SlotPool.exists_victim h.distinct hfull hcard
      (Finset.mem_union_left _ (List.mem_toFinset.2 huid)) hmiss
    have hne : candidates ≠ [] := by
      refine ne_nil_of_mem ((hmem v).2 ⟨hv, fun hin => ?_, ?_⟩)
      · exact hout (Finset.mem_union_left _ (List.mem_toFinset.2 hin))
      · rw [Bool.eq_false_iff]
        exact fun hp => hout (Finset.mem_union_right _ (Finset.mem_filter.2 ⟨hv, hp⟩))
    have huse : ∃ use, use = (if candidates.filter (· ≠ none) = [] then candidates
        else candidates.filter (· ≠ none)) ∧ use ≠ [] ∧ ∀ w ∈ use, w ∈ candidates := by
      refine ⟨_, rfl, ?_, ?_⟩
      · split
        · exact hne
        · assumption
      · split
        · exact fun w hw => hw
        · exact fun w hw => List.mem_of_mem_filter hw
    obtain ⟨use, hdef, husene, husemem⟩ := huse
    obtain ⟨victim, hvictim, hselect⟩ := selectVictim_mem pool.evictionPolicy husene
      fun id hid => h.tracked id ((hmem _).1 (husemem _ hid)).1
    obtain ⟨hres, hcur, hpin⟩ := (hmem victim).1 (husemem _ hvictim)
    obtain ⟨b, hb⟩ := isSome_iff_exists.1 (h.mem_resident.1 hres)
    refine ⟨b, _, ?_, h.evict hb hcur hpin hfull⟩
    simp only [hne, if_false, ← hdef, hselect, bind_some, hb, map_some]

/-! ## 4. Loading a batch -/

/-- What loading the adapters `todo` of a batch does. -/
structure Served (loraRefs : List LoRARef) (curUids todo : List Uid) (pool pool' : LoRAMemoryPool) :
    Prop where
  good : pool'.Good
  length : pool'.bufferIdToUid.length = pool.bufferIdToUid.length
  served : ∀ uid ∈ todo, uid ∈ pool'.resident
  kept : kept loraRefs curUids pool ∩ pool.resident ⊆ pool'.resident
  only : pool'.resident ⊆ pool.resident ∪ todo.toFinset
  order : ∀ id, some id ∈ curUids → id ∈ pool.evictionPolicy.order →
    id ∈ pool'.evictionPolicy.order
  room : (todo.toFinset \ pool.resident).card ≤ empties pool.bufferIdToUid →
    pool.resident ⊆ pool'.resident ∧ empties pool.bufferIdToUid ≤
      empties pool'.bufferIdToUid + (todo.toFinset \ pool.resident).card

variable {todo : List Uid}

theorem Served.refl (h : pool.Good) (htodo : ∀ uid ∈ todo, uid ∈ pool.resident) :
    Served loraRefs curUids todo pool pool where
  good := h
  length := rfl
  served := htodo
  kept := Finset.inter_subset_right
  only := subset_union_left
  order _ _ hid := hid
  room _ := ⟨Finset.Subset.refl _, Nat.le_add_right _ _⟩

/-- What the batch keeps it keeps to the end. -/
theorem Served.kept_subset {pool' : LoRAMemoryPool}
    (h : Served loraRefs curUids todo pool pool') (htodo : ∀ uid ∈ todo, uid ∈ curUids) :
    LoRAMemoryPool.kept loraRefs curUids pool' ⊆ LoRAMemoryPool.kept loraRefs curUids pool := by
  intro uid huid
  rw [LoRAMemoryPool.kept, mem_union, Finset.mem_filter] at huid ⊢
  rcases huid with hcur | ⟨hres, hpin⟩
  · exact .inl hcur
  · rcases mem_union.1 (h.only hres) with hold | hnew
    · exact .inr ⟨hold, hpin⟩
    · exact .inl (List.mem_toFinset.2 (htodo uid (List.mem_toFinset.1 hnew)))

theorem Served.cons {uid : Uid} {rest : List Uid} {pool₁ pool₂ : LoRAMemoryPool}
    (h₁ : Served loraRefs curUids [uid] pool pool₁) (h₂ : Served loraRefs curUids rest pool₁ pool₂)
    (hcur : uid ∈ curUids) : Served loraRefs curUids (uid :: rest) pool pool₂ := by
  have huid := h₁.served uid (List.mem_singleton_self _)
  have hstay : uid ∈ pool₂.resident := h₂.kept <| mem_inter.2
    ⟨Finset.mem_union_left _ (List.mem_toFinset.2 hcur), huid⟩
  refine ⟨h₂.good, h₂.length.trans h₁.length, fun v hv => ?_, fun v hv => ?_, fun v hv => ?_,
    fun id hid hord => h₂.order id hid (h₁.order id hid hord), fun hroom => ?_⟩
  · rcases List.mem_cons.1 hv with rfl | hv
    · exact hstay
    · exact h₂.served v hv
  · have hv₁ := h₁.kept hv
    rw [LoRAMemoryPool.kept, mem_inter, mem_union, Finset.mem_filter] at hv
    refine h₂.kept (mem_inter.2 ⟨?_, hv₁⟩)
    rw [LoRAMemoryPool.kept, mem_union, Finset.mem_filter]
    exact hv.1.imp id fun hp => ⟨hv₁, hp.2⟩
  · have hv₂ := h₂.only hv
    rw [mem_union] at hv₂
    rw [toFinset_cons, mem_union, mem_insert]
    rcases hv₂ with hv₁ | hrest
    · rcases mem_union.1 (h₁.only hv₁) with hold | hnew
      · exact .inl hold
      · exact .inr (.inl (by simpa using hnew))
    · exact .inr (.inr hrest)
  · have hdisj : Disjoint ([uid].toFinset \ pool.resident) (rest.toFinset \ pool₁.resident) := by
      rw [Finset.disjoint_left]
      intro v hv hv'
      rw [mem_sdiff, List.mem_toFinset, List.mem_singleton] at hv
      exact (mem_sdiff.1 hv').2 (hv.1 ▸ huid)
    have hone : [uid].toFinset \ pool.resident ⊆ (uid :: rest).toFinset \ pool.resident :=
      sdiff_subset_sdiff (by simp) (Finset.Subset.refl _)
    obtain ⟨hsub₁, hemp₁⟩ := h₁.room ((card_le_card hone).trans hroom)
    have hboth : ([uid].toFinset \ pool.resident) ∪ (rest.toFinset \ pool₁.resident) ⊆
        (uid :: rest).toFinset \ pool.resident := by
      refine union_subset hone (sdiff_subset_sdiff ?_ hsub₁)
      rw [toFinset_cons]
      exact Finset.subset_insert _ _
    have hsum := card_le_card hboth
    rw [card_union_of_disjoint hdisj] at hsum
    obtain ⟨hsub₂, hemp₂⟩ := h₂.room (by omega)
    exact ⟨hsub₁.trans hsub₂, by omega⟩

/-- One adapter of the batch. -/
theorem Good.loadUid (h : pool.Good)
    (hcard : (kept loraRefs curUids pool).card ≤ pool.bufferIdToUid.length)
    (huid : uid ∈ curUids) (hload : isLoaded loraRefs uid = true)
    (hused : ∀ id, some id ∈ curUids → id ∈ pool.evictionPolicy.order) :
    ∃ pool', loadUid loraRefs curUids pool uid = some pool' ∧
      Served loraRefs curUids [uid] pool pool' := by
  rw [LoRAMemoryPool.loadUid]
  by_cases hres : uid ∈ pool.resident
  · rw [if_pos (h.mem_resident.1 hres)]
    exact ⟨pool, rfl, Served.refl h (by simpa using hres)⟩
  rw [if_neg fun hsome => hres (h.mem_resident.2 hsome)]
  obtain ⟨b, q, hslot, hq⟩ := h.getAvailableBufferSlot hcard huid hres
  have hresq : uid ∉ residents q.bufferIdToUid := fun hin => hres (hq.resident hin)
  obtain ⟨hdist, hres', hemp⟩ := SlotPool.place hq.good.distinct hq.slot hresq
  have hlt : b < q.bufferIdToUid.length := (List.getElem?_eq_some_iff.1 hq.slot).1
  have hget : ∀ (v : Uid) (b' : ℕ), (q.bufferIdToUid.set b (some uid))[b']? = some (some v) ↔
      (b' = b ∧ v = uid) ∨ q.bufferIdToUid[b']? = some (some v) := by
    intro v b'
    by_cases hbb : b = b'
    · subst hbb
      rw [getElem?_set_self hlt, hq.slot]
      simp [eq_comm]
    · rw [getElem?_set_ne hbb]
      simp [Ne.symm hbb]
  have hfresh : ∀ b' : ℕ, q.bufferIdToUid[b']? ≠ some (some uid) := fun b' hb' =>
    hresq (SlotPool.mem_residents.2 (mem_of_getElem? hb'))
  refine ⟨_, by rw [hslot]; exact if_pos hload, ?_⟩
  refine ⟨⟨hdist, fun v b' => ?_, fun b' v hb' => ?_, fun id hid => ?_⟩,
    length_set.trans hq.length, ?_, ?_, ?_, hq.order, fun hroom => ?_⟩
  · rw [hget v b']
    by_cases hv : v = uid
    · subst hv
      simp only [update_self, Option.some.injEq, hfresh b', or_false, and_true]
      exact eq_comm
    · simp only [update_of_ne hv, hv, and_false, false_or]
      exact hq.good.agree v b'
  · rcases (hget v b').1 hb' with ⟨rfl, rfl⟩ | hold
    · simp
    · have hbb : b' ≠ b := by
        rintro rfl
        rw [hq.slot] at hold
        cases hold
      simp only [update_of_ne hbb]
      exact hq.good.weights b' v hold
  · rw [LoRAMemoryPool.resident, hres', mem_insert] at hid
    rcases hid with heq | hid
    · exact hq.order id (heq ▸ huid) (hused id (heq ▸ huid))
    · exact hq.good.tracked id hid
  · intro v hv
    rw [LoRAMemoryPool.resident, hres', List.mem_singleton.1 hv]
    exact Finset.mem_insert_self _ _
  · change LoRAMemoryPool.kept loraRefs curUids pool ∩ pool.resident ⊆
      residents (q.bufferIdToUid.set b (some uid))
    rw [hres']
    exact hq.kept.trans (Finset.subset_insert _ _)
  · rw [LoRAMemoryPool.resident, hres', toFinset_cons]
    intro v hv
    rcases mem_insert.1 hv with rfl | hv
    · simp
    · exact Finset.mem_union_left _ (hq.resident hv)
  · have hnew : [uid].toFinset \ pool.resident = {uid} := by
      ext v
      simp only [toFinset_cons, toFinset_nil, insert_empty_eq, mem_sdiff,
        Finset.mem_singleton, and_iff_left_iff_imp]
      rintro rfl
      exact hres
    rw [hnew] at hroom ⊢
    obtain rfl := hq.room hroom
    refine ⟨?_, hemp.ge⟩
    change residents q.bufferIdToUid ⊆ residents (q.bufferIdToUid.set b (some uid))
    rw [hres']
    exact Finset.subset_insert _ _

theorem Good.foldlM_loadUid (hload : ∀ uid ∈ curUids, isLoaded loraRefs uid = true) :
    ∀ (todo : List Uid) (pool : LoRAMemoryPool), pool.Good →
      (kept loraRefs curUids pool).card ≤ pool.bufferIdToUid.length →
      (∀ uid ∈ todo, uid ∈ curUids) →
      (∀ id, some id ∈ curUids → id ∈ pool.evictionPolicy.order) →
      ∃ pool', todo.foldlM (LoRAMemoryPool.loadUid loraRefs curUids) pool = some pool' ∧
        Served loraRefs curUids todo pool pool'
  | [], pool, h, _, _, _ => ⟨pool, rfl, Served.refl h (by simp)⟩
  | uid :: todo, pool, h, hcard, htodo, hused => by
    have huid := htodo uid List.mem_cons_self
    obtain ⟨q, hq, hserved⟩ := h.loadUid hcard huid (hload uid huid) hused
    have hsub := hserved.kept_subset (by simpa using huid)
    obtain ⟨pool', hpool', hrest⟩ := foldlM_loadUid hload todo q hserved.good
      (by rw [hserved.length]; exact (card_le_card hsub).trans hcard)
      (fun v hv => htodo v (List.mem_cons_of_mem _ hv))
      (fun id hid => hserved.order id hid (hused id hid))
    refine ⟨pool', ?_, hserved.cons hrest huid⟩
    rw [foldlM_cons, hq]
    exact hpool'

/-- What the loop has done where it has not raised, whether the rest of the batch can be loaded or not. -/
theorem Good.served_of_foldlM : ∀ (todo : List Uid) {pool pool' : LoRAMemoryPool}, pool.Good →
    (kept loraRefs curUids pool).card ≤ pool.bufferIdToUid.length → (∀ uid ∈ todo, uid ∈ curUids) →
    (∀ id, some id ∈ curUids → id ∈ pool.evictionPolicy.order) →
    todo.foldlM (LoRAMemoryPool.loadUid loraRefs curUids) pool = some pool' →
    Served loraRefs curUids todo pool pool'
  | [], pool, pool', h, _, _, _, heq => by
    cases heq
    exact Served.refl h (by simp)
  | uid :: todo, pool, pool', h, hcard, htodo, hused, heq => by
    have huid := htodo uid List.mem_cons_self
    obtain ⟨q, hq, hrest⟩ := bind_eq_some_iff.mp heq
    have hserved : Served loraRefs curUids [uid] pool q := by
      by_cases hload : isLoaded loraRefs uid = true
      · obtain ⟨q', hq', hserved⟩ := h.loadUid hcard huid hload hused
        cases hq.symm.trans hq'
        exact hserved
      · -- an adapter that is not loaded has a slot left
        rw [LoRAMemoryPool.loadUid] at hq
        split at hq
        · rename_i hsome
          cases hq
          exact Served.refl h (by simpa using h.mem_resident.2 hsome)
        · obtain ⟨⟨b, p⟩, -, hx⟩ := bind_eq_some_iff.mp hq
          cases hx
    have hsub := hserved.kept_subset (by simpa using huid)
    exact hserved.cons (Good.served_of_foldlM todo hserved.good
      (by rw [hserved.length]; exact (card_le_card hsub).trans hcard)
      (fun v hv => htodo v (List.mem_cons_of_mem _ hv))
      (fun id hid => hserved.order id hid (hused id hid)) hrest) huid

/-- **A batch that fits beside the pinned adapters is loaded**: every adapter of the batch gets a
buffer, and none that is in the batch or pinned loses its own. -/
theorem Good.prepareLoraBatch (h : pool.Good)
    (hcard : (kept loraRefs curUids pool).card ≤ pool.bufferIdToUid.length)
    (hload : ∀ uid ∈ curUids, isLoaded loraRefs uid = true) :
    ∃ pool', prepareLoraBatch loraRefs curUids pool = some pool' ∧
      Served loraRefs curUids curUids pool pool' := by
  obtain ⟨pool', hpool', hserved⟩ := Good.foldlM_loadUid hload curUids _ (h.markAll curUids) hcard
    (fun _ huid => huid) fun id hid => mem_markAll curUids _ (.inr hid)
  refine ⟨pool', hpool', ⟨hserved.good, hserved.length, hserved.served, hserved.kept, hserved.only,
    fun id hid hord => hserved.order id hid (mem_markAll curUids _ (.inl hord)), hserved.room⟩⟩

end LoRAMemoryPool

end Lora

end Sglang
