/-
# No host slot of a prefetch is lost or freed twice

A prefetch is submitted with host slots of its own (`Submitted`, which is what `prefetch_from_storage`
establishes).  From there on the invariant of `PrefetchInvariant` holds in every run.  When the queues
are empty and the prefetch is over, two of the places it names are left: the pool and the tree.
-/
import Sglang.MemCache.PrefetchInvariant

namespace Sglang

open Lib Option Finset

namespace PrefetchSystem

section

variable {cfg : HiConfig} {reqs : Finset ℕ} {H : ℕ → List ℕ} {total : Multiset ℕ} {base : ℤ}
  {t : RootedTree NodeId} {s : PrefetchSystem}

/-! ## 1. From submission to the end -/

/-- The prefetches `reqs` have just been submitted, each with as many host slots as its key is long, and
no slot is in two places. -/
structure Submitted (cfg : HiConfig) (reqs : Finset ℕ) (t : RootedTree NodeId) (s : PrefetchSystem) :
    Prop where
  represents : RadixCache.Represents cfg.toCacheConfig t s.cache.toRadixCache
  pageSize : 0 < s.cache.host.pageSize
  operation : ∀ r ∈ reqs, ∃ p, s.entry r = some p ∧ EntrySound cfg t p.hostIndices p ∧
    s.operations r = .new p.hostIndices p.key.len
  idle : ∀ r, r ∉ reqs → s.entry r = none ∧ (s.operations r).stage = .finished
  revokeQueue : ∀ r ∈ reqs, r ∉ s.prefetchRevokeQueue
  backups : ∀ n ∈ s.cache.ongoingBackup, n ∈ t.nodes
  references : ∀ n ∈ t.nodes, ∑ r ∈ reqs, s.refs n r + s.cache.ongoingBackup.count n
    ≤ (s.cache.nodes n).hostRefCounter
  occupied : ∑ r ∈ reqs, (s.tokens r : ℤ) ≤ s.cache.prefetchTokensOccupied
  nodup : (s.cache.pooled t + ∑ r ∈ reqs, ((s.operations r).hostIndices : Multiset ℕ)).Nodup

/-- The queues are empty and the threads have nothing left. -/
structure Drained (reqs : Finset ℕ) (s : PrefetchSystem) : Prop where
  revokeQueue : s.prefetchRevokeQueue = []
  releaseQueue : s.cache.hostMemReleaseQueue = []
  finished : ∀ r ∈ reqs, (s.operations r).stage = .finished

variable {r : ℕ}

theorem Submitted.held (hs : Submitted cfg reqs t s) (hr : r ∈ reqs) :
    s.held cfg r = (s.operations r).hostIndices := by
  obtain ⟨p, hp, -, hop⟩ := hs.operation r hr
  rw [PrefetchSystem.held, hop]
  simp [PrefetchOperation.new, PrefetchOperation.pending, PrefetchOperation.arrived]

theorem Submitted.tokens (hs : Submitted cfg reqs t s) (hr : r ∈ reqs) :
    s.tokens r = (s.operations r).hostIndices.length := by
  obtain ⟨p, hp, he, hop⟩ := hs.operation r hr
  rw [PrefetchSystem.tokens, hop, hp]
  exact he.len_eq.symm

theorem Submitted.sound (hs : Submitted cfg reqs t s) :
    Sound cfg reqs (fun r => (s.operations r).hostIndices)
      (s.cache.pooled t + ∑ r ∈ reqs, ((s.operations r).hostIndices : Multiset ℕ))
      (s.cache.prefetchTokensOccupied - ∑ r ∈ reqs, (s.tokens r : ℤ)) t s where
  represents := hs.represents
  pageSize := hs.pageSize
  base_nonneg := sub_nonneg.mpr hs.occupied
  aligned := fun r hr => by
    obtain ⟨p, -, he, hop⟩ := hs.operation r hr
    rw [hop]
    change cfg.pageSize ∣ p.hostIndices.length
    rw [he.len_eq]
    exact he.fits.aligned
  entry := fun r p hp => by
    by_cases hr : r ∈ reqs
    · obtain ⟨p', hp', he, hop⟩ := hs.operation r hr
      cases hp.symm.trans hp'
      exact ⟨hr, by rw [hop]; exact he⟩
    · rw [(hs.idle r hr).1] at hp
      cases hp
  idle := fun r hr => (hs.idle r hr).2
  operation := fun r hr => by
    obtain ⟨p, -, he, hop⟩ := hs.operation r hr
    rw [hop]
    exact .new he.len_eq
  closed := fun r hr hnone => by
    obtain ⟨p, hp, -⟩ := hs.operation r hr
    rw [hp] at hnone
    cases hnone
  revoked := fun r hq hr => absurd hq (hs.revokeQueue r hr)
  held_le := fun r hr => by
    obtain ⟨p, -, -, hop⟩ := hs.operation r hr
    rw [hop]
    simp [PrefetchOperation.new, PrefetchOperation.pending, PrefetchOperation.arrived]
  backups := hs.backups
  references := hs.references
  occupied := by ring
  conserved := congrArg _ (sum_congr rfl fun r hr => hs.held hr)

theorem Sound.held_le' (hs : Sound cfg reqs H total base t s) (hr : r ∈ reqs) :
    s.held cfg r ≤ H r := by
  refine le_trans ?_ (hs.held_le r hr)
  rw [PrefetchSystem.held]
  split
  · exact le_rfl
  · exact add_le_add_right (Multiset.zero_le _) _

/-- A prefetch that is over and that no thread has any more holds nothing. -/
theorem Sound.held_eq_zero (hs : Drained reqs s) (hr : r ∈ reqs) (hnone : s.entry r = none) :
    s.held cfg r = 0 := by
  rw [PrefetchSystem.held, hnone, PrefetchOperation.pending, hs.finished r hr]
  rfl

/-- The tokens of the prefetches that are over have been given back. -/
theorem Sound.tokens_eq (hs : Sound cfg reqs H total base t s) (r : ℕ) :
    (s.tokens r : ℤ) + (if (s.entry r).isNone then ((H r).length : ℤ) else 0) = (H r).length := by
  rw [PrefetchSystem.tokens]
  cases hp : s.entry r with
  | none => simp
  | some p =>
    have hlen := (hs.entry r p hp).2.len_eq
    simp [hlen]

/-- **Host memory is conserved.**  From the moment the prefetches are submitted the scheduler, the
prefetch thread and the IO thread may take any steps in any order: all of them return, and at no time
is a slot in two places.  A prefetch that is over has given its tokens back; once the queues are empty,
each of its slots is in the pool or in the tree, once. -/
theorem hostSlots_conserved (hs : Submitted cfg reqs t s) (steps : List Step) :
    ∃ t' s', s.run cfg steps = some s' ∧
      RadixCache.Represents cfg.toCacheConfig t' s'.cache.toRadixCache ∧
      (s'.cache.pooled t').Nodup ∧
      s'.cache.prefetchTokensOccupied + ∑ r ∈ reqs with (s'.entry r).isNone,
        ((s.operations r).hostIndices.length : ℤ) = s.cache.prefetchTokensOccupied ∧
      (Drained reqs s' → ∀ r ∈ reqs, s'.entry r = none → ∀ slot ∈ (s.operations r).hostIndices,
        s'.cache.host.freeSlots.count slot + (s'.cache.hostSlots t').count slot = 1) := by
  obtain ⟨t', s', hrun, hsound⟩ := hs.sound.run steps
  have hnodup := hs.nodup
  rw [← hsound.conserved] at hnodup
  refine ⟨t', s', hrun, hsound.represents, (Multiset.nodup_add.mp hnodup).1, ?_, ?_⟩
  · have hsum : ∑ r ∈ reqs, ((s'.tokens r : ℤ) + (if (s'.entry r).isNone then
        ((s.operations r).hostIndices.length : ℤ) else 0)) = ∑ r ∈ reqs, (s.tokens r : ℤ) := by
      refine sum_congr rfl fun r hr => ?_
      rw [hsound.tokens_eq r, hs.tokens hr]
    rw [sum_add_distrib, ← sum_filter] at hsum
    rw [hsound.occupied, ← hsum]
    ring
  · intro hdrained r hr hnone slot hslot
    have hmem : slot ∈ s'.cache.pooled t' + ∑ r ∈ reqs, s'.held cfg r := by
      rw [hsound.conserved]
      exact Multiset.mem_add.mpr (Or.inr (Multiset.mem_of_le (single_le_sum_of_canonicallyOrdered hr) hslot))
    have hout : ∀ r' ∈ reqs, slot ∉ s'.held cfg r' := by
      intro r' hr' hheld
      have heq := account_unique (Multiset.nodup_add.mp hs.nodup).2.1 hr hr' hslot
        (Multiset.mem_of_le (hsound.held_le' hr') hheld)
      rw [← heq, Sound.held_eq_zero hdrained hr hnone] at hheld
      exact Multiset.notMem_zero slot hheld
    have hpool : slot ∈ s'.cache.pooled t' := by
      rcases Multiset.mem_add.mp hmem with h | h
      · exact h
      · obtain ⟨r', hr', h⟩ := Multiset.mem_sum.mp h
        exact absurd h (hout r' hr')
    have hone := Multiset.count_eq_one_of_mem (Multiset.nodup_add.mp hnodup).1 hpool
    rw [HiRadixCache.pooled, hdrained.releaseQueue] at hone
    simpa using hone

/-! ## 2. Submission -/

/-- One operation, as it has been queued, and nothing else in the controller. -/
def ofPrefetch (cache : HiRadixCache) (reqId : ℕ) (hostIndices : List ℕ) (tokenLen : ℕ) :
    PrefetchSystem where
  cache := cache
  operations := fun r =>
    if r = reqId then .new hostIndices tokenLen else ⟨[], 0, 0, 0, true, .finished⟩
  prefetchRevokeQueue := []
  ackBackupQueue := []

/-- **`prefetch_from_storage`** submits, when the prefetch is worth it and the pool has room. -/
theorem submitted_prefetchFromStorage (h : HiRadixCache) (reqId : ℕ) (node : NodeId)
    (tokens : List Token) (lastHash : Option Digest) {key : RadixKey}
    (hkey : key = RadixKey.pageAligned ⟨tokens, (h.nodes node).key.extraKey, cfg.isEagle⟩ cfg.pageSize)
    (hhash : key.Hashable) (hon : cfg.enableStorage = true) (hlen : cfg.prefetchThreshold ≤ key.len)
    (hcap : h.prefetchTokensOccupied < cfg.prefetchCapacityLimit)
    (hroom : key.len ≤ h.host.freeSlots.length) (hpage : h.host.pageSize = cfg.pageSize)
    (hrep : RadixCache.Represents cfg.toCacheConfig t h.toRadixCache) (hnode : node ∈ t.nodes)
    (hidle : h.ongoingPrefetch = []) (hocc : 0 ≤ h.prefetchTokensOccupied)
    (hback : ∀ n ∈ h.ongoingBackup, n ∈ t.nodes)
    (hrefs : ∀ n ∈ t.nodes, h.ongoingBackup.count n ≤ (h.nodes n).hostRefCounter)
    (hnodup : (h.pooled t).Nodup) :
    ∃ h', h.prefetchFromStorage cfg reqId node tokens lastHash = some h' ∧
      Submitted cfg {reqId} t (ofPrefetch h' reqId (h.host.freeSlots.take key.len) key.len) := by
  have hfits : key.Fits cfg.isEagle cfg.pageSize := by
    have hmode : (⟨tokens, (h.nodes node).key.extraKey, cfg.isEagle⟩ : RadixKey).isBigram = cfg.isEagle :=
      rfl
    rw [hkey]
    exact RadixKey.fits_pageAligned hmode _
  have htake : (h.host.freeSlots.take key.len).length = key.len := by
    rw [List.length_take, min_eq_left hroom]
  have hoff : ¬ (cfg.enableStorage = false ∨ key.len < cfg.prefetchThreshold ∨
      h.prefetchTokensOccupied ≥ cfg.prefetchCapacityLimit) := by
    rw [hon]
    rintro (h | h | h)
    · cases h
    · omega
    · omega
  have halloc : (h.protectHost node).host.alloc key.len = some (some (h.host.freeSlots.take key.len,
      { h.host with freeSlots := h.host.freeSlots.drop key.len })) := by
    change h.host.alloc key.len = _
    rw [HostKVCache.alloc, if_pos (Nat.mod_eq_zero_of_dvd (hpage ▸ hfits.aligned)),
      if_neg (show ¬ key.len > h.host.availableSize from not_lt.mpr hroom)]
  generalize hp : (⟨reqId, node, key, h.host.freeSlots.take key.len, lastHash⟩ : Prefetch) = p
  refine ⟨({ h.protectHost node with
    host := { h.host with freeSlots := h.host.freeSlots.drop key.len } } : HiRadixCache).startPrefetch p,
    ?_, ?_⟩
  · simp only [HiRadixCache.prefetchFromStorage, ← hkey, if_neg hoff, halloc, hp, bind_eq_bind,
      bind_some]
    rfl
  generalize hh' : ({ h.protectHost node with
    host := { h.host with freeSlots := h.host.freeSlots.drop key.len } } : HiRadixCache).startPrefetch p
      = h'
  have hongoing : h'.ongoingPrefetch = [p] := by
    rw [← hh']
    change h.ongoingPrefetch.filter _ ++ [p] = [p]
    rw [hidle]
    rfl
  generalize hs : ofPrefetch h' reqId (h.host.freeSlots.take key.len) key.len = s
  have hcache : s.cache = h' := by rw [← hs]; rfl
  have hops : ∀ r, s.operations r = if r = reqId then
      .new (h.host.freeSlots.take key.len) key.len else ⟨[], 0, 0, 0, true, .finished⟩ := by
    intro r
    rw [← hs]
    rfl
  have hentry : ∀ r, s.entry r = if r = reqId then some p else none := by
    intro r
    rw [PrefetchSystem.entry, hcache, hongoing, ← hp]
    by_cases hr : r = reqId
    · simp [hr]
    · simp [hr, Ne.symm hr]
  have htree : h'.toRadixCache = h.toRadixCache.modify node fun x =>
      { x with hostRefCounter := x.hostRefCounter + 1 } := by
    rw [← hh']
    rfl
  have hcount : ∀ n, (h'.nodes n).hostRefCounter
      = (h.nodes n).hostRefCounter + if node = n then 1 else 0 := by
    intro n
    rw [htree]
    by_cases hn : n = node
    · subst hn
      rw [RadixCache.modify_nodes_self, if_pos rfl]
    · rw [RadixCache.modify_nodes_ne _ _ hn, if_neg (Ne.symm hn), Nat.add_zero]
  have hpool : h'.pooled t + (h.host.freeSlots.take key.len : Multiset ℕ) = h.pooled t := by
    have hslots : h'.hostSlots t = h.hostSlots t := HiRadixCache.hostSlots_congr fun m _ => by
      rw [htree]
      exact h.toRadixCache.modify_field node (fun x => { x with
        hostRefCounter := x.hostRefCounter + 1 }) TreeNode.hostValue (fun _ => rfl) m
    have hsplit : ((h.host.freeSlots.drop key.len : List ℕ) : Multiset ℕ)
        + (h.host.freeSlots.take key.len : List ℕ) = h.host.freeSlots := by
      rw [add_comm, Multiset.coe_add, List.take_append_drop]
    rw [HiRadixCache.pooled, HiRadixCache.pooled, hslots, ← hsplit, ← hh']
    change (h.host.freeSlots.drop key.len : Multiset ℕ) + h.hostMemReleaseQueue.flatten + _ + _ = _
    ac_rfl
  have hself : p.hostIndices = h.host.freeSlots.take key.len ∧ p.key = key ∧ p.lastHostNode = node := by
    rw [← hp]
    exact ⟨rfl, rfl, rfl⟩
  refine ⟨?_, ?_, fun r hr => ?_, fun r hr => ?_, fun r _ => ?_, ?_, fun n hn => ?_, ?_, ?_⟩
  · rw [hcache, htree]
    exact hrep.of_sameLinks (RadixCache.SameLinks.modify _ _ _ (fun _ => rfl) (fun _ => rfl) fun _ => rfl)
  · rw [hcache, ← hh']
    change 0 < h.host.pageSize
    rw [hpage]
    exact cfg.pageSize_pos
  · obtain rfl := mem_singleton.mp hr
    refine ⟨p, by rw [hentry, if_pos rfl], ⟨rfl, ?_, ?_, ?_, ?_⟩, ?_⟩
    · rw [hself.1, hself.2.1, htake]
    · rwa [hself.2.1]
    · rwa [hself.2.1]
    · rwa [hself.2.2]
    · rw [hops, if_pos rfl, hself.1, hself.2.1]
  · rw [mem_singleton] at hr
    exact ⟨by rw [hentry, if_neg hr], by rw [hops, if_neg hr]⟩
  · rw [← hs]
    exact List.not_mem_nil
  · rw [hcache, ← hh']
    exact hback
  · have hold := hrefs n hn
    have hb : s.cache.ongoingBackup = h.ongoingBackup := by rw [hcache, ← hh']; rfl
    rw [sum_singleton, refs, hentry, if_pos rfl, map_some, hself.2.2, hb, hcache, hcount]
    simp only [Option.some.injEq]
    omega
  · have ho : s.cache.prefetchTokensOccupied = h.prefetchTokensOccupied + key.len := by
      rw [hcache, ← hh', ← hself.2.1]
      rfl
    rw [sum_singleton, PrefetchSystem.tokens, hentry, if_pos rfl]
    simp only [map_some, getD_some, hself]
    omega
  · rw [sum_singleton, hops, if_pos rfl, hcache]
    rw [PrefetchOperation.new, hpool]
    exact hnodup

end

/-- A prefetch of four tokens in the small cache. -/
def smallSystem : Option PrefetchSystem :=
  (HiRadixCache.small.prefetchFromStorage HiRadixCache.smallConfig 7 0 [1, 2, 3, 4] none).map
    (ofPrefetch · 7 [0, 1, 2, 3] 4)

/-- Both pages are hit, one arrives before the scheduler ends the prefetch. -/
def smallSteps : List Step :=
  [.query 7 2, .advance 7, .advance 7, .fetch 7 1, .checkPrefetchProgress 7 true 1, .fetch 7 1,
    .endBatch 7, .advance 7, .advance 7, .drain 0 0 1]

theorem hostSlots_conserved_small : ∃ s t' s', smallSystem = some s ∧
    s.run HiRadixCache.smallConfig smallSteps = some s' ∧
    ∀ slot ∈ [0, 1, 2, 3], s'.cache.host.freeSlots.count slot + (s'.cache.hostSlots t').count slot = 1 := by
  have hrep : RadixCache.Represents HiRadixCache.smallConfig.toCacheConfig (RadixCache.rootTree 0)
      HiRadixCache.small.toRadixCache :=
    (RadixCache.reset_inv _ ⟨fun _ => TreeNode.init 0 0 0, 0, 0, 0, 0, [], [], 0⟩).represents
  have hhash : (⟨[1, 2, 3, 4], none, false⟩ : RadixKey).Hashable := by
    unfold RadixKey.Hashable
    decide
  have hpool : HiRadixCache.small.pooled (RadixCache.rootTree 0) = (List.range 8 : List ℕ) := by
    rfl
  obtain ⟨h', hpre, hsub⟩ := submitted_prefetchFromStorage HiRadixCache.small 7 0 [1, 2, 3, 4] none
    (by decide) hhash rfl (by decide) (by decide) (by decide) rfl hrep (mem_singleton_self 0)
    rfl le_rfl (fun _ hn => absurd hn List.not_mem_nil) (fun _ _ => Nat.zero_le _) (by rw [hpool]; exact List.nodup_range)
  obtain ⟨t', s', hrun, -, -, -, hall⟩ := hostSlots_conserved hsub smallSteps
  have hsys : smallSystem = some (ofPrefetch h' 7 [0, 1, 2, 3] 4) := by
    rw [smallSystem, hpre]
    rfl
  have hrun' : (ofPrefetch h' 7 [0, 1, 2, 3] 4).run HiRadixCache.smallConfig smallSteps = some s' :=
    hrun
  refine ⟨_, t', s', hsys, hrun', ?_⟩
  have hfin : (smallSystem.bind (·.run HiRadixCache.smallConfig smallSteps)).map (fun s =>
      (s.prefetchRevokeQueue, s.cache.hostMemReleaseQueue, (s.operations 7).stage,
        (s.entry 7).isNone)) = some ([], [], .finished, true) := by decide +kernel
  rw [hsys, bind_some, hrun', map_some, Option.some.injEq] at hfin
  obtain ⟨h1, h2, h3, h4⟩ := by simpa only [Prod.mk.injEq] using hfin
  refine hall ⟨h1, h2, fun r hr => ?_⟩ 7 (mem_singleton_self 7) (by simpa using h4)
  rw [mem_singleton.mp hr]
  exact h3

end PrefetchSystem

end Sglang
