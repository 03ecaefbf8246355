/-
# How a prefetch ends

Three calls take a request out of `ongoing_prefetch`: `check_prefetch_progress`, which hands the slots
that have arrived to the tree, `release_aborted_request`, which queues them for release, and
`_drain_revoke`, which has none to deal with.  All three return, give the reference on the node back and
account for the slots they are given, each exactly once (`Ends`).
-/
import Sglang.MemCache.PrefetchThreads

namespace Sglang

open Lib List Option
open scoped List

theorem flatten_splitPages {pageSize : ℕ} (hp : 0 < pageSize) (l : List ℕ) :
    (splitPages pageSize l).flatten = l := by
  have h := flatten_pieces hp l
  rwa [splitPages, pageStarts, List.map_map]

namespace HiRadixCache

/-! ## 1. The slots that are in no operation -/

/-- The slots of the pool, of the release queue and of the tree. -/
def pooled (h : HiRadixCache) (t : RootedTree NodeId) : Multiset ℕ :=
  (h.host.freeSlots : Multiset ℕ) + h.hostMemReleaseQueue.flatten + h.hostSlots t

/-- The slots `slots` have found a place; nothing has ended yet. -/
structure Settles (cfg : HiConfig) (t : RootedTree NodeId) (h : HiRadixCache) (slots : List ℕ)
    (t' : RootedTree NodeId) (h' : HiRadixCache) : Prop where
  represents : RadixCache.Represents cfg.toCacheConfig t' h'.toRadixCache
  subset : t.nodes ⊆ t'.nodes
  pageSize : h'.host.pageSize = h.host.pageSize
  pooled : h'.pooled t' = h.pooled t + slots
  hostRefCounter : ∀ m ∈ t.nodes, (h'.nodes m).hostRefCounter = (h.nodes m).hostRefCounter
  ongoingPrefetch : h'.ongoingPrefetch = h.ongoingPrefetch
  prefetchTokensOccupied : h'.prefetchTokensOccupied = h.prefetchTokensOccupied
  ongoingBackup : h'.ongoingBackup = h.ongoingBackup

/-- The prefetch `p` of `reqId` has ended, and `slots` have found a place. -/
structure Ends (cfg : HiConfig) (t : RootedTree NodeId) (h : HiRadixCache) (reqId : ℕ) (p : Prefetch)
    (slots : List ℕ) (t' : RootedTree NodeId) (h' : HiRadixCache) : Prop where
  represents : RadixCache.Represents cfg.toCacheConfig t' h'.toRadixCache
  subset : t.nodes ⊆ t'.nodes
  pageSize : h'.host.pageSize = h.host.pageSize
  pooled : h'.pooled t' = h.pooled t + slots
  hostRefCounter : ∀ m ∈ t.nodes, (h'.nodes m).hostRefCounter
    + (if p.lastHostNode = m then 1 else 0) = (h.nodes m).hostRefCounter
  ongoingPrefetch : h'.ongoingPrefetch = h.ongoingPrefetch.filter (·.reqId ≠ reqId)
  prefetchTokensOccupied : h'.prefetchTokensOccupied = h.prefetchTokensOccupied - p.key.len
  ongoingBackup : h'.ongoingBackup = h.ongoingBackup

section

variable {cfg : HiConfig} {t t' : RootedTree NodeId} {h h' : HiRadixCache} {reqId : ℕ} {p : Prefetch}
  {n : NodeId} {slots : List ℕ}

theorem flatten_appendHostMemRelease (hp : 0 < h.host.pageSize) (hostIndices : List ℕ) :
    (h.appendHostMemRelease hostIndices).hostMemReleaseQueue.flatten
      = h.hostMemReleaseQueue.flatten ++ hostIndices := by
  rw [appendHostMemRelease, flatten_append]
  exact congrArg _ (flatten_splitPages hp hostIndices)

theorem pooled_appendHostMemRelease (hp : 0 < h.host.pageSize) (hostIndices : List ℕ) :
    (h.appendHostMemRelease hostIndices).pooled t = h.pooled t + hostIndices := by
  rw [pooled, flatten_appendHostMemRelease hp, ← Multiset.coe_add]
  change (h.host.freeSlots : Multiset ℕ) + (_ + _) + h.hostSlots t = _
  rw [pooled]
  ac_rfl

theorem pooled_free (hostIndices : List ℕ) :
    pooled { h with host := h.host.free hostIndices } t = h.pooled t + hostIndices := by
  rw [pooled, pooled, HostKVCache.free, ← Multiset.coe_add]
  change _ + _ + _ + h.hostSlots t = _
  ac_rfl

/-! ## 2. Slots find a place -/

theorem HostGrows.settles (hg : HostGrows cfg t h slots t' h') : Settles cfg t h slots t' h' where
  represents := hg.represents
  subset := hg.subset
  pageSize := by rw [hg.host]
  pooled := by
    rw [HiRadixCache.pooled, HiRadixCache.pooled, hg.host, hg.hostMemReleaseQueue, hg.hostSlots]
    ac_rfl
  hostRefCounter := hg.hostRefCounter
  ongoingPrefetch := hg.ongoingPrefetch
  prefetchTokensOccupied := hg.prefetchTokensOccupied
  ongoingBackup := hg.ongoingBackup

/-- Slots that go to the pool. -/
theorem Settles.free (hs : Settles cfg t h slots t' h') (hostIndices : List ℕ) :
    Settles cfg t h (slots ++ hostIndices) t' { h' with host := h'.host.free hostIndices } :=
  { hs with
    pooled := by rw [pooled_free, hs.pooled, add_assoc, Multiset.coe_add] }

theorem Settles.release (hs : Settles cfg t h slots t' h') (hp : 0 < h.host.pageSize)
    (hostIndices : List ℕ) :
    Settles cfg t h (slots ++ hostIndices) t' (h'.appendHostMemRelease hostIndices) :=
  { hs with
    pooled := by
      rw [pooled_appendHostMemRelease (by rw [hs.pageSize]; exact hp), hs.pooled, add_assoc,
        Multiset.coe_add] }

theorem releaseHost_spec (hpos : 0 < (h.nodes n).hostRefCounter) :
    ∃ c, h.releaseHost n = some { h with toRadixCache := c } ∧
      RadixCache.SameLinks h.toRadixCache c ∧
      (∀ m, (c.nodes m).hostValue = (h.nodes m).hostValue) ∧
      ∀ m, (c.nodes m).hostRefCounter + (if n = m then 1 else 0) = (h.nodes m).hostRefCounter := by
  refine ⟨h.toRadixCache.modify n fun x => { x with hostRefCounter := x.hostRefCounter - 1 },
    by rw [releaseHost, if_pos hpos]; rfl,
    RadixCache.SameLinks.modify _ _ _ (fun _ => rfl) (fun _ => rfl) (fun _ => rfl),
    RadixCache.modify_field _ _ _ _ fun _ => rfl, fun m => ?_⟩
  by_cases hm : m = n
  · subst hm
    rw [RadixCache.modify_nodes_self, if_pos rfl]
    exact Nat.sub_add_cancel hpos
  · rw [RadixCache.modify_nodes_ne _ _ hm, if_neg (Ne.symm hm), Nat.add_zero]

/-- The end of a prefetch whose slots have found a place: the reference goes back, the entry goes. -/
theorem Settles.ends (hs : Settles cfg t h slots t' h') (hnode : p.lastHostNode ∈ t.nodes)
    (hpos : 0 < (h.nodes p.lastHostNode).hostRefCounter) (reqId : ℕ) :
    ∃ h'', h'.releaseHost p.lastHostNode = some h'' ∧ Ends cfg t h reqId p slots t' { h'' with
      ongoingPrefetch := h''.ongoingPrefetch.filter (·.reqId ≠ reqId)
      prefetchTokensOccupied := h''.prefetchTokensOccupied - p.key.len } := by
  obtain ⟨c, hrel, hlinks, hhost, hcount⟩ := releaseHost_spec (n := p.lastHostNode)
    (by rw [hs.hostRefCounter _ hnode]; exact hpos)
  refine ⟨_, hrel, hs.represents.of_sameLinks hlinks, hs.subset, hs.pageSize, ?_,
    fun m hm => (hcount m).trans (hs.hostRefCounter m hm), congrArg _ hs.ongoingPrefetch,
    congrArg (· - _) hs.prefetchTokensOccupied, hs.ongoingBackup⟩
  rw [← hs.pooled]
  have hslots : hostSlots { h' with toRadixCache := c } t' = h'.hostSlots t' :=
    hostSlots_congr fun m _ => hhost m
  exact congrArg (_ + ·) hslots

/-! ## 3. The three endings -/

variable (hrep : RadixCache.Represents cfg.toCacheConfig t h.toRadixCache)
  (hfind : h.ongoingPrefetch.find? (·.reqId = reqId) = some p) (hnode : p.lastHostNode ∈ t.nodes)
  (hpos : 0 < (h.nodes p.lastHostNode).hostRefCounter)

include hrep hfind hnode hpos

/-- **A prefetch that is dropped** gives its reference back. -/
theorem dropPrefetch_spec : ∃ h', h.dropPrefetch reqId = some h' ∧ Ends cfg t h reqId p [] t h' := by
  obtain ⟨h₁, hrel, he⟩ := (HostGrows.refl hrep).settles.ends hnode hpos reqId
  refine ⟨_, ?_, he⟩
  rw [dropPrefetch, hfind]
  simp only [hrel, bind_eq_bind, bind_some]
  rfl

/-- **`release_aborted_request`** queues the slots that had arrived. -/
theorem releaseAbortedRequest_spec (hps : 0 < h.host.pageSize) (completed : ℕ) :
    ∃ h', h.releaseAbortedRequest reqId completed = some h' ∧
      Ends cfg t h reqId p (p.hostIndices.take completed) t h' := by
  obtain ⟨h₁, hdrop, he⟩ := dropPrefetch_spec hrep hfind hnode hpos
  refine ⟨h₁.appendHostMemRelease (p.hostIndices.take completed), ?_, { he with pooled := ?_ }⟩
  · rw [releaseAbortedRequest, hfind]
    simp only [hdrop, bind_eq_bind, bind_some]
    rfl
  · rw [pooled_appendHostMemRelease (by rw [he.pageSize]; exact hps), he.pooled, Multiset.coe_nil,
      add_zero]

/-- **`_drain_revoke`**: the counter of tokens is not cut off where it covers the prefetch. -/
theorem drainRevoke_spec (hocc : (p.key.len : ℤ) ≤ h.prefetchTokensOccupied) :
    ∃ h', h.drainRevoke reqId = some h' ∧ Ends cfg t h reqId p [] t h' := by
  obtain ⟨h₁, hdrop, he⟩ := dropPrefetch_spec hrep hfind hnode hpos
  refine ⟨h₁, ?_, he⟩
  have hmax : max h₁.prefetchTokensOccupied 0 = h₁.prefetchTokensOccupied := by
    rw [he.prefetchTokensOccupied]
    omega
  simp only [drainRevoke, hdrop, bind_eq_bind, bind_some, hmax]
  rfl

omit hrep hfind hnode hpos in
/-- The hashes that go with the pages that were hit. -/
theorem storageHitQuery_spec (hkey : p.key.Fits cfg.isEagle cfg.pageSize) (hhash : p.key.Hashable)
    (hitPages : ℕ) : ∃ hs, storageHitQuery cfg p hitPages = some hs ∧
      hs.length = min hitPages (p.key.len / cfg.pageSize) := by
  obtain ⟨hs, hchain⟩ := (hhash.label cfg.pageSize).exists_chain cfg.sha256 p.lastHash
  have hpages : hashPages cfg.sha256 p.key cfg.pageSize (pageStarts p.key.len cfg.pageSize) p.lastHash
      = some hs := by
    rw [hashPages_eq cfg.pageSize_pos hkey.aligned, ← RadixKey.untagged_label]
    exact hchain
  refine ⟨hs.take hitPages, by rw [storageHitQuery, hpages]; rfl, ?_⟩
  rw [length_take, length_chain hchain, untagged, length_map, RadixKey.length_label]

omit hrep hfind hnode hpos in
/-- The three slices of `check_prefetch_progress` are the slots that arrived. -/
theorem perm_slices (l : List ℕ) {matched m c : ℕ} (hm : matched ≤ m) (hc : m ≤ c) :
    ((l.take m).drop matched ++ l.take matched ++ (l.take c).drop m).Perm (l.take c) := by
  have h1 : l.take matched = (l.take m).take matched := by rw [take_take, min_eq_left hm]
  have h2 : l.take m = (l.take c).take m := by rw [take_take, min_eq_left hc]
  calc (l.take m).drop matched ++ l.take matched ++ (l.take c).drop m
      _ ~ l.take matched ++ (l.take m).drop matched ++ (l.take c).drop m :=
        List.Perm.append_right _ perm_append_comm
      _ = (l.take c).take m ++ (l.take c).drop m := by
        rw [h1, take_append_drop, ← h2]
      _ = l.take c := take_append_drop _ _

/-- **`check_prefetch_progress`** returns.  Of the slots that arrived, the tree takes those it did not
have, the pool those it had, and the release queue those that did not arrive on every rank. -/
theorem checkPrefetchProgress_spec (hps : 0 < h.host.pageSize)
    (hkey : p.key.Fits cfg.isEagle cfg.pageSize) (hhash : p.key.Hashable)
    (hlen : p.hostIndices.length = p.key.len) {hitPages completed minCompleted : ℕ}
    (hhit : hitPages * cfg.pageSize ≤ p.key.len) (hcomp : completed ≤ hitPages * cfg.pageSize)
    (hmin : minCompleted ≤ completed) (hdvd : cfg.pageSize ∣ minCompleted) :
    ∃ t' h', h.checkPrefetchProgress cfg reqId hitPages completed minCompleted = some h' ∧
      Ends cfg t h reqId p (p.hostIndices.take completed) t' h' := by
  obtain ⟨j, rfl⟩ := hdvd
  have hj : j ≤ hitPages := by
    have : cfg.pageSize * j ≤ cfg.pageSize * hitPages := by
      rw [Nat.mul_comm _ hitPages]
      exact hmin.trans hcomp
    exact Nat.le_of_mul_le_mul_left this cfg.pageSize_pos
  obtain ⟨hs, hquery, hhs⟩ := storageHitQuery_spec hkey hhash hitPages
  have hle : cfg.pageSize * j ≤ p.key.len := hmin.trans (hcomp.trans hhit)
  obtain ⟨matched, t', h₁, hins, hmatched, hgrow⟩ := insertHelperHost_spec
    (p.hostIndices.take (cfg.pageSize * j)) (hs.take (cfg.pageSize * j / cfg.pageSize)) hrep hnode
    (hkey.takeTo j) (by rw [length_take, RadixKey.len_takeTo, hlen])
    (by
      rw [length_take, Nat.mul_div_cancel_left j cfg.pageSize_pos,
        RadixKey.label_takeTo cfg.pageSize_pos, length_take, RadixKey.length_label]
      omega)
  obtain ⟨h₂, hrel, he⟩ := ((hgrow.settles.free (p.hostIndices.take matched)).release hps
    ((p.hostIndices.take completed).drop (cfg.pageSize * j))).ends hnode hpos reqId
  refine ⟨t', _, ?_, { he with pooled := ?_ }⟩
  · rw [checkPrefetchProgress, hfind]
    simp only [hquery, hins, hrel, bind_eq_bind, bind_some]
    rfl
  · rw [RadixKey.len_takeTo, min_eq_left hle] at hmatched
    rw [he.pooled, Multiset.coe_eq_coe.mpr (perm_slices p.hostIndices hmatched hmin)]

end

end HiRadixCache

end Sglang
