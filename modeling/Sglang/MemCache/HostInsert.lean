/-
# Where the host slots are: `_insert_helper_host`

A prefetch that ends hands the slots it has filled to the tree.  `_insert_helper_host` walks down from
the node the prefetch started at, splits where the key leaves the tree, and hangs the rest in as a leaf
on the host; the slots of the part that was there already are not taken, and their number is what it
returns.

The host slots of the tree are counted as a multiset over its nodes (`hostSlots`).  Touching and
splitting leave it alone, the leaf adds its slots, and no step of the walk looks at the pool, the
release queue or the table of prefetches (`HostGrows`).
-/
import Sglang.MemCache.HiMoves

namespace Sglang

open Lib Option Finset List

namespace HiRadixCache

/-! ## 1. The slots of the tree -/

/-- The host slots of a node. -/
def nodeHostSlots (h : HiRadixCache) (n : NodeId) : List ℕ := (h.nodes n).hostValue.getD []

/-- The host slots of all nodes of the tree. -/
def hostSlots (h : HiRadixCache) (t : RootedTree NodeId) : Multiset ℕ :=
  ∑ n ∈ t.nodes, (h.nodeHostSlots n : Multiset ℕ)

/-- The pool, the release queue and the tables of transfers are the same. -/
structure SameTransfers (h h' : HiRadixCache) : Prop where
  host : h'.host = h.host
  hostMemReleaseQueue : h'.hostMemReleaseQueue = h.hostMemReleaseQueue
  prefetchTokensOccupied : h'.prefetchTokensOccupied = h.prefetchTokensOccupied
  ongoingPrefetch : h'.ongoingPrefetch = h.ongoingPrefetch
  ongoingBackup : h'.ongoingBackup = h.ongoingBackup

/-- The tree has become larger, and its host slots are `slots` more. -/
structure HostGrows (cfg : HiConfig) (t : RootedTree NodeId) (h : HiRadixCache) (slots : List ℕ)
    (t' : RootedTree NodeId) (h' : HiRadixCache) : Prop extends SameTransfers h h' where
  represents : RadixCache.Represents cfg.toCacheConfig t' h'.toRadixCache
  subset : t.nodes ⊆ t'.nodes
  hostSlots : h'.hostSlots t' = h.hostSlots t + slots
  hostRefCounter : ∀ m ∈ t.nodes, (h'.nodes m).hostRefCounter = (h.nodes m).hostRefCounter

section Grows

variable {cfg : HiConfig} {t t₁ t' : RootedTree NodeId} {h h₁ h' : HiRadixCache}
  {slots slots' : List ℕ}

theorem SameTransfers.trans (ha : SameTransfers h h₁) (hb : SameTransfers h₁ h') :
    SameTransfers h h' where
  host := hb.host.trans ha.host
  hostMemReleaseQueue := hb.hostMemReleaseQueue.trans ha.hostMemReleaseQueue
  prefetchTokensOccupied := hb.prefetchTokensOccupied.trans ha.prefetchTokensOccupied
  ongoingPrefetch := hb.ongoingPrefetch.trans ha.ongoingPrefetch
  ongoingBackup := hb.ongoingBackup.trans ha.ongoingBackup

theorem SameTransfers.of_tree (h : HiRadixCache) (c : RadixCache ℕ) :
    SameTransfers h { h with toRadixCache := c } :=
  ⟨rfl, rfl, rfl, rfl, rfl⟩

theorem hostSlots_congr (he : ∀ m ∈ t.nodes, (h'.nodes m).hostValue = (h.nodes m).hostValue) :
    h'.hostSlots t = h.hostSlots t :=
  sum_congr rfl fun m hm => by rw [nodeHostSlots, he m hm, nodeHostSlots]

theorem HostGrows.refl (hrep : RadixCache.Represents cfg.toCacheConfig t h.toRadixCache) :
    HostGrows cfg t h [] t h :=
  ⟨⟨rfl, rfl, rfl, rfl, rfl⟩, hrep, Finset.Subset.refl _, by simp, fun _ _ => rfl⟩

theorem HostGrows.trans (ha : HostGrows cfg t h slots t₁ h₁)
    (hb : HostGrows cfg t₁ h₁ slots' t' h') : HostGrows cfg t h (slots ++ slots') t' h' where
  toSameTransfers := ha.toSameTransfers.trans hb.toSameTransfers
  represents := hb.represents
  subset := ha.subset.trans hb.subset
  hostSlots := by rw [hb.hostSlots, ha.hostSlots, add_assoc, Multiset.coe_add]
  hostRefCounter := fun m hm => (hb.hostRefCounter m (ha.subset hm)).trans (ha.hostRefCounter m hm)

theorem HostGrows.touch (hrep : RadixCache.Represents cfg.toCacheConfig t h.toRadixCache)
    (n : NodeId) : HostGrows cfg t h [] t (h.touch cfg n) := by
  have hq := agree_touch cfg h n
  refine ⟨⟨rfl, rfl, rfl, rfl, rfl⟩, hrep.of_sameLinks hq.toSameLinks, Finset.Subset.refl _, ?_,
    fun m _ => hq.hostRefCounter m⟩
  rw [hostSlots_congr fun m _ => hq.hostValue m]
  simp

/-! ## 2. Splitting -/

variable {n v : NodeId}

theorem splitNode_sameTransfers {key : RadixKey} {k : ℕ}
    (heq : h.splitNode cfg key n k = some (v, h')) : SameTransfers h h' := by
  rw [splitNode] at heq
  simp only [bind_eq_bind, bind_eq_some_iff] at heq
  obtain ⟨_, _, _, _, _, _, heq⟩ := heq
  obtain ⟨-, rfl⟩ := Prod.mk.inj (Option.some.inj heq)
  exact SameTransfers.of_tree h _

variable {j : ℕ}

/-- **A split moves no host slot.** -/
theorem HiSplits.hostSlots (hs : HiSplits cfg t h n v j h') :
    h'.hostSlots hs.tree = h.hostSlots t := by
  have hnew : (h'.nodeHostSlots v : Multiset ℕ) + h'.nodeHostSlots n = h.nodeHostSlots n := by
    rw [nodeHostSlots, nodeHostSlots, nodeHostSlots, hs.hostValue_new, hs.hostValue_self]
    cases (h.nodes n).hostValue with
    | none => rfl
    | some l =>
      simp
  have hrest : ∑ m ∈ t.nodes.erase n, (h'.nodeHostSlots m : Multiset ℕ)
      = ∑ m ∈ t.nodes.erase n, (h.nodeHostSlots m : Multiset ℕ) := by
    refine sum_congr rfl fun m hm => ?_
    rw [nodeHostSlots, hs.hostValue_old m (mem_of_mem_erase hm) (ne_of_mem_erase hm), nodeHostSlots]
  change ∑ m ∈ Insert.insert v t.nodes, (h'.nodeHostSlots m : Multiset ℕ)
    = ∑ m ∈ t.nodes, (h.nodeHostSlots m : Multiset ℕ)
  rw [sum_insert hs.new, ← add_sum_erase _ _ hs.mem, ← add_assoc, hnew, hrest]
  exact add_sum_erase _ (fun m => (h.nodeHostSlots m : Multiset ℕ)) hs.mem

/-- The round of the walk goes on from a node of the tree. -/
theorem splitHostOrStay_spec
    (hrep : RadixCache.Represents cfg.toCacheConfig t h.toRadixCache) (hn : n ∈ t.nodes)
    (hr : n ≠ t.root) (hj : 0 < j)
    (hlt : cfg.pageSize * j < (h.nodes n).key.len ↔ j < (h.label cfg.toCacheConfig n).length) :
    ∃ t' node h', h.splitHostOrStay cfg n (cfg.pageSize * j) = some (node, h') ∧
      node ∈ t'.nodes ∧ HostGrows cfg t h [] t' h' := by
  unfold splitHostOrStay
  by_cases hc : cfg.pageSize * j < (h.nodes n).key.len
  · obtain ⟨h', heq, hs⟩ := splitNode_spec hrep hn hr hj (hlt.mp hc)
    refine ⟨hs.tree, h.counter, h', by rw [if_pos hc, heq], mem_insert_self _ _,
      splitNode_sameTransfers heq, hs.represents hrep, subset_insert _ _, ?_,
      hs.hostRefCounter_old⟩
    rw [hs.hostSlots]
    simp
  · exact ⟨t, n, h, by rw [if_neg hc], hn, HostGrows.refl hrep⟩

/-! ## 3. The new leaf -/

/-- **The leaf of `_insert_helper_host`** takes the slots that are left; it returns when the leaf has a
hash for each page. -/
theorem addHostLeaf_grows {p : NodeId} {key : RadixKey} {ck : ChildKey} (hostValue : List ℕ)
    {hashValue : List Digest}
    (hrep : RadixCache.Represents cfg.toCacheConfig t h.toRadixCache) (hp : p ∈ t.nodes)
    (hkey : key.Fits cfg.isEagle cfg.pageSize) (hne : key.label cfg.pageSize ≠ [])
    (hstuck : RadixCache.Stuck cfg.toCacheConfig t h.toRadixCache p (key.label cfg.pageSize))
    (hck : key.childKey cfg.pageSize = some ck)
    (hlen : hashValue.length = (key.label cfg.pageSize).length) :
    ∃ t' h', h.addHostLeaf cfg p key hostValue hashValue ck = some h' ∧
      HostGrows cfg t h hostValue t' h' := by
  have hpv : p ≠ h.counter := ne_of_mem_of_not_mem hp hrep.counter_not_mem
  generalize hh₁ : h.linkHostLeaf cfg p key hostValue hashValue ck = h₁
  obtain ⟨l, lh, hre, -, -⟩ := retestHost h₁ p h.counter
  have hnodes : (h₁.withLeaves l lh).nodes
      = linkNew h.toRadixCache p ck (h.hostLeaf cfg p key hostValue hashValue) := by
    rw [← hh₁]; rfl
  have hnew : (h₁.withLeaves l lh).nodes h.counter = h.hostLeaf cfg p key hostValue hashValue := by
    rw [hnodes, linkNew_new hpv]
  have hold : ∀ m ∈ t.nodes, ∃ ch, (h₁.withLeaves l lh).nodes m = { h.nodes m with children := ch } := by
    intro m hm
    rw [hnodes]
    exact linkNew_old hpv (ne_of_mem_of_not_mem hm hrep.counter_not_mem)
  have hat : RadixCache.IsAttach cfg.toCacheConfig t h.toRadixCache p h.counter key
      (h₁.withLeaves l lh).toRadixCache :=
    isAttach_linkNew hrep hp hkey hne hstuck hck rfl rfl rfl (by rw [← hh₁]; rfl)
      (by rw [← hh₁]; rfl) hnodes
  obtain ⟨es, hrec, -⟩ : ∃ es, (h₁.withLeaves l lh).recordStoreEvent cfg.toCacheConfig h.counter .cpu
      = some _ ∧ _ := recordStoreEvent_eq (by rw [hnew]; exact hkey)
    (fun _ => ⟨hashValue, by rw [hnew]; rfl, by rw [RadixCache.label, hnew]; exact hlen⟩)
  refine ⟨hat.tree, (h₁.withLeaves l lh).withEvents es, ?_, ?_, ?_, subset_insert _ _, ?_, ?_⟩
  · rw [addHostLeaf_eq hpv, hh₁, hre, onTree?, hrec]
    rfl
  · rw [← hh₁]
    exact ⟨rfl, rfl, rfl, rfl, rfl⟩
  · exact (hat.represents hrep).of_sameLinks ⟨rfl, rfl, fun _ => rfl, fun _ => rfl, fun _ => rfl⟩
  · change ∑ m ∈ Insert.insert h.counter t.nodes, ((h₁.withLeaves l lh).nodeHostSlots m : Multiset ℕ)
      = h.hostSlots t + hostValue
    rw [sum_insert hrep.counter_not_mem, add_comm]
    congr 1
    · refine sum_congr rfl fun m hm => ?_
      obtain ⟨ch, hch⟩ := hold m hm
      rw [nodeHostSlots, hch, nodeHostSlots]
    · rw [nodeHostSlots, hnew]
      rfl
  · intro m hm
    obtain ⟨ch, hch⟩ := hold m hm
    have hcount := congrArg TreeNode.hostRefCounter hch
    exact hcount

/-! ## 4. The walk -/

/-- Where the walk has got to: `k` units further down, with what is left of the key, of the slots and of
the hashes. -/
structure HostWalks (cfg : HiConfig) (t : RootedTree NodeId) (h : HiRadixCache) (key : RadixKey)
    (hostValue : List ℕ) (matchedLength : ℕ) (t' : RootedTree NodeId) (w : HostWalk) : Prop where
  grows : HostGrows cfg t h [] t' w.cache
  mem : w.node ∈ t'.nodes
  fits : w.key.Fits cfg.isEagle cfg.pageSize
  len_eq : w.matchedLength + w.key.len = matchedLength + key.len
  le : matchedLength ≤ w.matchedLength
  hostValue_eq : w.hostValue = hostValue.drop (w.matchedLength - matchedLength)
  hash_len : w.hashValue.length = (w.key.label cfg.pageSize).length
  childKey : w.key.label cfg.pageSize ≠ [] → w.key.childKey cfg.pageSize = some w.childKey
  stuck : RadixCache.Stuck cfg.toCacheConfig t' w.cache.toRadixCache w.node
    (w.key.label cfg.pageSize)

/-- **The loop of `_insert_helper_host`** returns, and only reshapes the tree. -/
theorem insertHostLoop_spec : ∀ (fuel : ℕ) (t : RootedTree NodeId) (h : HiRadixCache) (node : NodeId)
    (key : RadixKey) (hostValue : List ℕ) (hashValue : List Digest) (ck : ChildKey) (matched : ℕ),
    RadixCache.Represents cfg.toCacheConfig t h.toRadixCache → node ∈ t.nodes →
    key.Fits cfg.isEagle cfg.pageSize → hashValue.length = (key.label cfg.pageSize).length →
    (key.label cfg.pageSize ≠ [] → key.childKey cfg.pageSize = some ck) → key.len < fuel →
    ∃ t' w, insertHostLoop cfg fuel h node key hostValue hashValue ck matched = some w ∧
      HostWalks cfg t h key hostValue matched t' w := by
  intro fuel
  induction fuel with
  | zero => intro t h node key hostValue hashValue ck matched _ _ _ _ _ hfuel; omega
  | succ fuel ih =>
    intro t h node key hostValue hashValue ck matched hrep hnode hkey hlen hck hfuel
    by_cases hpos : key.len > 0
    · have hne : key.label cfg.pageSize ≠ [] := by
        rw [Ne, hkey.label_eq_nil]
        omega
      cases hl : (h.nodes node).children.lookup ck with
      | none =>
        have hstuck := RadixCache.stuck_of_lookup_none hrep hnode hkey hne (hck hne) hl
        exact ⟨t, ⟨matched, node, key, hostValue, hashValue, ck, h⟩,
          by simp [insertHostLoop, hpos, hl], HostGrows.refl hrep, hnode, hkey, rfl, le_rfl,
          by simp, hlen, hck, hstuck⟩
      | some child =>
        have htouch := HostGrows.touch hrep child
        generalize hh₁ : h.touch cfg child = h₁ at htouch
        obtain ⟨j, hrd⟩ := RadixCache.exists_round htouch.represents hnode hkey hne (hck hne)
          (by rw [← hh₁, (agree_touch cfg h child).children]; exact hl)
        obtain ⟨hm, hr, -⟩ := hrd.isChild
        obtain ⟨t₂, node₂, h₂, hsplit, hnode₂, hgrow⟩ :=
          splitHostOrStay_spec htouch.represents hm hr hrd.pos hrd.lt_iff
        have hkey' := hkey.dropTo j
        obtain ⟨ck', hck', hck''⟩ : ∃ ck', RadixCache.nextChildKey cfg.toCacheConfig _ ck = some ck' ∧ _ :=
          RadixCache.exists_nextChildKey hkey' ck
        have hj : cfg.pageSize * j ≤ key.len := by
          rw [hkey.len_eq]
          exact Nat.mul_le_mul_left _ hrd.le_key
        have hdec : 0 < cfg.pageSize * j := Nat.mul_pos cfg.pageSize_pos hrd.pos
        obtain ⟨t', w, hloop, hw⟩ := ih t₂ h₂ node₂ (key.dropTo (cfg.pageSize * j))
          (hostValue.drop (cfg.pageSize * j)) (hashValue.drop j) ck' (matched + cfg.pageSize * j)
          hgrow.represents hnode₂ hkey'
          (by rw [RadixKey.label_dropTo, length_drop, length_drop, hlen]) hck''
          (by rw [RadixKey.len_dropTo]; omega)
        refine ⟨t', w, ?_, (htouch.trans hgrow).trans hw.grows, hw.mem, hw.fits, ?_, ?_, ?_,
          hw.hash_len, hw.childKey, hw.stuck⟩
        · simp [insertHostLoop, hpos, hl, hh₁, hrd.matchLen, hsplit, hck',
            Nat.mul_div_cancel_left j cfg.pageSize_pos, hloop]
        · rw [hw.len_eq, RadixKey.len_dropTo]
          omega
        · exact le_trans (Nat.le_add_right _ _) hw.le
        · rw [hw.hostValue_eq, drop_drop]
          congr 1
          have := hw.le
          omega
    · have hnil : key.label cfg.pageSize = [] := hkey.label_eq_nil.mpr (by omega)
      refine ⟨t, ⟨matched, node, key, hostValue, hashValue, ck, h⟩,
        by simp [insertHostLoop, hpos], HostGrows.refl hrep, hnode, hkey, rfl, le_rfl,
        by simp, hlen, hck, ?_⟩
      rw [hnil]
      exact RadixCache.stuck_nil hrep

/-- **`_insert_helper_host`** returns the length of the part that was there, and the tree takes the
slots of the rest. -/
theorem insertHelperHost_spec {node : NodeId} {key : RadixKey} (hostValue : List ℕ)
    (hashValue : List Digest)
    (hrep : RadixCache.Represents cfg.toCacheConfig t h.toRadixCache) (hnode : node ∈ t.nodes)
    (hkey : key.Fits cfg.isEagle cfg.pageSize) (hval : hostValue.length = key.len)
    (hhash : hashValue.length = (key.label cfg.pageSize).length) :
    ∃ matched t' h', h.insertHelperHost cfg node key hostValue hashValue = some (matched, h') ∧
      matched ≤ key.len ∧ HostGrows cfg t h (hostValue.drop matched) t' h' := by
  have htouch := HostGrows.touch hrep node
  unfold insertHelperHost
  generalize h.touch cfg node = h₁ at htouch
  by_cases h0 : key.len = 0
  · refine ⟨0, t, h₁, by simp [h0], Nat.zero_le _, ?_⟩
    rw [eq_nil_of_length_eq_zero (hval.trans h0)]
    exact htouch
  · have hne : key.label cfg.pageSize ≠ [] := by rwa [Ne, hkey.label_eq_nil]
    obtain ⟨ck, hck⟩ := hkey.exists_childKey cfg.pageSize_pos hne
    obtain ⟨t', w, hloop, hw⟩ := insertHostLoop_spec (key.len + 1) t h₁ node key hostValue hashValue
      ck 0 htouch.represents hnode hkey hhash (fun _ => hck) (Nat.lt_succ_self _)
    have hlen := hw.len_eq
    by_cases hrest : w.key.len > 0
    · have hne' : w.key.label cfg.pageSize ≠ [] := by
        rw [Ne, hw.fits.label_eq_nil]
        omega
      obtain ⟨t'', h', hadd, hgrow⟩ := addHostLeaf_grows w.hostValue
        hw.grows.represents hw.mem hw.fits hne' hw.stuck (hw.childKey hne') hw.hash_len
      refine ⟨w.matchedLength, t'', h', ?_, by omega, ?_⟩
      · simp only [h0, if_false, hck, hloop, bind_eq_bind, bind_some, hrest, if_true, hadd]
        rfl
      · have hall := (htouch.trans hw.grows).trans hgrow
        rwa [hw.hostValue_eq] at hall
    · refine ⟨w.matchedLength, t', w.cache, ?_, by omega, ?_⟩
      · simp only [h0, if_false, hck, hloop, bind_eq_bind, bind_some, hrest]
        rfl
      · rw [drop_eq_nil_of_le (by omega)]
        exact htouch.trans hw.grows

end Grows

end HiRadixCache

end Sglang
