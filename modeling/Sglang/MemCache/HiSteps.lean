/-
# What one step of `HiRadixCache` does

For each small step of a prefetch (a node is touched, cut, tested for the two leaf sets) there is a
relation here that lists what it does to the links, to the two tiers, to the references and to the leaf
sets, and a theorem that says that the function of the model takes that step.  The modules that follow
read these relations and do not unfold the functions again.
-/
import Sglang.Lib.Listed
import Sglang.MemCache.EventMirror
import Sglang.MemCache.HiPrefix

namespace Sglang

open Lib List Option

namespace HiRadixCache

/-! ## 1. Reading the state -/

/-- The node has slots on the device. -/
def onDevice (h : HiRadixCache) (n : NodeId) : Bool := (h.nodes n).value.isSome

/-- The node has slots on the host. -/
def onHost (h : HiRadixCache) (n : NodeId) : Bool := (h.nodes n).hostValue.isSome

/-- The references of a node. -/
def lockRef (h : HiRadixCache) (n : NodeId) : ℤ := (h.nodes n).lockRef

theorem evicted_eq (h : HiRadixCache) (n : NodeId) : (h.nodes n).evicted = !h.onDevice n := by
  rw [TreeNode.evicted, onDevice, not_isSome]

theorem backuped_eq (h : HiRadixCache) (n : NodeId) : (h.nodes n).backuped = h.onHost n := rfl

/-- What `_update_host_leaf_status` tests. -/
def IsHostLeaf (h : HiRadixCache) (n : NodeId) : Prop :=
  h.onDevice n = false ∧ ¬ h.lockRef n > 0 ∧
    ∀ k ∈ (h.nodes n).children.values, h.onHost k = false

section Status

variable (h : HiRadixCache) (n : NodeId)

theorem updateHostLeafStatus_refreshed :
    Refreshed h.evictableHostLeaves (h.updateHostLeafStatus n).evictableHostLeaves [n]
      h.IsHostLeaf := by
  have hne : (h.nodes n).evicted = false ↔ ¬ h.onDevice n = false := by
    rw [evicted_eq]; simp
  unfold updateHostLeafStatus IsHostLeaf
  split_ifs with h1 h2
  · refine ⟨fun hl => hl.erase n, fun hl m => ?_⟩
    rw [hl.mem_erase_iff, mem_singleton]
    refine (or_iff_left ?_).symm
    rintro ⟨rfl, h3, h4, -⟩
    rcases h1 with h1 | h1
    · exact hne.mp h1 h3
    · exact h4 h1
  · refine ⟨fun hl => hl.erase n, fun hl m => ?_⟩
    rw [hl.mem_erase_iff, mem_singleton]
    refine (or_iff_left ?_).symm
    rintro ⟨rfl, -, -, h5⟩
    obtain ⟨k, hk, hk'⟩ := any_eq_true.mp h2
    rw [backuped_eq, h5 k hk] at hk'
    cases hk'
  · rw [not_or] at h1
    have hleaf : h.onDevice n = false ∧ ¬ h.lockRef n > 0 ∧
        ∀ k ∈ (h.nodes n).children.values, h.onHost k = false := by
      refine ⟨by simpa [hne] using h1.1, h1.2, fun k hk => ?_⟩
      by_contra hc
      exact h2 (any_eq_true.mpr ⟨k, hk, by rw [backuped_eq]; simpa using hc⟩)
    refine ⟨fun hl => hl.insert, fun hl m => ?_⟩
    rw [mem_insert_iff, mem_singleton]
    by_cases hmn : m = n
    · subst hmn
      exact iff_of_true (Or.inl rfl) (Or.inr ⟨rfl, hleaf⟩)
    · simp [hmn]

end Status

theorem updateLeafStatus_refreshed (c : RadixCache ℕ) (n : NodeId) :
    Refreshed c.evictableLeaves (c.updateLeafStatus n).evictableLeaves [n] c.IsEvictableLeaf :=
  ⟨RadixCache.nodup_updateLeafStatus c n, fun hl m => by
    rw [RadixCache.mem_updateLeafStatus c n hl]
    by_cases hmn : m = n
    · subst hmn; simp
    · simp [hmn]⟩

/-! ## 2. Touching -/

/-- Only the access time of the node differs, and the clock. -/
theorem agree_touch (cfg : HiConfig) (h : HiRadixCache) (n : NodeId) :
    RadixCache.Agree h.toRadixCache (h.touch cfg n).toRadixCache :=
  (RadixCache.Agree.readClock cfg.toCacheConfig h.toRadixCache).trans
    (RadixCache.Agree.modify (f := fun x => { x with
      lastAccessTime := (h.readClock cfg.toCacheConfig).1 }) (by constructor <;> (intros; rfl)) _ n)

/-! ## 3. Splitting -/

/-- A split, with what it does to the host tier. -/
structure HiSplits (cfg : HiConfig) (t : RootedTree NodeId) (h : HiRadixCache) (n v : NodeId) (j : ℕ)
    (h' : HiRadixCache) : Prop
    extends RadixCache.Splits cfg.toCacheConfig t h.toRadixCache n v j h'.toRadixCache where
  hostValue_new : (h'.nodes v).hostValue = (h.nodes n).hostValue.map (List.take (cfg.pageSize * j))
  hostValue_self : (h'.nodes n).hostValue = (h.nodes n).hostValue.map (List.drop (cfg.pageSize * j))
  hostValue_old : ∀ m ∈ t.nodes, m ≠ n → (h'.nodes m).hostValue = (h.nodes m).hostValue
  hostRefCounter_old : ∀ m ∈ t.nodes, (h'.nodes m).hostRefCounter = (h.nodes m).hostRefCounter

/-- **`_split_node` splits**, at a page boundary strictly inside a node of the tree. -/
theorem splitNode_spec {cfg : HiConfig} {t : RootedTree NodeId} {h : HiRadixCache} {n : NodeId}
    {j : ℕ} (hrep : RadixCache.Represents cfg.toCacheConfig t h.toRadixCache) (hn : n ∈ t.nodes)
    (hr : n ≠ t.root) (hj : 0 < j) (hlt : j < (h.label cfg.toCacheConfig n).length) :
    ∃ h', h.splitNode cfg (h.nodes n).key n (cfg.pageSize * j) = some (h.counter, h') ∧
      HiSplits cfg t h n h.counter j h' := by
  have hf := hrep.fits hn hr
  have hfresh := hrep.counter_not_mem
  have hp := t.parent_mem hn hr
  have hpn : t.parent n ≠ n := RootedTree.parent_ne hn hr
  have hnv : n ≠ h.counter := ne_of_mem_of_not_mem hn hfresh
  have hpv : t.parent n ≠ h.counter := ne_of_mem_of_not_mem hp hfresh
  have hpar := hrep.parent_eq hn hr
  obtain ⟨ck₀, hck₀⟩ := hrep.exists_childKey hn hr
  obtain ⟨ck₁, hck₁⟩ : ∃ ck, ((h.nodes n).key.dropTo (cfg.pageSize * j)).childKey cfg.pageSize
      = some ck := by
    refine (hf.dropTo j).exists_childKey cfg.pageSize_pos ?_
    rw [RadixKey.label_dropTo]
    intro e
    have := congrArg List.length e
    rw [length_drop, length_nil] at this
    rw [RadixCache.label] at hlt
    omega
  have hhash := RadixCache.splitNodeHashValue_eq (h.nodes n).hashValue cfg.pageSize_pos j
  refine ⟨_, by
    simp only [splitNode, hpar, hck₀, hck₁, hhash, RadixCache.newTreeNode, bind_eq_bind, bind_some]
    rfl, ?_⟩
  have hold : ∀ m ∈ t.nodes, m ≠ h.counter := fun m hm => ne_of_mem_of_not_mem hm hfresh
  constructor
  · constructor
    · constructor
      case children_new => exact ⟨ck₁, by simp [RadixCache.modify, hpn, hnv, hpn.symm, hck₁], by
        simp [RadixCache.modify, hpv.symm, hnv.symm]⟩
      case children_parent => exact ⟨ck₀, hck₀, by simp [RadixCache.modify, hpn, hpv]⟩
      case children_old =>
        intro m hm hmp
        by_cases hmn : m = n
        · subst hmn; simp [RadixCache.modify, hmp, hnv]
        · simp [RadixCache.modify, hmp, hmn, hold m hm]
      case parent_old | key_old =>
        intro m hm hmn
        by_cases hmp : m = t.parent n
        · subst hmp; simp [RadixCache.modify, hmn, hpv]
        · simp [RadixCache.modify, hmn, hmp, hold m hm]
      all_goals first
        | assumption
        | rfl
        | simp [RadixCache.modify, hpn, hnv, hpv, hpn.symm, hnv.symm, hpv.symm]
    case lockRef_old =>
      intro m hm
      by_cases hmp : m = t.parent n
      · subst hmp; simp [RadixCache.modify, hpv, hpn]
      · by_cases hmn : m = n
        · subst hmn; simp [RadixCache.modify, hnv, hmp]
        · simp [RadixCache.modify, hmn, hold m hm, hmp]
    case value_old | hashValue_old =>
      intro m hm hmn
      by_cases hmp : m = t.parent n
      · subst hmp; simp [RadixCache.modify, hmn, hpv]
      · simp [RadixCache.modify, hmn, hmp, hold m hm]
    all_goals first
      | rfl
      | simp [RadixCache.modify, hpn, hnv, hpv, hpn.symm, hnv.symm, hpv.symm]
  case hostRefCounter_old =>
    intro m hm
    by_cases hmp : m = t.parent n
    · subst hmp; simp [RadixCache.modify, hpv, hpn]
    · by_cases hmn : m = n
      · subst hmn; simp [RadixCache.modify, hnv, hmp]
      · simp [RadixCache.modify, hmn, hold m hm, hmp]
  case hostValue_old =>
    intro m hm hmn
    by_cases hmp : m = t.parent n
    · subst hmp; simp [RadixCache.modify, hmn, hpv]
    · simp [RadixCache.modify, hmn, hmp, hold m hm]
  all_goals first
    | rfl
    | simp [RadixCache.modify, hpn, hnv, hpv, hpn.symm, hnv.symm, hpv.symm]

/-! ## 4. Events of a node that has its hashes -/

variable {cfg : CacheConfig} {c : RadixCache ℕ} {n : NodeId} {medium : StorageMedium}

theorem recordStoreEvent_eq (hf : (c.nodes n).key.Fits cfg.isEagle cfg.pageSize)
    (hh : cfg.enableKvCacheEvents = true → c.HasHashes cfg n) :
    ∃ es, c.recordStoreEvent cfg n medium = some { c with kvEventQueue := c.kvEventQueue ++ es } ∧
      (cfg.enableKvCacheEvents = true →
        es = storedBlocks medium (c.parentBlockHash n) (untagged (c.label cfg n)) (c.hashes n)) := by
  cases hon : cfg.enableKvCacheEvents with
  | false =>
    refine ⟨[], ?_, by simp⟩
    rw [RadixCache.recordStoreEvent, hon]
    simp
  | true =>
    obtain ⟨hs, hhs, hlen⟩ := hh hon
    rw [RadixCache.label, RadixKey.label, length_map] at hlen
    have hst := storeEvents_eq cfg.pageSize_pos hf.aligned medium hlen (c.parentBlockHash n)
    refine ⟨_, ?_, fun _ => rfl⟩
    rw [RadixCache.recordStoreEvent, if_pos hon, RadixCache.ensureHash]
    simp only [bind_eq_bind, bind_some, hhs, hst]
    rw [RadixCache.label, RadixKey.untagged_label, RadixCache.hashes, hhs]
    rfl

end HiRadixCache

end Sglang
