/-
# Hanging in a leaf on the host

`_insert_helper_host` links in one new object and tests it and its parent for the two leaf sets.
-/
import Sglang.MemCache.HiSteps

namespace Sglang

open Lib Function

namespace HiRadixCache

/-! ## 1. Leaf sets and events -/

/-- Other leaf sets, and nothing else. -/
def withLeaves (h : HiRadixCache) (leaves hostLeaves : List NodeId) : HiRadixCache :=
  { h with
    toRadixCache := { h.toRadixCache with evictableLeaves := leaves }
    evictableHostLeaves := hostLeaves }

/-- More events, and nothing else. -/
def withEvents (h : HiRadixCache) (es : List KVCacheEvent) : HiRadixCache :=
  { h with toRadixCache := { h.toRadixCache with kvEventQueue := h.kvEventQueue ++ es } }

theorem onTree?_eq_some {h h' : HiRadixCache} {f : RadixCache ℕ → Option (RadixCache ℕ)} (heq : h.onTree? f = some h') :
    ∃ c, f h.toRadixCache = some c ∧ h' = { h with toRadixCache := c } := by
  unfold onTree? at heq
  cases hf : f h.toRadixCache with
  | none => rw [hf] at heq; cases heq
  | some c =>
    rw [hf] at heq
    cases heq
    exact ⟨c, rfl, rfl⟩

theorem onTree_updateLeafStatus (h : HiRadixCache) (n : NodeId) :
    ∃ l, h.onTree (·.updateLeafStatus n) = h.withLeaves l h.evictableHostLeaves ∧
      Refreshed h.evictableLeaves l [n] h.IsEvictableLeaf := by
  refine ⟨_, ?_, updateLeafStatus_refreshed h.toRadixCache n⟩
  have heq : h.toRadixCache.updateLeafStatus n = { h.toRadixCache with
      evictableLeaves := (h.toRadixCache.updateLeafStatus n).evictableLeaves } := by
    unfold RadixCache.updateLeafStatus
    split_ifs <;> rfl
  exact congrArg (fun c => ({ h with toRadixCache := c } : HiRadixCache)) heq

theorem updateHostLeafStatus_eq (h : HiRadixCache) (n : NodeId) :
    ∃ l, h.updateHostLeafStatus n = h.withLeaves h.evictableLeaves l ∧
      Refreshed h.evictableHostLeaves l [n] h.IsHostLeaf := by
  refine ⟨_, ?_, updateHostLeafStatus_refreshed h n⟩
  unfold withLeaves updateHostLeafStatus
  split_ifs <;> rfl

/-- The tests of a new leaf on the host: the leaf, then its parent for both sets. -/
theorem retestHost (h : HiRadixCache) (p v : NodeId) :
    ∃ l lh, ((h.updateHostLeafStatus v).onTree (·.updateLeafStatus p)).updateHostLeafStatus p
        = h.withLeaves l lh ∧
      Refreshed h.evictableLeaves l [p] h.IsEvictableLeaf ∧
      Refreshed h.evictableHostLeaves lh [p, v] h.IsHostLeaf := by
  obtain ⟨lh₁, h1, hr1⟩ := updateHostLeafStatus_eq h v
  rw [h1]
  obtain ⟨l, h2, hr2⟩ := onTree_updateLeafStatus (h.withLeaves h.evictableLeaves lh₁) p
  rw [h2]
  obtain ⟨lh, h3, hr3⟩ := updateHostLeafStatus_eq
    ((h.withLeaves h.evictableLeaves lh₁).withLeaves l lh₁) p
  exact ⟨l, lh, h3, hr2, hr1.trans hr3 fun _ _ _ => Iff.rfl⟩

/-! ## 2. A node is hung in -/

section Links

variable {cfg : CacheConfig} {t : RootedTree NodeId} {c c₁ : RadixCache ℕ} {p : NodeId}
  {key : RadixKey} {ck : ChildKey} {x : TreeNode ℕ}

/-- A new object `x` under the child key `ck` of `p`, and nothing else. -/
def linkNew (c : RadixCache ℕ) (p : NodeId) (ck : ChildKey) (x : TreeNode ℕ) :
    NodeId → TreeNode ℕ :=
  Function.update (Function.update c.nodes c.counter x) p
    { c.nodes p with children := (c.nodes p).children.insert ck c.counter }

theorem linkNew_old (hp : p ≠ c.counter) {m : NodeId} (hm : m ≠ c.counter) :
    ∃ ch, linkNew c p ck x m = { c.nodes m with children := ch } := by
  unfold linkNew
  by_cases hmp : m = p
  · subst hmp
    exact ⟨_, by rw [update_self]⟩
  · exact ⟨(c.nodes m).children, by rw [update_of_ne hmp, update_of_ne hm]⟩

theorem linkNew_new (hp : p ≠ c.counter) : linkNew c p ck x c.counter = x := by
  rw [linkNew, update_of_ne hp.symm, update_self]

/-- **Linking in a new object attaches a leaf.** -/
theorem isAttach_linkNew (hrep : RadixCache.Represents cfg t c) (hp : p ∈ t.nodes)
    (hkey : key.Fits cfg.isEagle cfg.pageSize) (hne : key.label cfg.pageSize ≠ [])
    (hstuck : RadixCache.Stuck cfg t c p (key.label cfg.pageSize))
    (hck : key.childKey cfg.pageSize = some ck) (hx1 : x.parent = some p) (hx2 : x.key = key)
    (hx3 : x.children = ∅) (hroot : c₁.rootNode = c.rootNode)
    (hcounter : c₁.counter = c.counter + 1) (hnodes : c₁.nodes = linkNew c p ck x) :
    RadixCache.IsAttach cfg t c p c.counter key c₁ := by
  have hpv : p ≠ c.counter := ne_of_mem_of_not_mem hp hrep.counter_not_mem
  have hnew : c₁.nodes c.counter = x := by rw [hnodes, linkNew_new hpv]
  have hold : ∀ m ∈ t.nodes, ∃ ch, c₁.nodes m = { c.nodes m with children := ch } := by
    intro m hm
    rw [hnodes]
    exact linkNew_old hpv (ne_of_mem_of_not_mem hm hrep.counter_not_mem)
  refine ⟨hp, hrep.counter_not_mem, hkey, hne, hstuck, hroot, hcounter, Nat.lt_succ_self _,
    by rw [hnew, hx1], fun m hm => ?_, by rw [hnew, hx2], fun m hm => ?_, by rw [hnew, hx3],
    ⟨ck, hck, by rw [hnodes, linkNew, update_self]⟩, fun m hm hmp => ?_⟩
  · obtain ⟨ch, hch⟩ := hold m hm
    rw [hch]
  · obtain ⟨ch, hch⟩ := hold m hm
    rw [hch]
  · rw [hnodes, linkNew, update_of_ne hmp,
      update_of_ne (ne_of_mem_of_not_mem hm hrep.counter_not_mem)]

end Links

/-- The leaf of `_insert_helper_host`. -/
def hostLeaf (cfg : HiConfig) (h : HiRadixCache) (p : NodeId) (key : RadixKey) (hostValue : List ℕ)
    (hashValue : List Digest) : TreeNode ℕ :=
  { TreeNode.init (h.nodes p).priority (cfg.monotonic h.ticks) (cfg.monotonic (h.ticks + 1)) with
    parent := some p, key := key, hostValue := some hostValue, hashValue := some hashValue }

/-- The state once that leaf is linked in. -/
def linkHostLeaf (cfg : HiConfig) (h : HiRadixCache) (p : NodeId) (key : RadixKey)
    (hostValue : List ℕ) (hashValue : List Digest) (ck : ChildKey) : HiRadixCache :=
  { h with toRadixCache := { h.toRadixCache with
      nodes := linkNew h.toRadixCache p ck (h.hostLeaf cfg p key hostValue hashValue)
      counter := h.counter + 1
      ticks := h.ticks + 2 } }

/-- `addHostLeaf` links in one object, tests the two nodes and records the event. -/
theorem addHostLeaf_eq {cfg : HiConfig} {h : HiRadixCache} {p : NodeId} {key : RadixKey}
    {ck : ChildKey} (hpv : p ≠ h.counter) (hostValue : List ℕ) (hashValue : List Digest) :
    h.addHostLeaf cfg p key hostValue hashValue ck =
      ((((h.linkHostLeaf cfg p key hostValue hashValue ck).updateHostLeafStatus h.counter).onTree
        (·.updateLeafStatus p)).updateHostLeafStatus p).onTree?
          (·.recordStoreEvent cfg.toCacheConfig h.counter .cpu) := by
  have hn : ((((h.newTreeNode cfg.toCacheConfig (h.nodes p).priority).2.modify h.counter fun n =>
      { n with
        parent := some p
        key := key
        value := none
        hostValue := some hostValue
        hashValue := some hashValue }).modify p fun n =>
      { n with children := n.children.insert ck h.counter }).nodes)
      = linkNew h.toRadixCache p ck (h.hostLeaf cfg p key hostValue hashValue) := by
    funext m
    by_cases hmp : m = p
    · subst hmp
      simp [RadixCache.newTreeNode, RadixCache.modify, linkNew, hpv]
    · by_cases hmv : m = h.counter
      · subst hmv
        simp [RadixCache.newTreeNode, RadixCache.modify, linkNew, hpv.symm, hostLeaf, TreeNode.init]
      · simp [RadixCache.newTreeNode, RadixCache.modify, linkNew, hmp, hmv]
  rw [linkHostLeaf, ← hn]
  rfl

end HiRadixCache

end Sglang
