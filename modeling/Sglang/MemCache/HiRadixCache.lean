/-
# `HiRadixCache`: the radix tree over two tiers

A transcription of `hiradix_cache.py` with the part of `HiCacheController` and of `HostKVCache` that it
calls, as far as prefetching needs it.  A node holds slots of the device (`value`), of the host
(`hostValue`) or of both.  What the storage backend has fetched when a prefetch ends is an input.

`none` is an exception, or a loop that ran out of fuel.  A node is its own id: `reset`, which starts the
ids over, is left out, and with it the draft pools, the metrics and the synchronisation of ranks.
-/
import Sglang.MemCache.RadixCache
import Sglang.MemCache.Allocator

namespace Sglang

open Lib

/-- The configuration; the write policy is `write_back` or one of the two write-through ones. -/
structure HiConfig extends CacheConfig where
  writeBack : Bool
  writeThroughThreshold : ℕ
  loadBackThreshold : ℕ
  enableStorage : Bool
  prefetchThreshold : ℕ
  prefetchCapacityLimit : ℤ

/-! ## 1. The pools -/

/-- `HostKVCache`. -/
structure HostKVCache where
  pageSize : ℕ
  freeSlots : List ℕ

namespace HostKVCache

/-- `available_size`. -/
def availableSize (H : HostKVCache) : ℕ := H.freeSlots.length

/-- `alloc`; the inner `none` is a pool without room. -/
def alloc (H : HostKVCache) (needSize : ℕ) : Option (Option (List ℕ × HostKVCache)) :=
  if needSize % H.pageSize = 0 then
    if needSize > H.availableSize then some none
    else some (some (H.freeSlots.take needSize, { H with freeSlots := H.freeSlots.drop needSize }))
  else none

/-- `free`. -/
def free (H : HostKVCache) (indices : List ℕ) : HostKVCache :=
  { H with freeSlots := H.freeSlots ++ indices }

end HostKVCache

/-! ## 2. The state -/

/-- An entry of `ongoing_prefetch`. -/
structure Prefetch where
  reqId : ℕ
  lastHostNode : NodeId
  key : RadixKey
  hostIndices : List ℕ
  lastHash : Option Digest

/-- The state of a `HiRadixCache` and of its controller. -/
structure HiRadixCache extends RadixCache ℕ where
  evictableHostLeaves : List NodeId
  ongoingWriteThrough : List NodeId
  ongoingLoadBack : List NodeId
  ongoingBackup : List NodeId
  ongoingPrefetch : List Prefetch
  ackWriteQueue : List NodeId
  loadQueue : List NodeId
  ackLoadQueue : List (List NodeId)
  hostMemReleaseQueue : List (List ℕ)
  prefetchTokensOccupied : ℤ
  device : KVAllocator
  host : HostKVCache

namespace HiRadixCache

variable (cfg : HiConfig)

/-- An update of the tree. -/
def onTree (h : HiRadixCache) (f : RadixCache ℕ → RadixCache ℕ) : HiRadixCache :=
  { h with toRadixCache := f h.toRadixCache }

/-- An update of the tree that may raise. -/
def onTree? (h : HiRadixCache) (f : RadixCache ℕ → Option (RadixCache ℕ)) : Option HiRadixCache := do
  return { h with toRadixCache := ← f h.toRadixCache }

/-- An update of one node object. -/
def modify (h : HiRadixCache) (n : NodeId) (f : TreeNode ℕ → TreeNode ℕ) : HiRadixCache :=
  h.onTree (·.modify n f)

/-- `node.last_access_time = time.monotonic()`. -/
def touch (h : HiRadixCache) (n : NodeId) : HiRadixCache :=
  let (accessTime, c) := h.readClock cfg.toCacheConfig
  { h with toRadixCache := c.modify n fun x => { x with lastAccessTime := accessTime } }

/-! ## 3. Leaf status -/

/-- `_update_host_leaf_status`: an unlocked node without device slots and without a child on the host
is an evictable host leaf. -/
def updateHostLeafStatus (h : HiRadixCache) (node : NodeId) : HiRadixCache :=
  if (h.nodes node).evicted = false ∨ (h.nodes node).lockRef > 0 then
    { h with evictableHostLeaves := h.evictableHostLeaves.erase node }
  else if (h.nodes node).children.values.any fun child => (h.nodes child).backuped then
    { h with evictableHostLeaves := h.evictableHostLeaves.erase node }
  else { h with evictableHostLeaves := h.evictableHostLeaves.insert node }

/-! ## 4. Host eviction -/

/-- What `evict_host` does with a node it takes: the slots it frees and the parent. -/
def evictHostNode (h : HiRadixCache) (x : NodeId) : Option (ℕ × NodeId × HiRadixCache) := do
  let h ← h.onTree? (·.recordRemoveEvent cfg.toCacheConfig x .cpu)
  let hostValue ← (h.nodes x).hostValue
  let h := { h with host := h.host.free hostValue }
  let key ← (h.nodes x).key.childKey cfg.pageSize
  let parent ← (h.nodes x).parent
  if (h.nodes parent).children.lookup key = some x then
    let h := h.modify parent fun n => { n with children := n.children.erase key }
    let h := { h with evictableHostLeaves := h.evictableHostLeaves.erase x }
    return (hostValue.length, parent, h.updateHostLeafStatus parent)
  else none

/-- The loop of `evict_host`. -/
def evictHostLoop (numTokens : ℕ) : ℕ → HiRadixCache → List (List ℤ × NodeId) → ℕ →
    Option HiRadixCache
  | 0, _, _, _ => none
  | fuel + 1, h, heap, numEvicted =>
    if numEvicted < numTokens ∧ heap ≠ [] then do
      let (x, heap) ← heappop cfg.toCacheConfig h.nodes heap
      if x = h.rootNode then some h
      else if (h.nodes x).evicted = false then evictHostLoop numTokens fuel h heap numEvicted
      else if (h.nodes x).hostRefCounter > 0 then evictHostLoop numTokens fuel h heap numEvicted
      else
        let (n, parent, h) ← h.evictHostNode cfg x
        let heap :=
          if (h.nodes parent).children.entries = [] ∧ (h.nodes parent).evicted then
            (cfg.evictionPolicy.getPriority (h.nodes parent), parent) :: heap
          else heap
        evictHostLoop numTokens fuel h heap (numEvicted + n)
    else some h

/-- `evict_host`. -/
def evictHost (h : HiRadixCache) (numTokens : ℕ) : Option HiRadixCache :=
  let heap := h.evictableHostLeaves.map fun n =>
    (cfg.evictionPolicy.getPriority (h.nodes n), n)
  evictHostLoop cfg numTokens (heap.length + h.counter + 1) h heap 0

/-- `release_host`. -/
def releaseHost (h : HiRadixCache) (node : NodeId) : Option HiRadixCache :=
  if (h.nodes node).hostRefCounter > 0 then
    some (h.modify node fun n => { n with hostRefCounter := n.hostRefCounter - 1 })
  else none

end HiRadixCache

end Sglang
