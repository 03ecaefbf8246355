/-
# `HiRadixCache`: prefetching

The methods of `hiradix_cache.py` that bring slots from the storage backend to the host.

The controller's threads are not part of the state.  What they have done when a prefetch is checked is
an input of `checkPrefetchProgress`: the number of pages the backend has, the tokens that arrived here
and the least number that arrived on any rank.
-/
import Sglang.MemCache.HiRadixCache

namespace Sglang

open Lib

namespace HiRadixCache

variable (cfg : HiConfig)

/-! ## 1. Splitting -/

/-- `_split_node`: slots of both tiers are cut, the host references stay with the lower half. -/
def splitNode (h : HiRadixCache) (key : RadixKey) (child : NodeId) (splitLen : ℕ) :
    Option (NodeId × HiRadixCache) := do
  let ch := h.nodes child
  let parent ← ch.parent
  let restKey ← (key.dropTo splitLen).childKey cfg.pageSize
  let firstKey ← key.childKey cfg.pageSize
  let hashes := splitNodeHashValue ch.hashValue splitLen cfg.pageSize
  let (newNode, c) := h.newTreeNode cfg.toCacheConfig ch.priority
  let c := c.modify newNode fun n => { n with
    children := AList.singleton restKey child
    parent := some parent
    lockRef := ch.lockRef
    key := ch.key.takeTo splitLen
    hitCount := ch.hitCount
    value := ch.value.map (List.take splitLen)
    hostValue := ch.hostValue.map (List.take splitLen)
    hashValue := hashes.1 }
  let c := c.modify child fun n => { n with
    value := ch.value.map (List.drop splitLen)
    hostValue := ch.hostValue.map (List.drop splitLen)
    hashValue := hashes.2
    parent := some newNode
    key := ch.key.dropTo splitLen }
  let c := c.modify parent fun n => { n with children := n.children.insert firstKey newNode }
  return (newNode, { h with toRadixCache := c })

/-! ## 2. Prefetching from storage -/

/-- `protect_host`. -/
def protectHost (h : HiRadixCache) (node : NodeId) : HiRadixCache :=
  h.modify node fun n => { n with hostRefCounter := n.hostRefCounter + 1 }

/-- `append_host_mem_release`: page by page. -/
def appendHostMemRelease (h : HiRadixCache) (hostIndices : List ℕ) : HiRadixCache :=
  { h with hostMemReleaseQueue := h.hostMemReleaseQueue ++
      (pageStarts hostIndices.length h.host.pageSize).map fun start =>
        (hostIndices.drop start).take h.host.pageSize }

/-- The end of `prefetch_from_storage`. -/
def startPrefetch (h : HiRadixCache) (p : Prefetch) : HiRadixCache :=
  { h with
    ongoingPrefetch := h.ongoingPrefetch.filter (·.reqId ≠ p.reqId) ++ [p]
    prefetchTokensOccupied := h.prefetchTokensOccupied + p.key.len }

/-- `prefetch_from_storage`.  When the host has no room, even after an eviction, it takes the whole
pages that are there; the key stays as long as it was. -/
def prefetchFromStorage (h : HiRadixCache) (reqId : ℕ) (lastHostNode : NodeId)
    (newInputTokens : List Token) (lastHash : Option Digest) : Option HiRadixCache := do
  let key : RadixKey := ⟨newInputTokens, (h.nodes lastHostNode).key.extraKey, cfg.isEagle⟩
  let key := key.pageAligned cfg.pageSize
  if cfg.enableStorage = false ∨ key.len < cfg.prefetchThreshold ∨
      h.prefetchTokensOccupied ≥ cfg.prefetchCapacityLimit then return h
  let h := h.protectHost lastHostNode
  match ← h.host.alloc key.len with
  | some (hostIndices, host) =>
    return { h with host := host }.startPrefetch ⟨reqId, lastHostNode, key, hostIndices, lastHash⟩
  | none =>
    let h ← h.evictHost cfg key.len
    match ← h.host.alloc key.len with
    | some (hostIndices, host) =>
      return { h with host := host }.startPrefetch ⟨reqId, lastHostNode, key, hostIndices, lastHash⟩
    | none =>
      let available := h.host.availableSize
      let prefetchLength := available - available % cfg.pageSize
      if prefetchLength ≥ cfg.prefetchThreshold then
        -- the pool has what it says it has, so this allocation returns
        let (hostIndices, host) ← (← h.host.alloc prefetchLength)
        return { h with host := host }.startPrefetch ⟨reqId, lastHostNode, key, hostIndices, lastHash⟩
      else h.releaseHost lastHostNode

/-- The hashes of `_storage_hit_query`: the pages of the key, chained to the last hash of the node the
prefetch starts from, as far as the backend has them. -/
def storageHitQuery (p : Prefetch) (hitPages : ℕ) : Option (List Digest) := do
  let hashValue ← hashPages cfg.sha256 p.key cfg.pageSize (pageStarts p.key.len cfg.pageSize) p.lastHash
  return hashValue.take hitPages

/-- What the walk of `_insert_helper_host` ends with. -/
structure HostWalk where
  matchedLength : ℕ
  node : NodeId
  key : RadixKey
  hostValue : List ℕ
  hashValue : List Digest
  childKey : ChildKey
  cache : HiRadixCache

/-- A round of `_insert_helper_host` goes on from the upper half of a node that it has to split. -/
def splitHostOrStay (h : HiRadixCache) (node : NodeId) (prefixLen : ℕ) :
    Option (NodeId × HiRadixCache) :=
  if prefixLen < (h.nodes node).key.len then h.splitNode cfg (h.nodes node).key node prefixLen
  else some (node, h)

/-- The loop of `_insert_helper_host`. -/
def insertHostLoop : ℕ → HiRadixCache → NodeId → RadixKey → List ℕ → List Digest → ChildKey → ℕ →
    Option HostWalk
  | 0, _, _, _, _, _, _, _ => none
  | fuel + 1, h, node, key, hostValue, hashValue, childKey, matchedLength =>
    if key.len > 0 then
      match (h.nodes node).children.lookup childKey with
      | none => some ⟨matchedLength, node, key, hostValue, hashValue, childKey, h⟩
      | some child => do
        let h := h.touch cfg child
        let prefixLen ← (h.nodes child).key.matchLen key cfg.pageSize
        let key := key.dropTo prefixLen
        let hostValue := hostValue.drop prefixLen
        let hashValue := hashValue.drop (prefixLen / cfg.pageSize)
        let (node, h) ← h.splitHostOrStay cfg child prefixLen
        let childKey ← RadixCache.nextChildKey cfg.toCacheConfig key childKey
        insertHostLoop fuel h node key hostValue hashValue childKey (matchedLength + prefixLen)
    else some ⟨matchedLength, node, key, hostValue, hashValue, childKey, h⟩

/-- The end of `_insert_helper_host`: a leaf that is on the host only. -/
def addHostLeaf (h : HiRadixCache) (node : NodeId) (key : RadixKey) (hostValue : List ℕ)
    (hashValue : List Digest) (childKey : ChildKey) : Option HiRadixCache := do
  let (newNode, c) := h.newTreeNode cfg.toCacheConfig (h.nodes node).priority
  let c := c.modify newNode fun n => { n with
    parent := some node
    key := key
    value := none
    hostValue := some hostValue
    hashValue := some hashValue }
  let c := c.modify node fun n => { n with children := n.children.insert childKey newNode }
  let h := { h with toRadixCache := c }.updateHostLeafStatus newNode
  let h := h.onTree (·.updateLeafStatus node)
  let h := h.updateHostLeafStatus node
  h.onTree? (·.recordStoreEvent cfg.toCacheConfig newNode .cpu)

/-- `_insert_helper_host`: the length of the part that was already in the tree. -/
def insertHelperHost (h : HiRadixCache) (node : NodeId) (key : RadixKey) (hostValue : List ℕ)
    (hashValue : List Digest) : Option (ℕ × HiRadixCache) := do
  let h := h.touch cfg node
  if key.len = 0 then return (0, h)
  let childKey ← key.childKey cfg.pageSize
  let w ← insertHostLoop cfg (key.len + 1) h node key hostValue hashValue childKey 0
  if w.key.len > 0 then
    let h ← w.cache.addHostLeaf cfg w.node w.key w.hostValue w.hashValue w.childKey
    return (w.matchedLength, h)
  else return (w.matchedLength, w.cache)

/-- `check_prefetch_progress` when the prefetch can be terminated: `completed` tokens have arrived, on
every rank at least `minCompleted`.  `none` of the request is a prefetch that ended before. -/
def checkPrefetchProgress (h : HiRadixCache) (reqId hitPages completed minCompleted : ℕ) :
    Option HiRadixCache :=
  match h.ongoingPrefetch.find? (·.reqId = reqId) with
  | none => some h
  | some p => do
    let hashValue ← storageHitQuery cfg p hitPages
    let (matchedLength, h) ← h.insertHelperHost cfg p.lastHostNode (p.key.takeTo minCompleted)
      (p.hostIndices.take minCompleted) (hashValue.take (minCompleted / cfg.pageSize))
    let h := { h with host := h.host.free (p.hostIndices.take matchedLength) }
    let h := h.appendHostMemRelease ((p.hostIndices.take completed).drop minCompleted)
    let h ← h.releaseHost p.lastHostNode
    return { h with
      ongoingPrefetch := h.ongoingPrefetch.filter (·.reqId ≠ reqId)
      prefetchTokensOccupied := h.prefetchTokensOccupied - p.key.len }

/-- A prefetch that ends without an insertion: `_drain_revoke`, and `release_aborted_request` with
the slots that had arrived. -/
def dropPrefetch (h : HiRadixCache) (reqId : ℕ) : Option HiRadixCache :=
  match h.ongoingPrefetch.find? (·.reqId = reqId) with
  | none => some h
  | some p => do
    let h ← h.releaseHost p.lastHostNode
    return { h with
      ongoingPrefetch := h.ongoingPrefetch.filter (·.reqId ≠ reqId)
      prefetchTokensOccupied := h.prefetchTokensOccupied - p.key.len }

/-- `release_aborted_request`. -/
def releaseAbortedRequest (h : HiRadixCache) (reqId completed : ℕ) : Option HiRadixCache :=
  match h.ongoingPrefetch.find? (·.reqId = reqId) with
  | none => some h
  | some p => do
    let h ← h.dropPrefetch reqId
    return h.appendHostMemRelease (p.hostIndices.take completed)

/-- `_drain_revoke` of one request; the counter does not go below zero here. -/
def drainRevoke (h : HiRadixCache) (reqId : ℕ) : Option HiRadixCache := do
  let h ← h.dropPrefetch reqId
  return { h with prefetchTokensOccupied := max h.prefetchTokensOccupied 0 }

/-- `_drain_backup` of one operation. -/
def drainBackup (h : HiRadixCache) (node : NodeId) : Option HiRadixCache :=
  if node ∈ h.ongoingBackup then
    { h with ongoingBackup := h.ongoingBackup.erase node }.releaseHost node
  else some h

/-- `_drain_release` of the first `numRelease` entries. -/
def drainRelease (h : HiRadixCache) (numRelease : ℕ) : HiRadixCache :=
  { h with
    host := h.host.free (h.hostMemReleaseQueue.take numRelease).flatten
    hostMemReleaseQueue := h.hostMemReleaseQueue.drop numRelease }

/-! ## 3. The first state -/

/-- `__init__`: an empty tree, no transfer, and the pools as they are given. -/
def init (device : KVAllocator) (host : HostKVCache) : HiRadixCache where
  toRadixCache := RadixCache.init cfg.toCacheConfig
  evictableHostLeaves := []
  ongoingWriteThrough := []
  ongoingLoadBack := []
  ongoingBackup := []
  ongoingPrefetch := []
  ackWriteQueue := []
  loadQueue := []
  ackLoadQueue := []
  hostMemReleaseQueue := []
  prefetchTokensOccupied := 0
  device := device
  host := host

/-- A small configuration, with storage. -/
def smallConfig : HiConfig where
  toCacheConfig := RadixCache.smallConfig false
  writeBack := false
  writeThroughThreshold := 1
  loadBackThreshold := 2
  enableStorage := true
  prefetchThreshold := 2
  prefetchCapacityLimit := 100

/-- A small cache: no node, eight slots on either side. -/
def small : HiRadixCache :=
  init smallConfig ⟨8, 2, false, [1, 2, 3, 4], [], true, []⟩ ⟨2, List.range 8⟩

end HiRadixCache

end Sglang
