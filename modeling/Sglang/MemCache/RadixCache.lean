/-
# `RadixCache`: the radix tree over the KV cache

A transcription of `radix_cache.py` (and of the event mixin of `events.py`) as functions on an
explicit state.  The state is the heap of node objects with the counters and sets the cache keeps
beside it; a method that can raise returns an `Option`, where `none` stands for the exception.
Loops that walk the heap take fuel, one unit a round, and running out of it is `none` as well; the
modules that follow prove that in every reachable state neither happens.

The model is of an enabled cache: with `disable=True` each method returns a constant before it
looks at the tree.  `insert` is given the slots it stores, as every caller in the runtime does;
the fallback that stores the token ids themselves exists for tests.  The slots are of an arbitrary
type: the tree only cuts and joins lists of them.  `evict` hands the lists it passes to
`token_to_kv_pool_allocator.free` to its caller, in order.
-/
import Sglang.MemCache.TreeNode
import Sglang.Lib.Sweep

namespace Sglang

open Lib

/-- The state of a `RadixCache`: the node objects, the number of objects created so far, and the
attributes of the cache.  `ticks` counts the calls of `time.monotonic()`. -/
structure RadixCache (σ : Type) where
  nodes : NodeId → TreeNode σ
  counter : ℕ
  rootNode : NodeId
  evictableSize : ℤ
  protectedSize : ℤ
  evictableLeaves : List NodeId
  kvEventQueue : List KVCacheEvent
  ticks : ℕ

/-- `MatchResult`; in this class the device node and the host node are the same. -/
structure MatchResult (σ : Type) where
  deviceIndices : List σ
  lastDeviceNode : NodeId
  lastHostNode : NodeId
  hostHitLength : ℕ

namespace RadixCache

variable {σ : Type} (cfg : CacheConfig)

/-! ## 1. Node objects -/

/-- An update of one node object. -/
def modify (c : RadixCache σ) (n : NodeId) (f : TreeNode σ → TreeNode σ) : RadixCache σ :=
  { c with nodes := Function.update c.nodes n (f (c.nodes n)) }

/-- `TreeNode(priority=..)`: a new object; the constructor reads the clock twice. -/
def newTreeNode (c : RadixCache σ) (priority : ℤ) : NodeId × RadixCache σ :=
  (c.counter,
    { c with
      nodes := Function.update c.nodes c.counter
        (TreeNode.init priority (cfg.monotonic c.ticks) (cfg.monotonic (c.ticks + 1)))
      counter := c.counter + 1
      ticks := c.ticks + 2 })

/-- One reading of the clock. -/
def readClock (c : RadixCache σ) : ℤ × RadixCache σ :=
  (cfg.monotonic c.ticks, { c with ticks := c.ticks + 1 })

/-! ## 2. Events -/

/-- `compute_node_hash_values`: the chain starts from the last hash of the parent, if it has
one. -/
def computeNodeHashValues (c : RadixCache σ) (node : NodeId) : Option (List Digest) :=
  let parentHash : Option Digest := do
    let p ← (c.nodes node).parent
    let hs ← (c.nodes p).hashValue
    if (c.nodes p).key.len > 0 then hs.getLast? else none
  let key := (c.nodes node).key
  hashPages cfg.sha256 key cfg.pageSize (pageStarts key.len cfg.pageSize) parentHash

/-- The lazy computation both event methods start with. -/
def ensureHash (c : RadixCache σ) (node : NodeId) : Option (RadixCache σ) :=
  match (c.nodes node).hashValue with
  | some _ => some c
  | none => do
    let hs ← c.computeNodeHashValues cfg node
    return c.modify node fun n => { n with hashValue := some hs }

/-- The last hash of the parent, where `_record_store_event` starts to link. -/
def parentBlockHash (c : RadixCache σ) (node : NodeId) : Option ℤ := do
  let p ← (c.nodes node).parent
  if p = c.rootNode then none
  else
    let hs ← (c.nodes p).hashValue
    return hashStrToInt64 (← hs.getLast?)

/-- `_record_store_event`. -/
def recordStoreEvent (c : RadixCache σ) (node : NodeId) (medium : StorageMedium) :
    Option (RadixCache σ) :=
  if cfg.enableKvCacheEvents then do
    let c ← c.ensureHash cfg node
    let hashValue ← (c.nodes node).hashValue
    let key := (c.nodes node).key
    let es ← storeEvents key cfg.pageSize medium hashValue (pageStarts key.len cfg.pageSize) 0
      (c.parentBlockHash node)
    return { c with kvEventQueue := c.kvEventQueue ++ es }
  else some c

/-- `_record_remove_event`. -/
def recordRemoveEvent (c : RadixCache σ) (node : NodeId) (medium : StorageMedium) :
    Option (RadixCache σ) :=
  if cfg.enableKvCacheEvents then do
    let c ← c.ensureHash cfg node
    let hashValue ← (c.nodes node).hashValue
    let es ← removeEvents medium hashValue (pageStarts (c.nodes node).key.len cfg.pageSize) 0
    return { c with kvEventQueue := c.kvEventQueue ++ es }
  else some c

/-- `_record_all_cleared_event`. -/
def recordAllClearedEvent (c : RadixCache σ) : RadixCache σ :=
  if cfg.enableKvCacheEvents then
    { c with kvEventQueue := c.kvEventQueue ++ [.allBlocksCleared] }
  else c

/-- `take_events`: hands out the queue and empties it. -/
def takeEvents (c : RadixCache σ) : List KVCacheEvent × RadixCache σ :=
  if cfg.enableKvCacheEvents then (c.kvEventQueue, { c with kvEventQueue := [] }) else ([], c)

/-! ## 3. Leaf status, locks -/

/-- `_update_leaf_status`: an unlocked node with a value and no child with a value is an
evictable leaf. -/
def updateLeafStatus (c : RadixCache σ) (node : NodeId) : RadixCache σ :=
  if (c.nodes node).evicted ∨ (c.nodes node).lockRef > 0 then
    { c with evictableLeaves := c.evictableLeaves.erase node }
  else if (c.nodes node).children.values.any fun child => !(c.nodes child).evicted then
    { c with evictableLeaves := c.evictableLeaves.erase node }
  else { c with evictableLeaves := c.evictableLeaves.insert node }

/-- One round of `inc_lock_ref`. -/
def incLockRound (c : RadixCache σ) (node : NodeId) : RadixCache σ :=
  let len : ℤ := (c.nodes node).key.len
  let c := if (c.nodes node).lockRef = 0 then
      { c with evictableSize := c.evictableSize - len, protectedSize := c.protectedSize + len }
    else c
  let c := c.modify node fun n => { n with lockRef := n.lockRef + 1 }
  c.updateLeafStatus node

/-- One round of `dec_lock_ref`. -/
def decLockRound (c : RadixCache σ) (node : NodeId) : RadixCache σ :=
  let len : ℤ := (c.nodes node).key.len
  let c := if (c.nodes node).lockRef = 1 then
      { c with evictableSize := c.evictableSize + len, protectedSize := c.protectedSize - len }
    else c
  let c := c.modify node fun n => { n with lockRef := n.lockRef - 1 }
  c.updateLeafStatus node

/-- The walk of `inc_lock_ref` and `dec_lock_ref`: one round at every node from `node` up to the
root, which is left out; the second result is `delta`. -/
def lockLoop (round : RadixCache σ → NodeId → RadixCache σ) (change : TreeNode σ → ℤ) :
    ℕ → RadixCache σ → NodeId → ℤ → Option (RadixCache σ × ℤ)
  | 0, _, _, _ => none
  | fuel + 1, c, node, delta =>
    if node = c.rootNode then some (c, delta)
    else do
      let delta := delta + change (c.nodes node)
      let c := round c node
      let parent ← (c.nodes node).parent
      lockLoop round change fuel c parent delta

/-- `inc_lock_ref`: every node of the path takes one reference. -/
def incLockRef (c : RadixCache σ) (node : NodeId) : Option (RadixCache σ × ℤ) :=
  lockLoop incLockRound (fun n => if n.lockRef = 0 then -n.key.len else 0) (c.counter + 1) c node 0

/-- `dec_lock_ref`: every node of the path gives one reference back; a path that does not end at
the root fails the assertion that the request holds a node of this tree. -/
def decLockRef (c : RadixCache σ) (node : NodeId) : Option (RadixCache σ × ℤ) :=
  lockLoop decLockRound (fun n => if n.lockRef = 1 then n.key.len else 0) (c.counter + 1) c node 0

/-! ## 4. Matching -/

/-- `_split_node`: `new_node -> child`, the new node takes the first `splitLen` units. -/
def splitNode (c : RadixCache σ) (key : RadixKey) (child : NodeId) (splitLen : ℕ) :
    Option (NodeId × RadixCache σ) := do
  let ch := c.nodes child
  let parent ← ch.parent
  let value ← ch.value
  let restKey ← (key.dropTo splitLen).childKey cfg.pageSize
  let firstKey ← key.childKey cfg.pageSize
  let hashes := splitNodeHashValue ch.hashValue splitLen cfg.pageSize
  let (newNode, c) := c.newTreeNode cfg ch.priority
  let c := c.modify newNode fun n => { n with
    hitCount := ch.hitCount
    children := AList.singleton restKey child
    parent := some parent
    lockRef := ch.lockRef
    key := ch.key.takeTo splitLen
    value := some (value.take splitLen)
    hashValue := hashes.1 }
  let c := c.modify child fun n => { n with
    parent := some newNode
    key := ch.key.dropTo splitLen
    value := some (value.drop splitLen)
    hashValue := hashes.2 }
  let c := c.modify parent fun n => { n with children := n.children.insert firstKey newNode }
  return (newNode, c)

/-- `if len(key): child_key = key.child_key(self.page_size)`, at the end of a round. -/
def nextChildKey (key : RadixKey) (childKey : ChildKey) : Option ChildKey :=
  if key.len > 0 then key.childKey cfg.pageSize else some childKey

/-- The loop of `_match_prefix_helper`: the matched value lists and the last node. -/
def matchLoop (accessTime : ℤ) : ℕ → RadixCache σ → NodeId → RadixKey → ChildKey →
    List (List σ) → Option (List (List σ) × NodeId × RadixCache σ)
  | 0, _, _, _, _, _ => none
  | fuel + 1, c, node, key, childKey, value =>
    if key.len > 0 then
      match (c.nodes node).children.lookup childKey with
      | none => some (value, node, c)
      | some child => do
        let c := c.modify child fun n => { n with lastAccessTime := accessTime }
        let prefixLen ← (c.nodes child).key.matchLen key cfg.pageSize
        if prefixLen < (c.nodes child).key.len then
          let (newNode, c) ← c.splitNode cfg (c.nodes child).key child prefixLen
          let v ← (c.nodes newNode).value
          return (value ++ [v], newNode, c)
        else
          let v ← (c.nodes child).value
          let key := key.dropTo prefixLen
          let childKey ← nextChildKey cfg key childKey
          matchLoop accessTime fuel c child key childKey (value ++ [v])
    else some (value, node, c)

/-- `_match_prefix_helper`. -/
def matchPrefixHelper (c : RadixCache σ) (node : NodeId) (key : RadixKey) :
    Option (List (List σ) × NodeId × RadixCache σ) := do
  let (accessTime, c) := c.readClock cfg
  let c := c.modify node fun n => { n with lastAccessTime := accessTime }
  let childKey ← key.childKey cfg.pageSize
  matchLoop cfg accessTime (key.len + 1) c node key childKey []

/-- `match_prefix`: the slots of the longest cached prefix and the node it ends at. -/
def matchPrefix (c : RadixCache σ) (key : RadixKey) : Option (MatchResult σ × RadixCache σ) :=
  let key := (key.maybeToBigramView (σ := σ) cfg.isEagle none).1
  if key.len = 0 then some (⟨[], c.rootNode, c.rootNode, 0⟩, c)
  else
    let key := key.pageAligned cfg.pageSize
    if key.len = 0 then some (⟨[], c.rootNode, c.rootNode, 0⟩, c)
    else do
      let (value, lastNode, c) ← c.matchPrefixHelper cfg c.rootNode key
      return (⟨value.flatten, lastNode, lastNode, 0⟩, c)

/-! ## 5. Insertion -/

/-- `_inc_hit_count`: chunked requests do not count hits on nodes they created themselves. -/
def incHitCount (c : RadixCache σ) (node : NodeId) (chunked : Bool) : RadixCache σ :=
  if chunked then c else c.modify node fun n => { n with hitCount := n.hitCount + 1 }

/-- What the walk of `_insert_helper` ends with. -/
structure InsertWalk (σ : Type) where
  total : ℕ
  node : NodeId
  key : RadixKey
  value : List σ
  childKey : ChildKey
  cache : RadixCache σ

/-- A round of `_insert_helper` goes on from the upper half of a node that it has to split. -/
def splitOrStay (c : RadixCache σ) (node : NodeId) (prefixLen : ℕ) :
    Option (NodeId × RadixCache σ) :=
  if prefixLen < (c.nodes node).key.len then c.splitNode cfg (c.nodes node).key node prefixLen
  else some (node, c)

/-- The loop of `_insert_helper`. -/
def insertLoop (accessTime priority : ℤ) (chunked : Bool) : ℕ → RadixCache σ → NodeId →
    RadixKey → List σ → ChildKey → ℕ → Option (InsertWalk σ)
  | 0, _, _, _, _, _, _ => none
  | fuel + 1, c, node, key, value, childKey, total =>
    if key.len > 0 then
      match (c.nodes node).children.lookup childKey with
      | none => some ⟨total, node, key, value, childKey, c⟩
      | some child => do
        let c := c.modify child fun n => { n with lastAccessTime := accessTime }
        let prefixLen ← (c.nodes child).key.matchLen key cfg.pageSize
        let total := total + prefixLen
        let key := key.dropTo prefixLen
        let value := value.drop prefixLen
        let (node, c) ← c.splitOrStay cfg child prefixLen
        let c := c.modify node fun n => { n with priority := max n.priority priority }
        let c := c.incHitCount node chunked
        let childKey ← nextChildKey cfg key childKey
        insertLoop accessTime priority chunked fuel c node key value childKey total
    else some ⟨total, node, key, value, childKey, c⟩

/-- The new leaf of `_insert_helper` as it is linked in, with its share of `evictable_size_`. -/
def linkLeaf (c : RadixCache σ) (node : NodeId) (key : RadixKey) (value : List σ)
    (childKey : ChildKey) (priority : ℤ) (chunked : Bool) : NodeId × RadixCache σ :=
  let (newNode, c) := c.newTreeNode cfg priority
  let c := c.modify newNode fun n => { n with
    parent := some node
    key := key
    value := some value }
  let c := c.incHitCount newNode chunked
  let c := c.modify node fun n => { n with children := n.children.insert childKey newNode }
  (newNode, { c with evictableSize := c.evictableSize + key.len })

/-- The end of `_insert_helper`: the part of the key that is not in the tree becomes a leaf. -/
def addLeaf (c : RadixCache σ) (node : NodeId) (key : RadixKey) (value : List σ)
    (childKey : ChildKey) (priority : ℤ) (chunked : Bool) : Option (RadixCache σ) :=
  let (newNode, c) := c.linkLeaf cfg node key value childKey priority chunked
  let c := c.updateLeafStatus node
  let c := c.updateLeafStatus newNode
  c.recordStoreEvent cfg newNode .gpu

/-- `_insert_helper`: the length of the part that was already in the tree. -/
def insertHelper (c : RadixCache σ) (node : NodeId) (key : RadixKey) (value : List σ)
    (priority : ℤ) (chunked : Bool) : Option (ℕ × RadixCache σ) := do
  let (accessTime, c) := c.readClock cfg
  let c := c.modify node fun n => { n with
    lastAccessTime := accessTime
    priority := max n.priority priority }
  if key.len = 0 then return (0, c)
  let childKey ← key.childKey cfg.pageSize
  let w ← insertLoop cfg accessTime priority chunked (key.len + 1) c node key value childKey 0
  if w.key.len > 0 then
    let c ← w.cache.addLeaf cfg w.node w.key w.value w.childKey priority chunked
    return (w.total, c)
  else return (w.total, w.cache)

/-- `insert`: the result is `prefix_len`. -/
def insert (c : RadixCache σ) (key : RadixKey) (value : List σ) (priority : ℤ)
    (chunked : Bool) : Option (ℕ × RadixCache σ) := do
  let (key, value) := key.maybeToBigramView cfg.isEagle (some value)
  let key := key.pageAligned cfg.pageSize
  let value := (value.getD []).take key.len
  c.insertHelper cfg c.rootNode key value priority chunked

/-! ## 6. Eviction and reset -/

/-- `_delete_leaf`; `none` is a failed `parent does not have child key` assertion. -/
def deleteLeaf (c : RadixCache σ) (node : NodeId) : Option (RadixCache σ) := do
  let key ← (c.nodes node).key.childKey cfg.pageSize
  let parent ← (c.nodes node).parent
  if (c.nodes parent).children.lookup key = some node then
    let c := c.modify parent fun n => { n with children := n.children.erase key }
    let c := { c with
      evictableSize := c.evictableSize - (c.nodes node).key.len
      evictableLeaves := c.evictableLeaves.erase node }
    return c.updateLeafStatus parent
  else none

/-- The loop of `evict`: the number of evicted tokens and the value lists that were freed. -/
def evictLoop (numTokens : ℕ) : ℕ → RadixCache σ → List (List ℤ × NodeId) → ℕ →
    List (List σ) → Option (ℕ × List (List σ) × RadixCache σ)
  | 0, _, _, _, _ => none
  | fuel + 1, c, heap, numEvicted, freed =>
    if numEvicted < numTokens ∧ heap ≠ [] then do
      let (x, heap) ← heappop cfg c.nodes heap
      let value ← (c.nodes x).value
      let c ← c.deleteLeaf cfg x
      let parent ← (c.nodes x).parent
      let heap :=
        if (c.nodes parent).children.entries = [] ∧ (c.nodes parent).lockRef = 0 then
          (cfg.evictionPolicy.getPriority (c.nodes parent), parent) :: heap
        else heap
      let c ← c.recordRemoveEvent cfg x .gpu
      evictLoop numTokens fuel c heap (numEvicted + value.length) (freed ++ [value])
    else some (numEvicted, freed, c)

/-- `evict`: leaves are removed in the order of the strategy until `numTokens` slots are free;
a parent that becomes an unlocked leaf joins the heap. -/
def evict (c : RadixCache σ) (numTokens : ℕ) : Option (ℕ × List (List σ) × RadixCache σ) :=
  let heap := c.evictableLeaves.map fun n =>
    (cfg.evictionPolicy.getPriority (c.nodes n), n)
  evictLoop cfg numTokens (c.counter + 1) c heap 0 []

/-- `total_size`: the slots of all nodes that have a value. -/
def totalSize (c : RadixCache σ) : Option ℕ :=
  depthFirstSum (fun n => (c.nodes n).children.values.filter fun child => !(c.nodes child).evicted)
    (fun n => ((c.nodes n).value.getD []).length) (c.counter + 1) [c.rootNode] 0

/-- `reset`: a new root with one reference of its own; `sys.maxsize` is `2 ^ 63 - 1`. -/
def reset (c : RadixCache σ) : RadixCache σ :=
  let (root, c) := c.newTreeNode cfg (-(2 ^ 63 - 1))
  let c := c.modify root fun n => { n with
    key := ⟨[], none, false⟩
    value := some []
    hostValue := some []
    lockRef := 1
    hashValue := some [] }
  let c := { c with
    rootNode := root
    evictableSize := 0
    protectedSize := 0
    evictableLeaves := [] }
  c.recordAllClearedEvent cfg

/-- `__init__`: no node, no event, then `reset`. -/
def init : RadixCache σ :=
  reset cfg
    { nodes := fun _ => TreeNode.init 0 0 0
      counter := 0
      rootNode := 0
      evictableSize := 0
      protectedSize := 0
      evictableLeaves := []
      kvEventQueue := []
      ticks := 0 }

/-- A small configuration to run the methods with: pages of two tokens and a stand-in for the
digest. -/
def smallConfig (events : Bool) : CacheConfig where
  pageSize := 2
  isEagle := false
  enableKvCacheEvents := events
  disableFinishedInsert := false
  evictionPolicy := .lru
  sha256 := fun bytes => Vector.replicate 32 (bytes.foldl (fun acc b => acc * 31 + b) 7)
  monotonic := fun i => i
  tieBreak := fun _ => 0
  pageSize_pos := Nat.two_pos

end RadixCache

end Sglang
