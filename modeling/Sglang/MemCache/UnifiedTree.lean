/-
# Nodes, lists and leaf sets of `UnifiedRadixCache`

The data of `unified_radix_cache.py` and of `unified_cache_components/tree_component.py`: a node holds
one `ComponentData` for each component type, the cache holds one recency list for each component and
tier and one set of evictable leaves for each tier.

A node is its own id; the sentinels of the recency lists, which are node objects as well, are left out,
so a recency list is the list of its members from the most recently used on.  The float clock of the
nodes is counted in steps of `0.00001`.  What the pools answer is a parameter of the configuration: the
`i`-th question of a run gets the `i`-th answer, and the calls that free slots are logged in order.
-/
import Sglang.MemCache.TreeNode

namespace Sglang

open Lib

/-! ## 1. Components -/

/-- `ComponentType`. -/
inductive ComponentType
  | full
  | swa
  | mamba
deriving DecidableEq, Repr

/-- `ComponentData`; the only key of `metadata` that is used is `"uuid"`. -/
structure ComponentData (σ : Type) where
  value : Option (List σ)
  lockRef : ℕ
  uuid : Option ℕ
  hostValue : Option (List σ)
  hostLockRef : ℕ

/-- `ComponentData()`. -/
def ComponentData.empty {σ : Type} : ComponentData σ := ⟨none, 0, none, none, 0⟩

/-- `EvictLayer`. -/
inductive EvictLayer
  | device
  | host
  | all
deriving DecidableEq, Repr

/-- `EvictLayer.DEVICE in target`. -/
def EvictLayer.hasDevice : EvictLayer → Bool
  | .host => false
  | _ => true

/-- `EvictLayer.HOST in target`. -/
def EvictLayer.hasHost : EvictLayer → Bool
  | .device => false
  | _ => true

/-- `HiCacheController` and the thresholds that `init_hicache` sets. -/
structure HiCacheParams where
  writeBack : Bool
  writeThroughThreshold : ℕ
  loadBackThreshold : ℕ

/-- The configuration of a cache, and what the pools answer.  `treeComponents` are the keys of
`self.components` in the order of the tuple. -/
structure UnifiedConfig (σ : Type) where
  pageSize : ℕ
  isEagle : Bool
  treeComponents : List ComponentType
  slidingWindowSize : ℕ
  mambaCacheChunkSize : ℕ
  cacheController : Option HiCacheParams
  translateLocFromFullToSwa : ℕ → σ → σ
  deviceAvailableSize : ℕ → ℕ
  hostAvailableSize : ℕ → ℕ
  allocDevice : ℕ → ComponentType → ℕ → Option (List σ)
  allocHost : ℕ → ComponentType → ℕ → Option (List σ)
  tieBreak : List (ℤ × NodeId) → ℕ
  pageSize_pos : 0 < pageSize
  full_mem : .full ∈ treeComponents
  nodup : treeComponents.Nodup

/-- `UnifiedTreeNode`. -/
structure UnifiedTreeNode (σ : Type) where
  children : Dict ChildKey NodeId
  parent : Option NodeId
  key : RadixKey
  componentData : ComponentType → ComponentData σ
  lastAccessTime : ℤ
  hitCount : ℕ

namespace UnifiedTreeNode

variable {σ : Type}

/-- The fields `__init__` sets; `key` is filled in by the caller. -/
def init (lastAccessTime : ℤ) : UnifiedTreeNode σ where
  children := ∅
  parent := none
  key := ⟨[], none, false⟩
  componentData := fun _ => .empty
  lastAccessTime := lastAccessTime
  hitCount := 0

/-- `backuped`: the full KV is on the host. -/
def backuped (n : UnifiedTreeNode σ) : Bool := (n.componentData .full).hostValue.isSome

/-- `evicted`: not the root, and the full KV is not on the device. -/
def evicted (n : UnifiedTreeNode σ) : Bool :=
  n.parent.isSome && (n.componentData .full).value.isNone

/-- An update of the data of one component. -/
def modifyData (n : UnifiedTreeNode σ) (ct : ComponentType)
    (f : ComponentData σ → ComponentData σ) : UnifiedTreeNode σ :=
  { n with componentData := Function.update n.componentData ct (f (n.componentData ct)) }

/-- `node_has_component_data`. -/
def hasComponentData (n : UnifiedTreeNode σ) (ct : ComponentType) (target : EvictLayer) : Bool :=
  match target with
  | .device => (n.componentData ct).value.isSome
  | _ => (n.componentData ct).hostValue.isSome

/-- `any(cd.lock_ref > 0 for cd in node.component_data)`. -/
def locked (n : UnifiedTreeNode σ) : Bool :=
  [ComponentType.full, .swa, .mamba].any fun ct => (n.componentData ct).lockRef > 0

/-- `any(cd.host_lock_ref > 0 for cd in node.component_data)`. -/
def hostLocked (n : UnifiedTreeNode σ) : Bool :=
  [ComponentType.full, .swa, .mamba].any fun ct => (n.componentData ct).hostLockRef > 0

end UnifiedTreeNode

/-! ## 2. Recency lists -/

namespace UnifiedLRUList

/-- `insert_mru`; a node that is in the list fails the assertion. -/
def insertMru (l : List NodeId) (node : NodeId) : Option (List NodeId) :=
  if node ∈ l then none else some (node :: l)

/-- `remove_node`. -/
def removeNode (l : List NodeId) (node : NodeId) : Option (List NodeId) :=
  if node ∈ l then some (l.erase node) else none

/-- `reset_node_mru`. -/
def resetNodeMru (l : List NodeId) (node : NodeId) : Option (List NodeId) :=
  if node ∈ l then some (node :: l.erase node) else none

/-- `_add_node_after`; `none` is the head. -/
def addNodeAfter (prev : Option NodeId) (node : NodeId) (l : List NodeId) : List NodeId :=
  match prev with
  | none => node :: l
  | some p => l.flatMap fun x => if x = p then [x, node] else [x]

/-- `get_prev_no_lock`: the nearest unlocked node before `node`. -/
def getPrevNoLock (unlocked : NodeId → Bool) (l : List NodeId) (node : NodeId) :
    Option (Option NodeId) :=
  if node ∈ l then some ((l.takeWhile (· ≠ node)).reverse.find? unlocked) else none

/-- `get_lru_no_lock`: the last unlocked node. -/
def getLruNoLock (unlocked : NodeId → Bool) (l : List NodeId) : Option NodeId :=
  l.reverse.find? unlocked

end UnifiedLRUList

/-! ## 3. The state -/

/-- A call that gives slots back to a pool. -/
inductive FreeCall (σ : Type)
  | free (indices : List σ)
  | freeFull (indices : List σ)
  | freeSwa (fullIndices : List σ)
  | freeMamba (indices : List σ)
  | freeHost (ct : ComponentType) (indices : List σ)
deriving DecidableEq, Repr

/-- `DecLockRefParams`. -/
structure DecLockRefParams where
  swaUuidForLock : Option ℕ
deriving DecidableEq, Repr

/-- The state of a `UnifiedRadixCache`.  `uuidCounter` and `timeCounter` are the module's counters,
`clock` the number of questions that were put to the pools. -/
structure UnifiedRadixCache (σ : Type) where
  nodes : NodeId → UnifiedTreeNode σ
  counter : ℕ
  rootNode : NodeId
  evictableSize : ComponentType → ℤ
  protectedSize : ComponentType → ℤ
  lruLists : ComponentType → List NodeId
  hostLruLists : ComponentType → List NodeId
  evictableDeviceLeaves : List NodeId
  evictableHostLeaves : List NodeId
  ongoingWriteThrough : List (NodeId × Option DecLockRefParams)
  ongoingLoadBack : List (NodeId × DecLockRefParams)
  ackWriteQueue : List (List NodeId)
  loadQueue : List NodeId
  ackLoadQueue : List (List NodeId)
  uuidCounter : ℕ
  timeCounter : ℤ
  clock : ℕ
  freed : List (FreeCall σ)

namespace UnifiedRadixCache

variable {σ : Type} (cfg : UnifiedConfig σ)

/-- An update of one node object. -/
def modify (u : UnifiedRadixCache σ) (n : NodeId) (f : UnifiedTreeNode σ → UnifiedTreeNode σ) :
    UnifiedRadixCache σ :=
  { u with nodes := Function.update u.nodes n (f (u.nodes n)) }

/-- An update of the data of one component at one node. -/
def modifyData (u : UnifiedRadixCache σ) (n : NodeId) (ct : ComponentType)
    (f : ComponentData σ → ComponentData σ) : UnifiedRadixCache σ :=
  u.modify n fun x => x.modifyData ct f

/-- `node.component_data[ct]`. -/
def data (u : UnifiedRadixCache σ) (n : NodeId) (ct : ComponentType) : ComponentData σ :=
  (u.nodes n).componentData ct

@[simp] theorem modify_nodes_self (u : UnifiedRadixCache σ) (n : NodeId)
    (f : UnifiedTreeNode σ → UnifiedTreeNode σ) : (u.modify n f).nodes n = f (u.nodes n) := by
  simp [modify]

theorem modify_nodes_ne (u : UnifiedRadixCache σ) {n m : NodeId}
    (f : UnifiedTreeNode σ → UnifiedTreeNode σ) (h : m ≠ n) :
    (u.modify n f).nodes m = u.nodes m := by simp [modify, h]

/-- One step of the float clock, `1.0`. -/
def timeStep : ℤ := 100000

/-- `get_and_increase_time_counter`. -/
def getAndIncreaseTimeCounter (u : UnifiedRadixCache σ) : ℤ × UnifiedRadixCache σ :=
  (u.timeCounter, { u with timeCounter := u.timeCounter + timeStep })

/-- `node.last_access_time = get_and_increase_time_counter()`. -/
def touchTime (u : UnifiedRadixCache σ) (node : NodeId) : UnifiedRadixCache σ :=
  let (t, u) := u.getAndIncreaseTimeCounter
  u.modify node fun n => { n with lastAccessTime := t }

/-- `UnifiedTreeNode(..)`. -/
def newTreeNode (u : UnifiedRadixCache σ) : NodeId × UnifiedRadixCache σ :=
  let (t, u) := u.getAndIncreaseTimeCounter
  (u.counter,
    { u with
      nodes := Function.update u.nodes u.counter (.init t)
      counter := u.counter + 1 })

/-- A call that frees slots. -/
def free (u : UnifiedRadixCache σ) (call : FreeCall σ) : UnifiedRadixCache σ :=
  { u with freed := u.freed ++ [call] }

/-- The time at which a pool is asked. -/
def tick (u : UnifiedRadixCache σ) : ℕ × UnifiedRadixCache σ :=
  (u.clock, { u with clock := u.clock + 1 })

/-- `component_evictable_size_[ct] += n`. -/
def addEvictable (u : UnifiedRadixCache σ) (ct : ComponentType) (n : ℤ) : UnifiedRadixCache σ :=
  { u with evictableSize := Function.update u.evictableSize ct (u.evictableSize ct + n) }

/-- `n` units of the component become protected. -/
def protect (u : UnifiedRadixCache σ) (ct : ComponentType) (n : ℤ) : UnifiedRadixCache σ :=
  { u with
    evictableSize := Function.update u.evictableSize ct (u.evictableSize ct - n)
    protectedSize := Function.update u.protectedSize ct (u.protectedSize ct + n) }

/-- `n` units of the component become evictable. -/
def unprotect (u : UnifiedRadixCache σ) (ct : ComponentType) (n : ℤ) : UnifiedRadixCache σ :=
  { u with
    evictableSize := Function.update u.evictableSize ct (u.evictableSize ct + n)
    protectedSize := Function.update u.protectedSize ct (u.protectedSize ct - n) }

/-- An operation on the recency list of a component on the device. -/
def onLru (u : UnifiedRadixCache σ) (ct : ComponentType)
    (op : List NodeId → Option (List NodeId)) : Option (UnifiedRadixCache σ) := do
  let l ← op (u.lruLists ct)
  return { u with lruLists := Function.update u.lruLists ct l }

/-- An operation on the recency list of a component on the host. -/
def onHostLru (u : UnifiedRadixCache σ) (ct : ComponentType)
    (op : List NodeId → Option (List NodeId)) : Option (UnifiedRadixCache σ) := do
  let l ← op (u.hostLruLists ct)
  return { u with hostLruLists := Function.update u.hostLruLists ct l }

/-- `if host_lru.in_list(node): host_lru.remove_node(node)`. -/
def leaveHostLru (u : UnifiedRadixCache σ) (ct : ComponentType) (node : NodeId) :
    UnifiedRadixCache σ :=
  { u with hostLruLists := Function.update u.hostLruLists ct ((u.hostLruLists ct).erase node) }

/-- `if not host_lru.in_list(node): host_lru.insert_mru(node)`. -/
def joinHostLru (u : UnifiedRadixCache σ) (ct : ComponentType) (node : NodeId) :
    UnifiedRadixCache σ :=
  { u with hostLruLists := Function.update u.hostLruLists ct ((u.hostLruLists ct).insert node) }

/-- `_for_each_component_lru` on the device lists: `op` on the list of every auxiliary component that
has a value at the node. -/
def forEachComponentLru (u : UnifiedRadixCache σ) (node : NodeId)
    (op : List NodeId → NodeId → Option (List NodeId)) (skipExisting : Bool) :
    Option (UnifiedRadixCache σ) :=
  cfg.treeComponents.foldlM (fun u ct =>
    if ct = .full then some u
    else if (u.data node ct).value.isSome then
      if skipExisting ∧ node ∈ u.lruLists ct then some u
      else u.onLru ct fun l => op l node
    else some u) u

/-- `_for_each_component_lru` with `insert_mru` on the host lists. -/
def forEachComponentHostLru (u : UnifiedRadixCache σ) (node : NodeId) : UnifiedRadixCache σ :=
  cfg.treeComponents.foldl (fun u ct =>
    if ct = .full then u
    else if (u.data node ct).hostValue.isSome then u.joinHostLru ct node
    else u) u

/-! ## 4. Leaf sets -/

/-- `_is_device_leaf`. -/
def isDeviceLeaf (u : UnifiedRadixCache σ) (node : NodeId) : Bool :=
  !(decide (node = u.rootNode) || (u.nodes node).evicted) && !(u.nodes node).locked &&
    !((u.nodes node).children.values.any fun child => (u.data child .full).value.isSome)

/-- `_is_host_leaf`. -/
def isHostLeaf (u : UnifiedRadixCache σ) (node : NodeId) : Bool :=
  !(decide (node = u.rootNode) || !(u.nodes node).evicted) && (u.nodes node).backuped &&
    !(u.nodes node).hostLocked && (u.nodes node).children.entries.isEmpty

/-- `_update_evictable_leaf_sets`. -/
def updateEvictableLeafSets (u : UnifiedRadixCache σ) (node : NodeId) : UnifiedRadixCache σ :=
  { u with
    evictableDeviceLeaves :=
      if u.isDeviceLeaf node then u.evictableDeviceLeaves.insert node
      else u.evictableDeviceLeaves.erase node
    evictableHostLeaves :=
      if u.isHostLeaf node then u.evictableHostLeaves.insert node
      else u.evictableHostLeaves.erase node }

/-! ## 5. Reset -/

/-- `_reset_full` on a cache whose module counters are already running. -/
def resetFull (u : UnifiedRadixCache σ) : UnifiedRadixCache σ :=
  let (root, u) := u.newTreeNode
  let u := u.modifyData root .full fun d => { d with value := some [] }
  let u := cfg.treeComponents.foldl
    (fun u ct => u.modifyData root ct fun d => { d with lockRef := 1 }) u
  { u with
    rootNode := root
    evictableSize := fun _ => 0
    protectedSize := fun _ => 0
    lruLists := fun _ => []
    hostLruLists := fun _ => []
    evictableDeviceLeaves := []
    evictableHostLeaves := []
    ongoingWriteThrough := []
    ongoingLoadBack := []
    ackWriteQueue := []
    loadQueue := []
    ackLoadQueue := [] }

/-- `__init__`: the time counter starts at `1.0`, the uuid counter at `1`. -/
def init : UnifiedRadixCache σ :=
  resetFull cfg
    { nodes := fun _ => .init 0
      counter := 0
      rootNode := 0
      evictableSize := fun _ => 0
      protectedSize := fun _ => 0
      lruLists := fun _ => []
      hostLruLists := fun _ => []
      evictableDeviceLeaves := []
      evictableHostLeaves := []
      ongoingWriteThrough := []
      ongoingLoadBack := []
      ackWriteQueue := []
      loadQueue := []
      ackLoadQueue := []
      uuidCounter := 1
      timeCounter := timeStep
      clock := 0
      freed := [] }

end UnifiedRadixCache

end Sglang
