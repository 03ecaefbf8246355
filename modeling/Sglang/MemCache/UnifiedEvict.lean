/-
# Locks, eviction and backup of `UnifiedRadixCache`

The component hooks of `full_component.py`, `swa_component.py` and `mamba_component.py` for locking,
evicting and backing up, and the methods of `unified_radix_cache.py` that drive them.  `none` is a failed
assertion or another exception, or a loop out of fuel.
-/
import Sglang.MemCache.UnifiedTree

namespace Sglang

open Lib

/-- What an eviction has freed of each component. -/
abbrev Tracker := ComponentType → ℕ

/-- `tracker[ct] += n`. -/
def Tracker.add (tracker : Tracker) (ct : ComponentType) (n : ℕ) : Tracker :=
  Function.update tracker ct (tracker ct + n)

namespace UnifiedRadixCache

variable {σ : Type} (cfg : UnifiedConfig σ)

/-! ## 1. Locks -/

/-- `IncLockRefResult`. -/
structure IncLockRefResult where
  delta : ℕ
  swaUuidForLock : Option ℕ
deriving DecidableEq, Repr

/-- `to_dec_params`. -/
def IncLockRefResult.toDecParams (r : IncLockRefResult) : DecLockRefParams := ⟨r.swaUuidForLock⟩

/-- A node takes a reference of the component `ct`; with the first one its `len` units are protected. -/
def lockData (u : UnifiedRadixCache σ) (cur : NodeId) (ct : ComponentType) (len : ℕ) :
    UnifiedRadixCache σ :=
  (if (u.data cur ct).lockRef = 0 then u.protect ct len else u).modifyData cur ct fun d =>
    { d with lockRef := d.lockRef + 1 }

/-- A node gives a reference back; with the last one its `len` units can be evicted. -/
def unlockData (u : UnifiedRadixCache σ) (cur : NodeId) (ct : ComponentType) (len : ℕ) :
    UnifiedRadixCache σ :=
  (if (u.data cur ct).lockRef = 1 then u.unprotect ct len else u).modifyData cur ct fun d =>
    { d with lockRef := d.lockRef - 1 }

/-- `FullComponent.acquire_component_lock`: every node of the path. -/
def acquireFull : ℕ → UnifiedRadixCache σ → NodeId → ℕ → Option (ℕ × UnifiedRadixCache σ)
  | 0, _, _, _ => none
  | fuel + 1, u, cur, delta =>
    if cur = u.rootNode then some (delta, u)
    else do
      let value ← (u.data cur .full).value
      let delta := if (u.data cur .full).lockRef = 0 then delta + value.length else delta
      let u := u.lockData cur .full value.length
      let u := { u with evictableDeviceLeaves := u.evictableDeviceLeaves.erase cur }
      acquireFull fuel u (← (u.nodes cur).parent) delta

/-- `FullComponent.release_component_lock`. -/
def releaseFull : ℕ → UnifiedRadixCache σ → NodeId → Option (UnifiedRadixCache σ)
  | 0, _, _ => none
  | fuel + 1, u, cur =>
    if cur = u.rootNode then some u
    else do
      let value ← (u.data cur .full).value
      let lockRef := (u.data cur .full).lockRef
      if lockRef > 0 then
        let u := u.unlockData cur .full value.length
        let u := if lockRef = 1 then u.updateEvictableLeafSets cur else u
        releaseFull fuel u (← (u.nodes cur).parent)
      else none

/-- The uuid of a node that ends a window; `next_component_uuid` makes one if there is none. -/
def uuidAt (u : UnifiedRadixCache σ) (cur : NodeId) : ℕ × UnifiedRadixCache σ :=
  match (u.data cur .swa).uuid with
  | some x => (x, u)
  | none => (u.uuidCounter + 1,
      { u.modifyData cur .swa fun d => { d with uuid := some (u.uuidCounter + 1) } with
        uuidCounter := u.uuidCounter + 1 })

/-- `SWAComponent.acquire_component_lock`: up to the end of the window, over the nodes that have a
value. -/
def acquireSwa : ℕ → UnifiedRadixCache σ → NodeId → ℕ → Option ℕ →
    Option (Option ℕ × UnifiedRadixCache σ)
  | 0, _, _, _, _ => none
  | fuel + 1, u, cur, swaLockSize, uuid =>
    if cur = u.rootNode ∨ swaLockSize ≥ cfg.slidingWindowSize then some (uuid, u)
    else if (u.data cur .swa).value.isNone then do
      acquireSwa fuel u (← (u.nodes cur).parent) swaLockSize uuid
    else do
      let keyLen := (u.nodes cur).key.len
      let u := u.lockData cur .swa keyLen
      let swaLockSize := swaLockSize + keyLen
      let (uuid, u) :=
        if swaLockSize ≥ cfg.slidingWindowSize then
          let (x, u) := u.uuidAt cur
          (some x, u)
        else (uuid, u)
      acquireSwa fuel u (← (u.nodes cur).parent) swaLockSize uuid

/-- `SWAComponent.release_component_lock`: up to the node with the uuid, over the nodes that are
locked; without a uuid up to the root. -/
def releaseSwa (uuid : Option ℕ) : ℕ → UnifiedRadixCache σ → NodeId → Option (UnifiedRadixCache σ)
  | 0, _, _ => none
  | fuel + 1, u, cur =>
    if cur = u.rootNode then some u
    else
      let lockRef := (u.data cur .swa).lockRef
      if lockRef = 0 then do releaseSwa uuid fuel u (← (u.nodes cur).parent)
      else do
        let u := u.unlockData cur .swa (u.nodes cur).key.len
        if uuid.isSome ∧ (u.data cur .swa).uuid = uuid then return u
        else releaseSwa uuid fuel u (← (u.nodes cur).parent)

/-- `MambaComponent.acquire_component_lock`: the node itself, if it has a state. -/
def acquireMamba (u : UnifiedRadixCache σ) (node : NodeId) : UnifiedRadixCache σ :=
  match (u.data node .mamba).value with
  | none => u
  | some value => u.lockData node .mamba value.length

/-- `MambaComponent.release_component_lock`. -/
def releaseMamba (u : UnifiedRadixCache σ) (node : NodeId) : UnifiedRadixCache σ :=
  match (u.data node .mamba).value with
  | none => u
  | some value => if (u.data node .mamba).lockRef > 0 then u.unlockData node .mamba value.length else u

/-- `acquire_component_lock` of the component `ct`. -/
def acquireComponentLock (u : UnifiedRadixCache σ) (node : NodeId) (result : IncLockRefResult) :
    ComponentType → Option (IncLockRefResult × UnifiedRadixCache σ)
  | .full => do
    let (delta, u) ← acquireFull (u.counter + 1) u node 0
    return (⟨delta, result.swaUuidForLock⟩, u)
  | .swa => do
    let (uuid, u) ← acquireSwa cfg (u.counter + 1) u node 0 none
    return (⟨result.delta, uuid⟩, u)
  | .mamba => return (result, u.acquireMamba node)

/-- `release_component_lock` of the component `ct`. -/
def releaseComponentLock (u : UnifiedRadixCache σ) (node : NodeId)
    (params : Option DecLockRefParams) : ComponentType → Option (UnifiedRadixCache σ)
  | .full => releaseFull (u.counter + 1) u node
  | .swa => releaseSwa (params.bind (·.swaUuidForLock)) (u.counter + 1) u node
  | .mamba => some (u.releaseMamba node)

/-- `inc_lock_ref`. -/
def incLockRef (u : UnifiedRadixCache σ) (node : NodeId) :
    Option (IncLockRefResult × UnifiedRadixCache σ) := do
  let (result, u) ← cfg.treeComponents.foldlM
    (fun (r : IncLockRefResult × UnifiedRadixCache σ) ct =>
      r.2.acquireComponentLock cfg node r.1 ct) (⟨0, none⟩, u)
  return (result, u.updateEvictableLeafSets node)

/-- `dec_lock_ref`. -/
def decLockRef (u : UnifiedRadixCache σ) (node : NodeId) (params : Option DecLockRefParams) :
    Option (UnifiedRadixCache σ) := do
  let u ← cfg.treeComponents.foldlM (fun u ct => u.releaseComponentLock node params ct) u
  return u.updateEvictableLeafSets node

/-! ## 2. Evicting one component of a node -/

/-- `FullComponent.evict_component`; the value is dropped later, in `_cascade_evict`. -/
def evictFull (u : UnifiedRadixCache σ) (node : NodeId) (target : EvictLayer) :
    ℕ × ℕ × UnifiedRadixCache σ :=
  let (freed, u) :=
    match if target.hasDevice then (u.data node .full).value else none with
    | none => (0, u)
    | some value =>
      (value.length, (u.free (if ComponentType.swa ∈ cfg.treeComponents then .freeFull value
        else .free value)).addEvictable .full (-value.length))
  match if target.hasHost then (u.data node .full).hostValue else none with
  | none => (freed, 0, u)
  | some hostValue =>
    let u := if cfg.cacheController.isSome then u.free (.freeHost .full hostValue) else u
    (freed, hostValue.length, u.modifyData node .full fun d => { d with hostValue := none })

/-- `evict_component` of an auxiliary component, which differ in the call that frees the value.  A
node that keeps a value on the host only joins the list of the host. -/
def evictAux (ct : ComponentType) (freeCall : List σ → Option (FreeCall σ))
    (u : UnifiedRadixCache σ) (node : NodeId) (target : EvictLayer) :
    Option (ℕ × ℕ × UnifiedRadixCache σ) := do
  let (freed, u) ← show Option (ℕ × UnifiedRadixCache σ) from
    match if target.hasDevice then (u.data node ct).value else none with
    | none => some (0, u)
    | some value => do
      let u := (u.free (← freeCall value)).addEvictable ct (-value.length)
      some (value.length, u.modifyData node ct fun d => { d with value := none })
  let (hostFreed, u) :=
    match if target.hasHost then (u.data node ct).hostValue else none with
    | none => (0, u)
    | some hostValue =>
      let u := if cfg.cacheController.isSome then u.free (.freeHost ct hostValue) else u
      let u := u.modifyData node ct fun d => { d with hostValue := none }
      (hostValue.length, u.leaveHostLru ct node)
  let u :=
    if target = .device ∧ (u.data node ct).value.isNone ∧ (u.data node ct).hostValue.isSome then
      u.joinHostLru ct node
    else u
  return (freed, hostFreed, u)

/-- `evict_component` of the component `ct`; `free_swa` is given the full slots. -/
def evictComponent (u : UnifiedRadixCache σ) (node : NodeId) (target : EvictLayer) :
    ComponentType → Option (ℕ × ℕ × UnifiedRadixCache σ)
  | .full => some (u.evictFull cfg node target)
  | .swa => evictAux cfg .swa (fun _ => (u.data node .full).value.map .freeSwa) u node target
  | .mamba => evictAux cfg .mamba (fun value => some (.freeMamba value)) u node target

/-- `if lru.in_list(node): lru.remove_node(node)` for the lists of the layers in `target`. -/
def detachLru (u : UnifiedRadixCache σ) (node : NodeId) (ct : ComponentType) (target : EvictLayer) :
    UnifiedRadixCache σ :=
  let u := if target.hasDevice then
      { u with lruLists := Function.update u.lruLists ct ((u.lruLists ct).erase node) }
    else u
  if target.hasHost then u.leaveHostLru ct node else u

/-- `_evict_component_and_detach_lru` without a tracker: what was freed on the device and on the
host. -/
def evictComponentAndDetach (u : UnifiedRadixCache σ) (node : NodeId) (ct : ComponentType)
    (target : EvictLayer) : Option (ℕ × ℕ × UnifiedRadixCache σ) := do
  let (freed, hostFreed, u) ← u.evictComponent cfg node target ct
  return (freed, hostFreed, u.detachLru node ct target)

/-- `_evict_component_and_detach_lru` with a tracker. -/
def evictComponentAndDetachLru (u : UnifiedRadixCache σ) (node : NodeId) (ct : ComponentType)
    (target : EvictLayer) (tracker : Tracker) : Option (Tracker × UnifiedRadixCache σ) := do
  let (freed, hostFreed, u) ← u.evictComponentAndDetach cfg node ct target
  return (tracker.add ct (if target.hasDevice then freed else hostFreed), u)

/-- `eviction_priority`. -/
def evictionPriority : ComponentType → Bool → ℕ
  | .full, isLeaf => if isLeaf then 0 else 2
  | .swa, isLeaf => if isLeaf then 0 else 1
  | .mamba, _ => 0

/-- `_cascade_evict`: the other components of lower or equal priority go as well. -/
def cascadeEvict (u : UnifiedRadixCache σ) (node : NodeId) (trigger : ComponentType)
    (tracker : Tracker) (target : EvictLayer) : Option (Tracker × UnifiedRadixCache σ) := do
  let isLeaf := (u.nodes node).children.entries.isEmpty
  let (tracker, u) ← cfg.treeComponents.foldlM
    (fun (r : Tracker × UnifiedRadixCache σ) ct =>
      if evictionPriority ct isLeaf ≤ evictionPriority trigger isLeaf ∧ ct ≠ trigger ∧
          (r.2.nodes node).hasComponentData ct target then
        if (target.hasDevice → (r.2.data node ct).lockRef = 0) ∧
            (target.hasHost → (r.2.data node ct).hostLockRef = 0) then
          r.2.evictComponentAndDetachLru cfg node ct target r.1
        else none
      else some r) (tracker, u)
  let u :=
    if target = .device ∧ trigger = .full then
      u.modifyData node .full fun d => { d with value := none }
    else u
  return (tracker, u.updateEvictableLeafSets node)

/-! ## 3. Deleting nodes -/

/-- `_remove_leaf_from_parent`. -/
def removeLeafFromParent (u : UnifiedRadixCache σ) (node : NodeId) :
    Option (UnifiedRadixCache σ) := do
  let key ← (u.nodes node).key.childKey cfg.pageSize
  let parent ← (u.nodes node).parent
  if (u.nodes parent).children.lookup key = some node then
    return u.modify parent fun n => { n with children := n.children.erase key }
  else none

/-- The data of all components that `node` still has in a layer goes. -/
def evictRest (u : UnifiedRadixCache σ) (node : NodeId) (target : EvictLayer) (tracker : Tracker) :
    Option (Tracker × UnifiedRadixCache σ) :=
  cfg.treeComponents.foldlM (fun (r : Tracker × UnifiedRadixCache σ) ct =>
    if (r.2.nodes node).hasComponentData ct target then
      r.2.evictComponentAndDetachLru cfg node ct target r.1
    else some r) (tracker, u)

/-- The loop of `_iteratively_delete_tombstone_leaf`. -/
def deleteTombstoneLoop : ℕ → UnifiedRadixCache σ → NodeId → Tracker →
    Option (Tracker × UnifiedRadixCache σ)
  | 0, _, _, _ => none
  | fuel + 1, u, cur, tracker =>
    if cur ≠ u.rootNode ∧ (u.nodes cur).children.entries.isEmpty then
      if (u.nodes cur).locked ∨ (u.nodes cur).hostLocked then some (tracker, u)
      else if (u.data cur .full).value.isSome then some (tracker, u.updateEvictableLeafSets cur)
      else do
        let hasHost := (u.data cur .full).hostValue.isSome
        let (tracker, u) ← u.evictRest cfg cur .device tracker
        if hasHost then return (tracker, u.updateEvictableLeafSets cur)
        else
          let (tracker, u) ← u.evictRest cfg cur .host tracker
          let u := { u with evictableHostLeaves := u.evictableHostLeaves.erase cur }
          let u ← u.removeLeafFromParent cfg cur
          let parent ← (u.nodes cur).parent
          deleteTombstoneLoop fuel (u.updateEvictableLeafSets parent) parent tracker
    else some (tracker, u)

/-- `_iteratively_delete_tombstone_leaf`. -/
def iterativelyDeleteTombstoneLeaf (u : UnifiedRadixCache σ) (deletedNode : NodeId)
    (tracker : Tracker) : Option (Tracker × UnifiedRadixCache σ) := do
  deleteTombstoneLoop cfg (u.counter + 1) u (← (u.nodes deletedNode).parent) tracker

/-! ## 4. Host eviction -/

/-- `_evict_host_leaf`. -/
def evictHostLeaf (u : UnifiedRadixCache σ) (node : NodeId) (tracker : Tracker) :
    Option (Tracker × UnifiedRadixCache σ) := do
  if u.isHostLeaf node then
    let (tracker, u) ← cfg.treeComponents.foldlM
      (fun (r : Tracker × UnifiedRadixCache σ) ct => do
        let (_, hostFreed, u) ← r.2.evictComponentAndDetach cfg node ct .all
        return (r.1.add ct hostFreed, u)) (tracker, u)
    let u := { u with evictableHostLeaves := u.evictableHostLeaves.erase node }
    let u ← u.removeLeafFromParent cfg node
    u.iterativelyDeleteTombstoneLeaf cfg node tracker
  else none

/-- `heapq.heappop`: an entry of least time leaves the heap. -/
def popOldest (heap : List (ℤ × NodeId)) : Option (NodeId × List (ℤ × NodeId)) :=
  let least := heap.filter fun e => heap.all fun e' => e.1 ≤ e'.1
  (least[cfg.tieBreak heap % least.length]?).map fun e => (e.2, heap.erase e)

/-- `heapq.heappush` of the parent, if it has become a leaf of `leaves`. -/
def pushParent (u : UnifiedRadixCache σ) (leaves : List NodeId) (x : NodeId)
    (heap : List (ℤ × NodeId)) : List (ℤ × NodeId) :=
  match (u.nodes x).parent with
  | none => heap
  | some p => if p ∈ leaves then ((u.nodes p).lastAccessTime, p) :: heap else heap

/-- The loop of `FullComponent.drive_host_eviction`. -/
def driveFullHost (numTokens : ℕ) : ℕ → UnifiedRadixCache σ → List (ℤ × NodeId) → Tracker →
    Option (Tracker × UnifiedRadixCache σ)
  | 0, _, _, _ => none
  | fuel + 1, u, heap, tracker =>
    if tracker .full < numTokens ∧ heap ≠ [] then do
      let (x, heap) ← popOldest cfg heap
      if x ∈ u.evictableHostLeaves then
        let (tracker, u) ← u.evictHostLeaf cfg x tracker
        driveFullHost numTokens fuel u (u.pushParent u.evictableHostLeaves x heap) tracker
      else driveFullHost numTokens fuel u heap tracker
    else some (tracker, u)

/-- The loop of `drive_host_eviction` of an auxiliary component. -/
def driveAuxHost (ct : ComponentType) (numTokens : ℕ) : ℕ → UnifiedRadixCache σ →
    Option NodeId → Tracker → Option (Tracker × UnifiedRadixCache σ)
  | 0, _, _, _ => none
  | _ + 1, u, none, tracker => some (tracker, u)
  | fuel + 1, u, some x, tracker =>
    if tracker ct < numTokens ∧ x ∈ u.hostLruLists ct then do
      let xNext ← UnifiedLRUList.getPrevNoLock (fun n => (u.data n ct).lockRef = 0)
        (u.hostLruLists ct) x
      let (tracker, u) ←
        if x ∈ u.evictableHostLeaves then u.evictHostLeaf cfg x tracker
        else if (u.data x ct).hostValue.isSome then do
          let (tracker, u) ← u.evictComponentAndDetachLru cfg x ct .host tracker
          u.cascadeEvict cfg x ct tracker .host
        else none
      driveAuxHost ct numTokens fuel u xNext tracker
    else some (tracker, u)

/-- `drive_host_eviction` of the component `ct`. -/
def driveHostEviction (u : UnifiedRadixCache σ) (numTokens : ℕ) (tracker : Tracker) :
    ComponentType → Option (Tracker × UnifiedRadixCache σ)
  | .full => driveFullHost cfg numTokens (2 * u.counter + 1) u
      (u.evictableHostLeaves.map fun n => ((u.nodes n).lastAccessTime, n)) tracker
  | ct => driveAuxHost cfg ct numTokens ((u.hostLruLists ct).length + 1) u
      (UnifiedLRUList.getLruNoLock (fun n => (u.data n ct).lockRef = 0) (u.hostLruLists ct)) tracker

/-- `evict_host`. -/
def evictHost (u : UnifiedRadixCache σ) (numTokens : ℕ) (ct : ComponentType) :
    Option (ℕ × UnifiedRadixCache σ) :=
  if ct ∈ cfg.treeComponents then do
    let (tracker, u) ← u.driveHostEviction cfg numTokens (fun _ => 0) ct
    return (tracker ct, u)
  else some (0, u)

/-! ## 5. Backup -/

/-- The slots of an auxiliary transfer of `write_backup`: the component and its device slots. -/
def backupTransfers (u : UnifiedRadixCache σ) (node : NodeId) : List (ComponentType × List σ) :=
  (cfg.treeComponents.filter (· ≠ .full)).filterMap fun ct =>
    (u.data node ct).value.map (ct, ·)

/-- `alloc_fn(size)`, on failure `evict_fn(size)` and `alloc_fn(size)` again. -/
def allocHostOrEvict (u : UnifiedRadixCache σ) (ct : ComponentType) (size : ℕ) :
    Option (Option (List σ) × UnifiedRadixCache σ) :=
  let (i, u) := u.tick
  match cfg.allocHost i ct size with
  | some l => some (some l, u)
  | none => do
    let (_, u) ← u.evictHost cfg size ct
    let (i, u) := u.tick
    return (cfg.allocHost i ct size, u)

/-- `_resolve_pool_transfers_allocation` for a backup; the inner `none` is a pool without room, after
which everything that was allocated is given back. -/
def resolveHost : List (ComponentType × List σ) → List (ComponentType × List σ) →
    UnifiedRadixCache σ → Option (Option (List (ComponentType × List σ)) × UnifiedRadixCache σ)
  | [], done, u => some (some done, u)
  | (ct, value) :: rest, done, u => do
    let (r, u) ← u.allocHostOrEvict cfg ct value.length
    match r with
    | some indices => resolveHost rest (done ++ [(ct, indices)]) u
    | none => return (none, done.foldl (fun u e => u.free (.freeHost e.1 e.2)) u)

/-- `HybridCacheController.write`: the host slots of the full component and of the auxiliary ones; a
copy that was started is acknowledged by `node_id`. -/
def controllerWrite (u : UnifiedRadixCache σ) (node : NodeId) (deviceValue : List σ)
    (extraPools : List (ComponentType × List σ)) :
    Option (Option (List σ × List (ComponentType × List σ)) × UnifiedRadixCache σ) :=
  let (i, u) := u.tick
  match cfg.allocHost i .full deviceValue.length with
  | none => some (none, u)
  | some hostIndices => do
    let (r, u) ← resolveHost cfg extraPools [] u
    match r with
    | none => return (none, u.free (.freeHost .full hostIndices))
    | some transfers =>
      return (some (hostIndices, transfers), { u with ackWriteQueue := u.ackWriteQueue ++ [[node]] })

/-- `commit_hicache_transfer` of an auxiliary component in the phase `BACKUP_HOST`. -/
def commitBackup (u : UnifiedRadixCache σ) (node : NodeId) (e : ComponentType × List σ) :
    UnifiedRadixCache σ :=
  u.modifyData node e.1 fun d =>
    if d.hostValue.isNone then { d with hostValue := some e.2 } else d

/-- `write_backup` once the host pool has the room; the number of slots that are written. -/
def writeNode (u : UnifiedRadixCache σ) (node : NodeId) (deviceValue : List σ) (writeBack : Bool)
    (transfers : List (ComponentType × List σ)) : Option (ℕ × UnifiedRadixCache σ) := do
  let (r, u) ← u.controllerWrite cfg node deviceValue transfers
  match r with
  | none => return (0, u)
  | some (hostIndices, resolved) =>
    let u := u.modifyData node .full fun d => { d with hostValue := some hostIndices }
    let u := resolved.foldl (fun u e => u.commitBackup node e) u
    let (lockParams, u) ←
      if writeBack then some (none, u)
      else (u.incLockRef cfg node).map fun r => (some r.1.toDecParams, r.2)
    return (hostIndices.length,
      { u with ongoingWriteThrough :=
          (node, lockParams) :: u.ongoingWriteThrough.filter (·.1 ≠ node) })

/-- `write_backup`. -/
def writeBackup (u : UnifiedRadixCache σ) (node : NodeId) (writeBack : Bool) :
    Option (ℕ × UnifiedRadixCache σ) :=
  if cfg.cacheController.isNone then some (0, u)
  else do
    let parent ← (u.nodes node).parent
    if !writeBack ∧ parent ≠ u.rootNode ∧ !(u.nodes parent).backuped then return (0, u)
    else
      let transfers := u.backupTransfers cfg node
      let deviceValue ← (u.data node .full).value
      let (i, u) := u.tick
      let hostAvail := cfg.hostAvailableSize i
      if hostAvail < deviceValue.length then
        let needed := deviceValue.length - hostAvail
        let (evicted, u) ← u.evictHost cfg needed .full
        if evicted < needed then return (0, u)
        else u.writeNode cfg node deviceValue writeBack transfers
      else u.writeNode cfg node deviceValue writeBack transfers

/-! ## 6. Device eviction -/

/-- `_evict_to_host`. -/
def evictToHost (u : UnifiedRadixCache σ) (node : NodeId) (tracker : Tracker) :
    Option (Tracker × UnifiedRadixCache σ) := do
  if !(u.nodes node).evicted ∧ (u.nodes node).backuped then
    let (tracker, u) ← u.evictComponentAndDetachLru cfg node .full .device tracker
    let (tracker, u) ← u.cascadeEvict cfg node .full tracker .device
    let u := u.forEachComponentHostLru cfg node
    return (tracker, u.updateEvictableLeafSets (← (u.nodes node).parent))
  else none

/-- The end of a leaf that has no backup. -/
def deleteDeviceLeaf (u : UnifiedRadixCache σ) (node : NodeId) (tracker : Tracker) :
    Option (Tracker × UnifiedRadixCache σ) := do
  let (tracker, u) ← cfg.treeComponents.foldlM
    (fun (r : Tracker × UnifiedRadixCache σ) ct =>
      r.2.evictComponentAndDetachLru cfg node ct .all r.1) (tracker, u)
  let u := { u with evictableDeviceLeaves := u.evictableDeviceLeaves.erase node }
  let parent ← (u.nodes node).parent
  let u ← u.removeLeafFromParent cfg node
  (u.updateEvictableLeafSets parent).iterativelyDeleteTombstoneLeaf cfg node tracker

/-- `_evict_device_leaf`. -/
def evictDeviceLeaf (u : UnifiedRadixCache σ) (node : NodeId) (tracker : Tracker) :
    Option (Tracker × UnifiedRadixCache σ) := do
  if u.isDeviceLeaf node then
    if (u.nodes node).backuped then u.evictToHost cfg node tracker
    else if (cfg.cacheController.map (·.writeBack)).getD false then
      let (_, u) ← u.writeBackup cfg node true
      u.evictToHost cfg node tracker
    else u.deleteDeviceLeaf cfg node tracker
  else none

/-- `EvictParams`. -/
structure EvictParams where
  numTokens : ℕ
  swaNumTokens : ℕ
  mambaNum : ℕ

/-- The request that `drive_eviction` of a component takes from the parameters. -/
def EvictParams.request (params : EvictParams) : ComponentType → ℕ
  | .full => params.numTokens
  | .swa => params.swaNumTokens
  | .mamba => params.mambaNum

/-- The loop of `FullComponent.drive_eviction`. -/
def driveFull (request : ℕ) : ℕ → UnifiedRadixCache σ → List (ℤ × NodeId) → Tracker →
    Option (Tracker × UnifiedRadixCache σ)
  | 0, _, _, _ => none
  | fuel + 1, u, heap, tracker =>
    if tracker .full < request ∧ heap ≠ [] then do
      let (x, heap) ← popOldest cfg heap
      if x ∈ u.evictableDeviceLeaves then
        let (tracker, u) ← u.evictDeviceLeaf cfg x tracker
        driveFull request fuel u (u.pushParent u.evictableDeviceLeaves x heap) tracker
      else driveFull request fuel u heap tracker
    else some (tracker, u)

/-- The loop of `drive_eviction` of an auxiliary component. -/
def driveAux (ct : ComponentType) (request : ℕ) : ℕ → UnifiedRadixCache σ → Option NodeId →
    Tracker → Option (Tracker × UnifiedRadixCache σ)
  | 0, _, _, _ => none
  | _ + 1, u, none, tracker => some (tracker, u)
  | fuel + 1, u, some x, tracker =>
    let unlocked (u : UnifiedRadixCache σ) (n : NodeId) : Bool := (u.data n ct).lockRef = 0
    if tracker ct < request ∧ x ∈ u.lruLists ct then
      if (u.data x ct).value.isSome then do
        let xNext ← UnifiedLRUList.getPrevNoLock (unlocked u) (u.lruLists ct) x
        if x ∈ u.evictableDeviceLeaves then
          let (tracker, u) ← u.evictDeviceLeaf cfg x tracker
          let next := xNext.filter (· ∈ u.lruLists ct)
          driveAux ct request fuel u
            (next.or (UnifiedLRUList.getLruNoLock (unlocked u) (u.lruLists ct))) tracker
        else
          let (tracker, u) ← u.evictComponentAndDetachLru cfg x ct .device tracker
          let (tracker, u) ← u.cascadeEvict cfg x ct tracker .device
          driveAux ct request fuel u xNext tracker
      else none
    else some (tracker, u)

/-- `drive_eviction` of the component `ct`. -/
def driveEviction (u : UnifiedRadixCache σ) (params : EvictParams) (tracker : Tracker)
    (ct : ComponentType) : Option (Tracker × UnifiedRadixCache σ) :=
  if ct = .full then
    driveFull cfg (params.request ct) (2 * u.counter + 1) u
      (u.evictableDeviceLeaves.map fun n => ((u.nodes n).lastAccessTime, n)) tracker
  else
    driveAux cfg ct (params.request ct) ((u.lruLists ct).length + 1) u
      (UnifiedLRUList.getLruNoLock (fun n => (u.data n ct).lockRef = 0) (u.lruLists ct)) tracker

/-- `evict`: what was freed of each component. -/
def evict (u : UnifiedRadixCache σ) (params : EvictParams) :
    Option (Tracker × UnifiedRadixCache σ) :=
  cfg.treeComponents.foldlM (fun (r : Tracker × UnifiedRadixCache σ) ct =>
    r.2.driveEviction cfg params r.1 ct) (fun _ => 0, u)

end UnifiedRadixCache

end Sglang
