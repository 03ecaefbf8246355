/-
# `UnifiedRadixCache`: one tree for several components

Matching, splitting, inserting and loading back of `unified_radix_cache.py`, with the hooks of the three
components that these call.  `none` is a failed assertion or another exception, or a loop out of fuel.

The model is of an enabled cache without an open streaming session, for which each session method hands
over to the cache.  `insert` is given the slots it stores, as every caller in the runtime does.  Data that
a copy moves from one pool to another is not modelled, nor is the pool that shares the indices of the
full one.
-/
import Sglang.MemCache.UnifiedEvict

namespace Sglang

open Lib UnifiedLRUList

namespace UnifiedRadixCache

variable {σ : Type} (cfg : UnifiedConfig σ)

/-! ## 1. Splitting a node -/

/-- `FullComponent.redistribute_on_node_split`. -/
def redistributeFull (u : UnifiedRadixCache σ) (newParent child : NodeId) : UnifiedRadixCache σ :=
  let d := u.data child .full
  let splitLen := (u.nodes newParent).key.len
  let u := u.modifyData newParent .full fun x => { x with
    lockRef := d.lockRef
    value := d.value.map (List.take splitLen)
    hostValue := d.hostValue.map (List.take splitLen) }
  u.modifyData child .full fun x => { x with
    value := d.value.map (List.drop splitLen)
    hostValue := d.hostValue.map (List.drop splitLen) }

/-- `SWAComponent.redistribute_on_node_split`: the uuid goes to the new parent. -/
def redistributeSwa (u : UnifiedRadixCache σ) (newParent child : NodeId) :
    Option (UnifiedRadixCache σ) := do
  let d := u.data child .swa
  let splitLen := (u.nodes newParent).key.len
  let u := u.modifyData newParent .swa fun x => { x with
    lockRef := d.lockRef
    value := d.value.map (List.take splitLen)
    hostValue := d.hostValue.map (List.take splitLen)
    uuid := d.uuid }
  let u := u.modifyData child .swa fun x => { x with
    value := d.value.map (List.drop splitLen)
    hostValue := d.hostValue.map (List.drop splitLen)
    uuid := none }
  if d.hostValue.isSome ∧ d.value.isNone then do
    let u ← u.onHostLru .swa fun l => insertMru l newParent
    return u.joinHostLru .swa child
  else return u

/-- `MambaComponent.redistribute_on_node_split`: the state stays at the child. -/
def redistributeMamba (u : UnifiedRadixCache σ) (newParent : NodeId) : UnifiedRadixCache σ :=
  u.modifyData newParent .mamba fun x => { x with
    value := none
    lockRef := 0
    hostValue := none
    hostLockRef := 0 }

/-- `redistribute_on_node_split` of the component `ct`. -/
def redistributeOnNodeSplit (u : UnifiedRadixCache σ) (newParent child : NodeId) :
    ComponentType → Option (UnifiedRadixCache σ)
  | .full => some (u.redistributeFull newParent child)
  | .swa => u.redistributeSwa newParent child
  | .mamba => some (u.redistributeMamba newParent)

/-- The new node of `_split_node` above `child`, before the components share out their data. -/
def linkUpper (u : UnifiedRadixCache σ) (child parent : NodeId) (restKey : ChildKey)
    (splitLen : ℕ) : Option (NodeId × UnifiedRadixCache σ) := do
  let key := (u.nodes child).key
  let (newNode, u) := u.newTreeNode
  let u := u.modify newNode fun n => { n with
    children := AList.singleton restKey child
    parent := some parent
    key := key.takeTo splitLen }
  let u ← u.forEachComponentLru cfg child removeNode false
  return (newNode, u.modify child fun n => { n with
    parent := some newNode
    key := key.dropTo splitLen })

/-- `_split_node`: `new_node -> child`, the new node takes the first `splitLen` units. -/
def splitNode (u : UnifiedRadixCache σ) (key : RadixKey) (child : NodeId) (splitLen : ℕ) :
    Option (NodeId × UnifiedRadixCache σ) := do
  let parent ← (u.nodes child).parent
  let restKey ← (key.dropTo splitLen).childKey cfg.pageSize
  let firstKey ← key.childKey cfg.pageSize
  let (newNode, u) ← u.linkUpper cfg child parent restKey splitLen
  let u ← cfg.treeComponents.foldlM (fun u ct => u.redistributeOnNodeSplit newNode child ct) u
  let u := u.modify parent fun n => { n with children := n.children.insert firstKey newNode }
  let u ← u.forEachComponentLru cfg newNode insertMru true
  let u ← u.forEachComponentLru cfg child insertMru true
  let u := u.touchTime child
  return (newNode, (u.updateEvictableLeafSets newNode).updateEvictableLeafSets child)

/-! ## 2. Matching -/

/-- `create_match_validator`: what the validator of a component says of a node, and the length the
validator of the sliding window has then counted. -/
def validator (u : UnifiedRadixCache σ) (node : NodeId) (len : ℕ∞) : ComponentType → Bool × ℕ∞
  | .full => ((u.data node .full).value.isSome || (u.nodes node).backuped, len)
  | .swa =>
    if (u.data node .swa).value.isNone ∧ (u.data node .swa).hostValue.isNone then (false, 0)
    else
      let len := len + (u.nodes node).key.len
      (decide ((cfg.slidingWindowSize : ℕ∞) ≤ len), len)
  | .mamba => ((u.data node .mamba).value.isSome || (u.data node .mamba).hostValue.isSome, len)

/-- `all(v(node) for v in validators)`: a validator that says no ends the round. -/
def validators (u : UnifiedRadixCache σ) (node : NodeId) : List ComponentType → ℕ∞ → Bool × ℕ∞
  | [], len => (true, len)
  | ct :: cts, len =>
    let (ok, len) := validator cfg u node len ct
    if ok then validators u node cts len else (false, len)

/-- The local variables of `_match_prefix_helper`; `len` is the state of the validators. -/
structure MatchWalk (σ : Type) where
  value : List (List σ)
  bestValueLen : ℕ
  bestNode : NodeId
  len : ℕ∞

/-- `_update_best_if_valid`. -/
def MatchWalk.updateBestIfValid (w : MatchWalk σ) (u : UnifiedRadixCache σ) (node : NodeId) :
    MatchWalk σ :=
  let (ok, len) := validators cfg u node cfg.treeComponents w.len
  if ok then { w with bestValueLen := w.value.length, bestNode := node, len := len }
  else { w with len := len }

/-- `if len(key): child_key = key.child_key(self.page_size)`, at the end of a round. -/
def nextChildKey (key : RadixKey) (childKey : ChildKey) : Option ChildKey :=
  if key.len > 0 then key.childKey cfg.pageSize else some childKey

/-- `if not child.evicted: value.append(..)`. -/
def pushValue (u : UnifiedRadixCache σ) (child : NodeId) (value : List (List σ)) :
    Option (List (List σ)) :=
  if (u.nodes child).evicted then some value
  else (u.data child .full).value.map fun v => value ++ [v]

/-- The loop of `_match_prefix_helper`. -/
def matchLoop : ℕ → UnifiedRadixCache σ → NodeId → RadixKey → ChildKey → MatchWalk σ →
    Option (MatchWalk σ × UnifiedRadixCache σ)
  | 0, _, _, _, _, _ => none
  | fuel + 1, u, node, key, childKey, w =>
    if key.len > 0 then
      match (u.nodes node).children.lookup childKey with
      | none => some (w, u)
      | some child =>
        if (u.nodes child).evicted ∧ !(u.nodes child).backuped then some (w, u)
        else do
          let prefixLen ← (u.nodes child).key.matchLen key cfg.pageSize
          if prefixLen < (u.nodes child).key.len then
            if (u.nodes child).evicted then return (w, u)
            else
              let (newNode, u) ← u.splitNode cfg (u.nodes child).key child prefixLen
              let v ← (u.data newNode .full).value
              let w := { w with value := w.value ++ [v] }
              return (w.updateBestIfValid cfg u newNode, u)
          else
            let value ← u.pushValue child w.value
            let w := MatchWalk.updateBestIfValid cfg { w with value := value } u child
            let key := key.dropTo prefixLen
            matchLoop fuel u child key (← nextChildKey cfg key childKey) w
    else some (w, u)

/-- `_match_prefix_helper`. -/
def matchPrefixHelper (u : UnifiedRadixCache σ) (key : RadixKey) :
    Option (MatchWalk σ × UnifiedRadixCache σ) := do
  let childKey ← key.childKey cfg.pageSize
  matchLoop cfg (key.len + 1) u u.rootNode key childKey ⟨[], 0, u.rootNode, ⊤⟩

/-- `MatchResult`. -/
structure UnifiedMatchResult (σ : Type) where
  deviceIndices : List σ
  lastDeviceNode : NodeId
  lastHostNode : NodeId
  hostHitLength : ℕ
  mambaBranchingSeqlen : Option ℕ
deriving DecidableEq

/-- `MatchPrefixParams`; of the request only `mamba_pool_idx` is read and written. -/
structure MatchPrefixParams (σ : Type) where
  key : RadixKey
  cowMamba : Bool
  mambaPoolIdx : Option σ

/-- `reset_node_and_parents_mru`: the nodes of the path that have a value come to the front. -/
def resetNodeAndParentsMru (ct : ComponentType) : ℕ → UnifiedRadixCache σ → NodeId →
    Option NodeId → Option (UnifiedRadixCache σ)
  | 0, _, _, _ => none
  | fuel + 1, u, node, prev =>
    if node = u.rootNode then some u
    else do
      let parent ← (u.nodes node).parent
      if (u.data node ct).value.isSome then
        let u ← u.onLru ct fun l => (removeNode l node).map
          (addNodeAfter prev node)
        resetNodeAndParentsMru ct fuel u parent (some node)
      else resetNodeAndParentsMru ct fuel u parent prev

/-- The access times from the last node up to the root. -/
def touchPath : ℕ → UnifiedRadixCache σ → NodeId → ℤ → Option (UnifiedRadixCache σ)
  | 0, _, _, _ => none
  | fuel + 1, u, node, curTime =>
    let u := u.modify node fun n => { n with lastAccessTime := curTime }
    match (u.nodes node).parent with
    | none => some u
    | some parent => touchPath fuel u parent (curTime - 1)

/-- The first node from `node` upwards that is the root or of which `p` holds. -/
def walkUpTo (u : UnifiedRadixCache σ) (p : UnifiedTreeNode σ → Bool) : ℕ → NodeId → Option NodeId
  | 0, _ => none
  | fuel + 1, node =>
    if node = u.rootNode ∨ p (u.nodes node) then some node
    else do walkUpTo u p fuel (← (u.nodes node).parent)

/-- The walk of `FullComponent.finalize_match_result`. -/
def kvHostHit (u : UnifiedRadixCache σ) (lastDeviceNode : NodeId) : ℕ → NodeId → ℕ → Option ℕ
  | 0, _, _ => none
  | fuel + 1, node, hit =>
    if node = lastDeviceNode ∨ node = u.rootNode then some hit
    else do
      kvHostHit u lastDeviceNode fuel (← (u.nodes node).parent)
        (hit + ((u.data node .full).hostValue.map List.length).getD 0)

/-- The walk of `SWAComponent.finalize_match_result`: is a value of the window only on the host? -/
def swaOnHost (u : UnifiedRadixCache σ) : ℕ → NodeId → ℕ → Option Bool
  | 0, _, _ => none
  | fuel + 1, node, nSwa =>
    if node = u.rootNode ∨ nSwa ≥ cfg.slidingWindowSize then some false
    else
      match (u.data node .swa).value, (u.data node .swa).hostValue with
      | none, some _ => some true
      | none, none => some false
      | some v, _ => do swaOnHost u fuel (← (u.nodes node).parent) (nSwa + v.length)

/-- The slot that a request gets for a copy of the state of `lastNode`: a free one, or one that an
eviction frees while the node is locked. -/
def cowSlot (u : UnifiedRadixCache σ) (lastNode : NodeId) : Option (σ × UnifiedRadixCache σ) := do
  let (i, u) := u.tick
  match cfg.allocDevice i .mamba 1 with
  | some dst => return (← dst.head?, u)
  | none =>
    let (_, u) ← u.incLockRef cfg lastNode
    let (_, u) ← u.evict cfg ⟨0, 0, 1⟩
    let (i, u) := u.tick
    let dst := cfg.allocDevice i .mamba 1
    let u ← u.decLockRef cfg lastNode none
    return (← (← dst).head?, u)

/-- The copy of the state that a request starts from: the slot that it has, or a new one. -/
def copyOnWrite (u : UnifiedRadixCache σ) (lastDeviceNode : NodeId) (cowMamba : Bool)
    (mambaPoolIdx : Option σ) : Option (Option σ × UnifiedRadixCache σ) :=
  if cowMamba ∧ (u.data lastDeviceNode .mamba).value.isSome ∧ mambaPoolIdx.isNone then
    (u.cowSlot cfg lastDeviceNode).map fun r => (some r.1, r.2)
  else some (mambaPoolIdx, u)

/-- `MambaComponent.finalize_match_result`. -/
def finalizeMamba (u : UnifiedRadixCache σ) (result : UnifiedMatchResult σ) (cowMamba : Bool)
    (mambaPoolIdx : Option σ) (w : MatchWalk σ) :
    Option (UnifiedMatchResult σ × Option σ × UnifiedRadixCache σ) := do
  let alignedSeqlen :=
    (w.value.map List.length).sum / cfg.mambaCacheChunkSize * cfg.mambaCacheChunkSize
  let branchingSeqlen :=
    if w.value.length > w.bestValueLen ∧ alignedSeqlen > 0 then some alignedSeqlen else none
  let (mambaPoolIdx, u) ← u.copyOnWrite cfg result.lastDeviceNode cowMamba mambaPoolIdx
  let d := u.data result.lastHostNode .mamba
  let result :=
    if d.value.isNone ∧ d.hostValue.isSome then
      { result with hostHitLength := max result.hostHitLength 1 }
    else result
  return ({ result with mambaBranchingSeqlen := branchingSeqlen }, mambaPoolIdx, u)

/-- `finalize_match_result` of the component `ct`. -/
def finalizeMatchResult (cowMamba : Bool) (w : MatchWalk σ)
    (r : UnifiedMatchResult σ × Option σ × UnifiedRadixCache σ) :
    ComponentType → Option (UnifiedMatchResult σ × Option σ × UnifiedRadixCache σ)
  | .full => do
    let (result, idx, u) := r
    let hit ← u.kvHostHit result.lastDeviceNode (u.counter + 1) result.lastHostNode 0
    return ({ result with hostHitLength := max result.hostHitLength hit }, idx, u)
  | .swa => do
    let (result, idx, u) := r
    let onHost ← u.swaOnHost cfg (u.counter + 1) result.lastDeviceNode 0
    return ({ result with
      hostHitLength := if onHost then max result.hostHitLength 1 else result.hostHitLength }, idx, u)
  | .mamba => finalizeMamba cfg r.2.2 r.1 cowMamba r.2.1 w

/-- `_match_post_processor`. -/
def matchPostProcessor (u : UnifiedRadixCache σ) (params : MatchPrefixParams σ) (w : MatchWalk σ) :
    Option (UnifiedMatchResult σ × Option σ × UnifiedRadixCache σ) := do
  let u ← (cfg.treeComponents.filter (· ≠ .full)).foldlM
    (fun u ct => resetNodeAndParentsMru ct (u.counter + 1) u w.bestNode none) u
  let (curTime, u) := u.getAndIncreaseTimeCounter
  let u ← touchPath (u.counter + 1) u w.bestNode curTime
  let lastDeviceNode ← u.walkUpTo (!·.evicted) (u.counter + 1) w.bestNode
  let lastHostNode ← u.walkUpTo (·.backuped) (u.counter + 1) w.bestNode
  let result : UnifiedMatchResult σ :=
    ⟨(w.value.take w.bestValueLen).flatten, lastDeviceNode, lastHostNode, 0, none⟩
  cfg.treeComponents.foldlM (fun r ct => finalizeMatchResult cfg params.cowMamba w r ct)
    (result, params.mambaPoolIdx, u)

/-- `match_prefix`: the result and the `mamba_pool_idx` of the request. -/
def matchPrefix (u : UnifiedRadixCache σ) (params : MatchPrefixParams σ) :
    Option (UnifiedMatchResult σ × Option σ × UnifiedRadixCache σ) :=
  let key := (params.key.maybeToBigramView (σ := σ) cfg.isEagle none).1
  let emptyMatchResult : UnifiedMatchResult σ := ⟨[], u.rootNode, u.rootNode, 0, none⟩
  if key.len = 0 then some (emptyMatchResult, params.mambaPoolIdx, u)
  else
    let key := key.pageAligned cfg.pageSize
    if key.len = 0 then some (emptyMatchResult, params.mambaPoolIdx, u)
    else do
      let (w, u) ← u.matchPrefixHelper cfg key
      u.matchPostProcessor cfg params w

/-! ## 3. Insertion -/

/-- `InsertParams`. -/
structure InsertParams (σ : Type) where
  key : RadixKey
  value : List σ
  mambaValue : Option (List σ)
  prevPrefixLen : ℕ
  swaEvictedSeqlen : ℕ
  chunked : Bool

/-- `InsertResult`. -/
structure InsertResult where
  prefixLen : ℕ
  mambaExist : Bool
deriving DecidableEq

/-- `_inc_hit_count`; a node that is hit often enough is backed up. -/
def incHitCount (u : UnifiedRadixCache σ) (node : NodeId) (chunked : Bool) :
    Option (UnifiedRadixCache σ) :=
  match cfg.cacheController with
  | none => some u
  | some cc =>
    if (u.nodes node).evicted ∨ chunked ∨ cc.writeBack then some u
    else
      let u := u.modify node fun n => { n with hitCount := n.hitCount + 1 }
      if !(u.nodes node).backuped ∧ (u.nodes node).hitCount ≥ cc.writeThroughThreshold then
        (u.writeBackup cfg node false).map (·.2)
      else some u

/-- `_touch_node`. -/
def touchNode (u : UnifiedRadixCache σ) (node : NodeId) : Option (UnifiedRadixCache σ) :=
  let u := u.touchTime node
  if node ≠ u.rootNode then u.forEachComponentLru cfg node resetNodeMru false
  else some u

/-- `_add_new_node`. -/
def addNewNode (u : UnifiedRadixCache σ) (parent : NodeId) (key : RadixKey) (value : List σ) :
    Option (NodeId × UnifiedRadixCache σ) := do
  let childKey ← key.childKey cfg.pageSize
  let (newNode, u) := u.newTreeNode
  let u := u.modify newNode fun n => { n with parent := some parent, key := key }
  let u := u.modifyData newNode .full fun d => { d with value := some value }
  let u := u.modify parent fun n => { n with children := n.children.insert childKey newNode }
  let u := u.addEvictable .full value.length
  return (newNode, (u.updateEvictableLeafSets newNode).updateEvictableLeafSets parent)

/-- `_unevict_node_on_insert`. -/
def unevictNodeOnInsert (u : UnifiedRadixCache σ) (node : NodeId) (freshValue : List σ) :
    Option (UnifiedRadixCache σ) := do
  if (u.data node .full).value.isNone then
    let u := u.modifyData node .full fun d => { d with value := some freshValue }
    let u := u.addEvictable .full freshValue.length
    let u := u.updateEvictableLeafSets node
    match (u.nodes node).parent with
    | none => return u
    | some parent => return u.updateEvictableLeafSets parent
  else none

/-- `SWAComponent._restore_device_value`. -/
def restoreDeviceValue (u : UnifiedRadixCache σ) (node : NodeId) (value : List σ) :
    Option (UnifiedRadixCache σ) := do
  let u := u.modifyData node .swa fun d => { d with value := some value }
  let u := u.leaveHostLru .swa node
  let u ← u.onLru .swa fun l => insertMru l node
  return u.addEvictable .swa value.length

/-- `_translate_full_to_swa` of the full value of a node, which becomes its sliding-window value. -/
def restoreFromFull (u : UnifiedRadixCache σ) (node : NodeId) : Option (UnifiedRadixCache σ) := do
  let full ← (u.data node .full).value
  let (i, u) := u.tick
  u.restoreDeviceValue node (full.map (cfg.translateLocFromFullToSwa i))

/-- The first two assertions on a tombstone that is about to be recovered. -/
def TombstoneOk (u : UnifiedRadixCache σ) (node : NodeId) (swaEvictedSeqlen : ℕ) : Prop :=
  (u.data node .swa).lockRef = 0 ∧ swaEvictedSeqlen % cfg.pageSize = 0

instance (u : UnifiedRadixCache σ) (node : NodeId) (n : ℕ) : Decidable (TombstoneOk cfg u node n) :=
  inferInstanceAs (Decidable (_ ∧ _))

/-- `SWAComponent.update_component_on_insert_overlap`: a tombstone inside the window takes the slots
of the insertion, from `startIdx` on; its old ones are freed. -/
def updateSwaOnInsertOverlap (u : UnifiedRadixCache σ) (node : NodeId) (prefixLen totalPrefixLen : ℕ)
    (valueSlice : List σ) (params : InsertParams σ) : Option (ℕ × UnifiedRadixCache σ) :=
  if params.prevPrefixLen ≥ totalPrefixLen + prefixLen ∨ (u.data node .swa).value.isSome then
    some (prefixLen, u)
  else if TombstoneOk cfg u node params.swaEvictedSeqlen then
    if params.swaEvictedSeqlen ≤ totalPrefixLen then do
      let full ← (u.data node .full).value
      let u := u.free (.free full)
      let u := u.modifyData node .full fun d => { d with value := some valueSlice }
      return (0, ← u.restoreFromFull cfg node)
    else if params.swaEvictedSeqlen < totalPrefixLen + prefixLen then do
      let startIdx := params.swaEvictedSeqlen - totalPrefixLen
      let full ← (u.data node .full).value
      let u := u.free (.free (full.drop startIdx))
      let (_, u) ← u.splitNode cfg (u.nodes node).key node startIdx
      let u := u.modifyData node .full fun d => { d with value := some (valueSlice.drop startIdx) }
      return (startIdx, ← u.restoreFromFull cfg node)
    else some (prefixLen, u)
  else none

/-- `update_component_on_insert_overlap` of the component `ct`. -/
def updateComponentOnInsertOverlap (u : UnifiedRadixCache σ) (node : NodeId)
    (prefixLen totalPrefixLen : ℕ) (valueSlice : List σ) (params : InsertParams σ) :
    ComponentType → Option (ℕ × UnifiedRadixCache σ)
  | .swa => u.updateSwaOnInsertOverlap cfg node prefixLen totalPrefixLen valueSlice params
  | _ => some (prefixLen, u)

/-- `SWAComponent.recover_after_unevict`. -/
def recoverSwaAfterUnevict (u : UnifiedRadixCache σ) (node : NodeId) (prefixLen totalPrefixLen : ℕ)
    (params : InsertParams σ) : Option (UnifiedRadixCache σ) :=
  if (u.data node .swa).value.isSome then some u
  else if TombstoneOk cfg u node params.swaEvictedSeqlen then
    if params.swaEvictedSeqlen ≤ totalPrefixLen then u.restoreFromFull cfg node
    else if params.swaEvictedSeqlen < totalPrefixLen + prefixLen then do
      let (_, u) ← u.splitNode cfg (u.nodes node).key node (params.swaEvictedSeqlen - totalPrefixLen)
      u.restoreFromFull cfg node
    else some u
  else none

/-- What a round of `_insert_helper` does with the slots of the matched part of a node. -/
def overlap (u : UnifiedRadixCache σ) (node : NodeId) (prefixLen totalPrefixLen : ℕ)
    (value : List σ) (params : InsertParams σ) : Option (UnifiedRadixCache σ) := do
  if (u.nodes node).evicted then
    let u ← u.unevictNodeOnInsert node (value.take prefixLen)
    if .swa ∈ cfg.treeComponents then
      u.recoverSwaAfterUnevict cfg node prefixLen totalPrefixLen params
    else return u
  else
    let valueSlice := value.take prefixLen
    let (consumedFrom, u) ← cfg.treeComponents.foldlM (fun (r : ℕ × UnifiedRadixCache σ) ct => do
      let (n, u) ← r.2.updateComponentOnInsertOverlap cfg node prefixLen totalPrefixLen valueSlice
        params ct
      return (min r.1 n, u)) (prefixLen, u)
    let dupStart := params.prevPrefixLen - totalPrefixLen
    if dupStart < consumedFrom then
      return u.free (.free ((valueSlice.take consumedFrom).drop dupStart))
    else return u

/-- What the walk of `_insert_helper` ends with. -/
structure UnifiedInsertWalk (σ : Type) where
  total : ℕ
  node : NodeId
  key : RadixKey
  value : List σ
  cache : UnifiedRadixCache σ

/-- A round of `_insert_helper` goes on from the upper half of a node that it has to split. -/
def splitOrStay (u : UnifiedRadixCache σ) (node : NodeId) (prefixLen : ℕ) :
    Option (NodeId × UnifiedRadixCache σ) :=
  if prefixLen < (u.nodes node).key.len then u.splitNode cfg (u.nodes node).key node prefixLen
  else some (node, u)

/-- The loop of `_insert_helper`. -/
def insertLoop (params : InsertParams σ) : ℕ → UnifiedRadixCache σ → NodeId → RadixKey → List σ →
    ChildKey → ℕ → Option (UnifiedInsertWalk σ)
  | 0, _, _, _, _, _, _ => none
  | fuel + 1, u, node, key, value, childKey, total =>
    if key.len > 0 then
      match (u.nodes node).children.lookup childKey with
      | none => some ⟨total, node, key, value, u⟩
      | some child => do
        let u ← u.touchNode cfg child
        let prefixLen ← (u.nodes child).key.matchLen key cfg.pageSize
        let (node, u) ← u.splitOrStay cfg child prefixLen
        let u ← u.overlap cfg node prefixLen total value params
        let u ← u.incHitCount cfg node params.chunked
        let key := key.dropTo prefixLen
        insertLoop params fuel u node key (value.drop prefixLen) (← nextChildKey cfg key childKey)
          (total + prefixLen)
    else some ⟨total, node, key, value, u⟩

/-- `should_skip_leaf_creation` of any component: only that of the sliding window has an opinion. -/
def shouldSkipLeafCreation (total keyLen : ℕ) (params : InsertParams σ) : Bool :=
  decide (.swa ∈ cfg.treeComponents) && decide (params.swaEvictedSeqlen ≥ total + keyLen)

/-- `SWAComponent.commit_insert_component_data`. -/
def commitInsertSwa (u : UnifiedRadixCache σ) (node : NodeId) (isNewLeaf : Bool)
    (params : InsertParams σ) (prefixLen : ℕ) : Option (UnifiedRadixCache σ) :=
  let attach (u : UnifiedRadixCache σ) : Option (UnifiedRadixCache σ) := do
    let full ← (u.data node .full).value
    let (i, u) := u.tick
    let value := full.map (cfg.translateLocFromFullToSwa i)
    let u := u.modifyData node .swa fun d => { d with value := some value }
    let u ← u.onLru .swa fun l => insertMru l node
    return u.addEvictable .swa value.length
  if !isNewLeaf then some u
  else if params.swaEvictedSeqlen ≤ prefixLen then attach u
  else if params.swaEvictedSeqlen - prefixLen < (u.nodes node).key.len then do
    let (_, u) ← u.splitNode cfg (u.nodes node).key node (params.swaEvictedSeqlen - prefixLen)
    attach u
  else some u

/-- `MambaComponent.commit_insert_component_data`; the state of a node that has one stays. -/
def commitInsertMamba (u : UnifiedRadixCache σ) (node : NodeId) (isNewLeaf : Bool)
    (params : InsertParams σ) (result : InsertResult) :
    Option (InsertResult × UnifiedRadixCache σ) := do
  let mambaValue ← params.mambaValue
  if isNewLeaf then
    let u := u.modifyData node .mamba fun d => { d with value := some mambaValue }
    let u ← u.onLru .mamba fun l => insertMru l node
    return (result, u.addEvictable .mamba mambaValue.length)
  else if (u.data node .mamba).value.isNone then
    let u := u.modifyData node .mamba fun d => { d with value := some mambaValue }
    let u := u.leaveHostLru .mamba node
    let u ← u.onLru .mamba fun l => insertMru l node
    return (result, (u.addEvictable .mamba mambaValue.length).touchTime node)
  else
    let u ← u.onLru .mamba fun l => resetNodeMru l node
    return ({ result with mambaExist := true }, u.touchTime node)

/-- `commit_insert_component_data` of the component `ct`. -/
def commitInsertComponentData (node : NodeId) (isNewLeaf : Bool) (params : InsertParams σ)
    (r : InsertResult × UnifiedRadixCache σ) :
    ComponentType → Option (InsertResult × UnifiedRadixCache σ)
  | .full => some r
  | .swa => do return (r.1, ← r.2.commitInsertSwa cfg node isNewLeaf params r.1.prefixLen)
  | .mamba => r.2.commitInsertMamba node isNewLeaf params r.1

/-- The end of `_insert_helper`: the components attach their data to the target node. -/
def finishInsert (u : UnifiedRadixCache σ) (target : NodeId) (isNewLeaf : Bool)
    (params : InsertParams σ) (total : ℕ) : Option (InsertResult × UnifiedRadixCache σ) := do
  let (result, u) ← cfg.treeComponents.foldlM
    (fun r ct => commitInsertComponentData cfg target isNewLeaf params r ct) (⟨total, false⟩, u)
  if isNewLeaf then return (result, ← u.incHitCount cfg target params.chunked)
  else return (result, u)

/-- `_insert_helper`. -/
def insertHelper (u : UnifiedRadixCache σ) (node : NodeId) (key : RadixKey) (value : List σ)
    (params : InsertParams σ) : Option (InsertResult × UnifiedRadixCache σ) := do
  let u ← u.touchNode cfg node
  if key.len = 0 then return (⟨0, true⟩, u)
  let childKey ← key.childKey cfg.pageSize
  let w ← insertLoop cfg params (key.len + 1) u node key value childKey 0
  if w.key.len > 0 then
    if shouldSkipLeafCreation cfg w.total w.key.len params then
      return (⟨w.total, false⟩, w.cache.free (.free w.value))
    else
      let (target, u) ← w.cache.addNewNode cfg w.node w.key w.value
      u.finishInsert cfg target true params w.total
  else w.cache.finishInsert cfg w.node false params w.total

/-- `insert`. -/
def insert (u : UnifiedRadixCache σ) (params : InsertParams σ) :
    Option (InsertResult × UnifiedRadixCache σ) :=
  let (key, value) := params.key.maybeToBigramView cfg.isEagle (some params.value)
  let key := key.pageAligned cfg.pageSize
  u.insertHelper cfg u.rootNode key ((value.getD []).take key.len) params

end UnifiedRadixCache

end Sglang
