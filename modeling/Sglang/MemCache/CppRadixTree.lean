/-
# `RadixTree`: the radix tree in C++

A transcription of `cpp_radix_tree` (`tree_v2.cpp`, `tree_v2_impl.h`, `tree_v2_node.h`) with the
host cache disabled, and of the part of `radix_cache_cpp.py` that calls it.  A node is named by its
`node_id`, which is also its handle; the root is `0`.  A failed `_assert` is `none`, and so is a walk
that runs out of fuel.

Without a host cache no node has host indices and no transfer is ever pending, so those fields are
left out; so are access times, which only `evict` reads.  Sizes are integers: the counters are
unsigned in the source, and the simulation shows that they are those of the Python cache, which
count nodes.
-/
import Sglang.MemCache.TreeNode
import Sglang.Lib.Sweep

namespace Sglang

open Lib

/-- `NodeHandle`. -/
abbrev NodeHandle := ℕ

/-- `TreeNode` of `tree_v2_node.h`. -/
structure CppTreeNode (σ : Type) where
  tokens : List Token
  deviceIndices : Option (List σ)
  parent : Option NodeHandle
  children : Dict (List Token) NodeHandle
  refCount : ℕ
  hitCount : ℕ

/-- `RadixTree::Impl`. -/
structure CppRadixTree (σ : Type) where
  nodes : NodeHandle → CppTreeNode σ
  nodeMap : List NodeHandle
  nodeCounter : ℕ
  evictableSize : ℤ
  protectedSize : ℤ

namespace CppRadixTree

variable {σ : Type} (pageSize : ℕ)

/-- The root before anything hangs under it. -/
def rootNode : CppTreeNode σ where
  tokens := []
  deviceIndices := none
  parent := none
  children := ∅
  refCount := 1
  hitCount := 0

/-- The constructor of `Impl`. -/
def new : CppRadixTree σ where
  nodes := fun _ => rootNode
  nodeMap := [0]
  nodeCounter := 1
  evictableSize := 0
  protectedSize := 0

/-- An update of one node. -/
def modify (T : CppRadixTree σ) (n : NodeHandle) (f : CppTreeNode σ → CppTreeNode σ) :
    CppRadixTree σ :=
  { T with nodes := Function.update T.nodes n (f (T.nodes n)) }

/-! ## 1. Nodes -/

/-- `align`. -/
def align (size : ℕ) : ℕ := size / pageSize * pageSize

/-- `get_key`: the first page. -/
def getKey (tokens : List Token) : Option (List Token) :=
  if tokens.length ≥ pageSize then some (tokens.take pageSize) else none

/-- `diff_key`: the first index from `offset` on at which the tokens of a node and a key differ. -/
def diffKey (tokens key : List Token) (offset : ℕ) : ℕ :=
  commonPrefixLength (key.drop offset) (tokens.drop offset)

/-- `split_node` of the child that `node` has under `key`, with `split_prefix`: the prefix goes to a
new node above it. -/
def splitNode (T : CppRadixTree σ) (node : NodeHandle) (key : List Token) (oldNode : NodeHandle)
    (prefixLength : ℕ) : Option (NodeHandle × CppRadixTree σ) := do
  let old := T.nodes oldNode
  let parent ← old.parent
  if 0 < prefixLength ∧ prefixLength < old.tokens.length then
    let newNode := T.nodeCounter
    let oldKey ← getKey pageSize (old.tokens.drop prefixLength)
    let T := { T with
      nodes := Function.update T.nodes newNode
        { tokens := old.tokens.take prefixLength
          deviceIndices := old.deviceIndices.map (List.take prefixLength)
          parent := some parent
          children := AList.singleton oldKey oldNode
          refCount := old.refCount
          hitCount := old.hitCount }
      nodeMap := newNode :: T.nodeMap
      nodeCounter := T.nodeCounter + 1 }
    let T := T.modify oldNode fun n => { n with
      tokens := old.tokens.drop prefixLength
      deviceIndices := old.deviceIndices.map (List.drop prefixLength)
      parent := some newNode }
    let T := T.modify node fun n => { n with children := n.children.insert key newNode }
    return (newNode, T)
  else none

/-- `create_device_node`. -/
def createDeviceNode (T : CppRadixTree σ) (parent : NodeHandle) (vec : List Token)
    (indices : List σ) : Option (CppRadixTree σ) := do
  let key ← getKey pageSize vec
  let newNode := T.nodeCounter
  let T := { T with
    nodes := Function.update T.nodes newNode
      { tokens := vec
        deviceIndices := some indices
        parent := some parent
        children := ∅
        refCount := 0
        hitCount := 0 }
    nodeMap := newNode :: T.nodeMap
    nodeCounter := T.nodeCounter + 1
    evictableSize := T.evictableSize + vec.length }
  return T.modify parent fun n => { n with children := n.children.insert key newNode }

/-! ## 2. Walks -/

/-- The loop of `tree_walk`: the last node, and the length matched so far. -/
def treeWalkLoop : ℕ → CppRadixTree σ → NodeHandle → List Token → ℕ →
    Option (NodeHandle × ℕ × CppRadixTree σ)
  | 0, _, _, _, _ => none
  | fuel + 1, T, node, key, total =>
    if key.length > 0 then do
      let k ← getKey pageSize key
      match (T.nodes node).children.lookup k with
      | none => return (node, total, T)
      | some child =>
        let prefixLength := align pageSize (diffKey (T.nodes child).tokens key pageSize + pageSize)
        if prefixLength < (T.nodes child).tokens.length then
          let (newNode, T) ← T.splitNode pageSize node k child prefixLength
          return (newNode, total + prefixLength, T)
        else treeWalkLoop fuel T child (key.drop prefixLength) (total + prefixLength)
    else some (node, total, T)

/-- `tree_walk`. -/
def treeWalk (T : CppRadixTree σ) (key : List Token) : Option (NodeHandle × ℕ × CppRadixTree σ) :=
  if key.length % pageSize = 0 then treeWalkLoop pageSize (key.length + 1) T 0 key 0 else none

/-- `walk_to_root`: a function at every node up to the root, which is left out. -/
def walkToRoot (f : CppRadixTree σ → NodeHandle → Option (CppRadixTree σ)) :
    ℕ → CppRadixTree σ → NodeHandle → Option (CppRadixTree σ)
  | 0, _, _ => none
  | fuel + 1, T, node =>
    match (T.nodes node).parent with
    | none => some T
    | some parent => do walkToRoot f fuel (← f T node) parent

/-- The device indices from a node up to the root, by `walk_to_root`. -/
def collectIndices (T : CppRadixTree σ) : ℕ → NodeHandle → Option (List (List σ))
  | 0, _ => none
  | fuel + 1, node =>
    match (T.nodes node).parent with
    | none => some []
    | some parent => do
      let indices ← (T.nodes node).deviceIndices
      return indices :: (← collectIndices T fuel parent)

/-! ## 3. The interface -/

/-- `match_prefix`: the indices along the path, and the node. -/
def matchPrefix (T : CppRadixTree σ) (key : List Token) :
    Option ((List (List σ) × NodeHandle) × CppRadixTree σ) := do
  let key := key.take (align pageSize key.length)
  let (node, _, T) ← T.treeWalk pageSize key
  let indices ← T.collectIndices (T.nodeCounter + 1) node
  return ((indices.reverse, node), T)

/-- `writing_through`: the length that was there before. -/
def writingThrough (T : CppRadixTree σ) (key : List Token) (value : List σ) :
    Option (ℕ × CppRadixTree σ) := do
  if key.length = value.length then
    let key := key.take (align pageSize key.length)
    let (node, prefixLength, T) ← T.treeWalk pageSize key
    let T ← if prefixLength ≠ key.length then
        T.createDeviceNode pageSize node (key.drop prefixLength)
          ((value.take key.length).drop prefixLength)
      else some T
    let T ← walkToRoot (fun T n => some (T.modify n fun x => { x with hitCount := x.hitCount + 1 }))
      (T.nodeCounter + 1) T node
    return (prefixLength, T)
  else none

/-- What `lock_ref` does to a node when it takes a reference. -/
def incRef (T : CppRadixTree σ) (n : NodeHandle) : Option (CppRadixTree σ) :=
  let len : ℤ := (T.nodes n).tokens.length
  let T := if (T.nodes n).refCount = 0 then
      { T with evictableSize := T.evictableSize - len, protectedSize := T.protectedSize + len }
    else T
  some (T.modify n fun x => { x with refCount := x.refCount + 1 })

/-- What `lock_ref` does to a node when it gives one back. -/
def decRef (T : CppRadixTree σ) (n : NodeHandle) : Option (CppRadixTree σ) :=
  if (T.nodes n).refCount ≠ 0 then
    let T := T.modify n fun x => { x with refCount := x.refCount - 1 }
    let len : ℤ := (T.nodes n).tokens.length
    some (if (T.nodes n).refCount = 0 then
        { T with protectedSize := T.protectedSize - len, evictableSize := T.evictableSize + len }
      else T)
  else none

/-- `id2node`. -/
def id2node (T : CppRadixTree σ) (h : NodeHandle) : Option NodeHandle :=
  if h ∈ T.nodeMap then some h else none

/-- `lock_ref`. -/
def lockRef (T : CppRadixTree σ) (h : NodeHandle) (increment : Bool) :
    Option (CppRadixTree σ) := do
  let node ← T.id2node h
  if (T.nodes node).parent.isNone then return T
  else if (T.nodes node).deviceIndices.isSome then
    walkToRoot (if increment then incRef else decRef) (T.nodeCounter + 1) T node
  else none

/-- `total_size`. -/
def totalSize (T : CppRadixTree σ) : Option ℕ :=
  depthFirstSum (fun n => (T.nodes n).children.values) (fun n => (T.nodes n).tokens.length)
    (T.nodeCounter + 1) [0] 0

/-- `reset`. -/
def reset (T : CppRadixTree σ) : Option (CppRadixTree σ) :=
  let root := T.nodes 0
  if root.refCount = 1 ∧ root.parent = none ∧ root.tokens = [] ∧ root.deviceIndices = none then
    some { (T.modify 0 fun n => { n with children := ∅ }) with
      nodeCounter := 1
      evictableSize := 0
      protectedSize := 0
      nodeMap := [0] }
  else none

/-- `_merge_tensor`. -/
def mergeTensor (l : List (List σ)) : List σ := l.flatten

end CppRadixTree

end Sglang
