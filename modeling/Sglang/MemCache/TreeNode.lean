/-
# Tree nodes, page hashes, cache events and eviction priorities

The small pieces the radix caches are built from: the `TreeNode` record of `radix_cache.py`, the
hashing helpers of `mem_cache/utils.py` and `RadixKey.hash_page`, the events of
`disaggregation/kv_events.py`, and the strategies of `evict_policy.py`.

Three things of the runtime are parameters of the configuration.  `sha256` is the digest function
of `hashlib`; `monotonic i` is what the `i`-th call of `time.monotonic()` returned; and `tieBreak`
is the choice the binary heap makes between entries that compare equal, which in the source
depends on the iteration order of a set.

Node identity is the identity of the Python object, so a `NodeId` is the number of objects
created before it, and a node that was unlinked from the tree keeps its record.
-/
import Sglang.MemCache.RadixKey
import Mathlib.Data.List.AList

namespace Sglang

open Lib

/-! ## 1. Page hashes -/

/-- The 32 bytes of a SHA-256 digest; the source passes them around as a hex string. -/
abbrev Digest := Vector UInt8 32

/-- `t.to_bytes(4, byteorder="little", signed=False)`; `none` is its `OverflowError`. -/
def tokenBytes (t : Token) : Option (List UInt8) :=
  if t < 2 ^ 32 then
    some [UInt8.ofNat (t % 256), UInt8.ofNat (t / 256 % 256), UInt8.ofNat (t / 65536 % 256),
      UInt8.ofNat (t / 16777216 % 256)]
  else none

/-- The bytes of one logical unit: a bigram feeds both of its tokens. -/
def Atom.bytes : Atom → Option (List UInt8)
  | .tok t => tokenBytes t
  | .bigram t t' => do return (← tokenBytes t) ++ (← tokenBytes t')

/-- `get_hash_str`: the digest of a page of units, chained to the hash before it. -/
def getHashStr (sha256 : List UInt8 → Digest) (units : List Atom) (priorHash : Option Digest) :
    Option Digest := do
  let bytes ← units.mapM Atom.bytes
  return sha256 ((priorHash.map Vector.toList).getD [] ++ bytes.flatten)

/-- `RadixKey.hash_page` on the logical units `[start, stop)`. -/
def RadixKey.hashPage (sha256 : List UInt8 → Digest) (k : RadixKey) (start stop : ℕ)
    (priorHash : Option Digest) : Option Digest :=
  getHashStr sha256 ((k.iter.take stop).drop start) priorHash

/-- `hash_str_to_int64`: the first 16 hex digits as a signed 64-bit integer. -/
def hashStrToInt64 (h : Digest) : ℤ :=
  let u : ℕ := (h.toList.take 8).foldl (fun acc b => acc * 256 + b.toNat) 0
  if u ≥ 2 ^ 63 then (u : ℤ) - 2 ^ 64 else u

/-- `range(0, logical_len, page_size)`. -/
def pageStarts (len pageSize : ℕ) : List ℕ :=
  (List.range ((len + pageSize - 1) / pageSize)).map fun i => i * pageSize

/-- The loop of `compute_node_hash_values`: each page is chained to the one before. -/
def hashPages (sha256 : List UInt8 → Digest) (k : RadixKey) (pageSize : ℕ) :
    List ℕ → Option Digest → Option (List Digest)
  | [], _ => some []
  | start :: starts, parentHash => do
    let stop := min (start + pageSize) k.len
    let h ← k.hashPage sha256 start stop parentHash
    let hs ← hashPages sha256 k pageSize starts (some h)
    return h :: hs

/-- `split_node_hash_value`: the pages before the cut and the pages behind it. -/
def splitNodeHashValue (childHashValue : Option (List Digest)) (splitLen pageSize : ℕ) :
    Option (List Digest) × Option (List Digest) :=
  match childHashValue with
  | none => (none, none)
  | some hs =>
    let splitPages := if pageSize = 1 then splitLen else splitLen / pageSize
    (some (hs.take splitPages), some (hs.drop splitPages))

/-! ## 2. Nodes -/

/-- The identity of a node object. -/
abbrev NodeId := ℕ

/-- A Python dict. -/
abbrev Dict (κ ν : Type) := AList (fun _ : κ => ν)

/-- `dict.values()`. -/
def Dict.values {κ ν : Type} (d : Dict κ ν) : List ν := d.entries.map fun e => e.2

/-- `TreeNode`.  `value` and `hostValue` are the slots of the node's units on the device and on
the host; `none` is Python's `None`. -/
structure TreeNode (σ : Type) where
  children : Dict ChildKey NodeId
  parent : Option NodeId
  key : RadixKey
  value : Option (List σ)
  lockRef : ℤ
  lastAccessTime : ℤ
  creationTime : ℤ
  hitCount : ℕ
  hostRefCounter : ℕ
  hostValue : Option (List σ)
  hashValue : Option (List Digest)
  priority : ℤ

/-- `TreeNode.evicted`. -/
def TreeNode.evicted {σ : Type} (n : TreeNode σ) : Bool := n.value.isNone

/-- `TreeNode.backuped`. -/
def TreeNode.backuped {σ : Type} (n : TreeNode σ) : Bool := n.hostValue.isSome

/-- `TreeNode.get_last_hash_value`. -/
def TreeNode.getLastHashValue {σ : Type} (n : TreeNode σ) : Option Digest :=
  n.hashValue.bind List.getLast?

/-- The fields `TreeNode.__init__` sets; `key` is filled in by the caller. -/
def TreeNode.init {σ : Type} (priority lastAccessTime creationTime : ℤ) : TreeNode σ where
  children := ∅
  parent := none
  key := ⟨[], none, false⟩
  value := none
  lockRef := 0
  lastAccessTime := lastAccessTime
  creationTime := creationTime
  hitCount := 0
  hostRefCounter := 0
  hostValue := none
  hashValue := none
  priority := priority

/-! ## 3. Events -/

/-- `StorageMedium`: the tier an event is about. -/
inductive StorageMedium where
  | gpu
  | cpu
  | disk
  | external
deriving DecidableEq, Repr

/-- The KV cache events a router consumes. -/
inductive KVCacheEvent where
  | blockStored (blockHashes : List ℤ) (parentBlockHash : Option ℤ) (tokenIds : List Atom)
      (blockSize : ℕ) (loraId : Option ℕ) (medium : StorageMedium)
  | blockRemoved (blockHashes : List ℤ) (medium : StorageMedium)
  | allBlocksCleared
deriving DecidableEq, Repr

/-- The loop of `_record_store_event`: one `BlockStored` a page, linked to the page before.  The
guard `end <= start` of the source is false at every start of the range. -/
def storeEvents (k : RadixKey) (pageSize : ℕ) (medium : StorageMedium) (hashValue : List Digest) :
    List ℕ → ℕ → Option ℤ → Option (List KVCacheEvent)
  | [], _, _ => some []
  | start :: starts, pageIndex, parentBlockHash => do
    let stop := min (start + pageSize) k.len
    let pageTokens := (k.iter.take stop).drop start
    let h ← hashValue[pageIndex]?
    let blockHash := hashStrToInt64 h
    let es ← storeEvents k pageSize medium hashValue starts (pageIndex + 1) (some blockHash)
    return .blockStored [blockHash] parentBlockHash pageTokens pageTokens.length none medium :: es

/-- The loop of `_record_remove_event`: one `BlockRemoved` a page. -/
def removeEvents (medium : StorageMedium) (hashValue : List Digest) :
    List ℕ → ℕ → Option (List KVCacheEvent)
  | [], _ => some []
  | _ :: starts, pageIndex => do
    let h ← hashValue[pageIndex]?
    let es ← removeEvents medium hashValue starts (pageIndex + 1)
    return .blockRemoved [hashStrToInt64 h] medium :: es

/-! ## 4. Eviction priorities -/

/-- The supported values of `eviction_policy`. -/
inductive EvictionPolicy where
  | lru
  | lfu
  | fifo
  | mru
  | filo
  | priority
  | slru
deriving DecidableEq, Repr

/-- `EvictionStrategy.get_priority`: smaller is evicted first.  A float is a one-element list and
a tuple the list of its entries; `SLRUStrategy` uses its default threshold 2. -/
def EvictionPolicy.getPriority {σ : Type} (policy : EvictionPolicy) (n : TreeNode σ) : List ℤ :=
  match policy with
  | .lru => [n.lastAccessTime]
  | .lfu => [n.hitCount, n.lastAccessTime]
  | .fifo => [n.creationTime]
  | .mru => [-n.lastAccessTime]
  | .filo => [-n.creationTime]
  | .priority => [n.priority, n.lastAccessTime]
  | .slru => [if n.hitCount ≥ 2 then 1 else 0, n.lastAccessTime]

/-- What a cache is configured with, and what the runtime supplies. -/
structure CacheConfig where
  pageSize : ℕ
  isEagle : Bool
  enableKvCacheEvents : Bool
  disableFinishedInsert : Bool
  evictionPolicy : EvictionPolicy
  sha256 : List UInt8 → Digest
  monotonic : ℕ → ℤ
  tieBreak : List (List ℤ × NodeId) → ℕ
  pageSize_pos : 0 < pageSize

/-- How heap entries compare: by the priority, and on equal priorities by `TreeNode.__lt__`, that
is by the last access time. -/
def heapRank {σ : Type} (nodes : NodeId → TreeNode σ) (e : List ℤ × NodeId) : List ℤ :=
  e.1 ++ [(nodes e.2).lastAccessTime]

/-- The entries no other entry is below of. -/
def heapLeast {σ : Type} (nodes : NodeId → TreeNode σ) (heap : List (List ℤ × NodeId)) :
    List (List ℤ × NodeId) :=
  heap.filter fun e => heap.all fun e' => decide (heapRank nodes e ≤ heapRank nodes e')

/-- `heapq.heappop` on pairs of a priority and a node: a least entry leaves the heap. -/
def heappop {σ : Type} (cfg : CacheConfig) (nodes : NodeId → TreeNode σ)
    (heap : List (List ℤ × NodeId)) : Option (NodeId × List (List ℤ × NodeId)) :=
  let least := heapLeast nodes heap
  (least[cfg.tieBreak heap % least.length]?).map fun e => (e.2, heap.erase e)

variable {σ : Type} {heap : List (List ℤ × NodeId)}

theorem heappop_least {cfg : CacheConfig} {nodes : NodeId → TreeNode σ}
    {heap' : List (List ℤ × NodeId)} {x : NodeId}
    (h : heappop cfg nodes heap = some (x, heap')) :
    ∃ e ∈ heapLeast nodes heap, e.2 = x ∧ heap' = heap.erase e := by
  obtain ⟨e, he, heq⟩ := Option.map_eq_some_iff.mp h
  cases heq
  exact ⟨e, List.mem_of_getElem? he, rfl, rfl⟩

theorem mem_heapLeast {nodes : NodeId → TreeNode σ} {e : List ℤ × NodeId} : e ∈ heapLeast nodes heap
      ↔ e ∈ heap ∧ ∀ e' ∈ heap, heapRank nodes e ≤ heapRank nodes e' := by
  simp [heapLeast]

theorem exists_heappop (cfg : CacheConfig) (nodes : NodeId → TreeNode σ) (h : heap ≠ []) :
    ∃ r, heappop cfg nodes heap = some r := by
  obtain ⟨e, he, hmin⟩ := heap.toFinset.exists_min_image (heapRank nodes)
    (by simpa [List.toFinset_nonempty_iff] using h)
  have hmem : e ∈ heapLeast nodes heap := by
    refine List.mem_filter.mpr ⟨List.mem_toFinset.mp he, ?_⟩
    rw [List.all_eq_true]
    exact fun e' he' => decide_eq_true (hmin e' (List.mem_toFinset.mpr he'))
  have hlt : cfg.tieBreak heap % (heapLeast nodes heap).length < (heapLeast nodes heap).length :=
    Nat.mod_lt _ (List.length_pos_of_mem hmem)
  exact ⟨_, by rw [heappop, List.getElem?_eq_getElem hlt]; rfl⟩

end Sglang
