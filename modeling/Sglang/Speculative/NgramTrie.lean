/-
# The n-gram trie

A transcription of `Trie` (`ngram_corpus/trie.h`, `trie.cpp`): the windows of the token lists that were
inserted, in nodes from a fixed pool.  Every node keeps its children three times, as a map, in the
order of their last use and in the order of their frequency; all nodes but the root are in one list in the
order of their last use, from whose end `squeeze` takes nodes back.

A node is its index in `nodes_`, a map the list of its entries, and the multiset of the children the list
in which it is iterated.  The iterators into the two lists are not kept: a list holds a node at most once,
and erasing at its position is erasing the node.  The free part of `node_pool_` is a stack, its top first.
`none` is an exception, or a step without a defined result such as taking a node from an empty pool.
`freq` is an `int32_t` and never larger than the number of tokens counted (`CountsTo`); here it is a natural
number, as `version` and the epoch are, which have 64 bits.
-/
import Sglang.Lib.AssocList
import Sglang.Lib.ParentsFirst

namespace Sglang

open Lib Lib.AssocList

/-! ## 1. Nodes -/

/-- `TrieNode`. -/
structure TrieNode where
  child : List (ℤ × ℕ) := []
  token : ℤ := 0
  parent : ℕ := 0
  lru : List ℕ := []
  freq : ℕ := 0
  version : ℕ := 1
  sortedChildren : List ℕ := []

/-- `Trie`. -/
structure Trie where
  nodes : ℕ → TrieNode
  capacity : ℕ
  nodePool : List ℕ
  globalLru : List ℕ
  root : ℕ
  maxTrieDepth : ℕ
  trieEpoch : ℕ

namespace Trie

/-- The number of free nodes. -/
def freeNodeCount (t : Trie) : ℕ := t.nodePool.length

/-- A node is changed. -/
def modify (t : Trie) (p : ℕ) (f : TrieNode → TrieNode) : Trie :=
  { t with nodes := Function.update t.nodes p (f (t.nodes p)) }

/-- `getNode`. -/
def getNode (t : Trie) : Option (ℕ × Trie) :=
  match t.nodePool with
  | [] => none
  | node :: pool =>
    some (node, { t.modify node fun n => { version := n.version } with nodePool := pool })

/-- `CompareByFreq`: by falling frequency, then token, then address. -/
def compareByFreq (t : Trie) (a b : ℕ) : Bool :=
  (t.nodes b).freq < (t.nodes a).freq ||
    (t.nodes b).freq == (t.nodes a).freq &&
      ((t.nodes a).token < (t.nodes b).token || (t.nodes a).token == (t.nodes b).token && a < b)

/-- `multiset::insert`: in front of the first larger element. -/
def sortedInsert (t : Trie) (l : List ℕ) (node : ℕ) : List ℕ :=
  l.takeWhile (fun b => !t.compareByFreq node b) ++
    node :: l.dropWhile (fun b => !t.compareByFreq node b)

/-- `multiset::erase` of a key: every equivalent element. -/
def sortedErase (t : Trie) (l : List ℕ) (node : ℕ) : List ℕ :=
  l.filter fun b => t.compareByFreq node b || t.compareByFreq b node

/-! ## 2. Growing and shrinking -/

/-- The nodes in the pool, the root taken. -/
def refill (t : Trie) : Option Trie := do
  let (root, t) ← { t with globalLru := [], nodePool := (List.range t.capacity).reverse }.getNode
  return { t with root := root }

/-- `Trie::Trie`. -/
def new (capacity maxTrieDepth : ℕ) : Option Trie :=
  refill ⟨fun _ => {}, capacity, [], [], 0, maxTrieDepth, 1⟩

/-- `reset`. -/
def reset (t : Trie) : Option Trie := refill { t with trieEpoch := t.trieEpoch + 1 }

/-- The branch of `insert` for a token without a child. -/
def addChild (t : Trie) (cursor : ℕ) (token : ℤ) : Option (ℕ × Trie) := do
  let (node, t) ← t.getNode
  let t := t.modify cursor fun c => { c with child := (token, node) :: c.child }
  let t := t.modify cursor fun c => { c with lru := node :: c.lru }
  let t := { t with globalLru := t.globalLru ++ [node] }
  let t := t.modify node fun n => { n with token := token, parent := cursor, freq := 1 }
  return (node, t.modify cursor fun c => { c with sortedChildren := t.sortedInsert c.sortedChildren node })

/-- The branch of `insert` for a token with a child. -/
def useChild (t : Trie) (cursor node : ℕ) : Trie :=
  let t := t.modify cursor fun c => { c with sortedChildren := t.sortedErase c.sortedChildren node }
  let t := t.modify node fun n => { n with freq := n.freq + 1 }
  let t := t.modify cursor fun c => { c with sortedChildren := t.sortedInsert c.sortedChildren node }
  t.modify cursor fun c => { c with lru := moveFront node c.lru }

/-- The loop of `insert` down the trie; the nodes it visits are collected. -/
def descend (t : Trie) (cursor : ℕ) (path : List ℕ) : List ℤ → Option (List ℕ × Trie)
  | [] => some (path, t)
  | token :: rest =>
    match (t.nodes cursor).child.lookup token with
    | none => do
      let (node, t) ← t.addChild cursor token
      t.descend node (path ++ [node]) rest
    | some node => (t.useChild cursor node).descend node (path ++ [node]) rest

/-- The rest of a round of `squeeze`, once the node is out of the list and has no children. -/
def evictNode (t : Trie) (last : ℕ) : Trie :=
  let parent := (t.nodes last).parent
  let t := t.modify parent fun p => { p with lru := p.lru.erase last }
  let t := t.modify parent fun p => { p with sortedChildren := t.sortedErase p.sortedChildren last }
  let t := t.modify parent fun p => { p with child := eraseEntry (t.nodes last).token p.child }
  let t := t.modify last fun n => { n with version := n.version + 1 }
  { t with nodePool := last :: t.nodePool }

/-- One round of the loop of `squeeze`. -/
def evictLast (t : Trie) : Option Trie :=
  match t.globalLru.getLast? with
  | none => none
  | some last =>
    let t := { t with globalLru := t.globalLru.dropLast }
    if (t.nodes last).child ≠ [] then none else some (t.evictNode last)

/-- The loop of `squeeze`. -/
def evictMany : ℕ → Trie → Option Trie
  | 0, t => some t
  | count + 1, t => t.evictLast.bind (evictMany count)

/-- `squeeze`. -/
def squeeze (t : Trie) (count : ℕ) : Option Trie :=
  if t.freeNodeCount + count ≤ t.capacity then evictMany count t else none

/-- The nodes on the path of a window are found or made, and moved to the front. -/
def place (t : Trie) (window : List ℤ) : Option Trie := do
  let (path, t) ← t.descend t.root [] window
  return { t with globalLru := path.reverse.foldl (fun l node => moveFront node l) t.globalLru }

/-- One round of the loop of `insert`. -/
def insertWindow (t : Trie) (window : List ℤ) : Option Trie :=
  (if t.freeNodeCount < window.length then t.squeeze (window.length - t.freeNodeCount)
    else some t).bind fun t => t.place window

/-- `insert`: a window from every position. -/
def insert (t : Trie) : List ℤ → Option Trie
  | [] => some t
  | token :: rest => do
    let t ← t.insertWindow ((token :: rest).take t.maxTrieDepth)
    t.insert rest

/-! ## 3. Lookups -/

/-- The node that the tokens lead to, as the loop of `rebuildMatchState_` finds it. -/
def find (t : Trie) : ℕ → List ℤ → Option ℕ
  | cursor, [] => some cursor
  | cursor, token :: rest =>
    match (t.nodes cursor).child.lookup token with
    | none => none
    | some node => t.find node rest

@[simp] theorem find_nil (t : Trie) (p : ℕ) : t.find p [] = some p := rfl

theorem find_cons (t : Trie) (p : ℕ) (token : ℤ) (w : List ℤ) :
    t.find p (token :: w) = ((t.nodes p).child.lookup token).bind (t.find · w) := by
  rw [find]
  cases (t.nodes p).child.lookup token <;> rfl

theorem find_append (t : Trie) : ∀ (u : List ℤ) (p : ℕ) (w : List ℤ),
    t.find p (u ++ w) = (t.find p u).bind (t.find · w)
  | [], _, _ => rfl
  | token :: u, p, w => by
    rw [List.cons_append, find_cons, find_cons, Option.bind_assoc]
    congr 1
    funext q
    exact find_append t u q w

theorem find_concat (t : Trie) (u : List ℤ) (p : ℕ) (token : ℤ) :
    t.find p (u ++ [token]) = (t.find p u).bind fun q => (t.nodes q).child.lookup token := by
  rw [find_append]
  congr 1
  funext q
  rw [find_cons]
  cases (t.nodes q).child.lookup token <;> rfl

theorem find_reorder (t : Trie) (l : List ℕ) : ∀ (w : List ℤ) (p : ℕ),
    { t with globalLru := l }.find p w = t.find p w
  | [], _ => rfl
  | token :: w, p => by
    rw [find_cons, find_cons]
    congr 1
    funext c
    exact find_reorder t l w c

end Trie

end Sglang
