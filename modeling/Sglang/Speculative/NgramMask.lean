/-
# The mask of an n-gram draft tree

A transcription of `fillResult` and `Result::truncate` (`result.cpp`) and of the kernel
`reconstructIndicesFromTreeMask` (`ngram_utils.cu`).  The first lists a draft tree breadth first, fills
up with padding, and writes the tree as a square mask: the row of a position is the row of its parent
with the position itself added.  The kernel reads the tree back from the mask, each thread on its own.

An `unordered_map` is the list of its entries in the order in which it is iterated.  `memcpy` copies
byte by byte from the front; the areas of `truncate` may overlap, with the destination below, where C++
leaves the result undefined.
-/
import Sglang.Lib.ParentTree

namespace Sglang

open Lib Lib.ParentTree List Function

/-! ## 1. Filling -/

/-- `Node`. -/
structure NgramNode where
  next : List (ℤ × ℕ)

/-- `Result`. -/
structure NgramResult where
  token : List ℤ
  mask : List Bool

namespace NgramResult

/-- `memcpy` within one vector. -/
def memcpy (m : List Bool) (dst src len : ℕ) : List Bool :=
  (List.range len).foldl (fun m k => m.set (dst + k) (m.getD (src + k) false)) m

/-- The children of a node in the order of its map, with their tokens. -/
def entries (tree : List NgramNode) (i : ℕ) : List (ℤ × ℕ) := (tree.getD i ⟨[]⟩).next

/-- The loop over the queue of `fillResult`: entries are a token, a node and the position of its
parent. -/
def fillLoop (tree : List NgramNode) : ℕ → List (ℤ × ℕ × ℕ) → List ℤ → List ℤ →
    Option (List ℤ × List ℤ)
  | 0, _, _, _ => none
  | _ + 1, [], token, prevs => some (token, prevs)
  | fuel + 1, (tok, next, prev) :: queue, token, prevs =>
    let token := token ++ [tok]
    let prevs := prevs ++ [(prev : ℤ)]
    fillLoop tree fuel
      (queue ++ (entries tree next).map fun e => (e.1, e.2, token.length - 1)) token prevs

/-- One round of the loop that fills the mask. -/
def fillRow (n : ℕ) (prevs : List ℤ) (mask : List Bool) (i : ℕ) : List Bool :=
  let prev := prevs.getD i (-1)
  let mask := if prev ≠ -1 then memcpy mask (i * n) (prev.toNat * n) (prev.toNat + 1) else mask
  mask.set (i * n + i) true

/-- The mask of a listing. -/
def fillMask (prevs : List ℤ) : List Bool :=
  let n := prevs.length
  (List.range n).foldl (fillRow n prevs) ((List.replicate (n * n) false).set 0 true)

/-- `fillResult`. -/
def fillResult (lastToken : ℤ) (draftTokenNum : ℕ) (tree : List NgramNode) (root : ℕ) :
    Option NgramResult := do
  let queue := (entries tree root).map fun e => (e.1, e.2, 0)
  let (token, prevs) ← fillLoop tree (tree.length + 1) queue [lastToken] [-1]
  let token := token ++ List.replicate (draftTokenNum - token.length) 0
  let prevs := prevs ++ List.replicate (draftTokenNum - prevs.length) 0
  return ⟨token, fillMask prevs⟩

/-- `Result::truncate`. -/
def truncate (r : NgramResult) (n : ℕ) : NgramResult :=
  if n < r.token.length then
    let fullN := r.token.length
    let mask := (List.range' 1 (n - 1)).foldl
      (fun mask i => memcpy mask (i * n) (i * fullN) n) r.mask
    ⟨r.token.take n, mask.take (n * n)⟩
  else r

end NgramResult

/-! ## 2. Reading back -/

/-- What a thread of `reconstructIndicesFromTreeMask` writes for its position. -/
structure TreeIndices where
  position : ℕ
  retriveIndex : ℕ
  retriveNextToken : ℤ
  retriveNextSibling : ℤ
deriving DecidableEq

namespace TreeIndices

variable (treeMask : ℕ → Bool) (n bid tid : ℕ)

/-- The bit of a row and a column in the mask of the request. -/
def bit (i j : ℕ) : Bool := treeMask (bid * (n * n) + i * n + j)

/-- The loop that runs down the row of the thread: the depth and the parent so far. -/
def scanRow : ℕ → ℕ × ℤ → ℕ × ℤ
  | 0, r => r
  | i + 1, (depth, parentIdx) =>
    scanRow i (if bit treeMask n bid tid i then (depth + 1, if parentIdx = -1 then (i : ℤ) else parentIdx)
      else (depth, parentIdx))

/-- A loop from `tid + 1` that breaks at the first row that passes, `-1` if none does. -/
def firstRow (test : ℕ → Bool) : ℤ :=
  match (List.range' (tid + 1) (n - (tid + 1))).find? test with
  | some i => i
  | none => -1

/-- `is_sibling` for the row `i`: the bit of the parent, and none between it and the diagonal. -/
def isSibling (parentIdx i : ℕ) : Bool :=
  bit treeMask n bid i parentIdx &&
    !(List.range' (parentIdx + 1) (i - (parentIdx + 1))).any (bit treeMask n bid i)

/-- `reconstructIndicesFromTreeMask`, one thread. -/
def reconstruct (verifiedSeqLen : ℕ → ℕ) : TreeIndices :=
  let (depth, parentIdx) := scanRow treeMask n bid tid tid (0, -1)
  { position := depth + verifiedSeqLen bid
    retriveIndex := bid * n + tid
    retriveNextToken := firstRow n tid fun i => bit treeMask n bid i tid
    retriveNextSibling :=
      if parentIdx ≠ -1 then firstRow n tid (isSibling treeMask n bid parentIdx.toNat) else -1 }

end TreeIndices

/-! ## 3. Copies -/

namespace NgramResult

theorem length_memcpy (m : List Bool) (dst src len : ℕ) : (memcpy m dst src len).length = m.length := by
  unfold memcpy
  induction len with
  | zero => rfl
  | succ len ih => rw [range_succ, foldl_append, foldl_cons, foldl_nil,
      length_set, ih]

variable {i : ℕ}

theorem getD_set (m : List Bool) (hi : i < m.length) (a : ℕ) (x : Bool) :
    (m.set i x).getD a false = if a = i then x else m.getD a false := by
  rw [getD_eq_getElem?_getD, getElem?_set, getD_eq_getElem?_getD]
  by_cases h : i = a
  · subst h
    simp [hi]
  · rw [if_neg h, if_neg (fun e => h e.symm)]

/-- **A copy that does not run over its source** copies what was there. -/
theorem getD_memcpy (m : List Bool) (dst src : ℕ) : ∀ (len : ℕ), (dst ≤ src ∨ src + len ≤ dst) →
    dst + len ≤ m.length → ∀ a, (memcpy m dst src len).getD a false
      = if dst ≤ a ∧ a < dst + len then m.getD (src + (a - dst)) false else m.getD a false
  | 0, _, _, a => by
    rw [if_neg (by omega)]
    rfl
  | len + 1, h, hlen, a => by
    have ih := getD_memcpy m dst src len (by omega) (by omega)
    have hstep : memcpy m dst src (len + 1) = (memcpy m dst src len).set (dst + len)
        ((memcpy m dst src len).getD (src + len) false) := by
      rw [memcpy, range_succ, foldl_append]
      rfl
    rw [hstep, getD_set _ (by rw [length_memcpy]; omega), ih, ih]
    by_cases ha : a = dst + len
    · subst ha
      rw [if_pos rfl, if_neg (by omega), if_pos (by omega), Nat.add_sub_cancel_left]
    · rw [if_neg ha]
      by_cases hr : dst ≤ a ∧ a < dst + len
      · rw [if_pos hr, if_pos (by omega)]
      · rw [if_neg hr, if_neg (by omega)]

/-! ## 4. The listing -/

/-- The children of a node. -/
def kids (tree : List NgramNode) (i : ℕ) : List ℕ := (entries tree i).map Prod.snd

/-- The array holds a tree with this root: `size` nodes, all below it. -/
structure HoldsTree (tree : List NgramNode) (root size : ℕ) : Prop where
  root_lt : root < size
  size_le : size ≤ tree.length
  lt : ∀ i < size, ∀ c ∈ kids tree i, c < size ∧ c ≠ root
  nodup : ∀ i < size, (kids tree i).Nodup
  parent_unique : ∀ i < size, ∀ j < size, ∀ c ∈ kids tree i, c ∈ kids tree j → i = j
  reach : ∀ S : ℕ → Prop, S root → (∀ i < size, S i → ∀ c ∈ kids tree i, S c) → ∀ i < size, S i

/-- The list is a breadth-first listing: behind the root, the children of its nodes in turn. -/
def BreadthFirst (tree : List NgramNode) (root : ℕ) (order : List ℕ) : Prop :=
  order = root :: order.flatMap (kids tree)

section Listing

variable {tree : List NgramNode} {root size : ℕ} {order : List ℕ}

variable {l : List ℕ}

theorem HoldsTree.nodup_flatMap (h : HoldsTree tree root size) (hl : ∀ i ∈ l, i < size)
    (hnd : l.Nodup) : (root :: l.flatMap (kids tree)).Nodup := by
  refine nodup_cons.mpr ⟨fun hm => ?_, List.nodup_flatMap.mpr ⟨fun i hi => h.nodup i (hl i hi), ?_⟩⟩
  · obtain ⟨i, hi, hc⟩ := mem_flatMap.mp hm
    exact (h.lt i (hl i hi) root hc).2 rfl
  · refine List.Pairwise.imp_of_mem ?_ hnd
    intro i j hi hj hne
    exact fun c hc hc' => hne (h.parent_unique i (hl i hi) j (hl j hj) c hc hc')

theorem HoldsTree.lt_flatMap (h : HoldsTree tree root size) (hl : ∀ i ∈ l, i < size) :
    ∀ i ∈ root :: l.flatMap (kids tree), i < size := by
  intro i hi
  rcases mem_cons.mp hi with rfl | hi
  · exact h.root_lt
  · obtain ⟨j, hj, hc⟩ := mem_flatMap.mp hi
    exact (h.lt j (hl j hj) i hc).1

theorem length_le_of_nodup (hnd : l.Nodup) (hl : ∀ i ∈ l, i < size) : l.length ≤ size := by
  have hsub : l ⊆ List.range size := fun i hi => mem_range.mpr (hl i hi)
  simpa using (hnd.subperm hsub).length_le

/-- What the loop over the queue keeps, when `done` are the nodes whose entries it has taken. -/
structure Listing (tree : List NgramNode) (root : ℕ) (lastToken : ℤ) (done : List ℕ)
    (queue : List (ℤ × ℕ × ℕ)) (token prevs : List ℤ) : Prop where
  nodes : done ++ queue.map (·.2.1) = root :: done.flatMap (kids tree)
  tokens : token ++ queue.map (·.1)
    = lastToken :: done.flatMap fun i => (entries tree i).map Prod.fst
  prevs_eq : prevs ++ queue.map (fun e => (e.2.2 : ℤ))
    = -1 :: done.zipIdx.flatMap fun x => (kids tree x.1).map fun _ => (x.2 : ℤ)
  length_token : token.length = done.length
  length_prevs : prevs.length = done.length
  queue_lt : ∀ e ∈ queue, e.2.2 < done.length
  prevs_lt : ∀ p, 0 < p → p < done.length → ∃ k < p, prevs[p]? = some (k : ℤ)

variable {lastToken : ℤ} {prevs : List ℤ}

theorem Listing.step {tok : ℤ} {done : List ℕ} {next prev : ℕ} {queue : List (ℤ × ℕ × ℕ)}
    {token : List ℤ}
    (h : Listing tree root lastToken done ((tok, next, prev) :: queue) token prevs) :
    Listing tree root lastToken (done ++ [next])
      (queue ++ (entries tree next).map fun e => (e.1, e.2, (token ++ [tok]).length - 1))
      (token ++ [tok]) (prevs ++ [(prev : ℤ)]) := by
  have hlen : (token ++ [tok]).length - 1 = done.length := by
    rw [length_append, length_singleton, Nat.add_sub_cancel, h.length_token]
  have hprev := h.queue_lt _ mem_cons_self
  rw [hlen]
  refine ⟨?_, ?_, ?_, ?_, ?_, fun e he => ?_, fun p h0 hp => ?_⟩
  · have := congrArg (· ++ kids tree next) h.nodes
    simpa [kids, flatMap_append, comp_def] using this
  · have := congrArg (· ++ (entries tree next).map Prod.fst) h.tokens
    simpa [flatMap_append, comp_def] using this
  · have := congrArg (· ++ (kids tree next).map fun _ => (done.length : ℤ)) h.prevs_eq
    simpa [kids, flatMap_append, zipIdx_append, comp_def] using this
  · rw [length_append, length_append, h.length_token]
    rfl
  · rw [length_append, length_append, h.length_prevs]
    rfl
  · rw [length_append]
    rcases mem_append.mp he with he | he
    · have := h.queue_lt e (mem_cons_of_mem _ he)
      omega
    · obtain ⟨x, -, rfl⟩ := mem_map.mp he
      exact Nat.lt_succ_self _
  · rw [length_append, length_singleton] at hp
    by_cases hpd : p < done.length
    · obtain ⟨k, hk, hget⟩ := h.prevs_lt p h0 hpd
      exact ⟨k, hk, by rw [getElem?_append_left (by rw [h.length_prevs]; omega)]; exact hget⟩
    · have hpe : p = done.length := by omega
      refine ⟨prev, by rw [hpe]; exact hprev, ?_⟩
      rw [hpe, getElem?_append_right (by rw [h.length_prevs]), h.length_prevs, Nat.sub_self]
      rfl

/-- **The queue runs empty**, and what was taken from it is a breadth-first listing. -/
theorem fillLoop_spec (h : HoldsTree tree root size) : ∀ (fuel : ℕ) (done : List ℕ)
    (queue : List (ℤ × ℕ × ℕ)) (token prevs : List ℤ),
    Listing tree root lastToken done queue token prevs → done.Nodup → (∀ i ∈ done, i < size) →
    0 < done.length → size < done.length + fuel →
    ∃ order token' prevs', fillLoop tree fuel queue token prevs = some (token', prevs') ∧
      Listing tree root lastToken order [] token' prevs' ∧ order.Nodup ∧ ∀ i ∈ order, i < size
  | 0, done, _, _, _, _, hnd, hlt, _, hfuel => by
    have := length_le_of_nodup hnd hlt
    omega
  | fuel + 1, done, [], token, prevs, hl, hnd, hlt, _, _ => ⟨done, token, prevs, rfl, hl, hnd, hlt⟩
  | fuel + 1, done, (tok, next, prev) :: queue, token, prevs, hl, hnd, hlt, hpos, hfuel => by
    have hall := h.nodup_flatMap hlt hnd
    have hall' := h.lt_flatMap hlt
    rw [← hl.nodes] at hall hall'
    have hsub : (done ++ [next]).Sublist
        (done ++ ((tok, next, prev) :: queue).map (fun e => e.2.1)) := by
      exact (singleton_sublist.mpr mem_cons_self).append_left done
    exact fillLoop_spec h fuel (done ++ [next]) _ _ _ hl.step (hall.sublist hsub)
      (fun i hi => hall' i (hsub.subset hi)) (by simp)
      (by rw [length_append, length_singleton]; omega)

theorem listing_start (tree : List NgramNode) (root : ℕ) (lastToken : ℤ) :
    Listing tree root lastToken [root] ((entries tree root).map fun e => (e.1, e.2, 0)) [lastToken]
      [-1] := by
  refine ⟨?_, ?_, ?_, rfl, rfl, fun e he => ?_, fun p h0 hp => ?_⟩
  · simp [kids, comp_def]
  · simp [comp_def]
  · simp [kids, comp_def]
  · obtain ⟨x, -, rfl⟩ := mem_map.mp he
    exact Nat.one_pos
  · rw [length_singleton] at hp
    omega

/-- A breadth-first listing without repetition lists every node of the tree. -/
theorem HoldsTree.mem_order (h : HoldsTree tree root size) (hbf : BreadthFirst tree root order)
    (hi : i < size) : i ∈ order := by
  refine h.reach (· ∈ order) ?_ (fun i _ hm c hc => ?_) i hi
  · rw [hbf]; exact mem_cons_self
  · rw [hbf]
    exact mem_cons_of_mem _ (mem_flatMap.mpr ⟨i, hm, hc⟩)

/-- Behind the root, the node at a position is a child of the node at the position before it. -/
theorem Listing.child {token : List ℤ}
    (hl : Listing tree root lastToken order [] token prevs) {p k c : ℕ} (h0 : 0 < p)
    (hc : order[p]? = some c) (hk : prevs[p]? = some (k : ℤ)) :
    ∃ i, order[k]? = some i ∧ c ∈ kids tree i := by
  have hnodes := hl.nodes
  have hprevs := hl.prevs_eq
  rw [map_nil, append_nil] at hnodes hprevs
  obtain ⟨p, rfl⟩ := Nat.exists_eq_add_of_lt h0
  generalize hpairs : (order.zipIdx.flatMap fun x => (kids tree x.1).map fun c => (c, x.2)) = pairs
  have hfst : pairs.map Prod.fst = order.flatMap (kids tree) := by
    rw [← hpairs, map_flatMap]
    simp only [map_map, comp_def, map_id']
    rw [← flatMap_map, zipIdx_map_fst]
  have hsnd : pairs.map (fun x => (x.2 : ℤ))
      = order.zipIdx.flatMap fun x => (kids tree x.1).map fun _ => (x.2 : ℤ) := by
    rw [← hpairs, map_flatMap]
    simp [comp_def]
  rw [hnodes, ← hfst, Nat.zero_add, getElem?_cons_succ, getElem?_map, Option.map_eq_some_iff] at hc
  rw [hprevs, ← hsnd, Nat.zero_add, getElem?_cons_succ, getElem?_map, Option.map_eq_some_iff] at hk
  obtain ⟨x, hx, rfl⟩ := hc
  obtain ⟨y, hy, hyk⟩ := hk
  rw [hx] at hy
  cases hy
  have hmem := mem_of_getElem? hx
  rw [← hpairs] at hmem
  obtain ⟨⟨i, k'⟩, hik, hx'⟩ := mem_flatMap.mp hmem
  obtain ⟨c, hc, rfl⟩ := mem_map.mp hx'
  have hkk : k' = k := by simpa using hyk
  subst hkk
  exact ⟨i, mem_zipIdx_iff_getElem?.mp hik, hc⟩

end Listing

end NgramResult

end Sglang
