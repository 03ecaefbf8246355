/-
# The two radix trees in lockstep

`Sim` relates a state of the Python cache to a state of the C++ tree: the same nodes, named by object
numbers on one side and by handles on the other, with the same tokens, slots, links and references.
Object numbers are never used again while handles start over with every reset, so the two differ by
the number of the current root.  Each step of a walk, each new leaf and each round of a lock walk
keeps the relation.
-/
import Sglang.MemCache.CppRadixTree
import Sglang.MemCache.Invariant

namespace Sglang

open Lib RadixCache List Finset Option RootedTree

variable {σ : Type}

/-! ## 1. What the C++ steps do -/

variable {m : ℕ} {vec : List Token}

namespace CppRadixTree

variable {pageSize : ℕ} {T T' : CppRadixTree σ} {p i len : ℕ} {k : List Token}

@[simp] theorem modify_nodes_self (T : CppRadixTree σ) (n : ℕ) (f : CppTreeNode σ → CppTreeNode σ) :
    (T.modify n f).nodes n = f (T.nodes n) := by simp [modify]

theorem modify_nodes_ne (T : CppRadixTree σ) {n : ℕ} (f : CppTreeNode σ → CppTreeNode σ)
    (h : m ≠ n) : (T.modify n f).nodes m = T.nodes m := by simp [modify, h]

/-- The child `i` of `p` is cut after `len` tokens. -/
structure SplitAt (pageSize : ℕ) (T : CppRadixTree σ) (p : ℕ) (k : List Token) (i len : ℕ)
    (T' : CppRadixTree σ) : Prop where
  nodeCounter : T'.nodeCounter = T.nodeCounter + 1
  nodeMap : T'.nodeMap = T.nodeCounter :: T.nodeMap
  evictableSize : T'.evictableSize = T.evictableSize
  protectedSize : T'.protectedSize = T.protectedSize
  new : T'.nodes T.nodeCounter = ⟨(T.nodes i).tokens.take len,
    (T.nodes i).deviceIndices.map (List.take len), some p,
    AList.singleton (((T.nodes i).tokens.drop len).take pageSize) i, (T.nodes i).refCount,
    (T.nodes i).hitCount⟩
  self : T'.nodes i = { T.nodes i with
    tokens := (T.nodes i).tokens.drop len
    deviceIndices := (T.nodes i).deviceIndices.map (List.drop len)
    parent := some T.nodeCounter }
  parent : T'.nodes p = { T.nodes p with children := (T.nodes p).children.insert k T.nodeCounter }
  other : ∀ m, m ≠ T.nodeCounter → m ≠ i → m ≠ p → T'.nodes m = T.nodes m

theorem splitNode_splitAt (hpar : (T.nodes i).parent = some p) (hpos : 0 < len)
    (hpage : 0 < pageSize) (hlen : len + pageSize ≤ (T.nodes i).tokens.length)
    (hiv : i ≠ T.nodeCounter) (hpv : p ≠ T.nodeCounter) (hpi : p ≠ i) :
    ∃ T', T.splitNode pageSize p k i len = some (T.nodeCounter, T') ∧
      SplitAt pageSize T p k i len T' := by
  have hkey : getKey pageSize ((T.nodes i).tokens.drop len)
      = some (((T.nodes i).tokens.drop len).take pageSize) := by
    rw [getKey, if_pos (by rw [length_drop]; omega)]
  have hguard : 0 < len ∧ len < (T.nodes i).tokens.length := ⟨hpos, by omega⟩
  refine ⟨_, by
    simp only [splitNode, hpar, hkey, bind_eq_bind, bind_some, if_pos hguard]
    rfl, ?_⟩
  constructor
  case other =>
    intro m hmv hmi hmp
    simp [modify, hmv, hmi, hmp]
  all_goals first
    | rfl
    | simp [modify, hpi, hiv, hpv, hpi.symm, hiv.symm, hpv.symm]

/-- All but the two halves keep everything but their children. -/
theorem SplitAt.same (h : SplitAt pageSize T p k i len T') (hmv : m ≠ T.nodeCounter)
    (hmi : m ≠ i) : (T'.nodes m).tokens = (T.nodes m).tokens ∧
      (T'.nodes m).deviceIndices = (T.nodes m).deviceIndices ∧
      (T'.nodes m).parent = (T.nodes m).parent ∧ (T'.nodes m).refCount = (T.nodes m).refCount := by
  by_cases hmp : m = p
  · subst hmp
    rw [h.parent]
    exact ⟨rfl, rfl, rfl, rfl⟩
  · rw [h.other m hmv hmi hmp]
    exact ⟨rfl, rfl, rfl, rfl⟩

/-- A new leaf hangs under the node `p`. -/
structure LeafAt (pageSize : ℕ) (T : CppRadixTree σ) (p : ℕ) (vec : List Token) (indices : List σ)
    (T' : CppRadixTree σ) : Prop where
  nodeCounter : T'.nodeCounter = T.nodeCounter + 1
  nodeMap : T'.nodeMap = T.nodeCounter :: T.nodeMap
  evictableSize : T'.evictableSize = T.evictableSize + vec.length
  protectedSize : T'.protectedSize = T.protectedSize
  new : T'.nodes T.nodeCounter = ⟨vec, some indices, some p, ∅, 0, 0⟩
  parent : T'.nodes p = { T.nodes p with
    children := (T.nodes p).children.insert (vec.take pageSize) T.nodeCounter }
  other : ∀ m, m ≠ T.nodeCounter → m ≠ p → T'.nodes m = T.nodes m

/-- All old nodes keep everything but their children. -/
theorem LeafAt.same {indices : List σ} (h : LeafAt pageSize T p vec indices T')
    (hmv : m ≠ T.nodeCounter) : (T'.nodes m).tokens = (T.nodes m).tokens ∧
      (T'.nodes m).deviceIndices = (T.nodes m).deviceIndices ∧
      (T'.nodes m).parent = (T.nodes m).parent ∧ (T'.nodes m).refCount = (T.nodes m).refCount := by
  by_cases hmp : m = p
  · subst hmp
    rw [h.parent]
    exact ⟨rfl, rfl, rfl, rfl⟩
  · rw [h.other m hmv hmp]
    exact ⟨rfl, rfl, rfl, rfl⟩

theorem createDeviceNode_leafAt {indices : List σ}
    (hlen : pageSize ≤ vec.length) (hpv : p ≠ T.nodeCounter) :
    ∃ T', T.createDeviceNode pageSize p vec indices = some T' ∧
      LeafAt pageSize T p vec indices T' := by
  have hkey : getKey pageSize vec = some (vec.take pageSize) := by rw [getKey, if_pos hlen]
  refine ⟨_, by
    simp only [createDeviceNode, hkey, bind_eq_bind, bind_some]
    rfl, ?_⟩
  constructor
  case other =>
    intro m hmv hmp
    simp [modify, hmv, hmp]
  all_goals first
    | rfl
    | simp [modify, hpv, hpv.symm]

/-- One reference more or less at the node `i`, which moves `d` tokens between the two sizes. -/
structure RefAt (T : CppRadixTree σ) (i : ℕ) (r : ℕ) (d : ℤ) (T' : CppRadixTree σ) : Prop where
  nodeCounter : T'.nodeCounter = T.nodeCounter
  nodeMap : T'.nodeMap = T.nodeMap
  evictableSize : T'.evictableSize = T.evictableSize - d
  protectedSize : T'.protectedSize = T.protectedSize + d
  self : T'.nodes i = { T.nodes i with refCount := r }
  other : ∀ m, m ≠ i → T'.nodes m = T.nodes m

theorem incRef_refAt (T : CppRadixTree σ) (i : ℕ) : ∃ T', T.incRef i = some T' ∧
    RefAt T i ((T.nodes i).refCount + 1)
      (if (T.nodes i).refCount = 0 then (T.nodes i).tokens.length else 0) T' := by
  refine ⟨_, rfl, ?_⟩
  by_cases h0 : (T.nodes i).refCount = 0
  · rw [if_pos h0, if_pos h0]
    exact ⟨rfl, rfl, rfl, rfl, modify_nodes_self _ _ _, fun m hm => modify_nodes_ne _ _ hm⟩
  · rw [if_neg h0, if_neg h0]
    exact ⟨rfl, rfl, (sub_zero _).symm, (add_zero _).symm, modify_nodes_self _ _ _,
      fun m hm => modify_nodes_ne _ _ hm⟩

theorem decRef_refAt (h : (T.nodes i).refCount ≠ 0) : ∃ T', T.decRef i = some T' ∧
    RefAt T i ((T.nodes i).refCount - 1)
      (-(if (T.nodes i).refCount = 1 then (T.nodes i).tokens.length else 0)) T' := by
  have hone : (T.nodes i).refCount - 1 = 0 ↔ (T.nodes i).refCount = 1 := by omega
  have hself := modify_nodes_self T i fun x => { x with refCount := x.refCount - 1 }
  have hother := fun m hm =>
    modify_nodes_ne T (n := i) (m := m) (fun x => { x with refCount := x.refCount - 1 }) hm
  refine ⟨_, by rw [decRef, if_pos h], ?_⟩
  simp only [modify_nodes_self, hone]
  by_cases h1 : (T.nodes i).refCount = 1
  · rw [if_pos h1, if_pos h1]
    exact ⟨rfl, rfl, (sub_neg_eq_add _ _).symm, sub_eq_add_neg _ _, hself, hother⟩
  · rw [if_neg h1, if_neg h1, Nat.cast_zero]
    exact ⟨rfl, rfl, (sub_zero _).symm, (add_zero _).symm, hself, hother⟩

end CppRadixTree

theorem takeTo_plain (l : List Token) (n : ℕ) :
    (⟨l, none, false⟩ : RadixKey).takeTo n = ⟨l.take n, none, false⟩ := by
  have hmin : l.take (min n l.length) = l.take n := by
    rw [← take_take, take_length]
  simp [RadixKey.takeTo, RadixKey.slice, RadixKey.len, hmin]

theorem dropTo_plain (l : List Token) (n : ℕ) :
    (⟨l, none, false⟩ : RadixKey).dropTo n = ⟨l.drop n, none, false⟩ := by
  have hmin : l.drop (min n l.length) = l.drop n := by
    rcases Nat.le_total n l.length with h | h
    · rw [Nat.min_eq_left h]
    · rw [Nat.min_eq_right h, drop_length, drop_eq_nil_of_le h]
  simp [RadixKey.dropTo, RadixKey.slice, RadixKey.len, hmin]

section Plain

variable {p : ℕ} {l k : List Token}

theorem fits_plain (hl : p ∣ l.length) : (⟨l, none, false⟩ : RadixKey).Fits false p := ⟨rfl, hl⟩

theorem label_plain_ne_nil (hl : p ∣ l.length) (h0 : l ≠ []) :
    (⟨l, none, false⟩ : RadixKey).label p ≠ [] := by
  rw [Ne, (fits_plain hl).label_eq_nil]
  exact fun e => h0 (eq_nil_of_length_eq_zero e)

/-- Two keys start with the same page of units when they start with the same page of tokens. -/
theorem head?_label_plain_iff (hp : 0 < p) (hl : p ∣ l.length) (hk : p ∣ k.length) (hl0 : l ≠ [])
    (hk0 : k ≠ []) : ((⟨l, none, false⟩ : RadixKey).label p).head?
        = ((⟨k, none, false⟩ : RadixKey).label p).head? ↔ l.take p = k.take p := by
  rw [(fits_plain hl).head?_label hp (label_plain_ne_nil hl hl0),
    (fits_plain hk).head?_label hp (label_plain_ne_nil hk hk0)]
  have hinj : Function.Injective (List.map Atom.tok) :=
    map_injective_iff.mpr fun a b e => Atom.tok.inj e
  simp only [RadixKey.iter, Option.some.injEq, Prod.mk.injEq, true_and, Bool.false_eq_true,
    if_false, ← map_take]
  exact hinj.eq_iff

theorem commonPrefixLength_label_plain (hp : 0 < p) :
    commonPrefixLength ((⟨l, none, false⟩ : RadixKey).label p)
      ((⟨k, none, false⟩ : RadixKey).label p) = commonPrefixLength l k / p := by
  have hpair : Function.Injective fun pg : List Atom => ((none : Option String), pg) :=
    fun a b e => (Prod.mk.inj e).2
  have htok : Function.Injective Atom.tok := fun a b e => Atom.tok.inj e
  rw [RadixKey.label, RadixKey.label, commonPrefixLength_map hpair, commonPrefixLength_chunks hp]
  exact congrArg (· / p) (commonPrefixLength_map htok l k)

end Plain

/-! ## 2. The relation -/

/-- **The two states hold the same tree**, laid out as `t`. -/
structure Sim (cfg : CacheConfig) (off : ℕ) (t : RootedTree NodeId) (c : RadixCache σ)
    (T : CppRadixTree σ) : Prop where
  root : t.root = off
  shift : ∀ {n}, n ∈ t.nodes → off ≤ n
  counter : c.counter = off + T.nodeCounter
  evictableSize : T.evictableSize = c.evictableSize
  protectedSize : T.protectedSize = c.protectedSize
  nodeMap : ∀ {i}, i ∈ T.nodeMap ↔ off + i ∈ t.nodes
  key : ∀ {i}, off + i ∈ t.nodes → (c.nodes (off + i)).key = ⟨(T.nodes i).tokens, none, false⟩
  tokens_root : (T.nodes 0).tokens = []
  parent_root : (T.nodes 0).parent = none
  parent : ∀ {i}, off + i ∈ t.nodes → i ≠ 0 →
    ∃ k, (T.nodes i).parent = some k ∧ off + k = t.parent (off + i)
  value_root : (T.nodes 0).deviceIndices = none
  value : ∀ {i}, off + i ∈ t.nodes → i ≠ 0 → (T.nodes i).deviceIndices = (c.nodes (off + i)).value
  refCount : ∀ {i}, off + i ∈ t.nodes → (c.nodes (off + i)).lockRef = (T.nodes i).refCount
  children : ∀ {i}, off + i ∈ t.nodes → ∀ {k j}, (T.nodes i).children.lookup k = some j ↔
    t.Child (off + i) (off + j) ∧ (T.nodes j).tokens.take cfg.pageSize = k

namespace Sim

variable {cfg : CacheConfig} {off : ℕ} {t : RootedTree NodeId} {c c' : RadixCache σ}
  {T T' : CppRadixTree σ} {i j : ℕ}

theorem ne_root_iff (h : Sim cfg off t c T) : off + i ≠ t.root ↔ i ≠ 0 := by
  rw [h.root]
  omega

/-- Bookkeeping on the Python side changes nothing. -/
theorem of_agree (h : Sim cfg off t c T) (ha : Agree c c') : Sim cfg off t c' T where
  root := h.root
  shift := h.shift
  counter := ha.counter.trans h.counter
  evictableSize := h.evictableSize.trans ha.evictableSize.symm
  protectedSize := h.protectedSize.trans ha.protectedSize.symm
  nodeMap := h.nodeMap
  key := fun hi => (ha.key _).trans (h.key hi)
  tokens_root := h.tokens_root
  parent_root := h.parent_root
  parent := h.parent
  value_root := h.value_root
  value := fun hi h0 => (h.value hi h0).trans (ha.value _).symm
  refCount := fun hi => (ha.lockRef _).trans (h.refCount hi)
  children := h.children

/-- A step that changes references and sizes only, on both sides alike. -/
theorem recount (h : Sim cfg off t c T) (hs : SameLinks c c')
    (hvalue : ∀ m, (c'.nodes m).value = (c.nodes m).value)
    (hT : ∀ m, ∃ r x, T'.nodes m = { T.nodes m with refCount := r, hitCount := x })
    (hmap : T'.nodeMap = T.nodeMap) (hcounter : T'.nodeCounter = T.nodeCounter)
    (hsizes : T'.evictableSize = c'.evictableSize ∧ T'.protectedSize = c'.protectedSize)
    (href : ∀ {m}, off + m ∈ t.nodes → (c'.nodes (off + m)).lockRef = (T'.nodes m).refCount) :
    Sim cfg off t c' T' := by
  have htok : ∀ m, (T'.nodes m).tokens = (T.nodes m).tokens := fun m => by
    obtain ⟨r, x, hm⟩ := hT m
    rw [hm]
  have hpar : ∀ m, (T'.nodes m).parent = (T.nodes m).parent := fun m => by
    obtain ⟨r, x, hm⟩ := hT m
    rw [hm]
  have hdev : ∀ m, (T'.nodes m).deviceIndices = (T.nodes m).deviceIndices := fun m => by
    obtain ⟨r, x, hm⟩ := hT m
    rw [hm]
  have hch : ∀ m, (T'.nodes m).children = (T.nodes m).children := fun m => by
    obtain ⟨r, x, hm⟩ := hT m
    rw [hm]
  refine ⟨h.root, h.shift, ?_, hsizes.1, hsizes.2, ?_, ?_, ?_, ?_, ?_, ?_, ?_, href, ?_⟩
  · rw [hs.counter, hcounter, h.counter]
  · exact fun {i} => by rw [hmap, h.nodeMap]
  · exact fun hm => by rw [hs.key, htok, h.key hm]
  · rw [htok, h.tokens_root]
  · rw [hpar, h.parent_root]
  · exact fun hm h0 => by rw [hpar]; exact h.parent hm h0
  · rw [hdev, h.value_root]
  · exact fun hm h0 => by rw [hdev, hvalue, h.value hm h0]
  · intro m hm k l
    rw [hch, htok, h.children hm]

/-! ## 3. Splits -/

/-- The node of the chain above a child, as a handle. -/
theorem parent_eq (h : Sim cfg off t c T) (hi : off + i ∈ t.nodes) (h0 : i ≠ 0) {p : ℕ}
    (hp : t.parent (off + i) = off + p) : (T.nodes i).parent = some p := by
  obtain ⟨k, hk, hkp⟩ := h.parent hi h0
  rw [hk, Nat.add_left_cancel (hkp.trans hp)]

theorem len_key (h : Sim cfg off t c T) (hi : off + i ∈ t.nodes) :
    (c.nodes (off + i)).key.len = (T.nodes i).tokens.length := by
  rw [h.key hi]
  rfl

/-- Nodes hold whole pages. -/
theorem dvd_length (h : Sim cfg off t c T) (hrep : Represents cfg t c) (hi : off + i ∈ t.nodes) :
    cfg.pageSize ∣ (T.nodes i).tokens.length := by
  by_cases h0 : i = 0
  · rw [h0, h.tokens_root]
    exact dvd_zero _
  · rw [← h.len_key hi]
    exact (hrep.fits hi (h.ne_root_iff.mpr h0)).aligned

theorem tokens_ne_nil (h : Sim cfg off t c T) (hrep : Represents cfg t c) (hi : off + i ∈ t.nodes)
    (hr : off + i ≠ t.root) : (T.nodes i).tokens ≠ [] := by
  intro e
  refine hrep.label_ne hi hr ((hrep.fits hi hr).label_eq_nil.mpr ?_)
  rw [h.len_key hi, e]
  rfl

/-- The children after a split: the upper half takes the place of the node, which hangs under it. -/
theorem children_split (h : Sim cfg off t c T) (hrep : Represents cfg t c) {p : ℕ}
    (hs : Splits cfg t c (off + i) c.counter j c') (hp : t.parent (off + i) = off + p)
    (hT : CppRadixTree.SplitAt cfg.pageSize T p ((T.nodes i).tokens.take cfg.pageSize) i
      (cfg.pageSize * j) T') (hm : off + m ∈ hs.tree.nodes) {k : List Token} {l : ℕ} :
    (T'.nodes m).children.lookup k = some l ↔
      hs.tree.Child (off + m) (off + l) ∧ (T'.nodes l).tokens.take cfg.pageSize = k := by
  have hi := hs.mem
  have hv : off + T.nodeCounter ∉ t.nodes := h.counter ▸ hrep.counter_not_mem
  have hold : ∀ {m}, off + m ∈ t.nodes → m ≠ T.nodeCounter := fun hm e => hv (e ▸ hm)
  have hpm : off + p ∈ t.nodes := hp ▸ t.parent_mem hi hs.ne_root
  have hichild : t.Child (off + p) (off + i) := ⟨hi, hs.ne_root, hp⟩
  rw [IsSplit.tree, subdivide_child_iff hm, h.counter]
  simp only [ne_eq, Nat.add_left_cancel_iff, hp]
  have hnew : (T'.nodes T.nodeCounter).tokens.take cfg.pageSize
      = (T.nodes i).tokens.take cfg.pageSize := by
    have hle : cfg.pageSize ≤ cfg.pageSize * j := Nat.le_mul_of_pos_right _ hs.pos
    rw [hT.new, take_take, Nat.min_eq_left hle]
  have htok : ∀ {l}, t.Child (off + m) (off + l) → l ≠ i → (T'.nodes l).tokens = (T.nodes l).tokens :=
    fun hc hli => (hT.same (hold hc.1) hli).1
  rcases mem_insert.mp hm with hmv | hm
  · have hmv : m = T.nodeCounter := Nat.add_left_cancel (hmv.trans h.counter)
    subst hmv
    have hno : ∀ {l}, ¬ t.Child (off + T.nodeCounter) (off + l) := fun hc =>
      hv (hc.2.2 ▸ t.parent_mem hc.1 hc.2.1)
    rw [hT.new, Dict.lookup_singleton_iff]
    constructor
    · rintro ⟨rfl, rfl⟩
      exact ⟨.inr (.inl ⟨rfl, rfl⟩), by rw [hT.self]⟩
    · rintro ⟨⟨-, e⟩ | ⟨rfl, -⟩ | ⟨-, hc⟩, hk⟩
      · exact absurd e.symm (hold hpm)
      · rw [hT.self] at hk
        exact ⟨hk.symm, rfl⟩
      · exact absurd hc hno
  · have hmv := hold hm
    by_cases hmp : m = p
    · subst hmp
      rw [hT.parent, Dict.lookup_insert_iff]
      have hself : (T.nodes m).children.lookup ((T.nodes i).tokens.take cfg.pageSize) = some i :=
        (h.children hm).mpr ⟨hichild, rfl⟩
      constructor
      · rintro (⟨rfl, rfl⟩ | ⟨hk, hl⟩)
        · exact ⟨.inl ⟨rfl, rfl⟩, hnew⟩
        · obtain ⟨hc, hlk⟩ := (h.children hm).mp hl
          have hli : l ≠ i := by
            rintro rfl
            exact hk hlk.symm
          exact ⟨.inr (.inr ⟨hli, hc⟩), by rw [htok hc hli, hlk]⟩
      · rintro ⟨⟨rfl, -⟩ | ⟨-, e⟩ | ⟨hli, hc⟩, hk⟩
        · exact .inl ⟨by rw [← hk, hnew], rfl⟩
        · exact absurd e hmv
        · rw [htok hc hli] at hk
          have hl := (h.children hm).mpr ⟨hc, hk⟩
          refine .inr ⟨?_, hl⟩
          rintro rfl
          rw [hself] at hl
          exact hli (Option.some.inj hl).symm
    · have hchildren : (T'.nodes m).children = (T.nodes m).children := by
        by_cases hmi : m = i
        · rw [hmi, hT.self]
        · rw [hT.other m hmv hmi hmp]
      have hli : ∀ {l}, t.Child (off + m) (off + l) → l ≠ i := by
        rintro l hc rfl
        exact hmp (Nat.add_left_cancel (hc.2.2.symm.trans hp))
      rw [hchildren, h.children hm]
      constructor
      · rintro ⟨hc, hk⟩
        exact ⟨.inr (.inr ⟨hli hc, hc⟩), by rw [htok hc (hli hc), hk]⟩
      · rintro ⟨⟨-, e⟩ | ⟨-, e⟩ | ⟨-, hc⟩, hk⟩
        · exact absurd e hmp
        · exact absurd e hmv
        · exact ⟨hc, by rw [← htok hc (hli hc), hk]⟩

/-- **A split on both sides** keeps the relation, and both name the new node alike. -/
theorem split (h : Sim cfg off t c T) (hrep : Represents cfg t c) {p : ℕ}
    (hs : Splits cfg t c (off + i) c.counter j c') (hp : t.parent (off + i) = off + p)
    (hT : CppRadixTree.SplitAt cfg.pageSize T p ((T.nodes i).tokens.take cfg.pageSize) i
      (cfg.pageSize * j) T') : Sim cfg off hs.tree c' T' := by
  have hi := hs.mem
  have h0 : i ≠ 0 := h.ne_root_iff.mp hs.ne_root
  have hv : off + T.nodeCounter ∉ t.nodes := h.counter ▸ hrep.counter_not_mem
  have hold : ∀ {m}, off + m ∈ t.nodes → m ≠ T.nodeCounter := fun hm e => hv (e ▸ hm)
  have hsame : ∀ {m}, off + m ∈ t.nodes → m ≠ i → _ := fun hm hmi => hT.same (hold hm) hmi
  have hmem : ∀ {m}, off + m ∈ hs.tree.nodes ↔ m = T.nodeCounter ∨ off + m ∈ t.nodes := by
    intro m
    rw [IsSplit.tree, subdivide_nodes, mem_insert, h.counter, Nat.add_left_cancel_iff]
  have hne : ∀ {m}, m ≠ i → off + m ≠ off + i := fun hm e => hm (Nat.add_left_cancel e)
  refine ⟨h.root, fun {n} hn => ?_, ?_, ?_, ?_, fun {m} => ?_, fun {m} hm => ?_, ?_, ?_,
    fun {m} hm hm0 => ?_, ?_, fun {m} hm hm0 => ?_, fun {m} hm => ?_, fun {m} hm => ?_⟩
  · rcases mem_insert.mp hn with rfl | hn
    · rw [h.counter]
      exact Nat.le_add_right _ _
    · exact h.shift hn
  · rw [hs.counter, hT.nodeCounter, h.counter]
    rfl
  · rw [hT.evictableSize, hs.evictableSize, h.evictableSize]
  · rw [hT.protectedSize, hs.protectedSize, h.protectedSize]
  · rw [hT.nodeMap, List.mem_cons, hmem, h.nodeMap]
  · rcases hmem.mp hm with rfl | hm
    · rw [← h.counter, hs.key_new, h.key hi, hT.new, takeTo_plain]
    · by_cases hmi : m = i
      · rw [hmi, hs.key_self, h.key hi, hT.self, dropTo_plain]
      · rw [hs.key_old _ hm (hne hmi), h.key hm, (hsame hm hmi).1]
  · rw [(hsame (h.root ▸ t.root_mem) h0.symm).1]
    exact h.tokens_root
  · rw [(hsame (h.root ▸ t.root_mem) h0.symm).2.2.1]
    exact h.parent_root
  · rcases hmem.mp hm with rfl | hm
    · refine ⟨p, by rw [hT.new], ?_⟩
      rw [← h.counter, IsSplit.tree, subdivide_parent_new, hp]
    · by_cases hmi : m = i
      · refine ⟨T.nodeCounter, by rw [hmi, hT.self], ?_⟩
        rw [← h.counter, hmi, IsSplit.tree, subdivide_parent_self]
      · obtain ⟨q, hq, hpq⟩ := h.parent hm hm0
        refine ⟨q, (hsame hm hmi).2.2.1.trans hq, ?_⟩
        rw [IsSplit.tree, subdivide_parent_old hm (hne hmi), hpq]
  · rw [(hsame (h.root ▸ t.root_mem) h0.symm).2.1]
    exact h.value_root
  · rcases hmem.mp hm with rfl | hm
    · rw [← h.counter, hs.value_new, hT.new, h.value hi h0]
    · by_cases hmi : m = i
      · rw [hmi, hs.value_self, hT.self, h.value hi h0]
      · rw [hs.value_old _ hm (hne hmi), (hsame hm hmi).2.1, h.value hm hm0]
  · rcases hmem.mp hm with rfl | hm
    · rw [← h.counter, hs.lockRef_new, hT.new, h.refCount hi]
    · rw [hs.lockRef_old _ hm, h.refCount hm]
      by_cases hmi : m = i
      · rw [hmi, hT.self]
      · rw [(hsame hm hmi).2.2.2]
  · exact h.children_split hrep hs hp hT hm

/-! ## 4. New leaves -/

theorem children_attach (h : Sim cfg off t c T) (hrep : Represents cfg t c) {p : ℕ} {indices : List σ}
    (ha : Attaches cfg t c (off + p) c.counter ⟨vec, none, false⟩ indices c')
    (hT : CppRadixTree.LeafAt cfg.pageSize T p vec indices T') (hm : off + m ∈ ha.tree.nodes)
    {k : List Token} {l : ℕ} :
    (T'.nodes m).children.lookup k = some l ↔
      ha.tree.Child (off + m) (off + l) ∧ (T'.nodes l).tokens.take cfg.pageSize = k := by
  have hv : off + T.nodeCounter ∉ t.nodes := h.counter ▸ hrep.counter_not_mem
  have hold : ∀ {m}, off + m ∈ t.nodes → m ≠ T.nodeCounter := fun hm e => hv (e ▸ hm)
  have htok : ∀ {l}, t.Child (off + m) (off + l) → (T'.nodes l).tokens = (T.nodes l).tokens :=
    fun hc => (hT.same (hold hc.1)).1
  have hnew : (T'.nodes T.nodeCounter).tokens = vec := by rw [hT.new]
  have hne : vec ≠ [] := by
    rintro rfl
    exact ha.label_ne (ha.fits.label_eq_nil.mpr rfl)
  rw [IsAttach.tree, attach_child_iff, h.counter]
  simp only [Nat.add_left_cancel_iff]
  rcases mem_insert.mp hm with hmv | hmt
  · have hmv : m = T.nodeCounter := Nat.add_left_cancel (hmv.trans h.counter)
    subst hmv
    rw [hT.new]
    constructor
    · intro e
      cases e
    · rintro ⟨hc | ⟨-, e⟩, -⟩
      · exact absurd (hc.2.2 ▸ t.parent_mem hc.1 hc.2.1) hv
      · exact absurd e.symm (hold ha.mem)
  · by_cases hmp : m = p
    · subst hmp
      rw [hT.parent, Dict.lookup_insert_iff, h.children hmt]
      constructor
      · rintro (⟨rfl, rfl⟩ | ⟨-, hc, hk⟩)
        · exact ⟨.inr ⟨rfl, rfl⟩, by rw [hnew]⟩
        · exact ⟨.inl hc, by rw [htok hc, hk]⟩
      · rintro ⟨hc | ⟨rfl, -⟩, hk⟩
        · rw [htok hc] at hk
          refine .inr ⟨?_, hc, hk⟩
          rintro rfl
          refine ha.absent _ hc ?_
          rw [label, h.key hc.1]
          exact (head?_label_plain_iff cfg.pageSize_pos (h.dvd_length hrep hc.1) ha.fits.aligned
            (h.tokens_ne_nil hrep hc.1 hc.2.1) hne).mpr hk
        · exact .inl ⟨by rw [← hk, hnew], rfl⟩
    · rw [hT.other m (hold hmt) hmp, h.children hmt]
      constructor
      · rintro ⟨hc, hk⟩
        exact ⟨.inl hc, by rw [htok hc, hk]⟩
      · rintro ⟨hc | ⟨-, e⟩, hk⟩
        · exact ⟨hc, by rw [← htok hc, hk]⟩
        · exact absurd e hmp

/-- **A new leaf on both sides** keeps the relation. -/
theorem attach (h : Sim cfg off t c T) (hrep : Represents cfg t c) {p : ℕ} {indices : List σ}
    (ha : Attaches cfg t c (off + p) c.counter ⟨vec, none, false⟩ indices c')
    (hT : CppRadixTree.LeafAt cfg.pageSize T p vec indices T') : Sim cfg off ha.tree c' T' := by
  have hv : off + T.nodeCounter ∉ t.nodes := h.counter ▸ hrep.counter_not_mem
  have hold : ∀ {m}, off + m ∈ t.nodes → m ≠ T.nodeCounter := fun hm e => hv (e ▸ hm)
  have hsame : ∀ {m}, off + m ∈ t.nodes → _ := fun hm => hT.same (hold hm)
  have hmem : ∀ {m}, off + m ∈ ha.tree.nodes ↔ m = T.nodeCounter ∨ off + m ∈ t.nodes := by
    intro m
    rw [IsAttach.tree, attach_nodes, mem_insert, h.counter, Nat.add_left_cancel_iff]
  have hroot : off + 0 ∈ t.nodes := h.root ▸ t.root_mem
  refine ⟨h.root, fun {n} hn => ?_, ?_, ?_, ?_, fun {m} => ?_, fun {m} hm => ?_, ?_, ?_,
    fun {m} hm hm0 => ?_, ?_, fun {m} hm hm0 => ?_, fun {m} hm => ?_, fun {m} hm => ?_⟩
  · rcases mem_insert.mp hn with rfl | hn
    · rw [h.counter]
      exact Nat.le_add_right _ _
    · exact h.shift hn
  · rw [ha.counter, hT.nodeCounter, h.counter]
    rfl
  · rw [hT.evictableSize, ha.evictableSize, h.evictableSize]
    rfl
  · rw [hT.protectedSize, ha.protectedSize, h.protectedSize]
  · rw [hT.nodeMap, List.mem_cons, hmem, h.nodeMap]
  · rcases hmem.mp hm with rfl | hm
    · rw [← h.counter, ha.key_new, hT.new]
    · rw [ha.key_old _ hm, h.key hm, (hsame hm).1]
  · exact (hsame hroot).1.trans h.tokens_root
  · exact (hsame hroot).2.2.1.trans h.parent_root
  · rcases hmem.mp hm with rfl | hm
    · refine ⟨p, by rw [hT.new], ?_⟩
      rw [← h.counter, IsAttach.tree, attach_parent_new]
    · obtain ⟨q, hq, hpq⟩ := h.parent hm hm0
      refine ⟨q, (hsame hm).2.2.1.trans hq, ?_⟩
      rw [IsAttach.tree, attach_parent_old hm, hpq]
  · exact (hsame hroot).2.1.trans h.value_root
  · rcases hmem.mp hm with rfl | hm
    · rw [← h.counter, ha.value_new, hT.new]
    · rw [ha.value_old _ hm, (hsame hm).2.1, h.value hm hm0]
  · rcases hmem.mp hm with rfl | hm
    · rw [← h.counter, ha.lockRef_new, hT.new]
      rfl
    · rw [ha.lockRef_old _ hm, h.refCount hm, (hsame hm).2.2.2]
  · exact h.children_attach hrep ha hT hm

end Sim

end Sglang
