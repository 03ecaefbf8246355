/-
# The tree in the heap

The radix caches keep their tree as node objects with parent pointers and child dicts.
`Represents` says that these objects lay out a `RootedTree`: parent pointers are the tree's, the
child dict of a node lists exactly its children, each under the `child_key` of its own key, and
every key below the root is a nonempty list of whole pages.  The tree is a ghost.

Every method changes the links in one of three ways:

* `IsSplit`:  `_split_node` subdivides an edge;
* `IsAttach`: the end of an insertion hangs a new leaf under a node;
* `IsDetach`: `_delete_leaf` unlinks a childless node.

Everything else leaves the links alone (`SameLinks`).  For each of the four the layout survives.
The two caches differ in how they split the slots of a node, so these relations speak of links and
keys only.
-/
import Sglang.MemCache.RadixCache

namespace Sglang

open Lib List Finset RootedTree

/-! ## 1. Dicts -/

namespace Dict

variable {κ ν : Type} [DecidableEq κ]

theorem mem_values_iff (d : Dict κ ν) (v : ν) : v ∈ d.values ↔ ∃ k, d.lookup k = some v := by
  simp only [Dict.values, List.mem_map]
  constructor
  · rintro ⟨⟨k, w⟩, h, rfl⟩
    exact ⟨k, AList.mem_lookup_iff.mpr h⟩
  · rintro ⟨k, h⟩
    exact ⟨⟨k, v⟩, AList.mem_lookup_iff.mp h, rfl⟩

theorem entries_eq_nil_iff (d : Dict κ ν) : d.entries = [] ↔ ∀ k v, d.lookup k ≠ some v := by
  constructor
  · intro h k v hk
    have := AList.mem_lookup_iff.mp (Option.mem_def.mpr hk)
    simp [h] at this
  · intro h
    rw [eq_nil_iff_forall_not_mem]
    rintro ⟨k, v⟩ hmem
    exact h k v (AList.mem_lookup_iff.mpr hmem)

theorem nodup_values (d : Dict κ ν)
    (h : ∀ k k' v, d.lookup k = some v → d.lookup k' = some v → k = k') : d.values.Nodup := by
  refine List.Nodup.map_on ?_ (List.NodupKeys.nodup d.nodupKeys)
  rintro ⟨k, v⟩ hx ⟨k', v'⟩ hy rfl
  rw [h k k' v (AList.mem_lookup_iff.mpr hx) (AList.mem_lookup_iff.mpr hy)]

theorem lookup_singleton_iff (a k : κ) (b v : ν) :
    (AList.singleton a b : Dict κ ν).lookup k = some v ↔ k = a ∧ v = b := by
  rw [← Option.mem_def, AList.mem_lookup_iff]
  constructor
  · intro h
    have h' : (⟨k, v⟩ : Sigma fun _ : κ => ν) ∈ [(⟨a, b⟩ : Sigma fun _ : κ => ν)] := h
    have e := List.mem_singleton.mp h'
    cases e
    exact ⟨rfl, rfl⟩
  · rintro ⟨rfl, rfl⟩
    exact List.mem_singleton.mpr rfl

theorem lookup_insert_iff (d : Dict κ ν) (a k : κ) (b v : ν) :
    (d.insert a b).lookup k = some v ↔ (k = a ∧ v = b) ∨ (k ≠ a ∧ d.lookup k = some v) := by
  by_cases h : k = a
  · subst h
    simp [AList.lookup_insert, eq_comm]
  · simp [AList.lookup_insert_ne h, h]

theorem lookup_erase_iff (d : Dict κ ν) (a k : κ) (v : ν) :
    (d.erase a).lookup k = some v ↔ k ≠ a ∧ d.lookup k = some v := by
  by_cases h : k = a
  · subst h
    simp [AList.lookup_erase]
  · simp [AList.lookup_erase_ne h, h]

end Dict

namespace RadixCache

variable {σ : Type}

/-! ## 2. Reading the state after an update -/

@[simp] theorem modify_nodes_self (c : RadixCache σ) (n : NodeId) (f : TreeNode σ → TreeNode σ) :
    (c.modify n f).nodes n = f (c.nodes n) := by simp [modify]

theorem modify_nodes_ne (c : RadixCache σ) {n m : NodeId} (f : TreeNode σ → TreeNode σ)
    (h : m ≠ n) : (c.modify n f).nodes m = c.nodes m := by simp [modify, h]

section ModifyFields

variable (c : RadixCache σ) (n : NodeId) (f : TreeNode σ → TreeNode σ)

@[simp] theorem modify_counter : (c.modify n f).counter = c.counter := rfl
@[simp] theorem modify_rootNode : (c.modify n f).rootNode = c.rootNode := rfl
@[simp] theorem modify_evictableSize : (c.modify n f).evictableSize = c.evictableSize := rfl
@[simp] theorem modify_protectedSize : (c.modify n f).protectedSize = c.protectedSize := rfl
@[simp] theorem modify_evictableLeaves : (c.modify n f).evictableLeaves = c.evictableLeaves := rfl
@[simp] theorem modify_kvEventQueue : (c.modify n f).kvEventQueue = c.kvEventQueue := rfl

/-- A field that the update does not touch is the same at every node. -/
theorem modify_field {τ : Type} (g : TreeNode σ → τ) (h : ∀ x, g (f x) = g x) (m : NodeId) :
    g ((c.modify n f).nodes m) = g (c.nodes m) := by
  by_cases e : m = n
  · subst e; rw [modify_nodes_self, h]
  · rw [modify_nodes_ne c f e]

end ModifyFields

section UpdateLeafStatus

variable (c : RadixCache σ) (n : NodeId)

@[simp] theorem updateLeafStatus_nodes : (c.updateLeafStatus n).nodes = c.nodes := by
  unfold updateLeafStatus
  split_ifs <;> rfl

@[simp] theorem updateLeafStatus_counter : (c.updateLeafStatus n).counter = c.counter := by
  unfold updateLeafStatus
  split_ifs <;> rfl

@[simp] theorem updateLeafStatus_rootNode : (c.updateLeafStatus n).rootNode = c.rootNode := by
  unfold updateLeafStatus
  split_ifs <;> rfl

@[simp] theorem updateLeafStatus_evictableSize :
    (c.updateLeafStatus n).evictableSize = c.evictableSize := by
  unfold updateLeafStatus
  split_ifs <;> rfl

@[simp] theorem updateLeafStatus_protectedSize :
    (c.updateLeafStatus n).protectedSize = c.protectedSize := by
  unfold updateLeafStatus
  split_ifs <;> rfl

@[simp] theorem updateLeafStatus_kvEventQueue :
    (c.updateLeafStatus n).kvEventQueue = c.kvEventQueue := by
  unfold updateLeafStatus
  split_ifs <;> rfl

/-- What `_update_leaf_status` tests. -/
def IsEvictableLeaf (c : RadixCache σ) (n : NodeId) : Prop :=
  (c.nodes n).evicted = false ∧ ¬ (c.nodes n).lockRef > 0 ∧
    ∀ k ∈ (c.nodes n).children.values, (c.nodes k).evicted = true

theorem nodup_updateLeafStatus (h : c.evictableLeaves.Nodup) :
    (c.updateLeafStatus n).evictableLeaves.Nodup := by
  unfold updateLeafStatus
  split_ifs
  · exact h.erase n
  · exact h.erase n
  · exact h.insert

theorem mem_updateLeafStatus (h : c.evictableLeaves.Nodup) (m : NodeId) :
    m ∈ (c.updateLeafStatus n).evictableLeaves ↔
      (m ≠ n ∧ m ∈ c.evictableLeaves) ∨ (m = n ∧ c.IsEvictableLeaf n) := by
  unfold updateLeafStatus IsEvictableLeaf
  split_ifs with h1 h2
  · rw [h.mem_erase_iff]
    constructor
    · exact fun hm => Or.inl hm
    · rintro (hm | ⟨-, h3, h4, -⟩)
      · exact hm
      · rcases h1 with h1 | h1
        · rw [h1] at h3; cases h3
        · exact absurd h1 h4
  · rw [h.mem_erase_iff]
    constructor
    · exact fun hm => Or.inl hm
    · rintro (hm | ⟨-, -, -, h5⟩)
      · exact hm
      · obtain ⟨k, hk, hk'⟩ := any_eq_true.mp h2
        rw [h5 k hk] at hk'
        cases hk'
  · rw [mem_insert_iff]
    have hleaf : (c.nodes n).evicted = false ∧ ¬ (c.nodes n).lockRef > 0 ∧
        ∀ k ∈ (c.nodes n).children.values, (c.nodes k).evicted = true := by
      rw [not_or] at h1
      refine ⟨by simpa using h1.1, h1.2, fun k hk => ?_⟩
      by_contra hc
      exact h2 (any_eq_true.mpr ⟨k, hk, by simpa using hc⟩)
    constructor
    · rintro (rfl | hm)
      · exact Or.inr ⟨rfl, hleaf⟩
      · by_cases e : m = n
        · exact Or.inr ⟨e, hleaf⟩
        · exact Or.inl ⟨e, hm⟩
    · rintro (⟨-, hm⟩ | ⟨rfl, -⟩)
      · exact Or.inr hm
      · exact Or.inl rfl

end UpdateLeafStatus

/-! ## 3. The layout -/

/-- The tagged pages of a node's key. -/
def label (cfg : CacheConfig) (c : RadixCache σ) (n : NodeId) : List RadixKey.TaggedPage :=
  (c.nodes n).key.label cfg.pageSize

/-- **The heap `c` lays out the tree `t`.** -/
structure Represents (cfg : CacheConfig) (t : RootedTree NodeId) (c : RadixCache σ) : Prop where
  root_eq : c.rootNode = t.root
  lt_counter : ∀ {n}, n ∈ t.nodes → n < c.counter
  parent_eq : ∀ {n}, n ∈ t.nodes → n ≠ t.root → (c.nodes n).parent = some (t.parent n)
  lookup_iff : ∀ {p}, p ∈ t.nodes → ∀ {ck n}, (c.nodes p).children.lookup ck = some n ↔
    t.Child p n ∧ (c.nodes n).key.childKey cfg.pageSize = some ck
  fits : ∀ {n}, n ∈ t.nodes → n ≠ t.root → (c.nodes n).key.Fits cfg.isEagle cfg.pageSize
  label_ne : ∀ {n}, n ∈ t.nodes → n ≠ t.root → c.label cfg n ≠ []

namespace Represents

variable {cfg : CacheConfig} {t : RootedTree NodeId} {c c' : RadixCache σ} {n m p : NodeId}

theorem counter_not_mem (h : Represents cfg t c) : c.counter ∉ t.nodes :=
  fun hm => lt_irrefl _ (h.lt_counter hm)

theorem exists_childKey (h : Represents cfg t c) (hn : n ∈ t.nodes) (hr : n ≠ t.root) :
    ∃ ck, (c.nodes n).key.childKey cfg.pageSize = some ck :=
  (h.fits hn hr).exists_childKey cfg.pageSize_pos (h.label_ne hn hr)

/-- Every child of the tree is found in the dict of its parent. -/
theorem lookup_of_child (h : Represents cfg t c) (hc : t.Child p n) :
    ∃ ck, (c.nodes n).key.childKey cfg.pageSize = some ck ∧
      (c.nodes p).children.lookup ck = some n := by
  obtain ⟨ck, hck⟩ := h.exists_childKey hc.1 hc.2.1
  have hp : p ∈ t.nodes := hc.2.2 ▸ t.parent_mem hc.1 hc.2.1
  exact ⟨ck, hck, (h.lookup_iff hp).mpr ⟨hc, hck⟩⟩

theorem mem_values_iff (h : Represents cfg t c) (hp : p ∈ t.nodes) :
    n ∈ (c.nodes p).children.values ↔ t.Child p n := by
  rw [Dict.mem_values_iff]
  constructor
  · rintro ⟨ck, hck⟩
    exact ((h.lookup_iff hp).mp hck).1
  · intro hc
    obtain ⟨ck, -, hck⟩ := h.lookup_of_child hc
    exact ⟨ck, hck⟩

theorem entries_eq_nil_iff (h : Represents cfg t c) (hp : p ∈ t.nodes) :
    (c.nodes p).children.entries = [] ↔ ∀ k, ¬ t.Child p k := by
  rw [Dict.entries_eq_nil_iff]
  constructor
  · intro hnil k hc
    obtain ⟨ck, -, hck⟩ := h.lookup_of_child hc
    exact hnil ck k hck
  · intro hnil ck k hck
    exact hnil k ((h.lookup_iff hp).mp hck).1

/-- Siblings differ in their first tagged page: a dict holds one value a key. -/
theorem separated (h : Represents cfg t c) : t.Separated (c.label cfg) where
  ne_nil := fun _ hn hr => h.label_ne hn hr
  head_inj := by
    intro p n m hn hm hhead
    obtain ⟨ck, hck, hl⟩ := h.lookup_of_child hn
    obtain ⟨ck', hck', hl'⟩ := h.lookup_of_child hm
    have heq := ((h.fits hn.1 hn.2.1).childKey_eq_iff cfg.pageSize_pos (h.fits hm.1 hm.2.1)
      (h.label_ne hn.1 hn.2.1) (h.label_ne hm.1 hm.2.1)).mpr hhead
    rw [hck, hck', Option.some.injEq] at heq
    rw [heq, hl'] at hl
    exact (Option.some.inj hl).symm

/-- A child whose first page is the first page of `key` is found under the child key of `key`,
and nothing else is. -/
theorem lookup_eq_some_iff (h : Represents cfg t c) (hp : p ∈ t.nodes) {key : RadixKey}
    (hf : key.Fits cfg.isEagle cfg.pageSize) (hne : key.label cfg.pageSize ≠ []) {ck : ChildKey}
    (hck : key.childKey cfg.pageSize = some ck) :
    (c.nodes p).children.lookup ck = some n ↔
      t.Child p n ∧ (c.label cfg n).head? = (key.label cfg.pageSize).head? := by
  rw [h.lookup_iff hp]
  refine and_congr_right fun hc => ?_
  rw [← hck]
  exact (h.fits hc.1 hc.2.1).childKey_eq_iff cfg.pageSize_pos hf (h.label_ne hc.1 hc.2.1) hne

/-- Chains fit in the fuel the walks get. -/
theorem up_length_lt_counter (h : Represents cfg t c) (hn : n ∈ t.nodes) :
    (t.up n).length < c.counter := by
  refine lt_of_lt_of_le (RootedTree.up_length_lt hn) ?_
  have hsub : t.nodes ⊆ Finset.range c.counter :=
    fun m hm => Finset.mem_range.mpr (h.lt_counter hm)
  simpa using card_le_card hsub

end Represents

/-! ## 4. What a step can do to the links -/

/-- The links, the keys and the set of objects are the same. -/
structure SameLinks (c c' : RadixCache σ) : Prop where
  rootNode : c'.rootNode = c.rootNode
  counter : c'.counter = c.counter
  parent : ∀ m, (c'.nodes m).parent = (c.nodes m).parent
  children : ∀ m, (c'.nodes m).children = (c.nodes m).children
  key : ∀ m, (c'.nodes m).key = (c.nodes m).key

theorem SameLinks.refl (c : RadixCache σ) : SameLinks c c :=
  ⟨rfl, rfl, fun _ => rfl, fun _ => rfl, fun _ => rfl⟩

theorem SameLinks.trans {c₁ c₂ c₃ : RadixCache σ} (h : SameLinks c₁ c₂) (h' : SameLinks c₂ c₃) :
    SameLinks c₁ c₃ :=
  ⟨h'.rootNode.trans h.rootNode, h'.counter.trans h.counter,
    fun m => (h'.parent m).trans (h.parent m), fun m => (h'.children m).trans (h.children m),
    fun m => (h'.key m).trans (h.key m)⟩

theorem SameLinks.modify (c : RadixCache σ) (n : NodeId) (f : TreeNode σ → TreeNode σ)
    (hp : ∀ x, (f x).parent = x.parent) (hc : ∀ x, (f x).children = x.children)
    (hk : ∀ x, (f x).key = x.key) : SameLinks c (c.modify n f) :=
  ⟨rfl, rfl, c.modify_field n f _ hp, c.modify_field n f _ hc, c.modify_field n f _ hk⟩

theorem SameLinks.label {c c' : RadixCache σ} (h : SameLinks c c') (cfg : CacheConfig) :
    c'.label cfg = c.label cfg := by
  funext n
  rw [RadixCache.label, RadixCache.label, h.key]

theorem Represents.of_sameLinks {cfg : CacheConfig} {t : RootedTree NodeId} {c c' : RadixCache σ}
    (h : Represents cfg t c) (hs : SameLinks c c') : Represents cfg t c' where
  root_eq := hs.rootNode.trans h.root_eq
  lt_counter := fun hn => hs.counter ▸ h.lt_counter hn
  parent_eq := fun hn hr => (hs.parent _).trans (h.parent_eq hn hr)
  lookup_iff := by
    intro p hp ck n
    rw [hs.children, hs.key]
    exact h.lookup_iff hp
  fits := fun hn hr => by rw [hs.key]; exact h.fits hn hr
  label_ne := fun hn hr => by rw [hs.label]; exact h.label_ne hn hr

/-- The node `n` is cut after its first `j` pages, and the new node `v` holds these. -/
structure IsSplit (cfg : CacheConfig) (t : RootedTree NodeId) (c : RadixCache σ) (n v : NodeId)
    (j : ℕ) (c' : RadixCache σ) : Prop where
  mem : n ∈ t.nodes
  ne_root : n ≠ t.root
  new : v ∉ t.nodes
  pos : 0 < j
  lt : j < (c.label cfg n).length
  rootNode : c'.rootNode = c.rootNode
  counter : c'.counter = c.counter + 1
  new_lt : v < c.counter + 1
  parent_new : (c'.nodes v).parent = some (t.parent n)
  parent_self : (c'.nodes n).parent = some v
  parent_old : ∀ m ∈ t.nodes, m ≠ n → (c'.nodes m).parent = (c.nodes m).parent
  key_new : (c'.nodes v).key = (c.nodes n).key.takeTo (cfg.pageSize * j)
  key_self : (c'.nodes n).key = (c.nodes n).key.dropTo (cfg.pageSize * j)
  key_old : ∀ m ∈ t.nodes, m ≠ n → (c'.nodes m).key = (c.nodes m).key
  children_new : ∃ ck, (c'.nodes n).key.childKey cfg.pageSize = some ck ∧
    (c'.nodes v).children = AList.singleton ck n
  children_parent : ∃ ck, (c.nodes n).key.childKey cfg.pageSize = some ck ∧
    (c'.nodes (t.parent n)).children = (c.nodes (t.parent n)).children.insert ck v
  children_old : ∀ m ∈ t.nodes, m ≠ t.parent n → (c'.nodes m).children = (c.nodes m).children

/-- The tree after a split. -/
def IsSplit.tree {cfg : CacheConfig} {t : RootedTree NodeId} {c c' : RadixCache σ} {n v : NodeId}
    {j : ℕ} (h : IsSplit cfg t c n v j c') : RootedTree NodeId :=
  t.subdivide n v h.mem h.ne_root h.new

/-- A new leaf `v` with key `key` hangs under `p`. -/
structure IsAttach (cfg : CacheConfig) (t : RootedTree NodeId) (c : RadixCache σ) (p v : NodeId)
    (key : RadixKey) (c' : RadixCache σ) : Prop where
  mem : p ∈ t.nodes
  new : v ∉ t.nodes
  fits : key.Fits cfg.isEagle cfg.pageSize
  label_ne : key.label cfg.pageSize ≠ []
  absent : ∀ q, t.Child p q → (c.label cfg q).head? ≠ (key.label cfg.pageSize).head?
  rootNode : c'.rootNode = c.rootNode
  counter : c'.counter = c.counter + 1
  new_lt : v < c.counter + 1
  parent_new : (c'.nodes v).parent = some p
  parent_old : ∀ m ∈ t.nodes, (c'.nodes m).parent = (c.nodes m).parent
  key_new : (c'.nodes v).key = key
  key_old : ∀ m ∈ t.nodes, (c'.nodes m).key = (c.nodes m).key
  children_new : (c'.nodes v).children = ∅
  children_parent : ∃ ck, key.childKey cfg.pageSize = some ck ∧
    (c'.nodes p).children = (c.nodes p).children.insert ck v
  children_old : ∀ m ∈ t.nodes, m ≠ p → (c'.nodes m).children = (c.nodes m).children

/-- The tree after a new leaf was hung in. -/
def IsAttach.tree {cfg : CacheConfig} {t : RootedTree NodeId} {c c' : RadixCache σ} {p v : NodeId}
    {key : RadixKey} (h : IsAttach cfg t c p v key c') : RootedTree NodeId :=
  t.attach p v h.mem h.new

/-- The childless node `n` is unlinked. -/
structure IsDetach (cfg : CacheConfig) (t : RootedTree NodeId) (c : RadixCache σ) (n : NodeId)
    (c' : RadixCache σ) : Prop where
  mem : n ∈ t.nodes
  ne_root : n ≠ t.root
  leaf : ∀ k, ¬ t.Child n k
  rootNode : c'.rootNode = c.rootNode
  counter : c'.counter = c.counter
  parent : ∀ m, (c'.nodes m).parent = (c.nodes m).parent
  key : ∀ m, (c'.nodes m).key = (c.nodes m).key
  children_parent : ∃ ck, (c.nodes n).key.childKey cfg.pageSize = some ck ∧
    (c'.nodes (t.parent n)).children = (c.nodes (t.parent n)).children.erase ck
  children_old : ∀ m, m ≠ t.parent n → (c'.nodes m).children = (c.nodes m).children

/-- The tree after a leaf was unlinked. -/
def IsDetach.tree {cfg : CacheConfig} {t : RootedTree NodeId} {c c' : RadixCache σ} {n : NodeId}
    (h : IsDetach cfg t c n c') : RootedTree NodeId := t.detach n h.ne_root h.leaf

/-! ## 5. The layout survives -/

section Split

variable {cfg : CacheConfig} {t : RootedTree NodeId} {c c' : RadixCache σ} {n v m : NodeId}
  {j : ℕ}

namespace IsSplit

variable (h : IsSplit cfg t c n v j c')

include h

@[simp] theorem tree_root : h.tree.root = t.root := rfl

@[simp] theorem tree_nodes : h.tree.nodes = Insert.insert v t.nodes := rfl

theorem new_ne (hm : m ∈ t.nodes) : m ≠ v := ne_of_mem_of_not_mem hm h.new

theorem label_new : c'.label cfg v = (c.label cfg n).take j := by
  rw [label, h.key_new, RadixKey.label_takeTo cfg.pageSize_pos, label]

theorem label_self : c'.label cfg n = (c.label cfg n).drop j := by
  rw [label, h.key_self, RadixKey.label_dropTo, label]

theorem label_old : ∀ m ∈ t.nodes, m ≠ n → c'.label cfg m = c.label cfg m := by
  intro m hm hmn
  rw [label, h.key_old m hm hmn, label]

/-- **A split changes no word.** -/
theorem word_old (hm : m ∈ t.nodes) :
    h.tree.word (c'.label cfg) m = t.word (c.label cfg) m :=
  (word_subdivide h.label_old (by rw [h.label_new, h.label_self, take_append_drop])).1 m hm

theorem word_new :
    h.tree.word (c'.label cfg) v = t.word (c.label cfg) (t.parent n) ++ (c.label cfg n).take j := by
  rw [← h.label_new]
  exact (word_subdivide h.label_old (by rw [h.label_new, h.label_self, take_append_drop])).2

theorem label_ne_new : c'.label cfg v ≠ [] := by
  rw [h.label_new]
  intro e
  have := congrArg List.length e
  rw [length_take, length_nil] at this
  have h1 := h.pos
  have h2 := h.lt
  omega

theorem label_ne_self : c'.label cfg n ≠ [] := by
  rw [h.label_self]
  intro e
  have := congrArg List.length e
  rw [length_drop, length_nil] at this
  have h2 := h.lt
  omega

/-- The upper half starts with the same page, so it keeps the dictionary key. -/
theorem childKey_new (hrep : Represents cfg t c) :
    (c'.nodes v).key.childKey cfg.pageSize = (c.nodes n).key.childKey cfg.pageSize := by
  have hf := hrep.fits h.mem h.ne_root
  have hf' : (c'.nodes v).key.Fits cfg.isEagle cfg.pageSize := by
    rw [h.key_new]; exact hf.takeTo j
  refine (hf'.childKey_eq_iff cfg.pageSize_pos hf h.label_ne_new
    (hrep.label_ne h.mem h.ne_root)).mpr ?_
  have h1 := h.label_new
  rw [label, label] at h1
  rw [h1, head?_take, if_neg h.pos.ne']

theorem represents (hrep : Represents cfg t c) : Represents cfg h.tree c' := by
  have hp := t.parent_mem h.mem h.ne_root
  have hf := hrep.fits h.mem h.ne_root
  obtain ⟨ck₁, hck₁, hnew⟩ := h.children_new
  obtain ⟨ck₀, hck₀, hpar⟩ := h.children_parent
  refine ⟨h.rootNode.trans hrep.root_eq, ?_, ?_, ?_, ?_, ?_⟩
  · intro m hm
    rw [h.counter]
    rcases mem_insert.mp hm with rfl | hm
    · exact h.new_lt
    · exact Nat.lt_succ_of_lt (hrep.lt_counter hm)
  · intro m hm hr
    rcases mem_insert.mp hm with rfl | hm
    · rw [h.parent_new, tree, subdivide_parent_new]
    · by_cases hmn : m = n
      · subst hmn
        rw [h.parent_self, tree, subdivide_parent_self]
      · rw [h.parent_old m hm hmn, hrep.parent_eq hm hr, tree, subdivide_parent_old hm hmn]
  · intro q hq ck m
    rw [tree, subdivide_child_iff hq]
    rcases mem_insert.mp hq with rfl | hq'
    · rw [hnew, Dict.lookup_singleton_iff]
      constructor
      · rintro ⟨rfl, rfl⟩
        exact ⟨Or.inr (Or.inl ⟨rfl, rfl⟩), hck₁⟩
      · rintro ⟨⟨rfl, e⟩ | ⟨rfl, -⟩ | ⟨-, hc⟩, hck⟩
        · exact absurd (e ▸ hp) h.new
        · exact ⟨Option.some.inj (hck.symm.trans hck₁), rfl⟩
        · exact absurd (hc.2.2 ▸ t.parent_mem hc.1 hc.2.1) h.new
    · have hqv : q ≠ v := h.new_ne hq'
      by_cases hqp : q = t.parent n
      · subst hqp
        rw [hpar, Dict.lookup_insert_iff]
        constructor
        · rintro (⟨rfl, rfl⟩ | ⟨hne, hl⟩)
          · exact ⟨Or.inl ⟨rfl, rfl⟩, (h.childKey_new hrep).trans hck₀⟩
          · obtain ⟨hc, hck⟩ := (hrep.lookup_iff hp).mp hl
            have hmn : m ≠ n := by
              rintro rfl
              exact hne (Option.some.inj (hck.symm.trans hck₀))
            exact ⟨Or.inr (Or.inr ⟨hmn, hc⟩), by rw [h.key_old m hc.1 hmn]; exact hck⟩
        · rintro ⟨⟨rfl, -⟩ | ⟨-, e⟩ | ⟨hmn, hc⟩, hck⟩
          · rw [h.childKey_new hrep, hck₀] at hck
            exact Or.inl ⟨(Option.some.inj hck).symm, rfl⟩
          · exact absurd e hqv
          · rw [h.key_old m hc.1 hmn] at hck
            have hl := (hrep.lookup_iff hp).mpr ⟨hc, hck⟩
            refine Or.inr ⟨?_, hl⟩
            rintro rfl
            have hl' := (hrep.lookup_iff hp).mpr ⟨⟨h.mem, h.ne_root, rfl⟩, hck₀⟩
            exact hmn (Option.some.inj (hl.symm.trans hl'))
      · rw [h.children_old q hq' hqp, hrep.lookup_iff hq']
        constructor
        · rintro ⟨hc, hck⟩
          have hmn : m ≠ n := by
            rintro rfl
            exact hqp hc.2.2.symm
          exact ⟨Or.inr (Or.inr ⟨hmn, hc⟩), by rw [h.key_old m hc.1 hmn]; exact hck⟩
        · rintro ⟨⟨-, e⟩ | ⟨-, e⟩ | ⟨hmn, hc⟩, hck⟩
          · exact absurd e hqp
          · exact absurd e hqv
          · exact ⟨hc, by rwa [h.key_old m hc.1 hmn] at hck⟩
  · intro m hm hr
    rcases mem_insert.mp hm with rfl | hm
    · rw [h.key_new]; exact hf.takeTo j
    · by_cases hmn : m = n
      · subst hmn
        rw [h.key_self]; exact hf.dropTo j
      · rw [h.key_old m hm hmn]; exact hrep.fits hm hr
  · intro m hm hr
    rcases mem_insert.mp hm with rfl | hm
    · exact h.label_ne_new
    · by_cases hmn : m = n
      · subst hmn
        exact h.label_ne_self
      · rw [h.label_old m hm hmn]; exact hrep.label_ne hm hr

end IsSplit

end Split

section Attach

variable {cfg : CacheConfig} {t : RootedTree NodeId} {c c' : RadixCache σ} {p v m : NodeId}
  {key : RadixKey}

namespace IsAttach

variable (h : IsAttach cfg t c p v key c')

include h

@[simp] theorem tree_root : h.tree.root = t.root := rfl

@[simp] theorem tree_nodes : h.tree.nodes = Insert.insert v t.nodes := rfl

theorem new_ne (hm : m ∈ t.nodes) : m ≠ v := ne_of_mem_of_not_mem hm h.new

theorem label_new : c'.label cfg v = key.label cfg.pageSize := by rw [label, h.key_new]

theorem label_old : ∀ m ∈ t.nodes, c'.label cfg m = c.label cfg m := by
  intro m hm
  rw [label, h.key_old m hm, label]

theorem word_old (hm : m ∈ t.nodes) :
    h.tree.word (c'.label cfg) m = t.word (c.label cfg) m :=
  word_attach_old hm h.label_old

theorem word_new :
    h.tree.word (c'.label cfg) v = t.word (c.label cfg) p ++ key.label cfg.pageSize := by
  rw [← h.label_new]
  exact word_attach_new h.label_old

theorem represents (hrep : Represents cfg t c) : Represents cfg h.tree c' := by
  obtain ⟨ck₀, hck₀, hpar⟩ := h.children_parent
  have hlook : ∀ m, (c.nodes p).children.lookup ck₀ ≠ some m := by
    intro m hm
    obtain ⟨hc, hhead⟩ := (hrep.lookup_eq_some_iff h.mem h.fits h.label_ne hck₀).mp hm
    exact h.absent m hc hhead
  refine ⟨h.rootNode.trans hrep.root_eq, ?_, ?_, ?_, ?_, ?_⟩
  · intro m hm
    rw [h.counter]
    rcases mem_insert.mp hm with rfl | hm
    · exact h.new_lt
    · exact Nat.lt_succ_of_lt (hrep.lt_counter hm)
  · intro m hm hr
    rcases mem_insert.mp hm with rfl | hm
    · rw [h.parent_new, tree, attach_parent_new]
    · rw [h.parent_old m hm, hrep.parent_eq hm hr, tree, attach_parent_old hm]
  · intro q hq ck m
    rw [tree, attach_child_iff]
    rcases mem_insert.mp hq with rfl | hq'
    · have hnil : (c'.nodes q).children.lookup ck ≠ some m := by
        rw [h.children_new]
        simp
      simp only [hnil, false_iff, not_and]
      rintro (hc | ⟨-, e⟩)
      · exact absurd (hc.2.2 ▸ t.parent_mem hc.1 hc.2.1) h.new
      · exact absurd (e ▸ h.mem) h.new
    · by_cases hqp : q = p
      · subst hqp
        rw [hpar, Dict.lookup_insert_iff]
        constructor
        · rintro (⟨rfl, rfl⟩ | ⟨-, hl⟩)
          · exact ⟨Or.inr ⟨rfl, rfl⟩, by rw [h.key_new]; exact hck₀⟩
          · obtain ⟨hc, hck⟩ := (hrep.lookup_iff hq').mp hl
            exact ⟨Or.inl hc, by rw [h.key_old m hc.1]; exact hck⟩
        · rintro ⟨hc | ⟨rfl, -⟩, hck⟩
          · rw [h.key_old m hc.1] at hck
            have hl := (hrep.lookup_iff hq').mpr ⟨hc, hck⟩
            refine Or.inr ⟨?_, hl⟩
            rintro rfl
            exact hlook m hl
          · rw [h.key_new, hck₀] at hck
            exact Or.inl ⟨(Option.some.inj hck).symm, rfl⟩
      · rw [h.children_old q hq' hqp, hrep.lookup_iff hq']
        constructor
        · rintro ⟨hc, hck⟩
          exact ⟨Or.inl hc, by rw [h.key_old m hc.1]; exact hck⟩
        · rintro ⟨hc | ⟨-, e⟩, hck⟩
          · exact ⟨hc, by rwa [h.key_old m hc.1] at hck⟩
          · exact absurd e hqp
  · intro m hm hr
    rcases mem_insert.mp hm with rfl | hm
    · rw [h.key_new]; exact h.fits
    · rw [h.key_old m hm]; exact hrep.fits hm hr
  · intro m hm hr
    rcases mem_insert.mp hm with rfl | hm
    · rw [h.label_new]; exact h.label_ne
    · rw [h.label_old m hm]; exact hrep.label_ne hm hr

end IsAttach

end Attach

section Detach

variable {cfg : CacheConfig} {t : RootedTree NodeId} {c c' : RadixCache σ} {n : NodeId}

namespace IsDetach

variable (h : IsDetach cfg t c n c')

include h

@[simp] theorem tree_root : h.tree.root = t.root := rfl

@[simp] theorem tree_nodes : h.tree.nodes = t.nodes.erase n := rfl

theorem label_eq : c'.label cfg = c.label cfg := by
  funext m
  rw [label, h.key, label]

theorem word_eq : h.tree.word (c'.label cfg) = t.word (c.label cfg) := by
  rw [h.label_eq]
  rfl

theorem represents (hrep : Represents cfg t c) : Represents cfg h.tree c' := by
  obtain ⟨ck₀, hck₀, hpar⟩ := h.children_parent
  have hp := t.parent_mem h.mem h.ne_root
  have hn := (hrep.lookup_iff hp).mpr ⟨⟨h.mem, h.ne_root, rfl⟩, hck₀⟩
  refine ⟨h.rootNode.trans hrep.root_eq, ?_, ?_, ?_, ?_, ?_⟩
  · intro m hm
    rw [h.counter]
    exact hrep.lt_counter (Finset.mem_of_mem_erase hm)
  · intro m hm hr
    rw [h.parent]
    exact hrep.parent_eq (Finset.mem_of_mem_erase hm) hr
  · intro q hq ck m
    have hq' := Finset.mem_of_mem_erase hq
    rw [tree, detach_child_iff, h.key]
    by_cases hqp : q = t.parent n
    · subst hqp
      rw [hpar, Dict.lookup_erase_iff, hrep.lookup_iff hq']
      constructor
      · rintro ⟨hne, hc, hck⟩
        refine ⟨⟨hc, ?_⟩, hck⟩
        rintro rfl
        exact hne (Option.some.inj (hck.symm.trans hck₀))
      · rintro ⟨⟨hc, hmn⟩, hck⟩
        refine ⟨?_, hc, hck⟩
        rintro rfl
        exact hmn (Option.some.inj (((hrep.lookup_iff hp).mpr ⟨hc, hck⟩).symm.trans hn))
    · rw [h.children_old q hqp, hrep.lookup_iff hq']
      constructor
      · rintro ⟨hc, hck⟩
        refine ⟨⟨hc, ?_⟩, hck⟩
        rintro rfl
        exact hqp hc.2.2.symm
      · rintro ⟨⟨hc, -⟩, hck⟩
        exact ⟨hc, hck⟩
  · intro m hm hr
    rw [h.key]
    exact hrep.fits (Finset.mem_of_mem_erase hm) hr
  · intro m hm hr
    rw [h.label_eq]
    exact hrep.label_ne (Finset.mem_of_mem_erase hm) hr

end IsDetach

end Detach

end RadixCache

end Sglang
