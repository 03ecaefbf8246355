/-
# Walking down the tree: what matching and inserting find

`_match_prefix_helper` and `_insert_helper` walk down from the root, one node a round, and split
the node at which the key leaves the tree.  Both walks only reshape: they split nodes and touch
access times, priorities and hit counts (`Reshape`), so every word of the tree, and every slot
list along a path, stays what it was.

The walk ends at a node whose word is a prefix of the key, and STUCK there: no child starts with
the next page of the key (`Stuck`).  In a separated tree that makes the word of the last node the
longest prefix of the key that any path of the tree spells (`Reaches.longest`).
-/
import Sglang.MemCache.Shape

namespace Sglang

open Lib List Option Finset RootedTree

namespace RadixCache

variable {σ : Type}

/-! ## 1. Bookkeeping and splits -/

/-- Only access times, priorities, hit counts and the clock differ. -/
structure Agree (c c' : RadixCache σ) : Prop extends SameLinks c c' where
  evictableSize : c'.evictableSize = c.evictableSize
  protectedSize : c'.protectedSize = c.protectedSize
  evictableLeaves : c'.evictableLeaves = c.evictableLeaves
  kvEventQueue : c'.kvEventQueue = c.kvEventQueue
  value : ∀ m, (c'.nodes m).value = (c.nodes m).value
  lockRef : ∀ m, (c'.nodes m).lockRef = (c.nodes m).lockRef
  hashValue : ∀ m, (c'.nodes m).hashValue = (c.nodes m).hashValue
  hostValue : ∀ m, (c'.nodes m).hostValue = (c.nodes m).hostValue
  hostRefCounter : ∀ m, (c'.nodes m).hostRefCounter = (c.nodes m).hostRefCounter

/-- An update of a node that leaves everything but the eviction order alone. -/
structure Touches (f : TreeNode σ → TreeNode σ) : Prop where
  parent : ∀ x, (f x).parent = x.parent
  children : ∀ x, (f x).children = x.children
  key : ∀ x, (f x).key = x.key
  value : ∀ x, (f x).value = x.value
  lockRef : ∀ x, (f x).lockRef = x.lockRef
  hashValue : ∀ x, (f x).hashValue = x.hashValue
  hostValue : ∀ x, (f x).hostValue = x.hostValue
  hostRefCounter : ∀ x, (f x).hostRefCounter = x.hostRefCounter

theorem Agree.modify {f : TreeNode σ → TreeNode σ} (hf : Touches f) (c : RadixCache σ)
    (n : NodeId) : Agree c (c.modify n f) where
  toSameLinks := SameLinks.modify c n f hf.parent hf.children hf.key
  evictableSize := rfl
  protectedSize := rfl
  evictableLeaves := rfl
  kvEventQueue := rfl
  value := c.modify_field n f _ hf.value
  lockRef := c.modify_field n f _ hf.lockRef
  hashValue := c.modify_field n f _ hf.hashValue
  hostValue := c.modify_field n f _ hf.hostValue
  hostRefCounter := c.modify_field n f _ hf.hostRefCounter

theorem Agree.refl (c : RadixCache σ) : Agree c c := by
  constructor <;> first | exact SameLinks.refl c | (intros; rfl)

theorem Agree.trans {c₁ c₂ c₃ : RadixCache σ} (h : Agree c₁ c₂) (h' : Agree c₂ c₃) :
    Agree c₁ c₃ where
  toSameLinks := h.toSameLinks.trans h'.toSameLinks
  evictableSize := h'.evictableSize.trans h.evictableSize
  protectedSize := h'.protectedSize.trans h.protectedSize
  evictableLeaves := h'.evictableLeaves.trans h.evictableLeaves
  kvEventQueue := h'.kvEventQueue.trans h.kvEventQueue
  value := fun m => (h'.value m).trans (h.value m)
  lockRef := fun m => (h'.lockRef m).trans (h.lockRef m)
  hashValue := fun m => (h'.hashValue m).trans (h.hashValue m)
  hostValue := fun m => (h'.hostValue m).trans (h.hostValue m)
  hostRefCounter := fun m => (h'.hostRefCounter m).trans (h.hostRefCounter m)

theorem Agree.readClock (cfg : CacheConfig) (c : RadixCache σ) :
    Agree c (c.readClock cfg).2 := by
  constructor <;> first | (constructor <;> (intros; rfl)) | (intros; rfl)

theorem Agree.incHitCount (c : RadixCache σ) (n : NodeId) (chunked : Bool) :
    Agree c (c.incHitCount n chunked) := by
  unfold RadixCache.incHitCount
  split
  · exact Agree.refl c
  · exact Agree.modify (by constructor <;> (intros; rfl)) c n

/-- A split together with what it does to the data of the nodes. -/
structure Splits (cfg : CacheConfig) (t : RootedTree NodeId) (c : RadixCache σ) (n v : NodeId)
    (j : ℕ) (c' : RadixCache σ) : Prop extends IsSplit cfg t c n v j c' where
  evictableSize : c'.evictableSize = c.evictableSize
  protectedSize : c'.protectedSize = c.protectedSize
  evictableLeaves : c'.evictableLeaves = c.evictableLeaves
  kvEventQueue : c'.kvEventQueue = c.kvEventQueue
  value_new : (c'.nodes v).value = (c.nodes n).value.map (List.take (cfg.pageSize * j))
  value_self : (c'.nodes n).value = (c.nodes n).value.map (List.drop (cfg.pageSize * j))
  value_old : ∀ m ∈ t.nodes, m ≠ n → (c'.nodes m).value = (c.nodes m).value
  lockRef_new : (c'.nodes v).lockRef = (c.nodes n).lockRef
  lockRef_old : ∀ m ∈ t.nodes, (c'.nodes m).lockRef = (c.nodes m).lockRef
  hashValue_new : (c'.nodes v).hashValue = (c.nodes n).hashValue.map (List.take j)
  hashValue_self : (c'.nodes n).hashValue = (c.nodes n).hashValue.map (List.drop j)
  hashValue_old : ∀ m ∈ t.nodes, m ≠ n → (c'.nodes m).hashValue = (c.nodes m).hashValue

/-- Cutting the hashes at a page boundary takes whole pages. -/
theorem splitNodeHashValue_eq (hs : Option (List Digest)) {p : ℕ} (hp : 0 < p) (j : ℕ) :
    splitNodeHashValue hs (p * j) p = (hs.map (List.take j), hs.map (List.drop j)) := by
  have hpages : (if p = 1 then p * j else p * j / p) = j := by
    split
    · rename_i h; rw [h, Nat.one_mul]
    · exact Nat.mul_div_cancel_left j hp
  cases hs with
  | none => rfl
  | some l => simp [splitNodeHashValue, hpages]

/-- **`_split_node` splits**: cut at a page boundary strictly inside a node of the tree, it
succeeds. -/
theorem splitNode_spec {cfg : CacheConfig} {t : RootedTree NodeId} {c : RadixCache σ} {n : NodeId}
    {j : ℕ} {value : List σ} (hrep : Represents cfg t c) (hn : n ∈ t.nodes) (hr : n ≠ t.root)
    (hv : (c.nodes n).value = some value) (hj : 0 < j) (hlt : j < (c.label cfg n).length) :
    ∃ c', c.splitNode cfg (c.nodes n).key n (cfg.pageSize * j) = some (c.counter, c') ∧
      Splits cfg t c n c.counter j c' := by
  have hf := hrep.fits hn hr
  have hfresh := hrep.counter_not_mem
  have hp := t.parent_mem hn hr
  have hpn : t.parent n ≠ n := RootedTree.parent_ne hn hr
  have hnv : n ≠ c.counter := ne_of_mem_of_not_mem hn hfresh
  have hpv : t.parent n ≠ c.counter := ne_of_mem_of_not_mem hp hfresh
  have hpar := hrep.parent_eq hn hr
  obtain ⟨ck₀, hck₀⟩ := hrep.exists_childKey hn hr
  obtain ⟨ck₁, hck₁⟩ : ∃ ck, ((c.nodes n).key.dropTo (cfg.pageSize * j)).childKey cfg.pageSize
      = some ck := by
    refine (hf.dropTo j).exists_childKey cfg.pageSize_pos ?_
    rw [RadixKey.label_dropTo]
    intro e
    have := congrArg List.length e
    rw [length_drop, length_nil] at this
    rw [label] at hlt
    omega
  have hhash := splitNodeHashValue_eq (c.nodes n).hashValue cfg.pageSize_pos j
  refine ⟨_, by
    simp only [splitNode, hpar, hv, hck₀, hck₁, hhash, newTreeNode, bind_eq_bind, bind_some]
    rfl, ?_⟩
  have hold : ∀ m ∈ t.nodes, m ≠ c.counter := fun m hm => ne_of_mem_of_not_mem hm hfresh
  constructor
  · constructor
    case children_new => exact ⟨ck₁, by simp [modify, hpn, hnv, hpn.symm, hck₁], by
      simp [modify, hpv.symm, hnv.symm]⟩
    case children_parent => exact ⟨ck₀, hck₀, by simp [modify, hpn, hpv]⟩
    case children_old =>
      intro m hm hmp
      by_cases hmn : m = n
      · subst hmn; simp [modify, hmp, hnv]
      · simp [modify, hmp, hmn, hold m hm]
    case parent_old | key_old =>
      intro m hm hmn
      by_cases hmp : m = t.parent n
      · subst hmp; simp [modify, hmn, hpv]
      · simp [modify, hmn, hmp, hold m hm]
    all_goals first
      | assumption
      | rfl
      | simp [modify, hpn, hnv, hpv, hpn.symm, hnv.symm, hpv.symm]
  case lockRef_old =>
    intro m hm
    by_cases hmp : m = t.parent n
    · subst hmp; simp [modify, hpv, hpn]
    · by_cases hmn : m = n
      · subst hmn; simp [modify, hnv, hmp]
      · simp [modify, hmn, hold m hm, hmp]
  case value_old | hashValue_old =>
    intro m hm hmn
    by_cases hmp : m = t.parent n
    · subst hmp; simp [modify, hmn, hpv]
    · simp [modify, hmn, hmp, hold m hm]
  all_goals first
    | rfl
    | simp [modify, hpn, hnv, hpv, hpn.symm, hnv.symm, hpv.symm, hv]

/-! ## 2. Reshaping -/

/-- The slots of a node. -/
def slots (c : RadixCache σ) (n : NodeId) : List σ := (c.nodes n).value.getD []

/-- Every node below the root holds one slot for each unit of its key. -/
def Filled (t : RootedTree NodeId) (c : RadixCache σ) : Prop :=
  ∀ n ∈ t.nodes, n ≠ t.root →
    ∃ value, (c.nodes n).value = some value ∧ value.length = (c.nodes n).key.len

/-- Any number of splits and of bookkeeping updates. -/
inductive Reshape (cfg : CacheConfig) (t : RootedTree NodeId) (c : RadixCache σ) :
    RootedTree NodeId → RadixCache σ → Prop
  | refl : Reshape cfg t c t c
  | touch {t' : RootedTree NodeId} {c' c'' : RadixCache σ} :
    Reshape cfg t c t' c' → Agree c' c'' → Reshape cfg t c t' c''
  | split {t' : RootedTree NodeId} {c' c'' : RadixCache σ} {n v : NodeId} {j : ℕ} :
    Reshape cfg t c t' c' → (h : Splits cfg t' c' n v j c'') → Reshape cfg t c h.tree c''

section Reshape

variable {cfg : CacheConfig} {t t' t'' : RootedTree NodeId} {c c' c'' : RadixCache σ}
  {n v m : NodeId} {j : ℕ}

theorem Agree.slots (h : Agree c c') : c'.slots = c.slots := by
  funext m
  rw [RadixCache.slots, RadixCache.slots, h.value]

theorem Agree.filled (h : Agree c c') (hf : Filled t c) : Filled t c' := by
  intro m hm hr
  rw [h.value, h.key]
  exact hf m hm hr

namespace Splits

variable (h : Splits cfg t c n v j c')

include h

theorem slots_new : c'.slots v = (c.slots n).take (cfg.pageSize * j) := by
  rw [slots, h.value_new, slots]
  cases (c.nodes n).value <;> simp

theorem slots_self : c'.slots n = (c.slots n).drop (cfg.pageSize * j) := by
  rw [slots, h.value_self, slots]
  cases (c.nodes n).value <;> simp

theorem slots_old : ∀ m ∈ t.nodes, m ≠ n → c'.slots m = c.slots m := by
  intro m hm hmn
  rw [slots, h.value_old m hm hmn, slots]

/-- **A split moves no slot along a path.** -/
theorem slots_word (hm : m ∈ t.nodes) : h.tree.word c'.slots m = t.word c.slots m :=
  (word_subdivide h.slots_old (by rw [h.slots_new, h.slots_self, take_append_drop])).1 m hm

theorem slots_word_new :
    h.tree.word c'.slots v = t.word c.slots (t.parent n) ++ c'.slots v :=
  (word_subdivide h.slots_old (by rw [h.slots_new, h.slots_self, take_append_drop])).2

theorem filled (hf : Filled t c) : Filled h.tree c' := by
  obtain ⟨value, hv, hlen⟩ := hf n h.mem h.ne_root
  intro m hm hr
  rcases mem_insert.mp hm with rfl | hm
  · refine ⟨value.take (cfg.pageSize * j), by rw [h.value_new, hv]; rfl, ?_⟩
    rw [h.key_new, RadixKey.len_takeTo, length_take, hlen]
  · by_cases hmn : m = n
    · subst hmn
      refine ⟨value.drop (cfg.pageSize * j), by rw [h.value_self, hv]; rfl, ?_⟩
      rw [h.key_self, RadixKey.len_dropTo, length_drop, hlen]
    · rw [h.value_old m hm hmn, h.key_old m hm hmn]
      exact hf m hm hr

end Splits

namespace Reshape

theorem trans (h : Reshape cfg t c t' c') (h' : Reshape cfg t' c' t'' c'') :
    Reshape cfg t c t'' c'' := by
  induction h' with
  | refl => exact h
  | touch _ ha ih => exact ih.touch ha
  | split _ hs ih => exact ih.split hs

theorem of_agree (h : Agree c c') : Reshape cfg t c t c' := refl.touch h

theorem root_eq (h : Reshape cfg t c t' c') : t'.root = t.root := by
  induction h with
  | refl => rfl
  | touch _ _ ih => exact ih
  | split _ _ ih => exact ih

theorem nodes_subset (h : Reshape cfg t c t' c') : t.nodes ⊆ t'.nodes := by
  induction h with
  | refl => exact Finset.Subset.refl _
  | touch _ _ ih => exact ih
  | split _ _ ih => exact ih.trans (Finset.subset_insert _ _)

theorem represents (h : Reshape cfg t c t' c') (hrep : Represents cfg t c) :
    Represents cfg t' c' := by
  induction h with
  | refl => exact hrep
  | touch _ ha ih => exact ih.of_sameLinks ha.toSameLinks
  | split _ hs ih => exact hs.represents ih

theorem filled (h : Reshape cfg t c t' c') (hf : Filled t c) : Filled t' c' := by
  induction h with
  | refl => exact hf
  | touch _ ha ih => exact ha.filled ih
  | split _ hs ih => exact hs.filled ih

/-- **Reshaping changes no word** of a node that was there. -/
theorem word_eq (h : Reshape cfg t c t' c') (hm : m ∈ t.nodes) :
    t'.word (c'.label cfg) m = t.word (c.label cfg) m := by
  induction h with
  | refl => rfl
  | touch _ ha ih => rw [ha.label]; exact ih
  | split h hs ih => exact (hs.word_old (h.nodes_subset hm)).trans ih

theorem slots_eq (h : Reshape cfg t c t' c') (hm : m ∈ t.nodes) :
    t'.word c'.slots m = t.word c.slots m := by
  induction h with
  | refl => rfl
  | touch _ ha ih => rw [ha.slots]; exact ih
  | split h hs ih => exact (hs.slots_word (h.nodes_subset hm)).trans ih

end Reshape

end Reshape

/-! ## 3. One round -/

/-- No child of the node starts with the page that comes next. -/
def Stuck (cfg : CacheConfig) (t : RootedTree NodeId) (c : RadixCache σ) (node : NodeId)
    (rest : List RadixKey.TaggedPage) : Prop :=
  ∀ q, t.Child node q → (c.label cfg q).head? ≠ rest.head?

/-- What a round finds at the child the dict points to: `j` equal pages, at least one. -/
structure Round (cfg : CacheConfig) (t : RootedTree NodeId) (c : RadixCache σ)
    (node child : NodeId) (key : RadixKey) (j : ℕ) : Prop where
  isChild : t.Child node child
  pos : 0 < j
  le_child : j ≤ (c.label cfg child).length
  le_key : j ≤ (key.label cfg.pageSize).length
  matchLen : (c.nodes child).key.matchLen key cfg.pageSize = some (cfg.pageSize * j)
  take_eq : (c.label cfg child).take j = (key.label cfg.pageSize).take j
  lt_iff : cfg.pageSize * j < (c.nodes child).key.len ↔ j < (c.label cfg child).length
  drop_ne : j < (c.label cfg child).length →
    ((c.label cfg child).drop j).head? ≠ ((key.label cfg.pageSize).drop j).head?

section Walks

variable {cfg : CacheConfig} {t t' : RootedTree NodeId} {c c' : RadixCache σ}
  {c₁ : RadixCache σ} {node child : NodeId} {key : RadixKey} {ck : ChildKey} {j : ℕ}

theorem exists_round (hrep : Represents cfg t c) (hnode : node ∈ t.nodes)
    (hkey : key.Fits cfg.isEagle cfg.pageSize) (hne : key.label cfg.pageSize ≠ [])
    (hck : key.childKey cfg.pageSize = some ck)
    (hl : (c.nodes node).children.lookup ck = some child) :
    ∃ j, Round cfg t c node child key j := by
  obtain ⟨hc, hhead⟩ := (hrep.lookup_eq_some_iff hnode hkey hne hck).mp hl
  have hf := hrep.fits hc.1 hc.2.1
  have hcne := hrep.label_ne hc.1 hc.2.1
  have hextra : (c.nodes child).key.extraKey = key.extraKey := by
    rw [label, hf.head?_label cfg.pageSize_pos hcne, hkey.head?_label cfg.pageSize_pos hne] at hhead
    exact (Prod.mk.inj (Option.some.inj hhead)).1
  have hpos : 1 ≤ commonPrefixLength (c.label cfg child) (key.label cfg.pageSize) := by
    obtain ⟨a, l, hl⟩ := exists_cons_of_ne_nil hcne
    obtain ⟨b, k, hk⟩ := exists_cons_of_ne_nil hne
    rw [hl, hk] at hhead ⊢
    rw [head?_cons, head?_cons, Option.some.injEq] at hhead
    rw [commonPrefixLength, if_pos hhead]
    omega
  refine ⟨_, hc, hpos, commonPrefixLength_le_left _ _, commonPrefixLength_le_right _ _,
    hf.matchLen_eq cfg.pageSize_pos hkey hextra, take_commonPrefixLength _ _, ?_,
    head?_drop_commonPrefixLength_ne⟩
  rw [hf.len_eq]
  exact Nat.mul_lt_mul_left cfg.pageSize_pos

/-- A dict without the key of the next page leaves the walk stuck. -/
theorem stuck_of_lookup_none (hrep : Represents cfg t c) (hnode : node ∈ t.nodes)
    (hkey : key.Fits cfg.isEagle cfg.pageSize) (hne : key.label cfg.pageSize ≠ [])
    (hck : key.childKey cfg.pageSize = some ck)
    (hl : (c.nodes node).children.lookup ck = none) :
    Stuck cfg t c node (key.label cfg.pageSize) := by
  intro q hq hhead
  rw [(hrep.lookup_eq_some_iff hnode hkey hne hck).mpr ⟨hq, hhead⟩] at hl
  cases hl

theorem stuck_nil (hrep : Represents cfg t c) : Stuck cfg t c node [] := by
  intro q hq hhead
  have := hrep.label_ne hq.1 hq.2.1
  rw [head?_nil, head?_eq_none_iff] at hhead
  exact this hhead

theorem exists_nextChildKey (hkey : key.Fits cfg.isEagle cfg.pageSize) (ck : ChildKey) :
    ∃ ck', nextChildKey cfg key ck = some ck' ∧
      (key.label cfg.pageSize ≠ [] → key.childKey cfg.pageSize = some ck') := by
  unfold nextChildKey
  by_cases h0 : key.len > 0
  · obtain ⟨ck', h⟩ := hkey.exists_childKey cfg.pageSize_pos (by rw [Ne, hkey.label_eq_nil]; omega)
    exact ⟨ck', by rw [if_pos h0, h], fun _ => h⟩
  · exact ⟨ck, by rw [if_neg h0], fun h => absurd (hkey.label_eq_nil.mpr (by omega)) h⟩

/-- **The rounds of a walk** along pages, down from a node: it stops where it is stuck, cuts a child
that agrees for `j` pages, or goes through a child as a whole.  Bookkeeping may come before each of
these. -/
inductive Descends (cfg : CacheConfig) : RootedTree NodeId → RadixCache σ → NodeId →
    List RadixKey.TaggedPage → ℕ → RootedTree NodeId → RadixCache σ → NodeId → Prop
  | stop {t : RootedTree NodeId} {c : RadixCache σ} {node : NodeId}
      {pages : List RadixKey.TaggedPage} (hstuck : Stuck cfg t c node pages) :
    Descends cfg t c node pages 0 t c node
  | touch {t t' : RootedTree NodeId} {c c₁ c' : RadixCache σ} {node node' : NodeId}
      {pages : List RadixKey.TaggedPage} {j : ℕ} (ha : Agree c c₁)
      (h : Descends cfg t c₁ node pages j t' c' node') : Descends cfg t c node pages j t' c' node'
  | cut {t t' : RootedTree NodeId} {c c₁ c' : RadixCache σ} {node child node' : NodeId}
      {pages : List RadixKey.TaggedPage} {j j' : ℕ} (hchild : t.Child node child)
      (hle : j ≤ pages.length) (htake : (c.label cfg child).take j = pages.take j)
      (hdrop : ((c.label cfg child).drop j).head? ≠ (pages.drop j).head?)
      (hs : Splits cfg t c child c.counter j c₁)
      (h : Descends cfg hs.tree c₁ c.counter (pages.drop j) j' t' c' node') :
    Descends cfg t c node pages (j + j') t' c' node'
  | whole {t t' : RootedTree NodeId} {c c' : RadixCache σ} {node child node' : NodeId}
      {pages : List RadixKey.TaggedPage} {j j' : ℕ} (hchild : t.Child node child)
      (hlen : (c.label cfg child).length = j) (hpre : pages.take j = c.label cfg child)
      (h : Descends cfg t c child (pages.drop j) j' t' c' node') :
    Descends cfg t c node pages (j + j') t' c' node'

/-- What a walk that started at `node` has reached: `j` pages further down, with `values` the
slots of these pages, and stuck. -/
structure Reaches (cfg : CacheConfig) (t : RootedTree NodeId) (c : RadixCache σ) (node : NodeId)
    (pages : List RadixKey.TaggedPage) (j : ℕ) (values : List σ) (t' : RootedTree NodeId)
    (c' : RadixCache σ) (node' : NodeId) : Prop where
  reshape : Reshape cfg t c t' c'
  mem : node' ∈ t'.nodes
  le : j ≤ pages.length
  word : t'.word (c'.label cfg) node' = t.word (c.label cfg) node ++ pages.take j
  slots : t'.word c'.slots node' = t.word c.slots node ++ values
  stuck : Stuck cfg t' c' node' (pages.drop j)
  descends : Descends cfg t c node pages j t' c' node'

variable {node' : NodeId}

/-- A walk goes on from where a reshaping and a first step have led it. -/
theorem Reaches.step {t₁ : RootedTree NodeId} {c₁ : RadixCache σ} {node₁ : NodeId}
    {pages : List RadixKey.TaggedPage} {j₁ : ℕ} {values₁ values : List σ}
    (hre : Reshape cfg t c t₁ c₁) (hle : j₁ ≤ pages.length)
    (hword : t₁.word (c₁.label cfg) node₁ = t.word (c.label cfg) node ++ pages.take j₁)
    (hslots : t₁.word c₁.slots node₁ = t.word c.slots node ++ values₁)
    (hdesc : Descends cfg t₁ c₁ node₁ (pages.drop j₁) j t' c' node' →
      Descends cfg t c node pages (j₁ + j) t' c' node')
    (h : Reaches cfg t₁ c₁ node₁ (pages.drop j₁) j values t' c' node') :
    Reaches cfg t c node pages (j₁ + j) (values₁ ++ values) t' c' node' where
  reshape := hre.trans h.reshape
  mem := h.mem
  le := by
    have := h.le
    rw [length_drop] at this
    omega
  word := by rw [h.word, hword, append_assoc, take_add]
  slots := by rw [h.slots, hslots, append_assoc]
  stuck := by
    have := h.stuck
    rwa [drop_drop] at this
  descends := hdesc h.descends

/-! ## 4. The two loops -/

theorem Round.whole (hrd : Round cfg t c node child key j) (hj : ¬ j < (c.label cfg child).length) :
    t.word (c.label cfg) child = t.word (c.label cfg) node ++ (key.label cfg.pageSize).take j ∧
      t.word c.slots child = t.word c.slots node ++ c.slots child := by
  obtain ⟨hm, hr, hp⟩ := hrd.isChild
  refine ⟨?_, by rw [word_cons hm hr, hp]⟩
  rw [word_cons hm hr, hp, ← hrd.take_eq, take_of_length_le (by omega)]

/-- The slots and the word of the upper half, when the child is split. -/
theorem Round.cut (hrd : Round cfg t c node child key j) {v : NodeId}
    (hs : Splits cfg t c child v j c') :
    hs.tree.word (c'.label cfg) v = t.word (c.label cfg) node ++ (key.label cfg.pageSize).take j ∧
      hs.tree.word c'.slots v = t.word c.slots node ++ c'.slots v := by
  refine ⟨?_, by rw [hs.slots_word_new, hrd.isChild.2.2]⟩
  rw [hs.word_new, hrd.isChild.2.2, hrd.take_eq]

/-- A split at the end of the common prefix leaves the walk stuck at the upper half. -/
theorem Splits.stuck {v : NodeId} {rest : List RadixKey.TaggedPage}
    (hs : Splits cfg t c child v j c')
    (hne : ((c.label cfg child).drop j).head? ≠ rest.head?) : Stuck cfg hs.tree c' v rest := by
  intro q hq
  rw [IsSplit.tree, subdivide_child_iff (Finset.mem_insert_self _ _)] at hq
  rcases hq with ⟨-, e⟩ | ⟨rfl, -⟩ | ⟨-, hc⟩
  · exact absurd (e ▸ t.parent_mem hs.mem hs.ne_root) hs.new
  · rw [hs.label_self]
    exact hne
  · exact absurd (hc.2.2 ▸ t.parent_mem hc.1 hc.2.1) hs.new

theorem Round.stuck (hrd : Round cfg t c node child key j) {v : NodeId}
    (hs : Splits cfg t c child v j c') :
    Stuck cfg hs.tree c' v ((key.label cfg.pageSize).drop j) :=
  hs.stuck (hrd.drop_ne hs.lt)

theorem Descends.of_stuck {pages : List RadixKey.TaggedPage}
    (h : Descends cfg t c node pages j t' c' node') (hrep : Represents cfg t c)
    (hst : Stuck cfg t c node pages) : j = 0 ∧ t' = t ∧ node' = node ∧ Agree c c' := by
  induction h with
  | stop _ => exact ⟨rfl, rfl, rfl, Agree.refl _⟩
  | touch ha _ ih =>
    obtain ⟨h1, h2, h3, h4⟩ := ih (hrep.of_sameLinks ha.toSameLinks)
      (fun q hq => by rw [ha.label]; exact hst q hq)
    exact ⟨h1, h2, h3, ha.trans h4⟩
  | cut hchild hle htake _ hs _ _ =>
    have := congrArg List.head? htake
    rw [head?_take, head?_take, if_neg hs.pos.ne', if_neg hs.pos.ne'] at this
    exact absurd this (hst _ hchild)
  | @whole t t' c c' node child node' pages j j' hchild hlen hpre _ _ =>
    have hj : j ≠ 0 := by
      rintro rfl
      exact hrep.label_ne hchild.1 hchild.2.1 (eq_nil_of_length_eq_zero hlen)
    have := congrArg List.head? hpre
    rw [head?_take, if_neg hj] at this
    exact absurd this.symm (hst _ hchild)

variable {j' : ℕ}

/-- A round that cuts its child, as a step of the walk. -/
theorem Round.descends_cut (hrd : Round cfg t c node child key j)
    (hs : Splits cfg t c child c.counter j c₁)
    (h : Descends cfg hs.tree c₁ c.counter ((key.label cfg.pageSize).drop j) j' t' c' node') :
    Descends cfg t c node (key.label cfg.pageSize) (j + j') t' c' node' :=
  .cut hrd.isChild hrd.le_key hrd.take_eq (hrd.drop_ne hs.lt) hs h

/-- A round that goes through its child, as a step of the walk. -/
theorem Round.descends_whole (hrd : Round cfg t c node child key j)
    (hj : ¬ j < (c.label cfg child).length)
    (h : Descends cfg t c child ((key.label cfg.pageSize).drop j) j' t' c' node') :
    Descends cfg t c node (key.label cfg.pageSize) (j + j') t' c' node' := by
  have hlen : (c.label cfg child).length = j := le_antisymm (not_lt.mp hj) hrd.le_child
  refine .whole hrd.isChild hlen ?_ h
  rw [← hrd.take_eq, take_of_length_le hlen.le]

/-- **The loop of `_match_prefix_helper`** ends at a stuck node with the slots of the pages it
went down. -/
theorem matchLoop_spec (accessTime : ℤ) : ∀ (fuel : ℕ) (t : RootedTree NodeId)
    (c : RadixCache σ) (node : NodeId) (key : RadixKey) (ck : ChildKey) (value : List (List σ)),
    Represents cfg t c → Filled t c → node ∈ t.nodes → key.Fits cfg.isEagle cfg.pageSize →
    (key.label cfg.pageSize ≠ [] → key.childKey cfg.pageSize = some ck) → key.len < fuel →
    ∃ j vs t' c' node',
      matchLoop cfg accessTime fuel c node key ck value = some (value ++ vs, node', c') ∧
      Reaches cfg t c node (key.label cfg.pageSize) j vs.flatten t' c' node' := by
  intro fuel
  induction fuel with
  | zero => intro t c node key ck value _ _ _ _ _ hfuel; omega
  | succ fuel ih =>
    intro t c node key ck value hrep hfill hnode hkey hck hfuel
    by_cases hlen : key.len > 0
    · have hne : key.label cfg.pageSize ≠ [] := by
        rw [Ne, hkey.label_eq_nil]
        omega
      cases hl : (c.nodes node).children.lookup ck with
      | none =>
        have hstuck := stuck_of_lookup_none hrep hnode hkey hne (hck hne) hl
        exact ⟨0, [], t, c, node, by simp [matchLoop, hlen, hl], .refl, hnode, Nat.zero_le _,
          by simp, by simp, hstuck, .stop hstuck⟩
      | some child =>
        have ha : Agree c (c.modify child fun n => { n with lastAccessTime := accessTime }) :=
          Agree.modify (by constructor <;> (intros; rfl)) c child
        generalize hc₁ : (c.modify child fun n => { n with lastAccessTime := accessTime }) = c₁
          at ha
        have hrep₁ := hrep.of_sameLinks ha.toSameLinks
        have hfill₁ := ha.filled hfill
        obtain ⟨j, hrd⟩ := exists_round hrep₁ hnode hkey hne (hck hne)
          (by rw [ha.children]; exact hl)
        obtain ⟨hm, hr, -⟩ := hrd.isChild
        obtain ⟨v, hv, hvlen⟩ := hfill₁ child hm hr
        by_cases hj : j < (c₁.label cfg child).length
        · obtain ⟨c₂, hsplit, hs⟩ := splitNode_spec hrep₁ hm hr hv hrd.pos hj
          have hslots : c₂.slots c₁.counter = v.take (cfg.pageSize * j) := by
            rw [slots, hs.value_new, hv]; rfl
          refine ⟨j, [v.take (cfg.pageSize * j)], _, c₂, c₁.counter, ?_,
            (Reshape.of_agree ha).split hs, Finset.mem_insert_self _ _, hrd.le_key, ?_, ?_,
            hrd.stuck hs, .touch ha (hrd.descends_cut hs (.stop (hrd.stuck hs)))⟩
          · simp only [matchLoop, hlen, if_true, hl, hc₁, hrd.matchLen, bind_eq_bind,
              bind_some, hrd.lt_iff, hj, hsplit, hs.value_new, hv, map_some]
            rfl
          · rw [(hrd.cut hs).1, ha.label]
          · rw [(hrd.cut hs).2, ha.slots, hslots]
            simp
        · have hkey' := hkey.dropTo j
          obtain ⟨ck', hck', hck''⟩ := exists_nextChildKey hkey' ck
          have hdec : 0 < cfg.pageSize * j := Nat.mul_pos cfg.pageSize_pos hrd.pos
          obtain ⟨j', vs, t', c', node', hloop, hreach⟩ := ih t c₁ child
            (key.dropTo (cfg.pageSize * j)) ck' (value ++ [v]) hrep₁ hfill₁ hm hkey' hck''
            (by rw [RadixKey.len_dropTo]; omega)
          rw [RadixKey.label_dropTo] at hreach
          obtain ⟨hword, hslots⟩ := hrd.whole hj
          have hcv : c₁.slots child = v := by rw [slots, hv]; rfl
          refine ⟨j + j', v :: vs, t', c', node', ?_, ?_⟩
          · simp only [matchLoop, hlen, if_true, hl, hc₁, hrd.matchLen, bind_eq_bind,
              bind_some, hrd.lt_iff, hj, hv, if_false, hck', hloop]
            simp
          · rw [← hcv]
            refine Reaches.step (Reshape.of_agree ha) hrd.le_key ?_ ?_ ?_ hreach
            · rw [hword, ha.label]
            · rw [hslots, ha.slots]
            · exact fun h => .touch ha (hrd.descends_whole hj h)
    · have hstuck : Stuck cfg t c node (key.label cfg.pageSize) := by
        rw [hkey.label_eq_nil.mpr (by omega)]
        exact stuck_nil hrep
      exact ⟨0, [], t, c, node, by simp [matchLoop, hlen], .refl, hnode, Nat.zero_le _,
        by simp, by simp, hstuck, .stop hstuck⟩

/-- `split_or_stay` after a round: one reshaping, and the pages of the round behind it. -/
theorem Round.splitOrStay (hrd : Round cfg t c node child key j) (hrep : Represents cfg t c)
    (hfill : Filled t c) :
    ∃ t₁ c₁ node₁ values₁, c.splitOrStay cfg child (cfg.pageSize * j) = some (node₁, c₁) ∧
      Reshape cfg t c t₁ c₁ ∧ node₁ ∈ t₁.nodes ∧
      t₁.word (c₁.label cfg) node₁ = t.word (c.label cfg) node ++ (key.label cfg.pageSize).take j ∧
      t₁.word c₁.slots node₁ = t.word c.slots node ++ values₁ ∧
      ∀ {j' t' c' node'}, Descends cfg t₁ c₁ node₁ ((key.label cfg.pageSize).drop j) j' t' c' node' →
        Descends cfg t c node (key.label cfg.pageSize) (j + j') t' c' node' := by
  obtain ⟨hm, hr, -⟩ := hrd.isChild
  by_cases hj : j < (c.label cfg child).length
  · obtain ⟨v, hv, -⟩ := hfill child hm hr
    obtain ⟨c₂, hsplit, hs⟩ := splitNode_spec hrep hm hr hv hrd.pos hj
    refine ⟨_, c₂, _, _, ?_, Reshape.refl.split hs, Finset.mem_insert_self _ _, (hrd.cut hs).1,
      (hrd.cut hs).2, hrd.descends_cut hs⟩
    rw [RadixCache.splitOrStay, if_pos (hrd.lt_iff.mpr hj), hsplit]
  · refine ⟨t, c, child, _, ?_, .refl, hm, (hrd.whole hj).1, (hrd.whole hj).2,
      hrd.descends_whole hj⟩
    rw [RadixCache.splitOrStay, if_neg (mt hrd.lt_iff.mp hj)]

/-- **The loop of `_insert_helper`** ends at a stuck node; what is left of the key and of the
slots is what lies behind the pages it went down. -/
theorem insertLoop_spec (accessTime priority : ℤ) (chunked : Bool) : ∀ (fuel : ℕ)
    (t : RootedTree NodeId) (c : RadixCache σ) (node : NodeId) (key : RadixKey) (value : List σ)
    (ck : ChildKey) (total : ℕ),
    Represents cfg t c → Filled t c → node ∈ t.nodes → key.Fits cfg.isEagle cfg.pageSize →
    (key.label cfg.pageSize ≠ [] → key.childKey cfg.pageSize = some ck) → key.len < fuel →
    ∃ j vs t' w,
      insertLoop cfg accessTime priority chunked fuel c node key value ck total = some w ∧
      Reaches cfg t c node (key.label cfg.pageSize) j vs t' w.cache w.node ∧
      w.total = total + cfg.pageSize * j ∧ w.value = value.drop (cfg.pageSize * j) ∧
      w.key.Fits cfg.isEagle cfg.pageSize ∧
      w.key.label cfg.pageSize = (key.label cfg.pageSize).drop j ∧
      (w.key.label cfg.pageSize ≠ [] → w.key.childKey cfg.pageSize = some w.childKey) := by
  intro fuel
  induction fuel with
  | zero => intro t c node key value ck total _ _ _ _ _ hfuel; omega
  | succ fuel ih =>
    intro t c node key value ck total hrep hfill hnode hkey hck hfuel
    by_cases hlen : key.len > 0
    · have hne : key.label cfg.pageSize ≠ [] := by
        rw [Ne, hkey.label_eq_nil]
        omega
      cases hl : (c.nodes node).children.lookup ck with
      | none =>
        have hstuck := stuck_of_lookup_none hrep hnode hkey hne (hck hne) hl
        exact ⟨0, [], t, ⟨total, node, key, value, ck, c⟩, by simp [insertLoop, hlen, hl],
          ⟨.refl, hnode, Nat.zero_le _, by simp, by simp, hstuck, .stop hstuck⟩, by simp, by simp,
          hkey, by simp, hck⟩
      | some child =>
        have ha : Agree c (c.modify child fun n => { n with lastAccessTime := accessTime }) :=
          Agree.modify (by constructor <;> (intros; rfl)) c child
        generalize hc₁ : (c.modify child fun n => { n with lastAccessTime := accessTime }) = c₁
          at ha
        have hrep₁ := hrep.of_sameLinks ha.toSameLinks
        have hfill₁ := ha.filled hfill
        obtain ⟨j, hrd⟩ := exists_round hrep₁ hnode hkey hne (hck hne)
          (by rw [ha.children]; exact hl)
        obtain ⟨t₂, c₂, node₂, values₂, hstay, hre₂, hmem₂, hword₂, hslots₂, hdesc₂⟩ :=
          hrd.splitOrStay hrep₁ hfill₁
        have ha₂ : Agree c₂ ((c₂.modify node₂ fun n =>
            { n with priority := max n.priority priority }).incHitCount node₂ chunked) :=
          (Agree.modify (by constructor <;> (intros; rfl)) c₂ node₂).trans
            (Agree.incHitCount _ node₂ chunked)
        generalize hc₃ : ((c₂.modify node₂ fun n =>
            { n with priority := max n.priority priority }).incHitCount node₂ chunked) = c₃ at ha₂
        have hre₃ : Reshape cfg t c t₂ c₃ :=
          ((Reshape.of_agree ha).trans hre₂).touch ha₂
        have hkey' := hkey.dropTo j
        obtain ⟨ck', hck', hck''⟩ := exists_nextChildKey hkey' ck
        have hdec : 0 < cfg.pageSize * j := Nat.mul_pos cfg.pageSize_pos hrd.pos
        obtain ⟨j', vs, t', w, hloop, hreach, htotal, hvalue, hwkey, hwlabel, hwck⟩ := ih t₂ c₃
          node₂ (key.dropTo (cfg.pageSize * j)) (value.drop (cfg.pageSize * j)) ck'
          (total + cfg.pageSize * j) (hre₃.represents hrep) (hre₃.filled hfill) hmem₂ hkey' hck''
          (by rw [RadixKey.len_dropTo]; omega)
        rw [RadixKey.label_dropTo] at hreach hwlabel
        refine ⟨j + j', values₂ ++ vs, t', w, ?_, ?_, ?_, ?_, hwkey, ?_, hwck⟩
        · simp [insertLoop, hlen, hl, hc₁, hrd.matchLen, hstay, hc₃, hck', hloop]
        · refine Reaches.step hre₃ hrd.le_key ?_ ?_ ?_ hreach
          · rw [ha₂.label, hword₂, ha.label]
          · rw [ha₂.slots, hslots₂, ha.slots]
          · exact fun h => .touch ha (hdesc₂ (.touch ha₂ h))
        · rw [htotal, Nat.mul_add, Nat.add_assoc]
        · rw [hvalue, drop_drop, Nat.mul_add]
        · rw [hwlabel, drop_drop]
    · have hstuck : Stuck cfg t c node (key.label cfg.pageSize) := by
        rw [hkey.label_eq_nil.mpr (by omega)]
        exact stuck_nil hrep
      exact ⟨0, [], t, ⟨total, node, key, value, ck, c⟩, by simp [insertLoop, hlen],
        ⟨.refl, hnode, Nat.zero_le _, by simp, by simp, hstuck, .stop hstuck⟩, by simp, by simp,
        hkey, by simp, hck⟩

/-- **A stuck walk went as far as any path goes.**  Whatever node of the tree shares `i` pages
with the key, the walk from the root went down at least `i` pages. -/
theorem Reaches.longest {pages : List RadixKey.TaggedPage} {values : List σ} {m : NodeId}
    (h : Reaches cfg t c t.root pages j values t' c' node') (hrep : Represents cfg t c)
    (hm : m ∈ t'.nodes) {i : ℕ} (hi : i ≤ pages.length)
    (hpre : pages.take i <+: t'.word (c'.label cfg) m) : i ≤ j := by
  have hsep := (h.reshape.represents hrep).separated
  by_contra hlt
  have hword := h.word
  rw [word_root, nil_append] at hword
  have hle : t'.word (c'.label cfg) node' <+: t'.word (c'.label cfg) m := by
    rw [hword]
    exact (List.take_prefix_take_left (by omega)).trans hpre
  have hanc := hsep.mem_up_of_word_prefix hm node' h.mem hle
  have hne : node' ≠ m := by
    rintro rfl
    have := hpre.length_le
    rw [hword, length_take, length_take] at this
    omega
  obtain ⟨k, hk, hc⟩ := exists_child_of_mem_up hm hne hanc.symm
  refine h.stuck k hc ?_
  have hkw : t'.word (c'.label cfg) k <+: t'.word (c'.label cfg) m :=
    word_prefix_of_mem_up hm hk
  rw [word_cons hc.1 hc.2.1, hc.2.2, hword] at hkw
  obtain ⟨x, l, hx⟩ := exists_cons_of_ne_nil ((h.reshape.represents hrep).label_ne hc.1 hc.2.1)
  rw [hx] at hkw ⊢
  obtain ⟨a, ha⟩ := hkw
  obtain ⟨b, hb⟩ := hpre
  have hat : (t'.word (c'.label cfg) m)[j]? = some x := by
    rw [← ha, append_assoc, getElem?_append_right (by simp), length_take,
      min_eq_left h.le, Nat.sub_self]
    rfl
  rw [← hb, getElem?_append_left (by rw [length_take]; omega),
    getElem?_take_of_lt (by omega)] at hat
  rw [head?_drop, hat]
  rfl

end Walks

end RadixCache

end Sglang
