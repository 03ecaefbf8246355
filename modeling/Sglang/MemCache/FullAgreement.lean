/-
# `UnifiedRadixCache` with the full component alone agrees with `RadixCache`

Both make node objects in the same order, so a node has the same number on both sides.  `TreeView` is
what the two heaps have in common: the links, the keys, the slots, the reference counts and the sizes.
Cutting a node, hanging in a leaf and taking a reference are written once on views, each class is shown
to do exactly that, and so every loop of one class runs in step with the loop of the other.
-/
import Sglang.MemCache.UnifiedRadixCache
import Sglang.MemCache.CppWalk

namespace Sglang

open Lib List Option Function

variable {σ : Type} {cfg : CacheConfig} {ucfg : UnifiedConfig σ} {c c' : RadixCache σ}
  {u u' : UnifiedRadixCache σ}

/-! ## 1. Views -/

/-- What a node object of either class has in common with the other. -/
structure Face (σ : Type) where
  children : Dict ChildKey NodeId
  parent : Option NodeId
  key : RadixKey
  value : Option (List σ)
  lockRef : ℤ

/-- What a heap of either class has in common with the other. -/
structure TreeView (σ : Type) where
  counter : ℕ
  rootNode : NodeId
  evictableSize : ℤ
  protectedSize : ℤ
  face : NodeId → Face σ

variable {restKey firstKey : ChildKey}

namespace TreeView

variable {V : TreeView σ}

/-- An update of one node. -/
def modify (V : TreeView σ) (n : NodeId) (f : Face σ → Face σ) : TreeView σ :=
  { V with face := Function.update V.face n (f (V.face n)) }

/-- A node object with what it is made with. -/
def create (V : TreeView σ) (face : Face σ) : TreeView σ :=
  { V with counter := V.counter + 1, face := Function.update V.face V.counter face }

/-- The dict of `parent` gets the node `n`. -/
def link (V : TreeView σ) (parent : NodeId) (childKey : ChildKey) (n : NodeId) : TreeView σ :=
  V.modify parent fun f => { f with children := f.children.insert childKey n }

/-- The node `child` is cut after `len` units; the upper part is a new node. -/
def split (V : TreeView σ) (child parent : NodeId) (restKey firstKey : ChildKey) (len : ℕ) :
    TreeView σ :=
  let f := V.face child
  ((V.create ⟨AList.singleton restKey child, some parent, f.key.takeTo len,
      f.value.map (List.take len), f.lockRef⟩).modify child fun f => { f with
    parent := some V.counter
    key := f.key.dropTo len
    value := f.value.map (List.drop len) }).link parent firstKey V.counter

/-- `n` units more can be evicted. -/
def grow (V : TreeView σ) (n : ℤ) : TreeView σ := { V with evictableSize := V.evictableSize + n }

/-- A new leaf hangs under the node `parent`. -/
def attach (V : TreeView σ) (parent : NodeId) (key : RadixKey) (value : List σ)
    (childKey : ChildKey) : TreeView σ :=
  ((V.create ⟨∅, some parent, key, some value, 0⟩).link parent childKey V.counter).grow key.len

/-- `n` units that could be evicted are protected. -/
def shift (V : TreeView σ) (n : ℤ) : TreeView σ :=
  { V with evictableSize := V.evictableSize - n, protectedSize := V.protectedSize + n }

/-- The reference count of `n` changes by `d`; where it was `edge`, its units move from one size to
the other. -/
def relock (V : TreeView σ) (n : NodeId) (d edge : ℤ) : TreeView σ :=
  (V.modify n fun f => { f with lockRef := f.lockRef + d }).shift
    (if (V.face n).lockRef = edge then d * (V.face n).key.len else 0)

/-- Dicts name nodes that exist and are not the root, the root has no parent, and every node has slots,
one for each unit of its key. -/
structure Tidy (V : TreeView σ) : Prop where
  child_lt : ∀ n k m, (V.face n).children.lookup k = some m → m < V.counter ∧ m ≠ V.rootNode
  root_lt : V.rootNode < V.counter
  root_parent : (V.face V.rootNode).parent = none
  filled : ∀ n, n < V.counter → (V.face n).value.isSome
  length_eq : ∀ n v, (V.face n).value = some v → v.length = (V.face n).key.len

/-- The empty root is the only node. -/
def rootOnly : TreeView σ where
  counter := 1
  rootNode := 0
  evictableSize := 0
  protectedSize := 0
  face n := ⟨∅, none, ⟨[], none, false⟩, if n = 0 then some [] else none, if n = 0 then 1 else 0⟩

theorem Tidy.rootOnly : (rootOnly : TreeView σ).Tidy := by
  refine ⟨fun n k m hm => (by cases hm), Nat.one_pos, rfl, fun n hn => ?_, fun n v hv => ?_⟩
  · obtain rfl : n = 0 := Nat.lt_one_iff.mp hn
    rfl
  · simp only [TreeView.rootOnly] at hv
    split at hv
    · cases hv
      rfl
    · cases hv

@[simp] theorem modify_face_self (n : NodeId) (f : Face σ → Face σ) :
    (V.modify n f).face n = f (V.face n) := by simp [modify]

variable {m : NodeId}

theorem modify_face_ne {n : NodeId} (f : Face σ → Face σ) (h : m ≠ n) :
    (V.modify n f).face m = V.face m := by simp [modify, h]

theorem create_face_ne {face : Face σ} (h : m ≠ V.counter) :
    (V.create face).face m = V.face m := by simp [create, h]

variable {f : Face σ → Face σ}

theorem modify_congr {n : NodeId} {g : Face σ → Face σ} (h : f (V.face n) = g (V.face n)) :
    V.modify n f = V.modify n g := by
  rw [modify, modify, h]

theorem modify_comm {n : NodeId} (f g : Face σ → Face σ) (h : n ≠ m) :
    (V.modify n f).modify m g = (V.modify m g).modify n f := by
  simp only [modify, update_of_ne h, update_of_ne h.symm]
  rw [update_comm h]

theorem modify_modify (n : NodeId) (f g : Face σ → Face σ) :
    (V.modify n f).modify n g = V.modify n fun x => g (f x) := by
  simp [modify]

/-- A new object that is filled in. -/
theorem create_modify (face : Face σ) (f : Face σ → Face σ) :
    (V.create face).modify V.counter f = V.create (f face) := by
  rw [modify]
  simp [create]

/-- An update that keeps the slots and the key in step, and adds at most nodes that exist to the dict. -/
theorem Tidy.modify (h : V.Tidy) {n : NodeId}
    (hc : ∀ k m, (f (V.face n)).children.lookup k = some m → m < V.counter ∧ m ≠ V.rootNode)
    (hp : n = V.rootNode → (f (V.face n)).parent = none)
    (hv : (V.face n).value.isSome → (f (V.face n)).value.isSome)
    (hl : ∀ v, (f (V.face n)).value = some v → v.length = (f (V.face n)).key.len) :
    (V.modify n f).Tidy where
  root_lt := h.root_lt
  child_lt := (forall_update_iff V.face fun _ (face : Face σ) => ∀ k m,
    face.children.lookup k = some m → m < V.counter ∧ m ≠ V.rootNode).mpr ⟨hc, fun m _ => h.child_lt m⟩
  root_parent := by
    by_cases e : n = V.rootNode
    · subst e
      exact (congrArg Face.parent (modify_face_self _ f)).trans (hp rfl)
    · exact (congrArg Face.parent (modify_face_ne f (Ne.symm e))).trans h.root_parent
  filled := (forall_update_iff V.face fun m (face : Face σ) => m < V.counter → face.value.isSome).mpr
    ⟨fun hn => hv (h.filled n hn), fun m _ => h.filled m⟩
  length_eq := (forall_update_iff V.face fun _ (face : Face σ) => ∀ v,
    face.value = some v → v.length = face.key.len).mpr ⟨hl, fun m _ => h.length_eq m⟩

theorem Tidy.create (h : V.Tidy) {face : Face σ}
    (hc : ∀ k m, face.children.lookup k = some m → m < V.counter + 1 ∧ m ≠ V.rootNode)
    (hv : face.value.isSome) (hl : ∀ v, face.value = some v → v.length = face.key.len) :
    (V.create face).Tidy where
  root_lt := h.root_lt.trans (Nat.lt_succ_self _)
  child_lt := (forall_update_iff V.face fun _ (face : Face σ) => ∀ k m,
    face.children.lookup k = some m → m < V.counter + 1 ∧ m ≠ V.rootNode).mpr
      ⟨hc, fun m _ k m' hm => (h.child_lt m k m' hm).imp_left Nat.lt_succ_of_lt⟩
  root_parent := (congrArg Face.parent (create_face_ne h.root_lt.ne)).trans h.root_parent
  filled := (forall_update_iff V.face fun m (face : Face σ) => m < V.counter + 1 → face.value.isSome).mpr
    ⟨fun _ => hv, fun m e hm => h.filled m (lt_of_le_of_ne (Nat.le_of_lt_succ hm) e)⟩
  length_eq := (forall_update_iff V.face fun _ (face : Face σ) => ∀ v,
    face.value = some v → v.length = face.key.len).mpr ⟨hl, fun m _ => h.length_eq m⟩

theorem Tidy.link (h : V.Tidy) {parent n : NodeId} {childKey : ChildKey} (hn : n < V.counter)
    (hr : n ≠ V.rootNode) : (V.link parent childKey n).Tidy := by
  refine h.modify (fun k m hm => ?_) (fun e => e ▸ h.root_parent) id (h.length_eq parent)
  rcases (Dict.lookup_insert_iff _ _ _ _ _).mp hm with ⟨-, rfl⟩ | ⟨-, hm⟩
  · exact ⟨hn, hr⟩
  · exact h.child_lt parent k m hm

theorem Tidy.split (h : V.Tidy) {child parent : NodeId} {len : ℕ}
    (hchild : child < V.counter) (hr : child ≠ V.rootNode) :
    (V.split child parent restKey firstKey len).Tidy := by
  have hcut : ∀ v, (V.face child).value.map (List.take len) = some v →
      v.length = ((V.face child).key.takeTo len).len := by
    intro v hv
    obtain ⟨w, hw, rfl⟩ := map_eq_some_iff.mp hv
    rw [length_take, RadixKey.len_takeTo, h.length_eq child w hw]
  have hrest : ∀ v, (V.face child).value.map (List.drop len) = some v →
      v.length = ((V.face child).key.dropTo len).len := by
    intro v hv
    obtain ⟨w, hw, rfl⟩ := map_eq_some_iff.mp hv
    rw [length_drop, RadixKey.len_dropTo, h.length_eq child w hw]
  have h1 : (V.create ⟨AList.singleton restKey child, some parent, (V.face child).key.takeTo len,
      (V.face child).value.map (List.take len), (V.face child).lockRef⟩).Tidy := by
    refine h.create (fun k m hm => ?_) (by rw [isSome_map]; exact h.filled child hchild) hcut
    obtain ⟨-, rfl⟩ := (Dict.lookup_singleton_iff _ _ _ _).mp hm
    exact ⟨hchild.trans (Nat.lt_succ_self _), hr⟩
  have h2 := h1.modify (n := child) (f := fun f => { f with
      parent := some V.counter
      key := f.key.dropTo len
      value := f.value.map (List.drop len) }) (h1.child_lt child) (fun e => absurd e hr)
    (fun hv => by rw [isSome_map]; exact hv) (by
    rw [create_face_ne hchild.ne]
    exact hrest)
  exact h2.link (Nat.lt_succ_self _) h.root_lt.ne'

theorem Tidy.attach (h : V.Tidy) {parent : NodeId} {key : RadixKey} {value : List σ}
    {childKey : ChildKey} (hlen : value.length = key.len) :
    (V.attach parent key value childKey).Tidy := by
  have h1 : (V.create ⟨∅, some parent, key, some value, 0⟩).Tidy := by
    refine h.create (fun k m hm => ?_) rfl (fun v hv => by cases hv; exact hlen)
    cases hm
  have h2 : (TreeView.link _ parent childKey V.counter).Tidy :=
    h1.link (Nat.lt_succ_self _) h.root_lt.ne'
  exact ⟨h2.child_lt, h2.root_lt, h2.root_parent, h2.filled, h2.length_eq⟩

theorem Tidy.relock (h : V.Tidy) (n : NodeId) (d edge : ℤ) : (V.relock n d edge).Tidy := by
  have h1 := h.modify (n := n) (f := fun f => { f with lockRef := f.lockRef + d })
    (h.child_lt n) (fun e => e ▸ h.root_parent) id (h.length_eq n)
  exact ⟨h1.child_lt, h1.root_lt, h1.root_parent, h1.filled, h1.length_eq⟩

end TreeView

/-! ## 2. `RadixCache` in views -/

def TreeNode.face (n : TreeNode σ) : Face σ := ⟨n.children, n.parent, n.key, n.value, n.lockRef⟩

variable {p : NodeId} {ck : ChildKey}

namespace RadixCache

def view (c : RadixCache σ) : TreeView σ :=
  ⟨c.counter, c.rootNode, c.evictableSize, c.protectedSize, fun n => (c.nodes n).face⟩

theorem view_modify (c : RadixCache σ) (n : NodeId) (f : TreeNode σ → TreeNode σ)
    (g : Face σ → Face σ) (h : (f (c.nodes n)).face = g (c.nodes n).face) :
    (c.modify n f).view = c.view.modify n g := by
  have hface : (fun m => ((c.modify n f).nodes m).face)
      = Function.update (fun m => (c.nodes m).face) n (g (c.nodes n).face) := by
    funext m
    by_cases e : m = n
    · subst e
      rw [modify_nodes_self, h, update_self]
    · rw [modify_nodes_ne c f e, update_of_ne e]
  rw [view, hface]
  rfl

theorem view_modify_same (c : RadixCache σ) (n : NodeId) (f : TreeNode σ → TreeNode σ)
    (h : (f (c.nodes n)).face = (c.nodes n).face) : (c.modify n f).view = c.view := by
  rw [view_modify c n f id h, TreeView.modify, id, update_eq_self]

theorem view_newTreeNode (c : RadixCache σ) (cfg : CacheConfig) (priority : ℤ) :
    (c.newTreeNode cfg priority).2.view = c.view.create ⟨∅, none, ⟨[], none, false⟩, none, 0⟩ := by
  have hface : (fun m => ((c.newTreeNode cfg priority).2.nodes m).face)
      = Function.update (fun m => (c.nodes m).face) c.counter
          ⟨∅, none, ⟨[], none, false⟩, none, 0⟩ := by
    funext m
    by_cases e : m = c.counter
    · subst e
      simp [newTreeNode, TreeNode.init, TreeNode.face]
    · simp [newTreeNode, e]
  rw [view, hface]
  rfl

/-- **`_split_node`** cuts the node in the view. -/
theorem view_splitNode {key : RadixKey} {child v : NodeId} {len : ℕ} (hchild : child < c.counter)
    (h : c.splitNode cfg key child len = some (v, c')) :
    ∃ parent restKey firstKey, (c.nodes child).parent = some parent ∧
      (c.nodes child).value.isSome ∧ (key.dropTo len).childKey cfg.pageSize = some restKey ∧
      key.childKey cfg.pageSize = some firstKey ∧ v = c.counter ∧
      c'.view = c.view.split child parent restKey firstKey len := by
  simp only [splitNode, bind_eq_bind, bind_eq_some_iff] at h
  obtain ⟨parent, hparent, value, hvalue, restKey, hrest, firstKey, hfirst, h⟩ := h
  obtain ⟨rfl, rfl⟩ := Prod.mk.inj (Option.some.inj h)
  refine ⟨parent, restKey, firstKey, hparent, by rw [hvalue]; rfl, hrest, hfirst, rfl, ?_⟩
  rw [view_modify _ _ _ (fun f => { f with children := f.children.insert firstKey c.counter }) rfl,
    view_modify _ _ _ (fun f => { f with
      parent := some c.counter
      key := (c.nodes child).key.dropTo len
      value := some (value.drop len) }) rfl,
    view_modify _ _ _ (fun f => { f with
      children := AList.singleton restKey child
      parent := some parent
      lockRef := (c.nodes child).lockRef
      key := (c.nodes child).key.takeTo len
      value := some (value.take len) }) rfl, view_newTreeNode]
  have hval : (c.view.face child).value = some value := hvalue
  have hold : (c.view.create ⟨AList.singleton restKey child, some parent,
      (c.nodes child).key.takeTo len, some (value.take len), (c.nodes child).lockRef⟩).face child
      = c.view.face child := TreeView.create_face_ne hchild.ne
  change TreeView.modify (TreeView.modify (TreeView.modify (TreeView.create _ _) c.view.counter _)
    child _) parent _ = _
  rw [TreeView.create_modify, TreeView.split, hval]
  refine congrArg (TreeView.modify · parent _) (TreeView.modify_congr ?_)
  rw [hold, hval]
  rfl

@[simp] theorem view_updateLeafStatus (c : RadixCache σ) (n : NodeId) :
    (c.updateLeafStatus n).view = c.view := by
  simp [view]

theorem view_init (cfg : CacheConfig) : (init cfg : RadixCache σ).view = .rootOnly := by
  have hface : (fun n => ((init cfg : RadixCache σ).nodes n).face) = TreeView.rootOnly.face := by
    funext n
    by_cases hn : n = 0
    · subst hn
      cases hon : cfg.enableKvCacheEvents <;>
        simp [init, reset, recordAllClearedEvent, newTreeNode, modify, TreeNode.init,
          TreeNode.face, TreeView.rootOnly, hon]
    · cases hon : cfg.enableKvCacheEvents <;>
        simp [init, reset, recordAllClearedEvent, newTreeNode, modify, TreeNode.init,
          TreeNode.face, TreeView.rootOnly, hon, hn]
  rw [view, hface]
  cases hon : cfg.enableKvCacheEvents <;>
    simp [init, reset, recordAllClearedEvent, newTreeNode, TreeView.rootOnly, hon]

theorem view_recordStoreEvent {n : NodeId} {medium : StorageMedium}
    (h : c.recordStoreEvent cfg n medium = some c') : c'.view = c.view := by
  have hens : ∀ c₁, c.ensureHash cfg n = some c₁ → c₁.view = c.view := by
    intro c₁ h₁
    rw [ensureHash] at h₁
    split at h₁
    · cases h₁
      rfl
    · simp only [bind_eq_bind, bind_eq_some_iff] at h₁
      obtain ⟨hs, -, h₁⟩ := h₁
      cases h₁
      exact view_modify_same c n _ rfl
  rw [recordStoreEvent] at h
  split at h
  · simp only [bind_eq_bind, bind_eq_some_iff] at h
    obtain ⟨c₁, h₁, _, -, _, -, h⟩ := h
    cases h
    exact hens c₁ h₁
  · cases h
    rfl

theorem view_incHitCount (c : RadixCache σ) (n : NodeId) (chunked : Bool) :
    (c.incHitCount n chunked).view = c.view := by
  rw [incHitCount]
  split
  · rfl
  · exact view_modify_same c n _ rfl

/-- **The new leaf** of an insertion. -/
theorem view_addLeaf {key : RadixKey} {value : List σ} {priority : ℤ}
    {chunked : Bool} (h : c.addLeaf cfg p key value ck priority chunked = some c') :
    c'.view = c.view.attach p key value ck := by
  have hfill := view_modify (c.newTreeNode cfg priority).2 c.counter
    (fun n => { n with parent := some p, key := key, value := some value })
    (fun f => { f with parent := some p, key := key, value := some value }) rfl
  have hhit := view_incHitCount ((c.newTreeNode cfg priority).2.modify c.counter
    fun n => { n with parent := some p, key := key, value := some value }) c.counter chunked
  have hhang := view_modify (((c.newTreeNode cfg priority).2.modify c.counter fun n =>
      { n with parent := some p, key := key, value := some value }).incHitCount c.counter chunked) p
    (fun n => { n with children := n.children.insert ck c.counter })
    (fun f => { f with children := f.children.insert ck c.counter }) rfl
  rw [hhit, hfill, view_newTreeNode] at hhang
  have hlink : (c.linkLeaf cfg p key value ck priority chunked).2.view
      = c.view.attach p key value ck := by
    rw [TreeView.attach, TreeView.link, ← TreeView.create_modify
      ⟨∅, none, ⟨[], none, false⟩, none, 0⟩ fun f => { f with
        parent := some p
        key := key
        value := some value }]
    exact congrArg (TreeView.grow · key.len) hhang
  rw [view_recordStoreEvent h, view_updateLeafStatus, view_updateLeafStatus]
  exact hlink

/-- **A round of `inc_lock_ref`.** -/
theorem view_incLockRound (c : RadixCache σ) (n : NodeId) :
    (c.incLockRound n).view = c.view.relock n 1 0 := by
  rw [incLockRound, view_updateLeafStatus,
    view_modify _ n _ (fun f => { f with lockRef := f.lockRef + 1 }) rfl, TreeView.relock]
  by_cases h0 : (c.nodes n).lockRef = 0
  · simp [h0, view, TreeView.modify, TreeView.shift, TreeNode.face]
  · simp [h0, view, TreeView.modify, TreeView.shift, TreeNode.face]

/-- **A round of `dec_lock_ref`.** -/
theorem view_decLockRound (c : RadixCache σ) (n : NodeId) :
    (c.decLockRound n).view = c.view.relock n (-1) 1 := by
  rw [decLockRound, view_updateLeafStatus,
    view_modify _ n _ (fun f => { f with lockRef := f.lockRef + -1 }) rfl, TreeView.relock]
  by_cases h0 : (c.nodes n).lockRef = 1
  · simp [h0, view, TreeView.modify, TreeView.shift, TreeNode.face, sub_eq_add_neg]
  · simp [h0, view, TreeView.modify, TreeView.shift, TreeNode.face]

end RadixCache

/-! ## 3. `UnifiedRadixCache` in views -/

/-- The configurations agree, there is no component but the full one, and no host tier. -/
structure FullOnly (cfg : CacheConfig) (ucfg : UnifiedConfig σ) : Prop where
  pageSize : ucfg.pageSize = cfg.pageSize
  isEagle : ucfg.isEagle = cfg.isEagle
  treeComponents : ucfg.treeComponents = [.full]
  cacheController : ucfg.cacheController = none

def UnifiedTreeNode.face (n : UnifiedTreeNode σ) : Face σ :=
  ⟨n.children, n.parent, n.key, (n.componentData .full).value, (n.componentData .full).lockRef⟩

namespace UnifiedRadixCache

def view (u : UnifiedRadixCache σ) : TreeView σ :=
  ⟨u.counter, u.rootNode, u.evictableSize .full, u.protectedSize .full, fun n => (u.nodes n).face⟩

/-- The cache looks like `V`, and nothing is on the host. -/
structure Shows (u : UnifiedRadixCache σ) (V : TreeView σ) : Prop where
  view : u.view = V
  noHost : ∀ n, (u.data n .full).hostValue = none

namespace Shows

variable {V : TreeView σ} (h : Shows u V)

include h

theorem face (n : NodeId) : (u.nodes n).face = V.face n := h.view ▸ rfl

theorem counter : u.counter = V.counter := h.view ▸ rfl

theorem rootNode : u.rootNode = V.rootNode := h.view ▸ rfl

theorem children (n : NodeId) : (u.nodes n).children = (V.face n).children :=
  congrArg Face.children (h.face n)

theorem parent (n : NodeId) : (u.nodes n).parent = (V.face n).parent :=
  congrArg Face.parent (h.face n)

theorem key (n : NodeId) : (u.nodes n).key = (V.face n).key := congrArg Face.key (h.face n)

theorem value (n : NodeId) : (u.data n .full).value = (V.face n).value :=
  congrArg Face.value (h.face n)

theorem lockRef (n : NodeId) : ((u.data n .full).lockRef : ℤ) = (V.face n).lockRef :=
  congrArg Face.lockRef (h.face n)

theorem evicted {n : NodeId} (hv : (V.face n).value.isSome) : (u.nodes n).evicted = false := by
  rw [← h.value, data, ← isNone_eq_false_iff] at hv
  rw [UnifiedTreeNode.evicted, hv, Bool.and_false]

theorem backuped (n : NodeId) : (u.nodes n).backuped = false := by
  have := h.noHost n
  simp only [data] at this
  simp [UnifiedTreeNode.backuped, this]

/-- Whatever a view does not show. -/
theorem of_nodes {W : TreeView σ} (hnodes : u'.nodes = u.nodes) (hview : u'.view = W) :
    Shows u' W :=
  ⟨hview, fun n => by rw [data, hnodes]; exact h.noHost n⟩

theorem update (n : NodeId) (x : UnifiedTreeNode σ) (y : Face σ) (hx : x.face = y)
    (hhost : (x.componentData .full).hostValue = none) :
    Shows { u with nodes := Function.update u.nodes n x }
      { V with face := Function.update V.face n y } := by
  have hface : (fun m => (Function.update u.nodes n x m).face)
      = Function.update (fun m => (u.nodes m).face) n y := by
    funext m
    simp only [update_apply]
    split
    · exact hx
    · rfl
  refine ⟨?_, fun m => ?_⟩
  · rw [← h.view, UnifiedRadixCache.view, hface]
    rfl
  · simp only [data, update_apply]
    split
    · exact hhost
    · exact h.noHost m

/-- An update of the links and of the key at one node. -/
theorem modify (n : NodeId) (f : UnifiedTreeNode σ → UnifiedTreeNode σ) (g : Face σ → Face σ)
    (hf : ∀ x, (f x).face = g x.face) (hdata : ∀ x, (f x).componentData = x.componentData) :
    Shows (u.modify n f) (V.modify n g) :=
  h.update n _ _ (by rw [hf, h.face]) (by rw [hdata]; exact h.noHost n)

/-- An update of what a view does not show. -/
theorem modify_same (n : NodeId) (f : UnifiedTreeNode σ → UnifiedTreeNode σ)
    (hf : ∀ x, (f x).face = x.face) (hdata : ∀ x, (f x).componentData = x.componentData) :
    Shows (u.modify n f) V := by
  have := h.modify n f id hf hdata
  rwa [TreeView.modify, id, update_eq_self] at this

/-- An update of the slots and of the count at one node. -/
theorem modifyData (n : NodeId) (f : ComponentData σ → ComponentData σ) (g : Face σ → Face σ)
    (hf : ((u.nodes n).modifyData .full f).face = g (u.nodes n).face)
    (hhost : ∀ d, d.hostValue = none → (f d).hostValue = none) :
    Shows (u.modifyData n .full f) (V.modify n g) := by
  have hself : ((u.nodes n).modifyData .full f).componentData .full = f (u.data n .full) := by
    simp [UnifiedTreeNode.modifyData, data]
  exact h.update n _ _ (by rw [hf, h.face]) (by rw [hself]; exact hhost _ (h.noHost n))

theorem newTreeNode :
    Shows u.newTreeNode.2 (V.create ⟨∅, none, ⟨[], none, false⟩, none, 0⟩) := by
  obtain rfl := h.view
  have hnew := h.update u.counter (.init u.timeCounter) ⟨∅, none, ⟨[], none, false⟩, none, 0⟩ rfl rfl
  exact ⟨congrArg (fun W : TreeView σ => { W with counter := W.counter + 1 }) hnew.view, hnew.noHost⟩

theorem addEvictable (n : ℤ) : Shows (u.addEvictable .full n) (V.grow n) := by
  obtain rfl := h.view
  exact ⟨by simp [UnifiedRadixCache.addEvictable, UnifiedRadixCache.view, TreeView.grow], h.noHost⟩

theorem protect (n : ℤ) : Shows (u.protect .full n) (V.shift n) := by
  obtain rfl := h.view
  exact ⟨by simp [UnifiedRadixCache.protect, UnifiedRadixCache.view, TreeView.shift], h.noHost⟩

theorem unprotect (n : ℤ) : Shows (u.unprotect .full n) (V.shift (-n)) := by
  obtain rfl := h.view
  exact ⟨by simp [UnifiedRadixCache.unprotect, UnifiedRadixCache.view, TreeView.shift,
    sub_eq_add_neg], h.noHost⟩

theorem touchTime (n : NodeId) : Shows (u.touchTime n) V := by
  have h' : Shows u.getAndIncreaseTimeCounter.2 V := h.of_nodes rfl h.view
  exact h'.modify_same n (fun x => { x with lastAccessTime := u.timeCounter }) (fun _ => rfl)
    fun _ => rfl

theorem updateEvictableLeafSets (n : NodeId) : Shows (u.updateEvictableLeafSets n) V :=
  h.of_nodes rfl h.view

theorem free (call : FreeCall σ) : Shows (u.free call) V := h.of_nodes rfl h.view

omit h in
/-- **`__init__`** makes the root. -/
theorem init (hc : FullOnly cfg ucfg) : Shows (UnifiedRadixCache.init ucfg) .rootOnly := by
  have hroot : ((UnifiedRadixCache.init ucfg).nodes 0).face = TreeView.rootOnly.face 0 ∧
      ((UnifiedRadixCache.init ucfg).data 0 .full).hostValue = none := by
    rw [UnifiedRadixCache.init, resetFull, hc.treeComponents]
    exact ⟨rfl, rfl⟩
  have hother : ∀ n, n ≠ 0 → (UnifiedRadixCache.init ucfg).nodes n = .init 0 := by
    intro n hn
    simp [UnifiedRadixCache.init, resetFull, hc.treeComponents, UnifiedRadixCache.newTreeNode,
      getAndIncreaseTimeCounter, UnifiedRadixCache.modifyData, UnifiedRadixCache.modify, hn]
  have hface : (fun n => ((UnifiedRadixCache.init ucfg).nodes n).face)
      = TreeView.rootOnly.face := by
    funext n
    by_cases hn : n = 0
    · exact hn ▸ hroot.1
    · rw [hother n hn]
      simp [TreeView.rootOnly, UnifiedTreeNode.face, UnifiedTreeNode.init, ComponentData.empty, hn]
  refine ⟨?_, fun n => ?_⟩
  · rw [UnifiedRadixCache.view, hface, UnifiedRadixCache.init, resetFull, hc.treeComponents]
    rfl
  · by_cases hn : n = 0
    · exact hn ▸ hroot.2
    · rw [data, hother n hn]
      rfl

end Shows

/-! ### Splitting -/

theorem forEachComponentLru_eq (hc : FullOnly cfg ucfg) (u : UnifiedRadixCache σ) (n : NodeId)
    (op : List NodeId → NodeId → Option (List NodeId)) (b : Bool) :
    u.forEachComponentLru ucfg n op b = some u := by
  simp [forEachComponentLru, hc.treeComponents]

/-- The two halves of a node before the components share out their data. -/
def halves (u : UnifiedRadixCache σ) (child parent : NodeId) (restKey : ChildKey) (len : ℕ) :
    UnifiedRadixCache σ :=
  (u.newTreeNode.2.modify u.counter fun n => { n with
    children := AList.singleton restKey child
    parent := some parent
    key := (u.nodes child).key.takeTo len }).modify child fun n => { n with
    parent := some u.counter
    key := (u.nodes child).key.dropTo len }

theorem linkUpper_eq (hc : FullOnly cfg ucfg) (u : UnifiedRadixCache σ) (child parent : NodeId)
    (restKey : ChildKey) (len : ℕ) :
    u.linkUpper ucfg child parent restKey len = some (u.counter, u.halves child parent restKey len) := by
  simp only [linkUpper, forEachComponentLru_eq hc, bind_eq_bind, bind_some, Option.pure_def]
  rfl

/-- The view of the two halves with the data shared out. -/
theorem Shows.redistributeFull_halves {V : TreeView σ} (h : Shows u V) {child parent : NodeId}
    {len : ℕ} (hchild : child < V.counter)
    (hlen : len < (V.face child).key.len) :
    Shows ((u.halves child parent restKey len).redistributeFull u.counter child)
      ((V.create ⟨AList.singleton restKey child, some parent, (V.face child).key.takeTo len,
        (V.face child).value.map (List.take len), (V.face child).lockRef⟩).modify child fun f =>
        { f with
          parent := some V.counter
          key := f.key.dropTo len
          value := f.value.map (List.drop len) }) := by
  obtain rfl := h.view
  have hne : child ≠ u.counter := hchild.ne
  have hdata : (u.halves child parent restKey len).data child .full = u.data child .full := by
    simp [halves, data, UnifiedRadixCache.newTreeNode, getAndIncreaseTimeCounter,
      modify_nodes_ne _ _ hne, hne]
  have hkey : ((u.halves child parent restKey len).nodes u.counter).key.len = len := by
    rw [halves, modify_nodes_ne _ _ hne.symm, modify_nodes_self, RadixKey.len_takeTo]
    exact min_eq_left hlen.le
  have hhalves := (h.newTreeNode.modify u.counter (fun n => { n with
      children := AList.singleton restKey child
      parent := some parent
      key := (u.nodes child).key.takeTo len }) (fun f => { f with
      children := AList.singleton restKey child
      parent := some parent
      key := (u.nodes child).key.takeTo len }) (fun _ => rfl) fun _ => rfl).modify child
    (fun n => { n with
      parent := some u.counter
      key := (u.nodes child).key.dropTo len }) (fun f => { f with
      parent := some u.counter
      key := (u.nodes child).key.dropTo len }) (fun _ => rfl) fun _ => rfl
  have hshared := (hhalves.modifyData u.counter (fun x => { x with
      lockRef := (u.data child .full).lockRef
      value := (u.data child .full).value.map (List.take len)
      hostValue := (u.data child .full).hostValue.map (List.take len) }) (fun f => { f with
      value := (u.data child .full).value.map (List.take len)
      lockRef := (u.data child .full).lockRef }) rfl
    (fun _ _ => by rw [h.noHost]; rfl)).modifyData child (fun x => { x with
      value := (u.data child .full).value.map (List.drop len)
      hostValue := (u.data child .full).hostValue.map (List.drop len) }) (fun f => { f with
      value := (u.data child .full).value.map (List.drop len) }) rfl
    (fun _ _ => by rw [h.noHost]; rfl)
  rw [redistributeFull, hdata, hkey]
  refine ⟨hshared.view.trans ?_, hshared.noHost⟩
  change TreeView.modify (TreeView.modify (TreeView.modify (TreeView.modify _ u.view.counter _)
    child _) u.view.counter _) child _ = _
  rw [TreeView.modify_comm (n := child) _ _ (show child ≠ u.view.counter from hne),
    TreeView.modify_modify, TreeView.create_modify, TreeView.create_modify]
  refine TreeView.modify_congr ?_
  rw [TreeView.create_face_ne (show child ≠ u.view.counter from hne)]
  rfl

/-- **`_split_node`** cuts the node in the view. -/
theorem Shows.splitNode {V : TreeView σ} (h : Shows u V) (hc : FullOnly cfg ucfg) {key : RadixKey}
    {child parent : NodeId} {len : ℕ} (hchild : child < V.counter)
    (hlen : len < (V.face child).key.len) (hparent : (V.face child).parent = some parent)
    (hrest : (key.dropTo len).childKey cfg.pageSize = some restKey)
    (hfirst : key.childKey cfg.pageSize = some firstKey) :
    ∃ u', u.splitNode ucfg key child len = some (V.counter, u') ∧
      Shows u' (V.split child parent restKey firstKey len) := by
  have hparent' : (u.nodes child).parent = some parent := (h.parent child).trans hparent
  have hhalves : Shows ((u.halves child parent restKey len).redistributeFull u.counter child) _ :=
    h.redistributeFull_halves hchild hlen
  have hlinked := hhalves.modify parent
    (fun n => { n with children := n.children.insert firstKey u.counter })
    (fun f => { f with children := f.children.insert firstKey u.counter }) (fun _ => rfl) fun _ => rfl
  rw [h.counter] at hlinked
  refine ⟨_, ?_, ((hlinked.touchTime child).updateEvictableLeafSets u.counter).updateEvictableLeafSets
    child⟩
  simp [UnifiedRadixCache.splitNode, hparent', hc.pageSize, hrest, hfirst, linkUpper_eq hc,
    forEachComponentLru_eq hc, hc.treeComponents, redistributeOnNodeSplit, h.counter]

end UnifiedRadixCache

/-! ## 4. Matching -/

/-- The two caches look the same. -/
structure Mirrors (c : RadixCache σ) (u : UnifiedRadixCache σ) : Prop where
  shows : u.Shows c.view
  tidy : c.view.Tidy

variable {t : RootedTree NodeId}

namespace Mirrors

open UnifiedRadixCache

theorem rootNode (h : Mirrors c u) : u.rootNode = c.rootNode := h.shows.rootNode

theorem counter (h : Mirrors c u) : u.counter = c.counter := h.shows.counter

theorem of_view (h : Mirrors c u) (hview : c'.view = c.view) : Mirrors c' u :=
  ⟨hview ▸ h.shows, hview ▸ h.tidy⟩

/-- **`_split_node`** on both sides. -/
theorem splitNode (h : Mirrors c u) (hc : FullOnly cfg ucfg) {key : RadixKey} {child v : NodeId}
    {len : ℕ} (hchild : child < c.counter) (hr : child ≠ c.rootNode)
    (hlen : len < (c.nodes child).key.len)
    (hsplit : c.splitNode cfg key child len = some (v, c')) :
    ∃ u', u.splitNode ucfg key child len = some (v, u') ∧ Mirrors c' u' := by
  obtain ⟨parent, restKey, firstKey, hparent, -, hrest, hfirst, rfl, hview⟩ :=
    RadixCache.view_splitNode hchild hsplit
  obtain ⟨u', hu', hshows⟩ := h.shows.splitNode hc hchild hlen hparent hrest hfirst
  exact ⟨u', hu', hview ▸ hshows, hview ▸ h.tidy.split hchild hr⟩

/-- Every node with slots is a valid end of a match. -/
theorem updateBestIfValid (h : Mirrors c u) (hc : FullOnly cfg ucfg) {node : NodeId} {v : List σ}
    (hv : (c.nodes node).value = some v) (w : MatchWalk σ) :
    w.updateBestIfValid ucfg u node = { w with bestValueLen := w.value.length, bestNode := node } := by
  have hval : (u.data node .full).value = some v := (h.shows.value node).trans hv
  simp [MatchWalk.updateBestIfValid, hc.treeComponents, validators, validator, hval]

/-- **The loop of `_match_prefix_helper`** on both sides. -/
theorem matchLoop (hc : FullOnly cfg ucfg) (accessTime : ℤ) (fuel : ℕ) :
    ∀ {c c' : RadixCache σ} {u : UnifiedRadixCache σ} {node node' : NodeId} {key : RadixKey}
      {ck : ChildKey} {values vs : List (List σ)} (len : ℕ∞), Mirrors c u →
      c.matchLoop cfg accessTime fuel node key ck values = some (vs, node', c') →
      ∃ u' len', u.matchLoop ucfg fuel node key ck ⟨values, values.length, node, len⟩
          = some (⟨vs, vs.length, node', len'⟩, u') ∧ Mirrors c' u' := by
  induction fuel with
  | zero =>
    intro c c' u node node' key ck values vs len h hloop
    cases hloop
  | succ fuel ih =>
    intro c c' u node node' key ck values vs len h hloop
    rw [RadixCache.matchLoop] at hloop
    rw [UnifiedRadixCache.matchLoop, h.shows.children]
    by_cases hkey : key.len > 0
    · rw [if_pos hkey] at hloop ⊢
      cases hlook : (c.nodes node).children.lookup ck with
      | none =>
        rw [hlook] at hloop
        cases hloop
        refine ⟨u, len, ?_, h⟩
        rw [show (c.view.face node).children.lookup ck = none from hlook]
      | some child =>
        rw [hlook] at hloop
        rw [show (c.view.face node).children.lookup ck = some child from hlook]
        have h₁ : Mirrors (c.modify child fun n => { n with lastAccessTime := accessTime }) u :=
          h.of_view (RadixCache.view_modify_same c child _ rfl)
        have hlt₁ : child < (c.modify child fun n => { n with lastAccessTime := accessTime }).counter ∧
            child ≠ (c.modify child fun n => { n with lastAccessTime := accessTime }).rootNode :=
          h.tidy.child_lt node ck child hlook
        simp only [bind_eq_bind, bind_eq_some_iff] at hloop
        generalize c.modify child (fun n => { n with lastAccessTime := accessTime }) = c₁
          at hloop h₁ hlt₁
        obtain ⟨prefixLen, hmatch, hloop⟩ := hloop
        have hchildKey : (u.nodes child).key = (c₁.nodes child).key := h₁.shows.key child
        split at hloop
        · rename_i hshort
          simp only [bind_eq_some_iff] at hloop
          obtain ⟨⟨newNode, c₂⟩, hsplit, v, hv, hloop⟩ := hloop
          cases hloop
          obtain ⟨-, -, -, -, hsome, -⟩ := RadixCache.view_splitNode hlt₁.1 hsplit
          have hev := h₁.shows.evicted hsome
          obtain ⟨u', hu', h'⟩ := h₁.splitNode hc hlt₁.1 hlt₁.2 hshort hsplit
          have hval : (u'.data newNode .full).value = some v := (h'.shows.value newNode).trans hv
          refine ⟨u', len, ?_, h'⟩
          rw [← hchildKey] at hmatch hshort hu'
          simp [hev, hc.pageSize, hmatch, hshort, hu', hval, h'.updateBestIfValid hc hv]
        · rename_i hlong
          simp only [bind_eq_some_iff] at hloop
          obtain ⟨v, hv, ck', hck', hloop⟩ := hloop
          have hev := h₁.shows.evicted (n := child) (isSome_of_eq_some hv)
          have hval : (u.data child .full).value = some v := (h₁.shows.value child).trans hv
          obtain ⟨u', len', hu', h'⟩ := ih len h₁ hloop
          refine ⟨u', len', ?_, h'⟩
          have hpush : u.pushValue child values = some (values ++ [v]) := by
            rw [pushValue, hev, hval]
            rfl
          have hnext : UnifiedRadixCache.nextChildKey ucfg (key.dropTo prefixLen) ck = some ck' := by
            rw [UnifiedRadixCache.nextChildKey, hc.pageSize]
            exact hck'
          rw [← hchildKey] at hmatch hlong
          simp only [hev, hc.pageSize, hmatch, hlong, hpush, hnext, bind_eq_bind,
            bind_some, h₁.updateBestIfValid hc hv, if_false, Bool.false_eq_true, false_and]
          exact hu'
    · rw [if_neg hkey] at hloop ⊢
      cases hloop
      exact ⟨u, len, rfl, h⟩

/-- **`_match_prefix_helper`** on both sides. -/
theorem matchPrefixHelper (h : Mirrors c u) (hc : FullOnly cfg ucfg) {key : RadixKey}
    {vs : List (List σ)} {node : NodeId}
    (hmatch : c.matchPrefixHelper cfg c.rootNode key = some (vs, node, c')) :
    ∃ u' len', u.matchPrefixHelper ucfg key = some (⟨vs, vs.length, node, len'⟩, u') ∧
      Mirrors c' u' := by
  simp only [RadixCache.matchPrefixHelper, bind_eq_bind, bind_eq_some_iff] at hmatch
  obtain ⟨ck, hck, hloop⟩ := hmatch
  have h₁ : Mirrors ((c.readClock cfg).2.modify c.rootNode fun n =>
      { n with lastAccessTime := (c.readClock cfg).1 }) u :=
    h.of_view (RadixCache.view_modify_same (c.readClock cfg).2 _ _ rfl)
  obtain ⟨u', len', hu', h'⟩ := matchLoop hc _ _ ⊤ h₁ hloop
  refine ⟨u', len', ?_, h'⟩
  rw [UnifiedRadixCache.matchPrefixHelper, hc.pageSize, hck]
  rw [← h.rootNode] at hu'
  exact hu'

/-- The walk that sets the access times gets to the root. -/
theorem touchPath (hrep : RadixCache.Represents cfg t c) (fuel : ℕ) :
    ∀ {u : UnifiedRadixCache σ} {node : NodeId} (time : ℤ), Mirrors c u → node ∈ t.nodes →
      (t.up node).length < fuel →
      ∃ u', UnifiedRadixCache.touchPath fuel u node time = some u' ∧ Mirrors c u' := by
  induction fuel with
  | zero =>
    intro u node time h hn hfuel
    omega
  | succ fuel ih =>
    intro u node time h hn hfuel
    have h₁ : Mirrors c (u.modify node fun n => { n with lastAccessTime := time }) :=
      ⟨h.shows.modify_same node _ (fun _ => rfl) fun _ => rfl, h.tidy⟩
    rw [UnifiedRadixCache.touchPath]
    by_cases hr : node = t.root
    · have hpar : ((u.modify node fun n => { n with lastAccessTime := time }).nodes node).parent
          = none := by
        rw [h₁.shows.parent, hr, ← hrep.root_eq]
        exact h.tidy.root_parent
      simp only [hpar]
      exact ⟨_, rfl, h₁⟩
    · have hpar : ((u.modify node fun n => { n with lastAccessTime := time }).nodes node).parent
          = some (t.parent node) := (h₁.shows.parent node).trans (hrep.parent_eq hn hr)
      rw [t.up_cons hn hr, length_cons] at hfuel
      obtain ⟨u', hu', h'⟩ := ih (time - 1) h₁ (t.parent_mem hn hr) (by omega)
      simp only [hpar]
      exact ⟨u', hu', h'⟩

theorem walkUpTo_backuped (h : Mirrors c u) (hrep : RadixCache.Represents cfg t c) (fuel : ℕ) :
    ∀ {node : NodeId}, node ∈ t.nodes → (t.up node).length < fuel →
      u.walkUpTo (·.backuped) fuel node = some c.rootNode := by
  induction fuel with
  | zero =>
    intro node hn hfuel
    omega
  | succ fuel ih =>
    intro node hn hfuel
    rw [walkUpTo, h.shows.backuped, h.shows.rootNode]
    by_cases hr : node = t.root
    · have hroot : node = c.view.rootNode := hr.trans hrep.root_eq.symm
      rw [if_pos (.inl hroot), hroot]
      rfl
    · have hpar : (u.nodes node).parent = some (t.parent node) :=
        (h.shows.parent node).trans (hrep.parent_eq hn hr)
      have hroot : ¬ (node = c.view.rootNode ∨ false = true) := by
        rintro (e | e)
        · exact hr (e.trans hrep.root_eq)
        · cases e
      rw [t.up_cons hn hr, length_cons] at hfuel
      rw [if_neg hroot, hpar]
      exact ih (t.parent_mem hn hr) (by omega)

/-- **`_match_post_processor`** reports the slots and the node of the walk, and no host. -/
theorem matchPostProcessor (h : Mirrors c u) (hc : FullOnly cfg ucfg)
    (hb : RadixCache.Base cfg t c) {node : NodeId} (hn : node ∈ t.nodes) (vs : List (List σ))
    (len : ℕ∞) (params : MatchPrefixParams σ) :
    ∃ u', u.matchPostProcessor ucfg params ⟨vs, vs.length, node, len⟩
        = some (⟨vs.flatten, node, c.rootNode, 0, none⟩, params.mambaPoolIdx, u') ∧
      Mirrors c u' := by
  have hrep := hb.represents
  have hfuel := (hrep.up_length_lt_counter hn).trans (Nat.lt_succ_self _)
  have htime : Mirrors c u.getAndIncreaseTimeCounter.2 :=
    ⟨h.shows.of_nodes rfl h.shows.view, h.tidy⟩
  obtain ⟨u', hu', h'⟩ := touchPath hrep (c.counter + 1) u.timeCounter htime hn hfuel
  have hdevice : u'.walkUpTo (!·.evicted) (c.counter + 1) node = some node := by
    rw [walkUpTo, if_pos]
    by_cases hr : node = t.root
    · exact .inl (hr.trans (hrep.root_eq.symm.trans h'.shows.rootNode.symm))
    · obtain ⟨v, hv, -⟩ := hb.filled node hn hr
      right
      rw [h'.shows.evicted (n := node) (isSome_of_eq_some hv)]
      rfl
  have hhost := h'.walkUpTo_backuped hrep (c.counter + 1) hn hfuel
  refine ⟨u', ?_, h'⟩
  have hcounter : u.getAndIncreaseTimeCounter.2.counter = c.counter := htime.counter
  have hhit : u'.kvHostHit node (c.counter + 1) c.rootNode 0 = some 0 := by
    rw [kvHostHit, if_pos (.inr h'.rootNode.symm)]
  have hfilter : ucfg.treeComponents.filter (· ≠ .full) = [] := by
    rw [hc.treeComponents]
    rfl
  rw [UnifiedRadixCache.matchPostProcessor, hfilter]
  simp only [foldlM_nil, Option.pure_def, bind_eq_bind, bind_some, hcounter]
  rw [show u.getAndIncreaseTimeCounter.1 = u.timeCounter from rfl, hu']
  simp [h'.counter, hdevice, hhost, hc.treeComponents, finalizeMatchResult, hhit]

/-- **`match_prefix`** on both sides. -/
theorem matchPrefix (h : Mirrors c u) (hc : FullOnly cfg ucfg)
    (hb : RadixCache.Base cfg t c) (params : MatchPrefixParams σ)
    (hmode : RadixCache.ModeOk cfg params.key) :
    ∃ vs node t' c' u', c.matchPrefix cfg params.key = some (⟨vs, node, node, 0⟩, c') ∧
      u.matchPrefix ucfg params = some (⟨vs, node, c.rootNode, 0, none⟩, params.mambaPoolIdx, u') ∧
      RadixCache.Reshape cfg t c t' c' ∧ node ∈ t'.nodes ∧ Mirrors c' u' := by
  obtain ⟨j, vs, t', c', node, heq, hreach⟩ := RadixCache.matchPrefix_spec hb hmode
  refine ⟨vs, node, t', c', ?_⟩
  suffices hu : ∃ u', u.matchPrefix ucfg params
      = some (⟨vs, node, c.rootNode, 0, none⟩, params.mambaPoolIdx, u') ∧ Mirrors c' u' by
    obtain ⟨u', hu', h'⟩ := hu
    exact ⟨u', heq, hu', hreach.reshape, hreach.mem, h'⟩
  rw [RadixCache.matchPrefix] at heq
  simp only [UnifiedRadixCache.matchPrefix, hc.isEagle, hc.pageSize, h.rootNode]
  split at heq
  · rename_i h0
    cases heq
    rw [if_pos h0]
    exact ⟨u, rfl, h⟩
  · rename_i h0
    rw [if_neg h0]
    dsimp only at heq
    split at heq
    · rename_i h1
      cases heq
      rw [if_pos h1]
      exact ⟨u, rfl, h⟩
    · rename_i h1
      rw [if_neg h1]
      simp only [bind_eq_bind, bind_eq_some_iff] at heq
      obtain ⟨⟨values, last, c₁⟩, hhelper, hfin⟩ := heq
      cases hfin
      obtain ⟨u₁, len, hu₁, h₁⟩ := h.matchPrefixHelper hc hhelper
      obtain ⟨u', hu', h'⟩ := h₁.matchPostProcessor hc (hreach.reshape.base hb) hreach.mem values
        len params
      have hroot : c₁.rootNode = c.rootNode := by
        rw [(hreach.reshape.base hb).represents.root_eq, hreach.reshape.root_eq, hb.represents.root_eq]
      refine ⟨u', ?_, h'⟩
      rw [hu₁, ← hroot]
      exact hu'

/-! ## 5. Insertion -/

theorem touchNode (h : Mirrors c u) (hc : FullOnly cfg ucfg) (n : NodeId) :
    ∃ u', u.touchNode ucfg n = some u' ∧ Mirrors c u' := by
  refine ⟨u.touchTime n, ?_, h.shows.touchTime n, h.tidy⟩
  rw [UnifiedRadixCache.touchNode]
  split
  · exact forEachComponentLru_eq hc _ _ _ _
  · rfl

theorem incHitCount (hc : FullOnly cfg ucfg) (u : UnifiedRadixCache σ) (n : NodeId) (chunked : Bool) :
    u.incHitCount ucfg n chunked = some u := by
  rw [UnifiedRadixCache.incHitCount, hc.cacheController]

/-- The slots that were there stay; those of the insertion go back to the allocator. -/
theorem overlap (h : Mirrors c u) (hc : FullOnly cfg ucfg) {node : NodeId} {v : List σ}
    (hv : (c.nodes node).value = some v) (prefixLen total : ℕ) (value : List σ)
    (params : InsertParams σ) :
    ∃ u', u.overlap ucfg node prefixLen total value params = some u' ∧ Mirrors c u' := by
  have hev := h.shows.evicted (n := node) (isSome_of_eq_some hv)
  simp only [UnifiedRadixCache.overlap, hev, hc.treeComponents, updateComponentOnInsertOverlap,
    foldlM_cons, foldlM_nil, bind_eq_bind, bind_some, Option.pure_def,
    Bool.false_eq_true, if_false]
  split
  · exact ⟨_, rfl, h.shows.free _, h.tidy⟩
  · exact ⟨u, rfl, h⟩

/-- A round of `_insert_helper` starts from the same node on both sides. -/
theorem splitOrStay (h : Mirrors c u) (hc : FullOnly cfg ucfg) {child node : NodeId} {len : ℕ}
    (hchild : child < c.counter ∧ child ≠ c.rootNode)
    (hstay : c.splitOrStay cfg child len = some (node, c')) :
    ∃ u', u.splitOrStay ucfg child len = some (node, u') ∧ Mirrors c' u' := by
  rw [RadixCache.splitOrStay] at hstay
  have hkey : (u.nodes child).key = (c.nodes child).key := h.shows.key child
  rw [UnifiedRadixCache.splitOrStay, hkey]
  split at hstay
  · rename_i hlt
    rw [if_pos hlt]
    exact h.splitNode hc hchild.1 hchild.2 hlt hstay
  · rename_i hlt
    cases hstay
    rw [if_neg hlt]
    exact ⟨u, rfl, h⟩

/-- **`_add_new_node`** hangs in the same leaf. -/
theorem addNewNode (h : Mirrors c u) (hc : FullOnly cfg ucfg) {key : RadixKey}
    {value : List σ} {priority : ℤ} {chunked : Bool}
    (hck : key.childKey cfg.pageSize = some ck) (hlen : value.length = key.len)
    (hadd : c.addLeaf cfg p key value ck priority chunked = some c') :
    ∃ n u', u.addNewNode ucfg p key value = some (n, u') ∧ Mirrors c' u' := by
  have hview := RadixCache.view_addLeaf hadd
  have hleaf := (((h.shows.newTreeNode.modify u.counter
    (fun n => { n with parent := some p, key := key })
    (fun f => { f with parent := some p, key := key }) (fun _ => rfl) fun _ => rfl).modifyData
    u.counter (fun d => { d with value := some value }) (fun f => { f with value := some value })
    rfl fun _ hd => hd).modify p
    (fun n => { n with children := n.children.insert ck u.counter })
    (fun f => { f with children := f.children.insert ck u.counter }) (fun _ => rfl)
    fun _ => rfl).addEvictable value.length
  have hsets := (hleaf.updateEvictableLeafSets u.counter).updateEvictableLeafSets p
  refine ⟨u.counter, _, ?_, ⟨hsets.view.trans ?_, hsets.noHost⟩, hview ▸ h.tidy.attach hlen⟩
  · rw [UnifiedRadixCache.addNewNode, hc.pageSize, hck]
    rfl
  · rw [hview, h.counter, hlen]
    change TreeView.grow (TreeView.modify (TreeView.modify (TreeView.modify _ c.view.counter _)
      c.view.counter _) p _) _ = _
    rw [TreeView.create_modify, TreeView.create_modify]
    rfl

/-- **The loop of `_insert_helper`** on both sides. -/
theorem insertLoop (hc : FullOnly cfg ucfg) (accessTime priority : ℤ) (params : InsertParams σ)
    (fuel : ℕ) :
    ∀ {c : RadixCache σ} {u : UnifiedRadixCache σ} {node : NodeId} {key : RadixKey} {value : List σ}
      {ck : ChildKey} {total : ℕ} {w : RadixCache.InsertWalk σ}, Mirrors c u →
      value.length = key.len → (key.len > 0 → key.childKey cfg.pageSize = some ck) →
      c.insertLoop cfg accessTime priority params.chunked fuel node key value ck total = some w →
      ∃ u', u.insertLoop ucfg params fuel node key value ck total
          = some ⟨w.total, w.node, w.key, w.value, u'⟩ ∧ Mirrors w.cache u' ∧
        w.value.length = w.key.len ∧
        (w.key.len > 0 → w.key.childKey cfg.pageSize = some w.childKey) := by
  induction fuel with
  | zero =>
    intro c u node key value ck total w h hlen hck hloop
    cases hloop
  | succ fuel ih =>
    intro c u node key value ck total w h hlen hck hloop
    rw [RadixCache.insertLoop] at hloop
    rw [UnifiedRadixCache.insertLoop, h.shows.children]
    by_cases hkey : key.len > 0
    · rw [if_pos hkey] at hloop ⊢
      cases hlook : (c.nodes node).children.lookup ck with
      | none =>
        rw [hlook] at hloop
        cases hloop
        refine ⟨u, ?_, h, hlen, hck⟩
        rw [show (c.view.face node).children.lookup ck = none from hlook]
      | some child =>
        rw [hlook] at hloop
        rw [show (c.view.face node).children.lookup ck = some child from hlook]
        have h₁ : Mirrors (c.modify child fun n => { n with lastAccessTime := accessTime }) u :=
          h.of_view (RadixCache.view_modify_same c child _ rfl)
        have hlt₁ : child < (c.modify child fun n => { n with lastAccessTime := accessTime }).counter ∧
            child ≠ (c.modify child fun n => { n with lastAccessTime := accessTime }).rootNode :=
          h.tidy.child_lt node ck child hlook
        simp only [bind_eq_bind, bind_eq_some_iff] at hloop
        generalize c.modify child (fun n => { n with lastAccessTime := accessTime }) = c₁
          at hloop h₁ hlt₁
        obtain ⟨prefixLen, hmatch, ⟨node', c₂⟩, hstay, ck', hck', hloop⟩ := hloop
        obtain ⟨u₁, hu₁, htouch⟩ := h₁.touchNode hc child
        have hchildKey : (u₁.nodes child).key = (c₁.nodes child).key := htouch.shows.key child
        obtain ⟨u₂, hu₂, h₂⟩ := htouch.splitOrStay hc hlt₁ hstay
        have hlt₂ : node' < c₂.counter := by
          rw [RadixCache.splitOrStay] at hstay
          split at hstay
          · obtain ⟨_, _, _, -, -, -, -, rfl, hview⟩ := RadixCache.view_splitNode hlt₁.1 hstay
            have hcounter : c₂.counter = c₁.counter + 1 := congrArg TreeView.counter hview
            exact hcounter ▸ Nat.lt_succ_self _
          · cases hstay
            exact hlt₁.1
        obtain ⟨v, hv⟩ := isSome_iff_exists.mp (h₂.tidy.filled node' hlt₂)
        obtain ⟨u₃, hu₃, h₃⟩ := h₂.overlap hc hv prefixLen total value params
        have h₄ : Mirrors ((c₂.modify node' fun n => { n with
            priority := max n.priority priority }).incHitCount node' params.chunked) u₃ :=
          h₃.of_view ((RadixCache.view_incHitCount _ _ _).trans (RadixCache.view_modify_same c₂ node' _ rfl))
        have hlen' : (value.drop prefixLen).length = (key.dropTo prefixLen).len := by
          rw [length_drop, RadixKey.len_dropTo, hlen]
        have hck₁ : (key.dropTo prefixLen).len > 0 →
            (key.dropTo prefixLen).childKey cfg.pageSize = some ck' := by
          intro hpos
          rwa [RadixCache.nextChildKey, if_pos hpos] at hck'
        have hnext : UnifiedRadixCache.nextChildKey ucfg (key.dropTo prefixLen) ck = some ck' := by
          rw [UnifiedRadixCache.nextChildKey, hc.pageSize]
          exact hck'
        obtain ⟨u', hu', h'⟩ := ih h₄ hlen' hck₁ hloop
        refine ⟨u', ?_, h'⟩
        rw [← hchildKey] at hmatch
        simp only [hu₁, hc.pageSize, hmatch, hu₂, hu₃, incHitCount hc, hnext, bind_eq_bind,
          bind_some]
        exact hu'
    · rw [if_neg hkey] at hloop ⊢
      cases hloop
      exact ⟨u, rfl, h, hlen, hck⟩

/-- The components have nothing to attach. -/
theorem finishInsert (hc : FullOnly cfg ucfg) (u : UnifiedRadixCache σ) (target : NodeId)
    (isNewLeaf : Bool) (params : InsertParams σ) (total : ℕ) :
    u.finishInsert ucfg target isNewLeaf params total = some (⟨total, false⟩, u) := by
  rw [UnifiedRadixCache.finishInsert]
  simp [hc.treeComponents, commitInsertComponentData, incHitCount hc]

/-- **`_insert_helper`** on both sides. -/
theorem insertHelper (h : Mirrors c u) (hc : FullOnly cfg ucfg) {key : RadixKey} {value : List σ}
    {n : ℕ} {priority : ℤ} (params : InsertParams σ) (hlen : value.length = key.len)
    (hinsert : c.insertHelper cfg c.rootNode key value priority params.chunked = some (n, c')) :
    ∃ b u', u.insertHelper ucfg u.rootNode key value params = some (⟨n, b⟩, u') ∧ Mirrors c' u' := by
  have h₁ : Mirrors ((c.readClock cfg).2.modify c.rootNode fun n => { n with
      lastAccessTime := (c.readClock cfg).1
      priority := max n.priority priority }) u :=
    h.of_view (RadixCache.view_modify_same (c.readClock cfg).2 _ _ rfl)
  obtain ⟨u₁, hu₁, h₂⟩ := h₁.touchNode hc u.rootNode
  rw [RadixCache.insertHelper] at hinsert
  rw [UnifiedRadixCache.insertHelper, hu₁]
  simp only [bind_eq_bind, bind_some, Option.pure_def] at hinsert ⊢
  by_cases h0 : key.len = 0
  · rw [if_pos h0] at hinsert ⊢
    cases hinsert
    exact ⟨true, u₁, rfl, h₂⟩
  · rw [if_neg h0] at hinsert ⊢
    simp only [bind_eq_some_iff] at hinsert
    obtain ⟨ck, hck, w, hloop, hfin⟩ := hinsert
    obtain ⟨u₂, hu₂, h₃, hwlen, hwck⟩ := insertLoop hc _ _ params _ h₂ hlen (fun _ => hck) hloop
    rw [h.rootNode, hc.pageSize, hck, bind_some, hu₂, bind_some]
    split at hfin
    · rename_i hpos
      simp only [bind_eq_some_iff] at hfin
      obtain ⟨c₃, hadd, hfin⟩ := hfin
      cases hfin
      obtain ⟨v, u₃, hu₃, h₄⟩ := h₃.addNewNode hc (hwck hpos) hwlen hadd
      have hskip : shouldSkipLeafCreation ucfg w.total w.key.len params = false := by
        simp [shouldSkipLeafCreation, hc.treeComponents]
      rw [if_pos hpos, hskip, hu₃]
      exact ⟨false, u₃, finishInsert hc _ _ _ _ _, h₄⟩
    · rename_i hzero
      cases hfin
      rw [if_neg hzero]
      exact ⟨false, u₂, finishInsert hc _ _ _ _ _, h₃⟩

/-- **`insert`** on both sides. -/
theorem insert (h : Mirrors c u) (hc : FullOnly cfg ucfg) {n : ℕ} {priority : ℤ}
    (params : InsertParams σ)
    (hlen : (RadixCache.normKey cfg params.key).len ≤ params.value.length)
    (hinsert : c.insert cfg params.key params.value priority params.chunked = some (n, c')) :
    ∃ b u', u.insert ucfg params = some (⟨n, b⟩, u') ∧ Mirrors c' u' := by
  have htake := RadixCache.take_maybeToBigramView cfg params.key params.value
  have hfst := RadixCache.maybeToBigramView_fst params.key cfg.isEagle (some params.value)
  rw [RadixCache.insert] at hinsert
  rw [UnifiedRadixCache.insert]
  simp only [hfst, hc.isEagle, hc.pageSize] at hinsert ⊢
  change c.insertHelper cfg c.rootNode (RadixCache.normKey cfg params.key)
    (List.take (RadixCache.normKey cfg params.key).len _) _ _ = _ at hinsert
  change ∃ b u', u.insertHelper ucfg u.rootNode (RadixCache.normKey cfg params.key)
    (List.take (RadixCache.normKey cfg params.key).len _) _ = _ ∧ _
  rw [htake] at hinsert ⊢
  exact h.insertHelper hc params (by rw [length_take, min_eq_left hlen]) hinsert

/-! ## 6. Locks -/

/-- **A round of `acquire_component_lock`.** -/
theorem lockData (h : Mirrors c u) {n : NodeId} {v : List σ} (hv : (c.nodes n).value = some v) :
    Mirrors (c.incLockRound n) (u.lockData n .full v.length) := by
  have hview := c.view_incLockRound n
  have hlock : ((u.data n .full).lockRef : ℤ) = (c.nodes n).lockRef := h.shows.lockRef n
  have hlen : v.length = (c.nodes n).key.len := h.tidy.length_eq n v hv
  refine ⟨?_, hview ▸ h.tidy.relock n 1 0⟩
  have hsizes : (if (u.data n .full).lockRef = 0 then u.protect .full v.length else u).Shows
      (c.view.shift (if (c.nodes n).lockRef = 0 then (c.nodes n).key.len else 0)) := by
    by_cases h0 : (u.data n .full).lockRef = 0
    · rw [if_pos h0, if_pos (by omega), ← hlen]
      exact h.shows.protect _
    · rw [if_neg h0, if_neg (by omega)]
      simpa [TreeView.shift] using h.shows
  have hlocked := hsizes.modifyData n (fun d => { d with lockRef := d.lockRef + 1 })
    (fun f => { f with lockRef := f.lockRef + 1 })
    (by simp [UnifiedTreeNode.face, UnifiedTreeNode.modifyData]) fun _ hd => hd
  refine ⟨hlocked.view.trans ?_, hlocked.noHost⟩
  rw [hview, TreeView.relock]
  simp only [one_mul]
  rfl

/-- **A round of `release_component_lock`.** -/
theorem unlockData (h : Mirrors c u) {n : NodeId} {v : List σ} (hv : (c.nodes n).value = some v)
    (hpos : (u.data n .full).lockRef > 0) :
    Mirrors (c.decLockRound n) (u.unlockData n .full v.length) := by
  have hview := c.view_decLockRound n
  have hlock : ((u.data n .full).lockRef : ℤ) = (c.nodes n).lockRef := h.shows.lockRef n
  have hlen : v.length = (c.nodes n).key.len := h.tidy.length_eq n v hv
  refine ⟨?_, hview ▸ h.tidy.relock n (-1) 1⟩
  have hsizes : (if (u.data n .full).lockRef = 1 then u.unprotect .full v.length else u).Shows
      (c.view.shift (if (c.nodes n).lockRef = 1 then -1 * (c.nodes n).key.len else 0)) := by
    by_cases h1 : (u.data n .full).lockRef = 1
    · rw [if_pos h1, if_pos (by omega), ← hlen, neg_one_mul]
      exact h.shows.unprotect _
    · rw [if_neg h1, if_neg (by omega)]
      simpa [TreeView.shift] using h.shows
  have hcast : (((u.data n .full).lockRef - 1 : ℕ) : ℤ) = (u.data n .full).lockRef + -1 := by omega
  have hsame : (if (u.data n .full).lockRef = 1 then u.unprotect .full v.length else u).nodes n
      = u.nodes n := by
    split <;> rfl
  have hlocked := hsizes.modifyData n (fun d => { d with lockRef := d.lockRef - 1 })
    (fun f => { f with lockRef := f.lockRef + -1 })
    (by
      rw [hsame]
      exact congrArg _ hcast) fun _ hd => hd
  refine ⟨hlocked.view.trans ?_, hlocked.noHost⟩
  rw [hview]
  rfl

/-- **`inc_lock_ref`** walks the same path. -/
theorem acquireFull (fuel : ℕ) :
    ∀ {c : RadixCache σ} {u : UnifiedRadixCache σ} {n : NodeId} (delta : ℕ), Mirrors c u →
      RadixCache.Represents cfg t c → n ∈ t.nodes → (t.up n).length < fuel →
      ∃ delta' u', UnifiedRadixCache.acquireFull fuel u n delta = some (delta', u') ∧
        Mirrors ((t.up n).foldl RadixCache.incLockRound c) u' := by
  induction fuel with
  | zero =>
    intro c u n delta h hrep hn hfuel
    omega
  | succ fuel ih =>
    intro c u n delta h hrep hn hfuel
    rw [UnifiedRadixCache.acquireFull, h.rootNode, hrep.root_eq]
    by_cases hr : n = t.root
    · rw [if_pos hr, hr, t.up_root]
      exact ⟨delta, u, rfl, h⟩
    · obtain ⟨v, hv⟩ := isSome_iff_exists.mp (h.tidy.filled n (hrep.lt_counter hn))
      have hval : (u.data n .full).value = some v := (h.shows.value n).trans hv
      have h₁ := h.lockData hv
      have hpar : ((u.lockData n .full v.length).nodes n).parent = some (t.parent n) := by
        have hrel := RadixCache.incLockRound_relocked c n
        exact (h₁.shows.parent n).trans ((hrel.parent n).trans (hrep.parent_eq hn hr))
      rw [t.up_cons hn hr, length_cons] at hfuel
      rw [if_neg hr, hval, t.up_cons hn hr]
      simp only [bind_eq_bind, bind_some, hpar]
      exact ih _ ⟨h₁.shows.of_nodes rfl h₁.shows.view, h₁.tidy⟩
        (hrep.of_sameLinks (RadixCache.incLockRound_relocked c n).toSameLinks) (t.parent_mem hn hr)
        (by omega)

/-- **`dec_lock_ref`** walks the same path, as far as there are references to give back. -/
theorem releaseFull (fuel : ℕ) :
    ∀ {c : RadixCache σ} {u : UnifiedRadixCache σ} {n : NodeId}, Mirrors c u →
      RadixCache.Represents cfg t c → n ∈ t.nodes → (t.up n).length < fuel →
      (∀ u', UnifiedRadixCache.releaseFull fuel u n = some u' →
        Mirrors ((t.up n).foldl RadixCache.decLockRound c) u') ∧
      ((∀ m ∈ t.up n, 0 < (c.nodes m).lockRef) →
        ∃ u', UnifiedRadixCache.releaseFull fuel u n = some u') := by
  induction fuel with
  | zero =>
    intro c u n h hrep hn hfuel
    omega
  | succ fuel ih =>
    intro c u n h hrep hn hfuel
    rw [UnifiedRadixCache.releaseFull, h.rootNode, hrep.root_eq]
    by_cases hr : n = t.root
    · rw [if_pos hr, hr, t.up_root]
      refine ⟨fun u' hu' => ?_, fun _ => ⟨u, rfl⟩⟩
      cases hu'
      exact h
    · obtain ⟨v, hv⟩ := isSome_iff_exists.mp (h.tidy.filled n (hrep.lt_counter hn))
      have hval : (u.data n .full).value = some v := (h.shows.value n).trans hv
      have hlock : ((u.data n .full).lockRef : ℤ) = (c.nodes n).lockRef := h.shows.lockRef n
      have hrel := RadixCache.decLockRound_relocked c n
      have hnot := RootedTree.not_mem_up_parent hn hr
      rw [t.up_cons hn hr, length_cons] at hfuel
      rw [if_neg hr, hval, t.up_cons hn hr]
      simp only [bind_eq_bind, bind_some]
      by_cases hpos : (u.data n .full).lockRef > 0
      · rw [if_pos hpos]
        have h₁ := h.unlockData hv hpos
        have hround : Mirrors (c.decLockRound n) (if (u.data n .full).lockRef = 1 then
            (u.unlockData n .full v.length).updateEvictableLeafSets n
            else u.unlockData n .full v.length) := by
          split
          · exact ⟨h₁.shows.updateEvictableLeafSets n, h₁.tidy⟩
          · exact h₁
        generalize (if (u.data n .full).lockRef = 1 then
            (u.unlockData n .full v.length).updateEvictableLeafSets n
            else u.unlockData n .full v.length) = u₁ at hround
        have hpar : (u₁.nodes n).parent = some (t.parent n) :=
          (hround.shows.parent n).trans ((hrel.parent n).trans (hrep.parent_eq hn hr))
        rw [hpar]
        obtain ⟨hsim, hex⟩ := ih hround (hrep.of_sameLinks hrel.toSameLinks) (t.parent_mem hn hr)
          (by omega)
        refine ⟨hsim, fun hall => hex fun m hm => ?_⟩
        rw [hrel.lockRef_other m (fun e => hnot (e ▸ hm))]
        exact hall m (mem_cons_of_mem _ hm)
      · rw [if_neg hpos]
        refine ⟨fun u' hu' => (by cases hu'), fun hall => absurd (hall n mem_cons_self) ?_⟩
        omega

/-! ## 7. The start -/

/-- **Both start with an empty root.** -/
theorem init (hc : FullOnly cfg ucfg) :
    Mirrors (RadixCache.init cfg : RadixCache σ) (UnifiedRadixCache.init ucfg) :=
  ⟨by rw [RadixCache.view_init]; exact UnifiedRadixCache.Shows.init hc, by
    rw [RadixCache.view_init]
    exact TreeView.Tidy.rootOnly⟩

end Mirrors

/-- **`inc_lock_ref`** on both sides. -/
theorem Mirrors.incLockRef (h : Mirrors c u) (hc : FullOnly cfg ucfg)
    (hb : RadixCache.Base cfg t c) {n : NodeId} (hn : n ∈ t.nodes) :
    ∃ c' d r u', c.incLockRef n = some (c', d) ∧ u.incLockRef ucfg n = some (r, u') ∧
      Mirrors c' u' := by
  have hrep := hb.represents
  have hfuel := (hrep.up_length_lt_counter hn).trans (Nat.lt_succ_self _)
  obtain ⟨d, heq⟩ := RadixCache.lockLoop_foldl
    (fun n => if n.lockRef = 0 then -(n.key.len : ℤ) else 0)
    (fun c n => (RadixCache.incLockRound_relocked (σ := σ) c n).toSameLinks) (c.counter + 1) c n 0
    hrep hn hfuel
  obtain ⟨delta, u', hu', h'⟩ := h.acquireFull (c.counter + 1) 0 hrep hn hfuel
  refine ⟨_, d, ⟨delta, none⟩, _, heq, ?_, ⟨h'.shows.updateEvictableLeafSets n, h'.tidy⟩⟩
  rw [UnifiedRadixCache.incLockRef]
  simp [hc.treeComponents, UnifiedRadixCache.acquireComponentLock, h.counter, hu']

/-- **`dec_lock_ref`** on both sides: the unified cache refuses what would go below zero. -/
theorem Mirrors.decLockRef (h : Mirrors c u) (hc : FullOnly cfg ucfg)
    (hb : RadixCache.Base cfg t c) {n : NodeId} (hn : n ∈ t.nodes)
    (params : Option DecLockRefParams) :
    ∃ c' d, c.decLockRef n = some (c', d) ∧
      (∀ u', u.decLockRef ucfg n params = some u' → Mirrors c' u') ∧
      ((∀ m ∈ t.up n, 0 < (c.nodes m).lockRef) → ∃ u', u.decLockRef ucfg n params = some u') := by
  have hrep := hb.represents
  have hfuel := (hrep.up_length_lt_counter hn).trans (Nat.lt_succ_self _)
  obtain ⟨d, heq⟩ := RadixCache.lockLoop_foldl
    (fun n => if n.lockRef = 1 then (n.key.len : ℤ) else 0)
    (fun c n => (RadixCache.decLockRound_relocked (σ := σ) c n).toSameLinks) (c.counter + 1) c n 0
    hrep hn hfuel
  obtain ⟨hsim, hex⟩ := h.releaseFull (c.counter + 1) hrep hn hfuel
  have hdec : u.decLockRef ucfg n params
      = (UnifiedRadixCache.releaseFull (c.counter + 1) u n).map (·.updateEvictableLeafSets n) := by
    rw [UnifiedRadixCache.decLockRef]
    simp only [hc.treeComponents, foldlM_cons, foldlM_nil,
      UnifiedRadixCache.releaseComponentLock, h.counter, bind_eq_bind, Option.pure_def]
    rcases UnifiedRadixCache.releaseFull (c.counter + 1) u n with _ | u' <;> rfl
  refine ⟨_, d, heq, fun u' hu' => ?_, fun hall => ?_⟩
  · rw [hdec] at hu'
    obtain ⟨u₁, hu₁, rfl⟩ := map_eq_some_iff.mp hu'
    exact ⟨(hsim u₁ hu₁).shows.updateEvictableLeafSets n, (hsim u₁ hu₁).tidy⟩
  · obtain ⟨u₁, hu₁⟩ := hex hall
    exact ⟨_, by rw [hdec, hu₁]; rfl⟩

end Sglang
