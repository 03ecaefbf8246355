/-
# Sizes, leaves and locks

`RadixCache` keeps three things that could be recomputed from the tree: `evictable_size_`,
`protected_size_` and the set `evictable_leaves`.  They are updated incrementally in every
method.  `Leaves` says that the set holds exactly the unlocked childless nodes, and `Sizes` that
the two numbers are the sums of the key lengths over the unlocked and over the locked nodes.

Both are properties of the state ALONE: they compare the counters with the `lock_ref` fields
whatever these are.  So they survive each round of `inc_lock_ref` and `dec_lock_ref` although in
the middle of such a walk the fields are not the lock counts of any set of holders.  What the
fields are at the end of a walk is a separate statement (`Relocks`).
-/
import Sglang.MemCache.Steps

namespace Sglang

open Lib Finset RootedTree

namespace RadixCache

variable {σ : Type}

/-! ## 1. Leaves and sizes -/

/-- What a node adds to `evictable_size_`. -/
def unlockedLen (c : RadixCache σ) (n : NodeId) : ℤ :=
  if (c.nodes n).lockRef = 0 then (c.nodes n).key.len else 0

/-- What a node adds to `protected_size_`. -/
def lockedLen (c : RadixCache σ) (n : NodeId) : ℤ :=
  if (c.nodes n).lockRef > 0 then (c.nodes n).key.len else 0

/-- **The leaf set is that of the tree.** -/
structure Leaves (t : RootedTree NodeId) (c : RadixCache σ) : Prop where
  nodup : c.evictableLeaves.Nodup
  mem_iff : ∀ n, n ∈ c.evictableLeaves ↔
    n ∈ t.nodes ∧ n ≠ t.root ∧ (c.nodes n).lockRef ≤ 0 ∧ ∀ k, ¬ t.Child n k
  root_lockRef : 0 < (c.nodes t.root).lockRef

/-- **The two sizes are those of the tree**, and the references are counts. -/
structure Sizes (t : RootedTree NodeId) (c : RadixCache σ) : Prop where
  evictableSize : c.evictableSize = t.total c.unlockedLen
  protectedSize : c.protectedSize = t.total c.lockedLen
  lockRef_nonneg : ∀ n ∈ t.nodes, 0 ≤ (c.nodes n).lockRef

section Preserved

variable {cfg : CacheConfig} {t : RootedTree NodeId} {c c' : RadixCache σ} {n p v : NodeId}
  {j : ℕ} {key : RadixKey} {value : List σ}

/-- In a filled tree the test of `_update_leaf_status` is: unlocked and childless. -/
theorem isEvictableLeaf_iff (hrep : Represents cfg t c) (hfill : Filled t c) (hn : n ∈ t.nodes)
    (hr : n ≠ t.root) :
    c.IsEvictableLeaf n ↔ (c.nodes n).lockRef ≤ 0 ∧ ∀ k, ¬ t.Child n k := by
  have hlive : ∀ m ∈ t.nodes, m ≠ t.root → (c.nodes m).evicted = false := by
    intro m hm hmr
    obtain ⟨w, hw, -⟩ := hfill m hm hmr
    rw [TreeNode.evicted, hw]
    rfl
  constructor
  · rintro ⟨-, h1, h2⟩
    refine ⟨by omega, fun k hk => ?_⟩
    have := h2 k ((hrep.mem_values_iff hn).mpr hk)
    rw [hlive k hk.1 hk.2.1] at this
    cases this
  · rintro ⟨h1, h2⟩
    exact ⟨hlive n hn hr, by omega, fun k hk => absurd ((hrep.mem_values_iff hn).mp hk) (h2 k)⟩

theorem Agree.leaves (h : Agree c c') (hl : Leaves t c) : Leaves t c' := by
  refine ⟨h.evictableLeaves ▸ hl.nodup, fun m => ?_, ?_⟩
  · rw [h.evictableLeaves, h.lockRef]
    exact hl.mem_iff m
  · rw [h.lockRef]; exact hl.root_lockRef

theorem Agree.sizes (h : Agree c c') (hs : Sizes t c) : Sizes t c' := by
  have h1 : c'.unlockedLen = c.unlockedLen := by
    funext m; rw [unlockedLen, h.lockRef, h.key, unlockedLen]
  have h2 : c'.lockedLen = c.lockedLen := by
    funext m; rw [lockedLen, h.lockRef, h.key, lockedLen]
  refine ⟨by rw [h1, h.evictableSize, hs.evictableSize],
    by rw [h2, h.protectedSize, hs.protectedSize], fun m hm => ?_⟩
  rw [h.lockRef]; exact hs.lockRef_nonneg m hm

/-- The upper half of a split has a child, and the lower half keeps its own. -/
theorem Splits.leaves (h : Splits cfg t c n v j c') (hl : Leaves t c) : Leaves h.tree c' := by
  refine ⟨h.evictableLeaves ▸ hl.nodup, fun m => ?_, ?_⟩
  · rw [h.evictableLeaves, hl.mem_iff]
    by_cases hmv : m = v
    · subst hmv
      constructor
      · exact fun hm => absurd hm.1 h.new
      · rintro ⟨-, -, -, hleaf⟩
        refine absurd ?_ (hleaf n)
        rw [IsSplit.tree, subdivide_child_iff (mem_insert_self _ _)]
        exact Or.inr (Or.inl ⟨rfl, rfl⟩)
    · rw [h.tree_nodes, mem_insert, or_iff_right hmv]
      refine and_congr_right fun hm => and_congr_right fun _ => ?_
      rw [h.lockRef_old m hm]
      refine and_congr_right fun _ => ?_
      have hiff : ∀ k, h.tree.Child m k ↔
          (k = v ∧ m = t.parent n) ∨ (k = n ∧ m = v) ∨ (k ≠ n ∧ t.Child m k) :=
        fun k => subdivide_child_iff (mem_insert_of_mem hm)
      constructor
      · intro hleaf k hk
        rcases (hiff k).mp hk with ⟨-, e⟩ | ⟨-, e⟩ | ⟨-, hc⟩
        · exact hleaf n ⟨h.mem, h.ne_root, e.symm⟩
        · exact hmv e
        · exact hleaf k hc
      · intro hleaf k hc
        by_cases hkn : k = n
        · subst hkn
          exact hleaf v ((hiff v).mpr (Or.inl ⟨rfl, hc.2.2.symm⟩))
        · exact hleaf k ((hiff k).mpr (Or.inr (Or.inr ⟨hkn, hc⟩)))
  · rw [h.tree_root, h.lockRef_old _ t.root_mem]; exact hl.root_lockRef

/-- A split shares the units of a node out, and both halves are locked as the whole was. -/
theorem Splits.sizes (h : Splits cfg t c n v j c') (hs : Sizes t c) : Sizes h.tree c' := by
  have hlen : ((c'.nodes v).key.len : ℤ) + (c'.nodes n).key.len = (c.nodes n).key.len := by
    rw [h.key_new, h.key_self, RadixKey.len_takeTo, RadixKey.len_dropTo]
    omega
  have hln := h.lockRef_old n h.mem
  refine ⟨?_, ?_, ?_⟩
  · rw [h.evictableSize, hs.evictableSize]
    refine (total_subdivide ?_ ?_).symm
    · intro k hk _ hkn
      rw [unlockedLen, h.lockRef_old k hk, h.key_old k hk hkn, unlockedLen]
    · rw [unlockedLen, unlockedLen, unlockedLen, h.lockRef_new, hln]
      split <;> simp [hlen]
  · rw [h.protectedSize, hs.protectedSize]
    refine (total_subdivide ?_ ?_).symm
    · intro k hk _ hkn
      rw [lockedLen, h.lockRef_old k hk, h.key_old k hk hkn, lockedLen]
    · rw [lockedLen, lockedLen, lockedLen, h.lockRef_new, hln]
      split <;> simp [hlen]
  · intro m hm
    rcases mem_insert.mp hm with rfl | hm
    · rw [h.lockRef_new]; exact hs.lockRef_nonneg n h.mem
    · rw [h.lockRef_old m hm]; exact hs.lockRef_nonneg m hm

/-- A new leaf is a leaf, and its parent is none any more. -/
theorem Attaches.leaves (h : Attaches cfg t c p v key value c') (hl : Leaves t c) :
    Leaves h.tree c' := by
  refine ⟨h.leaves_nodup hl.nodup, fun m => ?_, ?_⟩
  · rw [h.mem_leaves hl.nodup, hl.mem_iff, IsAttach.tree]
    simp only [attach_child_iff, attach_nodes, attach_root, mem_insert]
    constructor
    · rintro (rfl | ⟨hmv, hmp, hm, hr, h0, hleaf⟩)
      · refine ⟨Or.inl rfl, fun e => h.new (e ▸ t.root_mem), h.lockRef_new.le, ?_⟩
        rintro k (hc | ⟨-, e⟩)
        · exact h.new (hc.2.2 ▸ t.parent_mem hc.1 hc.2.1)
        · exact h.new (e ▸ h.mem)
      · refine ⟨Or.inr hm, hr, by rw [h.lockRef_old m hm]; exact h0, ?_⟩
        rintro k (hc | ⟨-, e⟩)
        · exact hleaf k hc
        · exact hmp e
    · rintro ⟨rfl | hm, hr, h0, hleaf⟩
      · exact Or.inl rfl
      · refine Or.inr ⟨h.new_ne hm, ?_, hm, hr, by rw [← h.lockRef_old m hm]; exact h0,
          fun k hc => hleaf k (Or.inl hc)⟩
        rintro rfl
        exact hleaf v (Or.inr ⟨rfl, rfl⟩)
  · rw [h.tree_root, h.lockRef_old _ t.root_mem]; exact hl.root_lockRef

theorem Attaches.sizes (h : Attaches cfg t c p v key value c') (hs : Sizes t c) :
    Sizes h.tree c' := by
  refine ⟨?_, ?_, ?_⟩
  · rw [h.evictableSize, hs.evictableSize, IsAttach.tree,
      total_attach (f := c.unlockedLen) (g := c'.unlockedLen), add_comm]
    · rw [unlockedLen, if_pos h.lockRef_new, h.key_new]
    · intro k hk _
      rw [unlockedLen, h.lockRef_old k hk, h.key_old k hk, unlockedLen]
  · rw [h.protectedSize, hs.protectedSize, IsAttach.tree,
      total_attach (f := c.lockedLen) (g := c'.lockedLen)]
    · rw [lockedLen, h.lockRef_new, if_neg (lt_irrefl _), zero_add]
    · intro k hk _
      rw [lockedLen, h.lockRef_old k hk, h.key_old k hk, lockedLen]
  · intro m hm
    rcases mem_insert.mp hm with rfl | hm
    · rw [h.lockRef_new]
    · rw [h.lockRef_old m hm]; exact hs.lockRef_nonneg m hm

theorem Detaches.filled (h : Detaches cfg t c n c') (hf : Filled t c) : Filled h.tree c' := by
  intro m hm hr
  rw [h.value, h.key]
  exact hf m (mem_of_mem_erase hm) hr

/-- The parent of a leaf that leaves may become a leaf. -/
theorem Detaches.leaves (h : Detaches cfg t c n c') (hrep : Represents cfg t c)
    (hfill : Filled t c) (hl : Leaves t c) : Leaves h.tree c' := by
  have hp := t.parent_mem h.mem h.ne_root
  have hpn : t.parent n ≠ n := RootedTree.parent_ne h.mem h.ne_root
  refine ⟨h.leaves_nodup hl.nodup, fun m => ?_, ?_⟩
  · rw [h.mem_leaves hl.nodup, hl.mem_iff, h.lockRef, h.tree_nodes, mem_erase]
    have hiff : ∀ k, h.tree.Child m k ↔ t.Child m k ∧ k ≠ n := fun k =>
      detach_child_iff
    by_cases hmp : m = t.parent n
    · subst hmp
      have hparent : t.parent n ≠ t.root → (c'.IsEvictableLeaf (t.parent n) ↔
          (c.nodes (t.parent n)).lockRef ≤ 0 ∧ ∀ k, ¬ h.tree.Child (t.parent n) k) := by
        intro hr
        rw [isEvictableLeaf_iff (h.represents hrep) (h.filled hfill)
          (mem_erase.mpr ⟨hpn, hp⟩) hr, h.lockRef]
      constructor
      · rintro (⟨hne, -⟩ | ⟨-, hev⟩)
        · exact absurd rfl hne
        · have hr : t.parent n ≠ t.root := by
            intro e
            have h1 := hl.root_lockRef
            have h2 := hev.2.1
            rw [h.lockRef, e] at h2
            exact h2 h1
          obtain ⟨h1, h2⟩ := (hparent hr).mp hev
          exact ⟨⟨hpn, hp⟩, hr, h1, h2⟩
      · rintro ⟨-, hr, h1, h2⟩
        exact Or.inr ⟨rfl, (hparent hr).mpr ⟨h1, h2⟩⟩
    · have hsame : (∀ k, ¬ h.tree.Child m k) ↔ ∀ k, ¬ t.Child m k := by
        refine forall_congr' fun k => not_congr ?_
        rw [hiff]
        refine and_iff_left_of_imp ?_
        rintro hc rfl
        exact hmp hc.2.2.symm
      rw [hsame]
      constructor
      · rintro (⟨-, hmn, hm, hr, h0, hleaf⟩ | ⟨e, -⟩)
        · exact ⟨⟨hmn, hm⟩, hr, h0, hleaf⟩
        · exact absurd e hmp
      · rintro ⟨⟨hmn, hm⟩, hr, h0, hleaf⟩
        exact Or.inl ⟨hmp, hmn, hm, hr, h0, hleaf⟩
  · rw [h.lockRef]; exact hl.root_lockRef

/-- An unlocked leaf takes its units with it. -/
theorem Detaches.sizes (h : Detaches cfg t c n c') (h0 : (c.nodes n).lockRef = 0)
    (hs : Sizes t c) : Sizes h.tree c' := by
  have hu : c'.unlockedLen = c.unlockedLen := by
    funext m; rw [unlockedLen, h.lockRef, h.key, unlockedLen]
  have hl : c'.lockedLen = c.lockedLen := by
    funext m; rw [lockedLen, h.lockRef, h.key, lockedLen]
  refine ⟨?_, ?_, ?_⟩
  · have : c.unlockedLen n + (t.detach n h.ne_root h.leaf).total c'.unlockedLen
        = t.total c.unlockedLen := total_detach h.mem (fun k _ _ _ => by rw [hu])
    rw [h.evictableSize, hs.evictableSize, ← this, IsDetach.tree, unlockedLen, if_pos h0]
    ring
  · have : c.lockedLen n + (t.detach n h.ne_root h.leaf).total c'.lockedLen
        = t.total c.lockedLen := total_detach h.mem (fun k _ _ _ => by rw [hl])
    rw [h.protectedSize, hs.protectedSize, ← this, IsDetach.tree, lockedLen, h0,
      if_neg (lt_irrefl _), zero_add]
  · intro m hm
    rw [h.lockRef]
    exact hs.lockRef_nonneg m (mem_of_mem_erase hm)

end Preserved

/-! ## 2. Lock walks -/

/-- One node takes (`d = 1`) or gives back (`d = -1`) a reference, and its leaf status is
recomputed. -/
structure Relocked (n : NodeId) (d : ℤ) (c c' : RadixCache σ) : Prop extends SameLinks c c' where
  kvEventQueue : c'.kvEventQueue = c.kvEventQueue
  value : ∀ m, (c'.nodes m).value = (c.nodes m).value
  hashValue : ∀ m, (c'.nodes m).hashValue = (c.nodes m).hashValue
  lockRef_self : (c'.nodes n).lockRef = (c.nodes n).lockRef + d
  lockRef_other : ∀ m, m ≠ n → (c'.nodes m).lockRef = (c.nodes m).lockRef
  leaves_nodup : c.evictableLeaves.Nodup → c'.evictableLeaves.Nodup
  mem_leaves : c.evictableLeaves.Nodup → ∀ m, m ∈ c'.evictableLeaves ↔
    (m ≠ n ∧ m ∈ c.evictableLeaves) ∨ (m = n ∧ c'.IsEvictableLeaf n)

/-- Both rounds set the sizes, move the reference and recompute the leaf status of the node. -/
theorem relocked_of_round (c : RadixCache σ) (n : NodeId) (d e f : ℤ) :
    Relocked n d c ((({ c with evictableSize := e, protectedSize := f } : RadixCache σ).modify n
      fun x => { x with lockRef := x.lockRef + d }).updateLeafStatus n) := by
  generalize hc₁ : (({ c with evictableSize := e, protectedSize := f } : RadixCache σ).modify n
    fun x => { x with lockRef := x.lockRef + d }) = c₁
  have hfield : ∀ {τ : Type} (g : TreeNode σ → τ),
      (∀ x : TreeNode σ, g { x with lockRef := x.lockRef + d } = g x) → ∀ m,
      g ((c₁.updateLeafStatus n).nodes m) = g (c.nodes m) := by
    intro τ g hg m
    rw [updateLeafStatus_nodes, ← hc₁]
    exact modify_field _ n _ g hg m
  have hleaves : c₁.evictableLeaves = c.evictableLeaves := by rw [← hc₁]; rfl
  refine ⟨⟨?_, ?_, hfield _ fun _ => rfl, hfield _ fun _ => rfl, hfield _ fun _ => rfl⟩, ?_,
    hfield _ fun _ => rfl, hfield _ fun _ => rfl, ?_, ?_, ?_, ?_⟩
  · rw [updateLeafStatus_rootNode, ← hc₁]; rfl
  · rw [updateLeafStatus_counter, ← hc₁]; rfl
  · rw [updateLeafStatus_kvEventQueue, ← hc₁]; rfl
  · rw [updateLeafStatus_nodes, ← hc₁, modify_nodes_self]
  · intro m hm
    rw [updateLeafStatus_nodes, ← hc₁, modify_nodes_ne _ _ hm]
  · intro h
    rw [← hleaves] at h
    exact nodup_updateLeafStatus _ _ h
  · intro h m
    rw [← hleaves] at h ⊢
    rw [mem_updateLeafStatus _ _ h]
    simp [IsEvictableLeaf]

theorem incLockRound_relocked (c : RadixCache σ) (n : NodeId) :
    Relocked n 1 c (c.incLockRound n) := by
  unfold incLockRound
  split
  · exact relocked_of_round c n 1 _ _
  · exact relocked_of_round c n 1 c.evictableSize c.protectedSize

theorem decLockRound_relocked (c : RadixCache σ) (n : NodeId) :
    Relocked n (-1) c (c.decLockRound n) := by
  unfold decLockRound
  split
  · exact relocked_of_round c n (-1) _ _
  · exact relocked_of_round c n (-1) c.evictableSize c.protectedSize

/-- A round moves the units of its node between the two sizes as the reference says. -/
structure Reweighs (n : NodeId) (c c' : RadixCache σ) : Prop where
  evictableSize : c'.evictableSize = c.evictableSize + (c'.unlockedLen n - c.unlockedLen n)
  protectedSize : c'.protectedSize = c.protectedSize + (c'.lockedLen n - c.lockedLen n)

theorem incLockRound_reweighs {c : RadixCache σ} {n : NodeId} (h0 : 0 ≤ (c.nodes n).lockRef) :
    Reweighs n c (c.incLockRound n) := by
  have hre := incLockRound_relocked c n
  constructor
  · rw [unlockedLen, unlockedLen, hre.lockRef_self, if_neg (by omega), incLockRound]
    by_cases h : (c.nodes n).lockRef = 0
    · simp [h]; ring
    · simp [h]
  · rw [lockedLen, lockedLen, hre.lockRef_self, if_pos (by omega), incLockRound]
    by_cases h : (c.nodes n).lockRef = 0
    · simp [h]
    · have hpos : 0 < (c.nodes n).lockRef := by omega
      simp [h, hpos]

theorem decLockRound_reweighs {c : RadixCache σ} {n : NodeId} (h0 : 0 < (c.nodes n).lockRef) :
    Reweighs n c (c.decLockRound n) := by
  have hre := decLockRound_relocked c n
  constructor
  · rw [unlockedLen, unlockedLen, hre.lockRef_self, if_neg h0.ne', decLockRound]
    by_cases h : (c.nodes n).lockRef = 1
    · simp [h]
    · have hne : (c.nodes n).lockRef + -1 ≠ 0 := by omega
      simp [h, hne]
  · rw [lockedLen, lockedLen, hre.lockRef_self, if_pos h0, decLockRound]
    by_cases h : (c.nodes n).lockRef = 1
    · simp [h]; ring
    · have hpos : (c.nodes n).lockRef + -1 > 0 := by omega
      simp only [h, if_false, hpos, if_true]
      simp

section LockWalk

variable {cfg : CacheConfig} {t : RootedTree NodeId} {c c' : RadixCache σ} {n : NodeId} {d : ℤ}

theorem Relocked.filled (h : Relocked n d c c') (hf : Filled t c) : Filled t c' := by
  intro m hm hr
  rw [h.value, h.key]
  exact hf m hm hr

/-- **A round keeps the leaf set right.** -/
theorem Relocked.leaves (h : Relocked n d c c') (hrep : Represents cfg t c)
    (hfill : Filled t c) (hn : n ∈ t.nodes) (hr : n ≠ t.root) (hl : Leaves t c) :
    Leaves t c' := by
  refine ⟨h.leaves_nodup hl.nodup, fun m => ?_, ?_⟩
  · rw [h.mem_leaves hl.nodup, hl.mem_iff,
      isEvictableLeaf_iff (hrep.of_sameLinks h.toSameLinks) (h.filled hfill) hn hr]
    by_cases hmn : m = n
    · subst hmn
      simp [hn, hr]
    · simp [hmn, h.lockRef_other m hmn]
  · rw [h.lockRef_other _ hr.symm]; exact hl.root_lockRef

/-- **A round keeps the sizes right**, as long as the reference stays a count. -/
theorem Relocked.sizes (h : Relocked n d c c') (hw : Reweighs n c c') (hn : n ∈ t.nodes)
    (hr : n ≠ t.root) (h0 : 0 ≤ (c.nodes n).lockRef + d) (hs : Sizes t c) : Sizes t c' := by
  refine ⟨?_, ?_, ?_⟩
  · have := total_change (f := c.unlockedLen) (g := c'.unlockedLen) hn hr
      fun k _ _ hkn => by rw [unlockedLen, h.lockRef_other k hkn, h.key, unlockedLen]
    rw [hw.evictableSize, hs.evictableSize]
    omega
  · have := total_change (f := c.lockedLen) (g := c'.lockedLen) hn hr
      fun k _ _ hkn => by rw [lockedLen, h.lockRef_other k hkn, h.key, lockedLen]
    rw [hw.protectedSize, hs.protectedSize]
    omega
  · intro m hm
    by_cases hmn : m = n
    · rw [hmn, h.lockRef_self]; exact h0
    · rw [h.lockRef_other m hmn]; exact hs.lockRef_nonneg m hm

/-- Every node on the chain of `n` takes or gives back a reference. -/
structure Relocks (t : RootedTree NodeId) (n : NodeId) (d : ℤ) (c c' : RadixCache σ) : Prop
    extends SameLinks c c' where
  kvEventQueue : c'.kvEventQueue = c.kvEventQueue
  value : ∀ m, (c'.nodes m).value = (c.nodes m).value
  hashValue : ∀ m, (c'.nodes m).hashValue = (c.nodes m).hashValue
  lockRef : ∀ m, (c'.nodes m).lockRef = (c.nodes m).lockRef + if m ∈ t.up n then d else 0

theorem Relocks.filled (h : Relocks t n d c c') (hf : Filled t c) : Filled t c' := by
  intro m hm hr
  rw [h.value, h.key]
  exact hf m hm hr

/-- **The lock walks**: from a node of the tree they reach the root, and every node of the chain
went through one round.  The sizes stay right when `ok`, which is what a round needs of the count
it finds for that, holds along the chain. -/
theorem lockLoop_spec {round : RadixCache σ → NodeId → RadixCache σ} {change : TreeNode σ → ℤ}
    (ok : ℤ → Prop) (hround : ∀ (c : RadixCache σ) n, Relocked n d c (round c n))
    (hweigh : ∀ (c : RadixCache σ) n, ok (c.nodes n).lockRef → Reweighs n c (round c n))
    (hok : ∀ x, ok x → 0 ≤ x + d) :
    ∀ (fuel : ℕ) (c : RadixCache σ) (n : NodeId) (delta : ℤ), Represents cfg t c → Filled t c →
      Leaves t c → n ∈ t.nodes → (t.up n).length < fuel →
      ∃ c' delta', lockLoop round change fuel c n delta = some (c', delta') ∧
        Relocks t n d c c' ∧ Leaves t c' ∧
        ((∀ m ∈ t.up n, ok (c.nodes m).lockRef) → Sizes t c → Sizes t c') := by
  intro fuel
  induction fuel with
  | zero => intro c n delta _ _ _ _ hfuel; omega
  | succ fuel ih =>
    intro c n delta hrep hfill hl hn hfuel
    by_cases hr : n = t.root
    · refine ⟨c, delta, ?_, ⟨SameLinks.refl c, rfl, fun _ => rfl, fun _ => rfl, fun m => ?_⟩, hl,
        fun _ hs => hs⟩
      · rw [lockLoop, if_pos (hr.trans hrep.root_eq.symm)]
      · rw [hr]
        simp
    · have hcons := t.up_cons hn hr
      have hrd := hround c n
      have hnot := not_mem_up_parent hn hr
      obtain ⟨c', delta', hloop, hre, hl', hs'⟩ := ih (round c n) (t.parent n)
        (delta + change (c.nodes n)) (hrep.of_sameLinks hrd.toSameLinks) (hrd.filled hfill)
        (hrd.leaves hrep hfill hn hr hl) (t.parent_mem hn hr)
        (by rw [hcons, List.length_cons] at hfuel; omega)
      refine ⟨c', delta', ?_, ⟨hrd.toSameLinks.trans hre.toSameLinks,
        hre.kvEventQueue.trans hrd.kvEventQueue, fun m => (hre.value m).trans (hrd.value m),
        fun m => (hre.hashValue m).trans (hrd.hashValue m), fun m => ?_⟩, hl', fun hup hs => ?_⟩
      · have hpar : ((round c n).nodes n).parent = some (t.parent n) := by
          rw [hrd.parent]; exact hrep.parent_eq hn hr
        rw [lockLoop, if_neg (fun e => hr (e.trans hrep.root_eq))]
        simp [hpar, hloop]
      · rw [hre.lockRef, hcons]
        by_cases hmn : m = n
        · subst hmn
          simp [hnot, hrd.lockRef_self]
        · simp [hmn, hrd.lockRef_other m hmn]
      · have hokn := hup n (mem_up_self hn hr)
        refine hs' (fun m hm => ?_) (hrd.sizes (hweigh c n hokn) hn hr (hok _ hokn) hs)
        rw [hrd.lockRef_other m (fun e => hnot (e ▸ hm))]
        exact hup m (by rw [hcons]; exact List.mem_cons_of_mem _ hm)

/-- **`inc_lock_ref`** never fails at a node of the tree. -/
theorem incLockRef_spec (hrep : Represents cfg t c) (hfill : Filled t c) (hl : Leaves t c)
    (hn : n ∈ t.nodes) :
    ∃ c' delta, c.incLockRef n = some (c', delta) ∧ Relocks t n 1 c c' ∧ Leaves t c' ∧
      (Sizes t c → Sizes t c') := by
  obtain ⟨c', delta, heq, hre, hl', hs⟩ := lockLoop_spec (fun x => 0 ≤ x)
    incLockRound_relocked (fun c n h => incLockRound_reweighs h) (fun x hx => by omega)
    _ c n 0 hrep hfill hl hn ((hrep.up_length_lt_counter hn).trans (Nat.lt_succ_self _))
  refine ⟨c', delta, heq, hre, hl', fun hsz => hs ?_ hsz⟩
  exact fun m hm => hsz.lockRef_nonneg m (mem_of_mem_up hn hm).1

/-- **`dec_lock_ref`** never fails at a node of the tree either; the sizes need a chain that is
locked. -/
theorem decLockRef_spec (hrep : Represents cfg t c) (hfill : Filled t c) (hl : Leaves t c)
    (hn : n ∈ t.nodes) :
    ∃ c' delta, c.decLockRef n = some (c', delta) ∧ Relocks t n (-1) c c' ∧ Leaves t c' ∧
      ((∀ m ∈ t.up n, 0 < (c.nodes m).lockRef) → Sizes t c → Sizes t c') :=
  lockLoop_spec (fun x => 0 < x) decLockRound_relocked
    (fun c n h => decLockRound_reweighs h) (fun x hx => by omega) _ c n 0 hrep hfill hl hn
    ((hrep.up_length_lt_counter hn).trans (Nat.lt_succ_self _))

end LockWalk

end RadixCache

end Sglang
