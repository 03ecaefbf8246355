/-
# Growing and shrinking the tree by a leaf

The two ways in which the CONTENTS of a `RadixCache` change are the end of an insertion
(`addLeaf`) and one round of an eviction (`_delete_leaf` followed by `_record_remove_event`).
`Attaches` and `Detaches` say everything such a step does: to the links (through `IsAttach` and
`IsDetach` of the layout), to the slots, the locks, the hashes, the two counters, the set of
evictable leaves and the event queue.  Every invariant of the cache is derived from these two
relations, from `Splits` and from the locks.
-/
import Sglang.MemCache.PageHash
import Sglang.MemCache.Walk

namespace Sglang

open Lib Option

namespace RadixCache

variable {σ : Type}

/-! ## 1. Hashes and events of one node -/

/-- The digest the chain of a child of `p` starts from. -/
def priorHash (c : RadixCache σ) (p : NodeId) : Option Digest := do
  let hs ← (c.nodes p).hashValue
  if (c.nodes p).key.len > 0 then hs.getLast? else none

/-- The `parent_block_hash` of the first page of a child of `p`. -/
def priorBlock (c : RadixCache σ) (p : NodeId) : Option ℤ :=
  if p = c.rootNode then none
  else (c.nodes p).hashValue.bind fun hs => hs.getLast?.map hashStrToInt64

section Events

variable {cfg : CacheConfig} {c : RadixCache σ} {n p : NodeId}

theorem computeNodeHashValues_eq (hp : (c.nodes n).parent = some p)
    (hf : (c.nodes n).key.Fits cfg.isEagle cfg.pageSize) :
    c.computeNodeHashValues cfg n
      = chain (pageHash cfg.sha256) (c.priorHash p) (untagged (c.label cfg n)) := by
  rw [computeNodeHashValues, hp, label, RadixKey.untagged_label,
    ← hashPages_eq cfg.pageSize_pos hf.aligned]
  rfl

/-- **`_record_store_event` on a fresh node** computes its chain and announces its pages. -/
theorem recordStoreEvent_spec (hon : cfg.enableKvCacheEvents = true)
    (hp : (c.nodes n).parent = some p) (hpn : p ≠ n)
    (hf : (c.nodes n).key.Fits cfg.isEagle cfg.pageSize) (hnew : (c.nodes n).hashValue = none)
    (medium : StorageMedium) (hs : List Digest)
    (hhs : chain (pageHash cfg.sha256) (c.priorHash p) (untagged (c.label cfg n)) = some hs) :
    c.recordStoreEvent cfg n medium =
      some { c.modify n fun x => { x with hashValue := some hs } with
        kvEventQueue := c.kvEventQueue ++
          storedBlocks medium (c.priorBlock p) (untagged (c.label cfg n)) hs } := by
  have hlen := length_chain hhs
  have hens : c.ensureHash cfg n = some (c.modify n fun x => { x with hashValue := some hs }) := by
    rw [ensureHash, hnew]
    simp only [computeNodeHashValues_eq hp hf, hhs, bind_eq_bind, bind_some]
    rfl
  have hblock : (c.modify n fun x => { x with hashValue := some hs }).parentBlockHash n
      = c.priorBlock p := by
    rw [parentBlockHash, modify_nodes_self, hp, priorBlock]
    simp only [bind_eq_bind, bind_some, modify_rootNode, modify_nodes_ne c _ hpn]
    split
    · rfl
    · cases (c.nodes p).hashValue with
      | none => rfl
      | some ks => cases h : ks.getLast? <;> simp [h]
  rw [label, RadixKey.untagged_label] at hlen ⊢
  have hst := storeEvents_eq cfg.pageSize_pos hf.aligned medium hlen (c.priorBlock p)
  rw [recordStoreEvent, if_pos hon]
  simp only [hens, bind_eq_bind, bind_some, modify_nodes_self, hblock, hst]
  rfl

/-- **`_record_remove_event` on a hashed node** takes its pages back. -/
theorem recordRemoveEvent_spec (hon : cfg.enableKvCacheEvents = true)
    (hf : (c.nodes n).key.Fits cfg.isEagle cfg.pageSize) {hs : List Digest}
    (hhs : (c.nodes n).hashValue = some hs) (hlen : hs.length = (c.label cfg n).length)
    (medium : StorageMedium) :
    c.recordRemoveEvent cfg n medium = some { c with kvEventQueue := c.kvEventQueue ++
        (hs.map fun h => .blockRemoved [hashStrToInt64 h] medium) } := by
  have hlen' : hs.length = (chunks cfg.pageSize (c.nodes n).key.iter).length := by
    rw [hlen, label, RadixKey.label, List.length_map]
  have hrm := removeEvents_eq cfg.pageSize_pos hf.aligned medium hlen'
  have hens : c.ensureHash cfg n = some c := by rw [ensureHash, hhs]
  rw [recordRemoveEvent, if_pos hon]
  simp only [hens, bind_eq_bind, bind_some, hhs, hrm]
  rfl

end Events

/-! ## 2. A new leaf -/

/-- A leaf `v` with key `key` and slots `value` hangs under `p`. -/
structure Attaches (cfg : CacheConfig) (t : RootedTree NodeId) (c : RadixCache σ) (p v : NodeId)
    (key : RadixKey) (value : List σ) (c' : RadixCache σ) : Prop
    extends IsAttach cfg t c p v key c' where
  evictableSize : c'.evictableSize = c.evictableSize + key.len
  protectedSize : c'.protectedSize = c.protectedSize
  value_new : (c'.nodes v).value = some value
  value_old : ∀ m ∈ t.nodes, (c'.nodes m).value = (c.nodes m).value
  lockRef_new : (c'.nodes v).lockRef = 0
  lockRef_old : ∀ m ∈ t.nodes, (c'.nodes m).lockRef = (c.nodes m).lockRef
  hashValue_old : ∀ m ∈ t.nodes, (c'.nodes m).hashValue = (c.nodes m).hashValue
  leaves_nodup : c.evictableLeaves.Nodup → c'.evictableLeaves.Nodup
  mem_leaves : c.evictableLeaves.Nodup → ∀ m, m ∈ c'.evictableLeaves ↔
    m = v ∨ (m ≠ v ∧ m ≠ p ∧ m ∈ c.evictableLeaves)
  stored : cfg.enableKvCacheEvents = true → ∃ hs, (c'.nodes v).hashValue = some hs ∧
    chain (pageHash cfg.sha256) (c.priorHash p) (untagged (key.label cfg.pageSize)) = some hs ∧
    c'.kvEventQueue = c.kvEventQueue ++
      storedBlocks .gpu (c.priorBlock p) (untagged (key.label cfg.pageSize)) hs

section AddLeaf

variable {cfg : CacheConfig} {t : RootedTree NodeId} {c : RadixCache σ} {p : NodeId}
  {key : RadixKey} {value : List σ} {ck : ChildKey}

/-- The fields of the new object and of the old ones after `linkLeaf`. -/
theorem linkLeaf_spec (hrep : Represents cfg t c) (hp : p ∈ t.nodes) (priority : ℤ)
    (chunked : Bool) (c₁ : RadixCache σ)
    (hc₁ : (c.linkLeaf cfg p key value ck priority chunked).2 = c₁) :
    c₁.rootNode = c.rootNode ∧ c₁.counter = c.counter + 1 ∧
    c₁.evictableSize = c.evictableSize + key.len ∧ c₁.protectedSize = c.protectedSize ∧
    c₁.evictableLeaves = c.evictableLeaves ∧ c₁.kvEventQueue = c.kvEventQueue ∧
    (c₁.nodes c.counter).parent = some p ∧ (c₁.nodes c.counter).key = key ∧
    (c₁.nodes c.counter).value = some value ∧ (c₁.nodes c.counter).children = ∅ ∧
    (c₁.nodes c.counter).lockRef = 0 ∧ (c₁.nodes c.counter).hashValue = none ∧
    (c₁.nodes p).children = (c.nodes p).children.insert ck c.counter ∧
    (∀ m ∈ t.nodes, (c₁.nodes m).parent = (c.nodes m).parent ∧
      (c₁.nodes m).key = (c.nodes m).key ∧ (c₁.nodes m).value = (c.nodes m).value ∧
      (c₁.nodes m).lockRef = (c.nodes m).lockRef ∧
      (c₁.nodes m).hashValue = (c.nodes m).hashValue) ∧
    ∀ m ∈ t.nodes, m ≠ p → (c₁.nodes m).children = (c.nodes m).children := by
  subst hc₁
  have hpv : p ≠ c.counter := ne_of_mem_of_not_mem hp hrep.counter_not_mem
  have hold : ∀ m ∈ t.nodes, m ≠ c.counter :=
    fun m hm => ne_of_mem_of_not_mem hm hrep.counter_not_mem
  cases chunked
  all_goals
    refine ⟨rfl, rfl, rfl, rfl, rfl, rfl, ?_, ?_, ?_, ?_, ?_, ?_, ?_, ?_, ?_⟩
    case refine_8 =>
      intro m hm
      by_cases hmp : m = p
      · subst hmp; simp [linkLeaf, newTreeNode, incHitCount, modify, hpv]
      · simp [linkLeaf, newTreeNode, incHitCount, modify, hmp, hold m hm]
    case refine_9 =>
      intro m hm hmp
      simp [linkLeaf, newTreeNode, incHitCount, modify, hmp, hold m hm]
    all_goals simp [linkLeaf, newTreeNode, incHitCount, modify, hpv, hpv.symm, TreeNode.init]

/-- **The end of an insertion attaches a leaf.** -/
theorem addLeaf_spec (value : List σ) (hrep : Represents cfg t c) (hp : p ∈ t.nodes)
    (hkey : key.Fits cfg.isEagle cfg.pageSize) (hne : key.label cfg.pageSize ≠ [])
    (hstuck : Stuck cfg t c p (key.label cfg.pageSize))
    (hck : key.childKey cfg.pageSize = some ck)
    (hhash : cfg.enableKvCacheEvents = true → HashablePages (key.label cfg.pageSize))
    (priority : ℤ) (chunked : Bool) :
    ∃ c', c.addLeaf cfg p key value ck priority chunked = some c' ∧
      Attaches cfg t c p c.counter key value c' := by
  have hpv : p ≠ c.counter := ne_of_mem_of_not_mem hp hrep.counter_not_mem
  have hold : ∀ m ∈ t.nodes, m ≠ c.counter :=
    fun m hm => ne_of_mem_of_not_mem hm hrep.counter_not_mem
  generalize hc₁ : (c.linkLeaf cfg p key value ck priority chunked).2 = c₁
  have heq : c.addLeaf cfg p key value ck priority chunked =
      ((c₁.updateLeafStatus p).updateLeafStatus c.counter).recordStoreEvent cfg c.counter .gpu := by
    rw [← hc₁]; rfl
  obtain ⟨hroot, hcounter, hev, hprot, hleaves, hqueue, hvp, hvk, hvv, hvc, hvl, hvh, hpc, hsame,
    hchild⟩ := linkLeaf_spec hrep hp priority chunked c₁ hc₁
  have hpleaf : ¬ c₁.IsEvictableLeaf p := by
    rintro ⟨-, -, h⟩
    have := h c.counter ((Dict.mem_values_iff _ _).mpr ⟨ck, by rw [hpc, AList.lookup_insert]⟩)
    rw [TreeNode.evicted, hvv] at this
    cases this
  have hvleaf : (c₁.updateLeafStatus p).IsEvictableLeaf c.counter := by
    refine ⟨by rw [updateLeafStatus_nodes, TreeNode.evicted, hvv]; rfl,
      by rw [updateLeafStatus_nodes]; omega, ?_⟩
    rw [updateLeafStatus_nodes, hvc]
    intro k hk
    cases hk
  have hnodup : c.evictableLeaves.Nodup →
      (((c₁.updateLeafStatus p).updateLeafStatus c.counter).evictableLeaves.Nodup ∧
      ∀ m, m ∈ ((c₁.updateLeafStatus p).updateLeafStatus c.counter).evictableLeaves ↔
        m = c.counter ∨ (m ≠ c.counter ∧ m ≠ p ∧ m ∈ c.evictableLeaves)) := by
    intro hnd
    rw [← hleaves] at hnd ⊢
    refine ⟨nodup_updateLeafStatus _ _ (nodup_updateLeafStatus _ _ hnd), fun m => ?_⟩
    rw [mem_updateLeafStatus _ _ (nodup_updateLeafStatus _ _ hnd), mem_updateLeafStatus _ _ hnd]
    have hfalse : ∀ q : Prop, (q ∧ c₁.IsEvictableLeaf p) ↔ False := fun q =>
      ⟨fun h => hpleaf h.2, False.elim⟩
    rw [hfalse, or_false, and_iff_left hvleaf, or_comm]
  generalize hc₂ : (c₁.updateLeafStatus p).updateLeafStatus c.counter = c₂ at heq hnodup
  have hnodes : c₂.nodes = c₁.nodes := by rw [← hc₂]; simp
  have hat : ∀ c' : RadixCache σ, c'.rootNode = c₁.rootNode → c'.counter = c₁.counter →
      (∀ m, (c'.nodes m).parent = (c₁.nodes m).parent) →
      (∀ m, (c'.nodes m).key = (c₁.nodes m).key) →
      (∀ m, (c'.nodes m).children = (c₁.nodes m).children) →
      IsAttach cfg t c p c.counter key c' := by
    intro c' h1 h2 h3 h4 h5
    refine ⟨hp, hrep.counter_not_mem, hkey, hne, hstuck, h1.trans hroot, h2.trans hcounter,
      Nat.lt_succ_self _, (h3 _).trans hvp, ?_, (h4 _).trans hvk, ?_, (h5 _).trans hvc,
      ⟨ck, hck, (h5 _).trans hpc⟩, ?_⟩
    · exact fun m hm => (h3 m).trans (hsame m hm).1
    · exact fun m hm => (h4 m).trans (hsame m hm).2.1
    · exact fun m hm hmp => (h5 m).trans (hchild m hm hmp)
  cases hon : cfg.enableKvCacheEvents with
  | false =>
    refine ⟨c₂, by rw [heq, recordStoreEvent, hon]; rfl, ⟨?_, ?_, ?_, ?_, ?_, ?_, ?_, ?_, ?_, ?_,
      ?_⟩⟩
    · exact hat c₂ (by rw [← hc₂]; simp) (by rw [← hc₂]; simp) (by simp [hnodes])
        (by simp [hnodes]) (by simp [hnodes])
    · rw [← hev, ← hc₂]; simp
    · rw [← hprot, ← hc₂]; simp
    · rw [hnodes, hvv]
    · intro m hm; rw [hnodes]; exact (hsame m hm).2.2.1
    · rw [hnodes, hvl]
    · intro m hm; rw [hnodes]; exact (hsame m hm).2.2.2.1
    · intro m hm; rw [hnodes]; exact (hsame m hm).2.2.2.2
    · exact fun hnd => (hnodup hnd).1
    · exact fun hnd => (hnodup hnd).2
    · intro h; rw [hon] at h; cases h
  | true =>
    have hlab : c₂.label cfg c.counter = key.label cfg.pageSize := by rw [label, hnodes, hvk]
    have hprior : c₂.priorHash p = c.priorHash p := by
      rw [priorHash, priorHash, hnodes, (hsame p hp).2.1, (hsame p hp).2.2.2.2]
    have hblock : c₂.priorBlock p = c.priorBlock p := by
      have hr₂ : c₂.rootNode = c.rootNode := by rw [← hroot, ← hc₂]; simp
      rw [priorBlock, priorBlock, hnodes, (hsame p hp).2.2.2.2, hr₂]
    obtain ⟨hs, hhs⟩ := (hhash hon).exists_chain cfg.sha256 (c.priorHash p)
    have hrec := recordStoreEvent_spec (c := c₂) hon (by rw [hnodes]; exact hvp) hpv
      (by rw [hnodes, hvk]; exact hkey) (by rw [hnodes]; exact hvh) .gpu
      hs (by rw [hlab, hprior]; exact hhs)
    rw [hlab, hblock] at hrec
    have hfield : ∀ {τ : Type} (g : TreeNode σ → τ),
        (∀ x : TreeNode σ, g { x with hashValue := some hs } = g x) → ∀ m,
        g ((c₂.modify c.counter fun x => { x with hashValue := some hs }).nodes m)
          = g (c₁.nodes m) := by
      intro τ g hg m
      rw [modify_field c₂ c.counter _ g hg, hnodes]
    have hself : ((c₂.modify c.counter fun x => { x with hashValue := some hs }).nodes
        c.counter).hashValue = some hs := by rw [modify_nodes_self]
    have hothers : ∀ m ∈ t.nodes, ((c₂.modify c.counter fun x =>
        { x with hashValue := some hs }).nodes m).hashValue = (c.nodes m).hashValue := by
      intro m hm
      rw [modify_nodes_ne _ _ (hold m hm), hnodes]
      exact (hsame m hm).2.2.2.2
    refine ⟨_, heq.trans hrec, ⟨?_, ?_, ?_, ?_, ?_, ?_, ?_, ?_, ?_, ?_, ?_⟩⟩
    · exact hat _ (by rw [← hc₂]; simp) (by rw [← hc₂]; simp) (hfield _ fun _ => rfl)
        (hfield _ fun _ => rfl) (hfield _ fun _ => rfl)
    · rw [← hev, ← hc₂]; simp
    · rw [← hprot, ← hc₂]; simp
    · exact (hfield (·.value) (fun _ => rfl) _).trans hvv
    · exact fun m hm => (hfield (·.value) (fun _ => rfl) m).trans (hsame m hm).2.2.1
    · exact (hfield (·.lockRef) (fun _ => rfl) _).trans hvl
    · exact fun m hm => (hfield (·.lockRef) (fun _ => rfl) m).trans (hsame m hm).2.2.2.1
    · exact hothers
    · exact fun hnd => (hnodup hnd).1
    · exact fun hnd => (hnodup hnd).2
    · refine fun _ => ⟨hs, ?_, hhs, ?_⟩
      · exact hself
      · show c₂.kvEventQueue ++ _ = _
        rw [← hqueue, ← hc₂]; simp

end AddLeaf

/-! ## 3. A leaf less -/

/-- The childless node `n` leaves the tree. -/
structure Detaches (cfg : CacheConfig) (t : RootedTree NodeId) (c : RadixCache σ) (n : NodeId)
    (c' : RadixCache σ) : Prop extends IsDetach cfg t c n c' where
  evictableSize : c'.evictableSize = c.evictableSize - (c.nodes n).key.len
  protectedSize : c'.protectedSize = c.protectedSize
  value : ∀ m, (c'.nodes m).value = (c.nodes m).value
  lockRef : ∀ m, (c'.nodes m).lockRef = (c.nodes m).lockRef
  hashValue : ∀ m, (c'.nodes m).hashValue = (c.nodes m).hashValue
  leaves_nodup : c.evictableLeaves.Nodup → c'.evictableLeaves.Nodup
  mem_leaves : c.evictableLeaves.Nodup → ∀ m, m ∈ c'.evictableLeaves ↔
    (m ≠ t.parent n ∧ m ≠ n ∧ m ∈ c.evictableLeaves) ∨
      (m = t.parent n ∧ c'.IsEvictableLeaf (t.parent n))
  removed : cfg.enableKvCacheEvents = true → ∀ hs, (c.nodes n).hashValue = some hs →
    c'.kvEventQueue = c.kvEventQueue ++ hs.map fun h => .blockRemoved [hashStrToInt64 h] .gpu

/-- A node that holds its hashes, one a page. -/
def HasHashes (cfg : CacheConfig) (c : RadixCache σ) (n : NodeId) : Prop :=
  ∃ hs, (c.nodes n).hashValue = some hs ∧ hs.length = (c.label cfg n).length

section RemoveLeaf

variable {cfg : CacheConfig} {t : RootedTree NodeId} {c : RadixCache σ} {n : NodeId}

/-- **One round of an eviction detaches a leaf**: `_delete_leaf` and then the event.  The second
state differs from the first only in the event queue, which the round does not read. -/
theorem removeLeaf_spec (hrep : Represents cfg t c) (hn : n ∈ t.nodes) (hr : n ≠ t.root)
    (hleaf : ∀ k, ¬ t.Child n k)
    (hhash : cfg.enableKvCacheEvents = true → c.HasHashes cfg n) :
    ∃ c₁ c', c.deleteLeaf cfg n = some c₁ ∧ c₁.recordRemoveEvent cfg n .gpu = some c' ∧
      c₁.nodes = c'.nodes ∧ Detaches cfg t c n c' := by
  have hpar := hrep.parent_eq hn hr
  have hpn : t.parent n ≠ n := RootedTree.parent_ne hn hr
  have hf := hrep.fits hn hr
  obtain ⟨ck, hck, hl⟩ := hrep.lookup_of_child ⟨hn, hr, rfl⟩
  generalize hc₀ : c.modify (t.parent n) (fun x => { x with children := x.children.erase ck }) = c₀
  generalize hc₁ : ({ c₀ with
      evictableSize := c.evictableSize - (c.nodes n).key.len
      evictableLeaves := c.evictableLeaves.erase n } : RadixCache σ).updateLeafStatus (t.parent n)
    = c₁
  have hnn : (c₀.nodes n) = c.nodes n := by rw [← hc₀, modify_nodes_ne _ _ hpn.symm]
  have hdel : c.deleteLeaf cfg n = some c₁ := by
    simp only [deleteLeaf, hck, hpar, hl, if_true, hc₀, hnn, ← hc₁, bind_eq_bind, bind_some]
    rw [← hc₀]
    rfl
  have hnodes : c₁.nodes = c₀.nodes := by rw [← hc₁]; simp
  have hfield : ∀ {τ : Type} (g : TreeNode σ → τ),
      (∀ x : TreeNode σ, g { x with children := x.children.erase ck } = g x) → ∀ m,
      g (c₁.nodes m) = g (c.nodes m) := by
    intro τ g hg m
    rw [hnodes, ← hc₀, modify_field c (t.parent n) _ g hg]
  have hroot : c₁.rootNode = c.rootNode := by rw [← hc₁, ← hc₀]; simp
  have hcounter : c₁.counter = c.counter := by rw [← hc₁, ← hc₀]; simp
  have hsize : c₁.evictableSize = c.evictableSize - (c.nodes n).key.len := by rw [← hc₁]; simp
  have hprot : c₁.protectedSize = c.protectedSize := by rw [← hc₁, ← hc₀]; simp
  have hqueue : c₁.kvEventQueue = c.kvEventQueue := by rw [← hc₁, ← hc₀]; simp
  have hdet : ∀ c' : RadixCache σ, c'.rootNode = c₁.rootNode → c'.counter = c₁.counter →
      c'.nodes = c₁.nodes → IsDetach cfg t c n c' := by
    intro c' h1 h2 h3
    refine ⟨hn, hr, hleaf, h1.trans hroot, h2.trans hcounter, ?_, ?_, ⟨ck, hck, ?_⟩, ?_⟩
    · rw [h3]; exact hfield (·.parent) fun _ => rfl
    · rw [h3]; exact hfield (·.key) fun _ => rfl
    · rw [h3, hnodes, ← hc₀, modify_nodes_self]
    · intro m hm; rw [h3, hnodes, ← hc₀, modify_nodes_ne _ _ hm]
  have hleaves : c.evictableLeaves.Nodup → c₁.evictableLeaves.Nodup ∧
      ∀ m, m ∈ c₁.evictableLeaves ↔ (m ≠ t.parent n ∧ m ≠ n ∧ m ∈ c.evictableLeaves) ∨
        (m = t.parent n ∧ c₁.IsEvictableLeaf (t.parent n)) := by
    intro hnd
    rw [← hc₁]
    refine ⟨nodup_updateLeafStatus _ _ (hnd.erase n), fun m => ?_⟩
    rw [mem_updateLeafStatus _ _ (hnd.erase n), hnd.mem_erase_iff]
    simp [IsEvictableLeaf]
  cases hon : cfg.enableKvCacheEvents with
  | false =>
    refine ⟨c₁, c₁, hdel, by rw [recordRemoveEvent, hon]; rfl, rfl, hdet c₁ rfl rfl rfl, hsize,
      hprot, hfield _ fun _ => rfl, hfield _ fun _ => rfl, hfield _ fun _ => rfl,
      fun hnd => (hleaves hnd).1, fun hnd => (hleaves hnd).2, ?_⟩
    intro h; rw [hon] at h; cases h
  | true =>
    obtain ⟨hs, hhs, hlen⟩ := hhash hon
    have hkey : (c₁.nodes n).key = (c.nodes n).key := hfield (·.key) (fun _ => rfl) n
    have hrec := recordRemoveEvent_spec (c := c₁) (n := n) hon (by rw [hkey]; exact hf)
      ((hfield (·.hashValue) (fun _ => rfl) n).trans hhs) (by rw [label, hkey]; exact hlen) .gpu
    refine ⟨c₁, _, hdel, hrec, rfl, hdet _ rfl rfl rfl, hsize, hprot, hfield _ fun _ => rfl,
      hfield _ fun _ => rfl, hfield _ fun _ => rfl, fun hnd => (hleaves hnd).1,
      fun hnd => (hleaves hnd).2, ?_⟩
    intro _ ks hks
    rw [hhs, Option.some.injEq] at hks
    subst hks
    exact congrArg (· ++ _) hqueue

end RemoveLeaf

end RadixCache

end Sglang
