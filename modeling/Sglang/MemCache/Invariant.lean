/-
# The invariant of `RadixCache` and what each method does to it

`Base cfg t c` is what every method relies on: the heap lays out the tree `t`, every node is
filled, the leaf set is right and, with events on, the hashes along every path are the chain of
the pages along it.  `Inv cfg t locks c` adds what holds when locks are taken and given back in
balance: the sizes are right, and the `lock_ref` of a node is the number of holders in `locks` at
or below it.  The tree and the list of lock holders are ghosts.

For each public method there is one theorem that says that in a state with the base invariant it
returns, and what it returns and leaves behind: `matchPrefix_spec`, `insert_spec`,
`incLockRef_base`, `decLockRef_base`, `evict_spec`, `reset_inv`.
-/
import Sglang.MemCache.Accounting

namespace Sglang

open Lib List Option Finset RootedTree RadixKey

namespace RadixCache

variable {σ : Type}

/-! ## 1. Hashes along a path -/

/-- The hashes of a node. -/
def hashes (c : RadixCache σ) (n : NodeId) : List Digest := (c.nodes n).hashValue.getD []

/-- **Every path is hashed as one chain.** -/
structure Hashed (cfg : CacheConfig) (t : RootedTree NodeId) (c : RadixCache σ) : Prop where
  root_key : (c.nodes t.root).key.len = 0
  some_hash : ∀ n ∈ t.nodes, (c.nodes n).hashValue = some (c.hashes n)
  chain_word : ∀ n ∈ t.nodes, chain (pageHash cfg.sha256) none
    (untagged (t.word (c.label cfg) n)) = some (t.word c.hashes n)

section Hashed

variable {cfg : CacheConfig} {t : RootedTree NodeId} {c c' : RadixCache σ} {n p v : NodeId}
  {j : ℕ} {key : RadixKey} {value : List σ} {d : ℤ}

theorem untagged_append (w w' : List RadixKey.TaggedPage) :
    untagged (w ++ w') = untagged w ++ untagged w' := map_append

/-- One hash a page. -/
theorem Hashed.hasHashes (h : Hashed cfg t c) (hn : n ∈ t.nodes) (hr : n ≠ t.root) :
    c.HasHashes cfg n := by
  refine ⟨c.hashes n, h.some_hash n hn, ?_⟩
  have h1 := length_chain (h.chain_word n hn)
  have h2 := length_chain (h.chain_word _ (t.parent_mem hn hr))
  rw [word_cons hn hr, word_cons hn hr, untagged_append] at h1
  simp only [length_append] at h1
  have h3 : (untagged (c.label cfg n)).length = (c.label cfg n).length := length_map _
  omega

/-- The chain of a new child goes on where the path of its parent ends. -/
theorem Hashed.priorHash_eq (h : Hashed cfg t c) (hrep : Represents cfg t c) (hp : p ∈ t.nodes) :
    c.priorHash p = lastOr none (t.word c.hashes p) := by
  rw [priorHash, h.some_hash p hp]
  by_cases hr : p = t.root
  · subst hr
    simp [h.root_key]
  · obtain ⟨hs, hhs, hlen⟩ := h.hasHashes hp hr
    have hne := hrep.label_ne hp hr
    have hpos : (c.nodes p).key.len > 0 := by
      rw [gt_iff_lt, Nat.pos_iff_ne_zero, Ne, ← (hrep.fits hp hr).label_eq_nil]
      exact hne
    have hhn : c.hashes p = hs := by rw [hashes, hhs]; rfl
    have hlast : hs ≠ [] := by
      intro e
      rw [e] at hlen
      exact hne (eq_nil_of_length_eq_zero hlen.symm)
    rw [word_cons hp hr, lastOr_append, hhn]
    simp only [bind_eq_bind, bind_some, hpos, if_true, lastOr]
    rw [getLast?_eq_some_getLast hlast]
    rfl

theorem Hashed.priorBlock_eq (h : Hashed cfg t c) (hrep : Represents cfg t c) (hp : p ∈ t.nodes) :
    c.priorBlock p = (lastOr none (t.word c.hashes p)).map hashStrToInt64 := by
  rw [← h.priorHash_eq hrep hp, priorBlock, priorHash, hrep.root_eq]
  by_cases hr : p = t.root
  · subst hr
    simp [h.root_key]
  · have hpos : (c.nodes p).key.len > 0 := by
      rw [gt_iff_lt, Nat.pos_iff_ne_zero, Ne, ← (hrep.fits hp hr).label_eq_nil]
      exact hrep.label_ne hp hr
    simp [hr, hpos]

theorem Hashed.of_sameLinks (h : Hashed cfg t c) (hs : SameLinks c c')
    (hv : ∀ m, (c'.nodes m).hashValue = (c.nodes m).hashValue) : Hashed cfg t c' := by
  have hh : c'.hashes = c.hashes := by funext m; rw [hashes, hv, hashes]
  refine ⟨by rw [hs.key]; exact h.root_key, fun m hm => ?_, fun m hm => ?_⟩
  · rw [hv, hh]; exact h.some_hash m hm
  · rw [hs.label, hh]; exact h.chain_word m hm

/-- **A split cuts the chain where it cuts the pages.** -/
theorem Splits.hashed (h : Splits cfg t c n v j c') (hh : Hashed cfg t c) :
    Hashed cfg h.tree c' := by
  have hnew : c'.hashes v = (c.hashes n).take j := by
    rw [hashes, h.hashValue_new, hh.some_hash n h.mem]; rfl
  have hself : c'.hashes n = (c.hashes n).drop j := by
    rw [hashes, h.hashValue_self, hh.some_hash n h.mem]; rfl
  have hold : ∀ m ∈ t.nodes, m ≠ n → c'.hashes m = c.hashes m := by
    intro m hm hmn
    rw [hashes, h.hashValue_old m hm hmn, hashes]
  have hwords : (∀ m ∈ t.nodes, h.tree.word c'.hashes m = t.word c.hashes m) ∧
      h.tree.word c'.hashes v = t.word c.hashes (t.parent n) ++ c'.hashes v :=
    word_subdivide hold (by rw [hnew, hself, take_append_drop])
  refine ⟨?_, ?_, ?_⟩
  · rw [h.tree_root, h.key_old _ t.root_mem h.ne_root.symm]; exact hh.root_key
  · intro m hm
    rcases mem_insert.mp hm with rfl | hm
    · rw [h.hashValue_new, hh.some_hash n h.mem, hnew]; rfl
    · by_cases hmn : m = n
      · subst hmn
        rw [h.hashValue_self, hh.some_hash m h.mem, hself]; rfl
      · rw [h.hashValue_old m hm hmn, hold m hm hmn]; exact hh.some_hash m hm
  · intro m hm
    rcases mem_insert.mp hm with rfl | hm
    · have hp := t.parent_mem h.mem h.ne_root
      have hcut := chain_take (hh.chain_word n h.mem) (j + (t.word (c.label cfg) (t.parent n)).length)
      have hlen := length_chain (hh.chain_word _ hp)
      rw [untagged, length_map] at hlen
      rw [word_cons h.mem h.ne_root, word_cons h.mem h.ne_root, untagged,
        ← map_take, Nat.add_comm, take_length_add_append, ← hlen,
        take_length_add_append] at hcut
      rw [h.word_new, hwords.2, hnew]
      exact hcut
    · rw [h.word_old hm, hwords.1 m hm]
      exact hh.chain_word m hm

theorem Attaches.hashed (h : Attaches cfg t c p v key value c') (hrep : Represents cfg t c)
    (hon : cfg.enableKvCacheEvents = true) (hh : Hashed cfg t c) : Hashed cfg h.tree c' := by
  obtain ⟨hs, hhs, hchain, -⟩ := h.stored hon
  have hnew : c'.hashes v = hs := by rw [hashes, hhs]; rfl
  have hold : ∀ m ∈ t.nodes, c'.hashes m = c.hashes m := by
    intro m hm
    rw [hashes, h.hashValue_old m hm, hashes]
  refine ⟨?_, ?_, ?_⟩
  · rw [h.tree_root, h.key_old _ t.root_mem]; exact hh.root_key
  · intro m hm
    rcases mem_insert.mp hm with rfl | hm
    · rw [hhs, hnew]
    · rw [h.hashValue_old m hm, hold m hm]; exact hh.some_hash m hm
  · intro m hm
    rcases mem_insert.mp hm with rfl | hm
    · rw [hh.priorHash_eq hrep h.mem] at hchain
      rw [h.word_new, IsAttach.tree, word_attach_new hold, untagged_append,
        chain_append (hh.chain_word p h.mem), hchain, hnew]
      rfl
    · rw [h.word_old hm, IsAttach.tree, word_attach_old hm hold]
      exact hh.chain_word m hm

theorem Detaches.hashed (h : Detaches cfg t c n c') (hh : Hashed cfg t c) :
    Hashed cfg h.tree c' := by
  have hsame : c'.hashes = c.hashes := by funext m; rw [hashes, h.hashValue, hashes]
  refine ⟨by rw [h.key]; exact hh.root_key, fun m hm => ?_, fun m hm => ?_⟩
  · rw [h.hashValue, hsame]; exact hh.some_hash m (Finset.mem_of_mem_erase hm)
  · rw [h.word_eq, hsame]
    exact hh.chain_word m (Finset.mem_of_mem_erase hm)

end Hashed

/-! ## 2. The invariant -/

/-- **What every method relies on.** -/
structure Base (cfg : CacheConfig) (t : RootedTree NodeId) (c : RadixCache σ) : Prop where
  represents : Represents cfg t c
  filled : Filled t c
  leaves : Leaves t c
  root_value : (c.nodes t.root).value = some []
  root_lockRef : (c.nodes t.root).lockRef = 1
  hashed : cfg.enableKvCacheEvents = true → Hashed cfg t c

/-- **The invariant of the class** under a balanced use of the locks. -/
structure Inv (cfg : CacheConfig) (t : RootedTree NodeId) (locks : List NodeId)
    (c : RadixCache σ) : Prop extends Base cfg t c where
  sizes : Sizes t c
  locks_mem : ∀ m ∈ locks, m ∈ t.nodes
  lockRef_eq : ∀ n ∈ t.nodes, n ≠ t.root → (c.nodes n).lockRef = t.below locks n

section Inv

variable {cfg : CacheConfig} {t t' : RootedTree NodeId} {c c' : RadixCache σ} {n p v : NodeId}
  {j : ℕ} {key : RadixKey} {value : List σ} {locks : List NodeId}

theorem Agree.base (h : Agree c c') (hb : Base cfg t c) : Base cfg t c' where
  represents := hb.represents.of_sameLinks h.toSameLinks
  filled := h.filled hb.filled
  leaves := h.leaves hb.leaves
  root_value := by rw [h.value]; exact hb.root_value
  root_lockRef := by rw [h.lockRef]; exact hb.root_lockRef
  hashed := fun hon => (hb.hashed hon).of_sameLinks h.toSameLinks h.hashValue

theorem Agree.inv (h : Agree c c') (hi : Inv cfg t locks c) : Inv cfg t locks c' where
  toBase := h.base hi.toBase
  sizes := h.sizes hi.sizes
  locks_mem := hi.locks_mem
  lockRef_eq := fun m hm hr => by rw [h.lockRef]; exact hi.lockRef_eq m hm hr

theorem Splits.base (h : Splits cfg t c n v j c') (hb : Base cfg t c) : Base cfg h.tree c' where
  represents := h.represents hb.represents
  filled := h.filled hb.filled
  leaves := h.leaves hb.leaves
  root_value := by
    rw [h.tree_root, h.value_old _ t.root_mem h.ne_root.symm]; exact hb.root_value
  root_lockRef := by rw [h.tree_root, h.lockRef_old _ t.root_mem]; exact hb.root_lockRef
  hashed := fun hon => h.hashed (hb.hashed hon)

theorem Splits.inv (h : Splits cfg t c n v j c') (hi : Inv cfg t locks c) :
    Inv cfg h.tree locks c' where
  toBase := h.base hi.toBase
  sizes := h.sizes hi.sizes
  locks_mem := fun m hm => Finset.mem_insert_of_mem (hi.locks_mem m hm)
  lockRef_eq := by
    intro m hm hr
    rcases mem_insert.mp hm with rfl | hm
    · rw [h.lockRef_new, hi.lockRef_eq n h.mem h.ne_root, IsSplit.tree,
        below_subdivide_new hi.locks_mem]
    · rw [h.lockRef_old m hm, hi.lockRef_eq m hm hr, IsSplit.tree,
        below_subdivide_old hi.locks_mem hm]

theorem Reshape.base (h : Reshape cfg t c t' c') (hb : Base cfg t c) : Base cfg t' c' := by
  induction h with
  | refl => exact hb
  | touch _ ha ih => exact ha.base ih
  | split _ hs ih => exact hs.base ih

theorem Reshape.inv (h : Reshape cfg t c t' c') (hi : Inv cfg t locks c) :
    Inv cfg t' locks c' := by
  induction h with
  | refl => exact hi
  | touch _ ha ih => exact ha.inv ih
  | split _ hs ih => exact hs.inv ih

theorem Attaches.base (h : Attaches cfg t c p v key value c') (hlen : value.length = key.len)
    (hb : Base cfg t c) : Base cfg h.tree c' where
  represents := h.represents hb.represents
  filled := by
    intro m hm hr
    rcases mem_insert.mp hm with rfl | hm
    · exact ⟨value, h.value_new, by rw [hlen, h.key_new]⟩
    · rw [h.value_old m hm, h.key_old m hm]; exact hb.filled m hm hr
  leaves := h.leaves hb.leaves
  root_value := by rw [h.tree_root, h.value_old _ t.root_mem]; exact hb.root_value
  root_lockRef := by rw [h.tree_root, h.lockRef_old _ t.root_mem]; exact hb.root_lockRef
  hashed := fun hon => h.hashed hb.represents hon (hb.hashed hon)

theorem Attaches.inv (h : Attaches cfg t c p v key value c') (hlen : value.length = key.len)
    (hi : Inv cfg t locks c) : Inv cfg h.tree locks c' where
  toBase := h.base hlen hi.toBase
  sizes := h.sizes hi.sizes
  locks_mem := fun m hm => Finset.mem_insert_of_mem (hi.locks_mem m hm)
  lockRef_eq := by
    intro m hm hr
    rcases mem_insert.mp hm with rfl | hm
    · rw [h.lockRef_new, IsAttach.tree, below_attach_new hi.locks_mem]
      rfl
    · rw [h.lockRef_old m hm, hi.lockRef_eq m hm hr, IsAttach.tree, below_attach_old hi.locks_mem]

theorem Detaches.base (h : Detaches cfg t c n c') (hb : Base cfg t c) : Base cfg h.tree c' where
  represents := h.represents hb.represents
  filled := h.filled hb.filled
  leaves := h.leaves hb.represents hb.filled hb.leaves
  root_value := by rw [h.value]; exact hb.root_value
  root_lockRef := by rw [h.lockRef]; exact hb.root_lockRef
  hashed := fun hon => h.hashed (hb.hashed hon)

theorem Detaches.inv (h : Detaches cfg t c n c') (h0 : (c.nodes n).lockRef ≤ 0)
    (hi : Inv cfg t locks c) : Inv cfg h.tree locks c' where
  toBase := h.base hi.toBase
  sizes := h.sizes (le_antisymm h0 (hi.sizes.lockRef_nonneg n h.mem)) hi.sizes
  locks_mem := by
    intro m hm
    refine mem_erase.mpr ⟨?_, hi.locks_mem m hm⟩
    rintro rfl
    have hpos : 0 < t.below locks m := countP_pos_iff.mpr
      ⟨m, hm, decide_eq_true (mem_up_self h.mem h.ne_root)⟩
    rw [hi.lockRef_eq m h.mem h.ne_root] at h0
    omega
  lockRef_eq := by
    intro m hm hr
    rw [h.lockRef, hi.lockRef_eq m (Finset.mem_of_mem_erase hm) hr]
    rfl

/-! ## 3. Locks -/

/-- A holder locks the whole chain above it. -/
theorem Inv.locked (hi : Inv cfg t locks c) (hn : n ∈ locks) :
    ∀ m ∈ t.up n, 0 < (c.nodes m).lockRef := by
  intro m hm
  obtain ⟨h1, h2⟩ := mem_of_mem_up (hi.locks_mem n hn) hm
  rw [hi.lockRef_eq m h1 h2]
  exact Int.natCast_pos.mpr (countP_pos_iff.mpr ⟨n, hn, decide_eq_true hm⟩)

/-- Locks at the same nodes in another order. -/
theorem Inv.perm {locks' : List NodeId} (hi : Inv cfg t locks c) (hp : locks.Perm locks') :
    Inv cfg t locks' c where
  toBase := hi.toBase
  sizes := hi.sizes
  locks_mem := fun m hm => hi.locks_mem m (hp.mem_iff.mpr hm)
  lockRef_eq := fun m hm hr => by
    rw [hi.lockRef_eq m hm hr, RootedTree.below, RootedTree.below, hp.countP_eq]

theorem Relocks.base {d : ℤ} (h : Relocks t n d c c') (hl : Leaves t c') (hn : n ∈ t.nodes)
    (hb : Base cfg t c) : Base cfg t c' where
  represents := hb.represents.of_sameLinks h.toSameLinks
  filled := h.filled hb.filled
  leaves := hl
  root_value := by rw [h.value]; exact hb.root_value
  root_lockRef := by
    rw [h.lockRef, if_neg, add_zero]
    · exact hb.root_lockRef
    · exact fun hm => (mem_of_mem_up hn hm).2 rfl
  hashed := fun hon => (hb.hashed hon).of_sameLinks h.toSameLinks h.hashValue

/-- **`inc_lock_ref`** returns. -/
theorem incLockRef_base (hb : Base cfg t c) (hn : n ∈ t.nodes) :
    ∃ c' delta, c.incLockRef n = some (c', delta) ∧ Relocks t n 1 c c' ∧ Base cfg t c' := by
  obtain ⟨c', delta, heq, hre, hl, -⟩ := incLockRef_spec hb.represents hb.filled hb.leaves hn
  exact ⟨c', delta, heq, hre, hre.base hl hn hb⟩

/-- **`dec_lock_ref`** returns, entitled or not. -/
theorem decLockRef_base (hb : Base cfg t c) (hn : n ∈ t.nodes) :
    ∃ c' delta, c.decLockRef n = some (c', delta) ∧ Relocks t n (-1) c c' ∧ Base cfg t c' := by
  obtain ⟨c', delta, heq, hre, hl, -⟩ := decLockRef_spec hb.represents hb.filled hb.leaves hn
  exact ⟨c', delta, heq, hre, hre.base hl hn hb⟩

theorem incLockRef_inv (hi : Inv cfg t locks c) (hn : n ∈ t.nodes) :
    ∃ c' delta, c.incLockRef n = some (c', delta) ∧ Relocks t n 1 c c' ∧
      Inv cfg t (n :: locks) c' := by
  obtain ⟨c', delta, heq, hre, hl, hs⟩ := incLockRef_spec hi.represents hi.filled hi.leaves hn
  refine ⟨c', delta, heq, hre, hre.base hl hn hi.toBase, hs hi.sizes, ?_, ?_⟩
  · intro m hm
    rcases List.mem_cons.mp hm with rfl | hm
    · exact hn
    · exact hi.locks_mem m hm
  · intro m hm hr
    rw [hre.lockRef, hi.lockRef_eq m hm hr, below_cons]
    push_cast
    rfl

theorem decLockRef_inv (hi : Inv cfg t locks c) (hn : n ∈ locks) :
    ∃ c' delta, c.decLockRef n = some (c', delta) ∧ Relocks t n (-1) c c' ∧
      Inv cfg t (locks.erase n) c' := by
  have hmem := hi.locks_mem n hn
  obtain ⟨c', delta, heq, hre, hl, hs⟩ := decLockRef_spec hi.represents hi.filled hi.leaves hmem
  refine ⟨c', delta, heq, hre, hre.base hl hmem hi.toBase, hs (hi.locked hn) hi.sizes,
    fun m hm => hi.locks_mem m (List.mem_of_mem_erase hm), ?_⟩
  intro m hm hr
  have := below_erase (t := t) (n := m) hn
  rw [hre.lockRef, hi.lockRef_eq m hm hr]
  by_cases hmn : m ∈ t.up n
  · rw [if_pos hmn] at this ⊢; omega
  · rw [if_neg hmn] at this ⊢; omega

/-! ## 4. Matching and inserting -/

/-- The key as the tree sees it: in the cache's mode and cut to whole pages. -/
def normKey (cfg : CacheConfig) (key : RadixKey) : RadixKey :=
  (key.maybeToBigramView (σ := ℕ) cfg.isEagle none).1.pageAligned cfg.pageSize

/-- The pages of a key, as the tree sees them. -/
def pages (cfg : CacheConfig) (key : RadixKey) : List RadixKey.TaggedPage :=
  (normKey cfg key).label cfg.pageSize

/-- A bigram key is given to a bigram cache only. -/
def ModeOk (cfg : CacheConfig) (key : RadixKey) : Prop := key.isBigram = true → cfg.isEagle = true

theorem maybeToBigramView_fst {τ : Type} (key : RadixKey) (b : Bool) (value : Option (List τ)) :
    (key.maybeToBigramView b value).1 = (key.maybeToBigramView (σ := ℕ) b none).1 := by
  unfold maybeToBigramView
  split <;> rfl

theorem normKey_fits (hmode : ModeOk cfg key) :
    (normKey cfg key).Fits cfg.isEagle cfg.pageSize := by
  refine fits_pageAligned ?_ _
  unfold ModeOk at hmode
  unfold maybeToBigramView
  cases h1 : cfg.isEagle <;> cases h2 : key.isBigram <;> simp_all

/-- Bookkeeping before the walk does not change what the walk reaches. -/
theorem Reaches.of_agree {pgs : List RadixKey.TaggedPage} {values : List σ} {c₁ : RadixCache σ}
    {node : NodeId} (ha : Agree c c₁) (h : Reaches cfg t c₁ t.root pgs j values t' c' node) :
    Reaches cfg t c t.root pgs j values t' c' node where
  reshape := (Reshape.of_agree ha).trans h.reshape
  mem := h.mem
  le := h.le
  word := by rw [h.word, word_root, word_root]
  slots := by rw [h.slots, word_root, word_root]
  stuck := h.stuck
  descends := .touch ha h.descends

theorem matchPrefixHelper_spec (hb : Base cfg t c) (hkey : key.Fits cfg.isEagle cfg.pageSize)
    (hne : key.label cfg.pageSize ≠ []) :
    ∃ j vs t' c' node, c.matchPrefixHelper cfg t.root key = some (vs, node, c') ∧
      Reaches cfg t c t.root (key.label cfg.pageSize) j vs.flatten t' c' node := by
  obtain ⟨ck, hck⟩ := hkey.exists_childKey cfg.pageSize_pos hne
  have ha : Agree c ((c.readClock cfg).2.modify t.root fun n =>
      { n with lastAccessTime := (c.readClock cfg).1 }) :=
    (Agree.readClock cfg c).trans (Agree.modify (by constructor <;> (intros; rfl)) _ _)
  obtain ⟨j, vs, t', c', node, hloop, hreach⟩ := matchLoop_spec (c.readClock cfg).1
    (key.len + 1) t _ t.root key ck [] (hb.represents.of_sameLinks ha.toSameLinks)
    (ha.filled hb.filled) t.root_mem hkey (fun _ => hck) (Nat.lt_succ_self _)
  refine ⟨j, vs, t', c', node, ?_, hreach.of_agree ha⟩
  unfold matchPrefixHelper
  simp only [hck, bind_eq_bind, bind_some]
  exact hloop

/-- **`match_prefix`** walks from the root along the pages of the key. -/
theorem matchPrefix_spec (hb : Base cfg t c) (hmode : ModeOk cfg key) :
    ∃ j vs t' c' node, c.matchPrefix cfg key = some (⟨vs, node, node, 0⟩, c') ∧
      Reaches cfg t c t.root (pages cfg key) j vs t' c' node := by
  have hroot := hb.represents.root_eq
  have hfits := normKey_fits hmode
  have hempty : (normKey cfg key).len = 0 →
      Reaches cfg t c t.root (pages cfg key) 0 ([] : List σ) t c t.root := by
    intro h0
    have hstuck : Stuck cfg t c t.root (pages cfg key) := by
      rw [pages, hfits.label_eq_nil.mpr h0]
      exact stuck_nil hb.represents
    exact ⟨.refl, t.root_mem, Nat.zero_le _, by simp, by simp, hstuck, .stop hstuck⟩
  unfold matchPrefix
  rw [maybeToBigramView_fst]
  by_cases h0 : (key.maybeToBigramView (σ := ℕ) cfg.isEagle none).1.len = 0
  · refine ⟨0, [], t, c, t.root, ?_, hempty ?_⟩
    · rw [if_pos h0, hroot]
    · rw [normKey, len_pageAligned, h0, Nat.zero_div, Nat.zero_mul]
  · by_cases h1 : (normKey cfg key).len = 0
    · refine ⟨0, [], t, c, t.root, ?_, hempty h1⟩
      rw [normKey] at h1
      rw [if_neg h0, if_pos h1, hroot]
    · obtain ⟨j, vs, t', c', node, heq, hreach⟩ := matchPrefixHelper_spec hb hfits
        (fun e => h1 (hfits.label_eq_nil.mp e))
      refine ⟨j, vs.flatten, t', c', node, ?_, hreach⟩
      rw [normKey] at h1 heq
      rw [if_neg h0, if_neg h1, hroot, heq]
      rfl

/-- What an insertion did after its walk: nothing, or one leaf with the rest of the key. -/
inductive Grows (cfg : CacheConfig) (t : RootedTree NodeId) (c : RadixCache σ) (node : NodeId)
    (rest : List RadixKey.TaggedPage) (value : List σ) :
    RootedTree NodeId → RadixCache σ → Prop
  | done : rest = [] → Grows cfg t c node rest value t c
  | leaf {v : NodeId} {key : RadixKey} {c' : RadixCache σ} : rest ≠ [] →
    key.label cfg.pageSize = rest → value.length = key.len → v = c.counter →
    (h : Attaches cfg t c node v key value c') → Grows cfg t c node rest value h.tree c'

theorem Grows.base {node : NodeId} {rest : List RadixKey.TaggedPage}
    (h : Grows cfg t c node rest value t' c') (hb : Base cfg t c) : Base cfg t' c' := by
  cases h with
  | done _ => exact hb
  | leaf _ _ hlen _ hat => exact hat.base hlen hb

theorem Grows.nodes_subset {node : NodeId} {rest : List RadixKey.TaggedPage}
    (h : Grows cfg t c node rest value t' c') : t.nodes ⊆ t'.nodes := by
  cases h with
  | done _ => exact Finset.Subset.refl _
  | leaf _ _ _ _ hat => exact Finset.subset_insert _ _

theorem Grows.inv {node : NodeId} {rest : List RadixKey.TaggedPage}
    (h : Grows cfg t c node rest value t' c') (hi : Inv cfg t locks c) :
    Inv cfg t' locks c' := by
  cases h with
  | done _ => exact hi
  | leaf _ _ hlen _ hat => exact hat.inv hlen hi

theorem insertHelper_spec (hb : Base cfg t c) (hkey : key.Fits cfg.isEagle cfg.pageSize)
    (value : List σ) (hlen : value.length = key.len)
    (hhash : cfg.enableKvCacheEvents = true → HashablePages (key.label cfg.pageSize))
    (priority : ℤ) (chunked : Bool) :
    ∃ j vs t₁ c₁ node t' c',
      c.insertHelper cfg t.root key value priority chunked = some (cfg.pageSize * j, c') ∧
      Reaches cfg t c t.root (key.label cfg.pageSize) j vs t₁ c₁ node ∧
      Grows cfg t₁ c₁ node ((key.label cfg.pageSize).drop j) (value.drop (cfg.pageSize * j)) t' c' := by
  have ha : Agree c ((c.readClock cfg).2.modify t.root fun n => { n with
      lastAccessTime := (c.readClock cfg).1
      priority := max n.priority priority }) :=
    (Agree.readClock cfg c).trans (Agree.modify (by constructor <;> (intros; rfl)) _ _)
  generalize hc₀ : ((c.readClock cfg).2.modify t.root fun n => { n with
      lastAccessTime := (c.readClock cfg).1
      priority := max n.priority priority }) = c₀ at ha
  by_cases h0 : key.len = 0
  · have hnil := hkey.label_eq_nil.mpr h0
    refine ⟨0, [], t, c₀, t.root, t, c₀, ?_, ?_, .done (by simp [hnil])⟩
    · unfold insertHelper
      simp only [hc₀, h0, if_true]
      rfl
    · have hstuck : Stuck cfg t c₀ t.root (key.label cfg.pageSize) := by
        rw [hnil]
        exact stuck_nil (ha.base hb).represents
      exact ⟨.of_agree ha, t.root_mem, Nat.zero_le _, by simp, by simp, hstuck,
        .touch ha (.stop hstuck)⟩
  · obtain ⟨ck, hck⟩ := hkey.exists_childKey cfg.pageSize_pos (fun e => h0 (hkey.label_eq_nil.mp e))
    obtain ⟨j, vs, t₁, w, hloop, hreach, htotal, hvalue, hwkey, hwlabel, hwck⟩ := insertLoop_spec
      (c.readClock cfg).1 priority chunked (key.len + 1) t c₀ t.root key value ck 0
      (ha.base hb).represents (ha.base hb).filled t.root_mem hkey (fun _ => hck)
      (Nat.lt_succ_self _)
    rw [Nat.zero_add] at htotal
    have hb₁ := hreach.reshape.base (ha.base hb)
    have heq : c.insertHelper cfg t.root key value priority chunked =
        if w.key.len > 0 then
          (w.cache.addLeaf cfg w.node w.key w.value w.childKey priority chunked).map
            fun c => (w.total, c)
        else some (w.total, w.cache) := by
      unfold insertHelper
      simp only [hc₀, h0, if_false, hck, bind_eq_bind, bind_some, hloop]
      split
      · cases w.cache.addLeaf cfg w.node w.key w.value w.childKey priority chunked <;> rfl
      · rfl
    by_cases h1 : w.key.len > 0
    · have hne : w.key.label cfg.pageSize ≠ [] := by
        rw [Ne, hwkey.label_eq_nil]; omega
      obtain ⟨c', hadd, hat⟩ := addLeaf_spec w.value hb₁.represents hreach.mem hwkey hne
        (by rw [hwlabel]; exact hreach.stuck) (hwck hne)
        (fun hon => by rw [hwlabel]; exact (hhash hon).drop j) priority chunked
      refine ⟨j, vs, t₁, w.cache, w.node, hat.tree, c', ?_, hreach.of_agree ha, ?_⟩
      · rw [heq, if_pos h1, hadd, htotal]; rfl
      · rw [← hwlabel, ← hvalue]
        refine .leaf hne rfl ?_ rfl hat
        rw [hvalue, length_drop, hlen, hkey.len_eq, hwkey.len_eq, hwlabel, length_drop, Nat.mul_sub]
    · refine ⟨j, vs, t₁, w.cache, w.node, t₁, w.cache, ?_, hreach.of_agree ha, .done ?_⟩
      · rw [heq, if_neg h1, htotal]
      · rw [← hwlabel, hwkey.label_eq_nil]; omega

/-- The slots that an insertion stores: the view of a key as bigrams drops at most what the cut to whole
pages drops anyway. -/
theorem take_maybeToBigramView (cfg : CacheConfig) (key : RadixKey) (value : List σ) :
    (((key.maybeToBigramView cfg.isEagle (some value)).2).getD []).take (normKey cfg key).len
      = value.take (normKey cfg key).len := by
  unfold maybeToBigramView
  split
  · rename_i hb
    have hle : (normKey cfg key).len ≤ ({ key with isBigram := true } : RadixKey).len := by
      rw [normKey, maybeToBigramView, if_pos hb, len_pageAligned]
      exact Nat.div_mul_le_self _ _
    simp only [map_some, getD_some]
    rw [take_take, min_eq_left hle]
  · rfl

/-- **`insert`** walks from the root along the pages of the key and hangs what is left of it under
the node where the walk got stuck. -/
theorem insert_spec (hb : Base cfg t c) (hmode : ModeOk cfg key)
    (hlen : (normKey cfg key).len ≤ value.length)
    (hhash : cfg.enableKvCacheEvents = true → key.Hashable) (priority : ℤ) (chunked : Bool) :
    ∃ j vs t₁ c₁ node t' c', c.insert cfg key value priority chunked = some (cfg.pageSize * j, c') ∧
      Reaches cfg t c t.root (pages cfg key) j vs t₁ c₁ node ∧
      Grows cfg t₁ c₁ node ((pages cfg key).drop j)
        ((value.take (normKey cfg key).len).drop (cfg.pageSize * j)) t' c' := by
  have htake := take_maybeToBigramView cfg key value
  have hpages : cfg.enableKvCacheEvents = true → HashablePages (pages cfg key) := by
    intro hon
    rw [pages, normKey, label_pageAligned cfg.pageSize_pos]
    refine RadixKey.Hashable.label ?_ _
    unfold maybeToBigramView
    split <;> exact hhash hon
  obtain ⟨j, vs, t₁, c₁, node, t', c', heq, h1, h2⟩ := insertHelper_spec hb
    (normKey_fits hmode) (value.take (normKey cfg key).len)
    (by rw [length_take, min_eq_left hlen]) hpages priority chunked
  refine ⟨j, vs, t₁, c₁, node, t', c', ?_, h1, h2⟩
  rw [← heq, ← htake, ← hb.represents.root_eq, normKey,
    ← maybeToBigramView_fst key cfg.isEagle (some value)]
  rfl

/-! ## 5. Eviction -/

/-- A run of rounds of `evict`: unlocked leaves leave the tree one after the other, and `freed`
lists their slots. -/
inductive Evicts (cfg : CacheConfig) (t : RootedTree NodeId) (c : RadixCache σ) :
    RootedTree NodeId → RadixCache σ → List (List σ) → Prop
  | refl : Evicts cfg t c t c []
  | step {t' : RootedTree NodeId} {c' c'' : RadixCache σ} {freed : List (List σ)} {n : NodeId}
      {value : List σ} : Evicts cfg t c t' c' freed → (h : Detaches cfg t' c' n c'') →
    (c'.nodes n).lockRef ≤ 0 → (c'.nodes n).value = some value →
    Evicts cfg t c h.tree c'' (freed ++ [value])

theorem Evicts.trans {t'' : RootedTree NodeId} {c'' : RadixCache σ} {freed freed' : List (List σ)}
    (h : Evicts cfg t c t' c' freed) (h' : Evicts cfg t' c' t'' c'' freed') :
    Evicts cfg t c t'' c'' (freed ++ freed') := by
  induction h' with
  | refl => rw [append_nil]; exact h
  | step _ hd h0 hv ih => rw [← append_assoc]; exact ih.step hd h0 hv

theorem Evicts.base {freed : List (List σ)} (h : Evicts cfg t c t' c' freed)
    (hb : Base cfg t c) : Base cfg t' c' := by
  induction h with
  | refl => exact hb
  | step _ hd _ _ ih => exact hd.base ih

theorem Evicts.inv {freed : List (List σ)} (h : Evicts cfg t c t' c' freed)
    (hi : Inv cfg t locks c) : Inv cfg t' locks c' := by
  induction h with
  | refl => exact hi
  | step _ hd h0 _ ih => exact hd.inv h0 ih

/-- The heap holds evictable leaves, each once, and among them all whose reference is zero. -/
structure HeapOk (c : RadixCache σ) (heap : List (List ℤ × NodeId)) : Prop where
  nodup : (heap.map Prod.snd).Nodup
  leaf : ∀ n ∈ heap.map Prod.snd, n ∈ c.evictableLeaves
  full : ∀ n ∈ c.evictableLeaves, (c.nodes n).lockRef = 0 → n ∈ heap.map Prod.snd

variable {heap : List (List ℤ × NodeId)} {e : List ℤ × NodeId}

/-- Removing an entry from a heap with distinct nodes removes its node. -/
theorem mem_map_snd_erase (hnd : (heap.map Prod.snd).Nodup) (he : e ∈ heap) (n : NodeId) :
    n ∈ (heap.erase e).map Prod.snd ↔ n ∈ heap.map Prod.snd ∧ n ≠ e.2 := by
  have hperm := (perm_cons_erase he).map Prod.snd
  rw [List.map_cons] at hperm
  have hnd' := hperm.nodup_iff.mp hnd
  rw [hperm.mem_iff, List.mem_cons]
  have hnot := (nodup_cons.mp hnd').1
  constructor
  · intro hn
    exact ⟨Or.inr hn, fun e' => hnot (e' ▸ hn)⟩
  · rintro ⟨h | h, hne⟩
    · exact absurd h hne
    · exact h

theorem HeapOk.pop {heap' : List (List ℤ × NodeId)}
    (hheap : HeapOk c heap) (he : e ∈ heap) (hb : Base cfg t c) (hd : Detaches cfg t c e.2 c')
    (hh : (if (c'.nodes (t.parent e.2)).children.entries = [] ∧
        (c'.nodes (t.parent e.2)).lockRef = 0 then
        (cfg.evictionPolicy.getPriority (c'.nodes (t.parent e.2)), t.parent e.2) :: heap.erase e
      else heap.erase e) = heap') : HeapOk c' heap' := by
  have hb' := hd.base hb
  have hp' : t.parent e.2 ∈ hd.tree.nodes := mem_erase.mpr
    ⟨RootedTree.parent_ne hd.mem hd.ne_root, t.parent_mem hd.mem hd.ne_root⟩
  have hnotp : t.parent e.2 ∉ c.evictableLeaves := fun h =>
    ((hb.leaves.mem_iff _).mp h).2.2.2 e.2 ⟨hd.mem, hd.ne_root, rfl⟩
  have herase : ((heap.erase e).map Prod.snd).Nodup :=
    hheap.nodup.sublist (erase_sublist.map _)
  have hmem := mem_map_snd_erase hheap.nodup he
  have hleaves := hd.mem_leaves hb.leaves.nodup
  have hkeep : ∀ n ∈ (heap.erase e).map Prod.snd, n ∈ c'.evictableLeaves := by
    intro n hn
    obtain ⟨h1, h2⟩ := (hmem n).mp hn
    have hl := hheap.leaf n h1
    exact (hleaves n).mpr (Or.inl ⟨fun e => hnotp (e ▸ hl), h2, hl⟩)
  have hfull : ∀ n ∈ c'.evictableLeaves, n ≠ t.parent e.2 → (c'.nodes n).lockRef = 0 →
      n ∈ (heap.erase e).map Prod.snd := by
    intro n hn hnp h0
    rcases (hleaves n).mp hn with ⟨-, h2, h1⟩ | ⟨h, -⟩
    · rw [hd.lockRef] at h0
      exact (hmem n).mpr ⟨hheap.full n h1 h0, h2⟩
    · exact absurd h hnp
  by_cases hpush : (c'.nodes (t.parent e.2)).children.entries = [] ∧
      (c'.nodes (t.parent e.2)).lockRef = 0
  · rw [if_pos hpush] at hh
    subst hh
    have hpl : t.parent e.2 ∈ c'.evictableLeaves := by
      refine (hb'.leaves.mem_iff _).mpr ⟨hp', fun e => ?_, hpush.2.le,
        (hb'.represents.entries_eq_nil_iff hp').mp hpush.1⟩
      have h0 := hpush.2
      rw [e, hb'.root_lockRef] at h0
      cases h0
    refine ⟨nodup_cons.mpr ⟨fun h => hnotp (hheap.leaf _ ((hmem _).mp h).1), herase⟩, ?_, ?_⟩
    · intro n hn
      rcases List.mem_cons.mp hn with rfl | hn
      · exact hpl
      · exact hkeep n hn
    · intro n hn h0
      by_cases hnp : n = t.parent e.2
      · exact List.mem_cons.mpr (Or.inl hnp)
      · exact List.mem_cons_of_mem _ (hfull n hn hnp h0)
  · rw [if_neg hpush] at hh
    subst hh
    refine ⟨herase, hkeep, fun n hn h0 => hfull n hn ?_ h0⟩
    rintro rfl
    exact hpush ⟨(hb'.represents.entries_eq_nil_iff hp').mpr ((hb'.leaves.mem_iff _).mp hn).2.2.2,
      h0⟩

/-- The fields of a node that its eviction priority is read off. -/
structure SameRank (x y : TreeNode σ) : Prop where
  hitCount : y.hitCount = x.hitCount
  lastAccessTime : y.lastAccessTime = x.lastAccessTime
  creationTime : y.creationTime = x.creationTime
  priority : y.priority = x.priority

theorem SameRank.getPriority {x y : TreeNode σ} (h : SameRank x y) (policy : EvictionPolicy) :
    policy.getPriority y = policy.getPriority x := by
  cases policy <;>
    simp [EvictionPolicy.getPriority, h.hitCount, h.lastAccessTime, h.creationTime, h.priority]

theorem deleteLeaf_sameRank (h : c.deleteLeaf cfg n = some c') (m : NodeId) :
    SameRank (c.nodes m) (c'.nodes m) := by
  unfold deleteLeaf at h
  simp only [bind_eq_bind, bind_eq_some_iff] at h
  obtain ⟨key, -, parent, -, h⟩ := h
  split at h
  · cases h
    rw [updateLeafStatus_nodes]
    have hfield : ∀ {τ : Type} (g : TreeNode σ → τ),
        (∀ x : TreeNode σ, g { x with children := x.children.erase key } = g x) →
        g ((c.modify parent fun x => { x with children := x.children.erase key }).nodes m)
          = g (c.nodes m) := fun g hg => modify_field c parent _ g hg m
    exact ⟨hfield (·.hitCount) fun _ => rfl, hfield (·.lastAccessTime) fun _ => rfl,
      hfield (·.creationTime) fun _ => rfl, hfield (·.priority) fun _ => rfl⟩
  · cases h

/-- The heap of a round when its parent has joined, if that is an unlocked leaf now. -/
def pushParent (cfg : CacheConfig) (c : RadixCache σ) (parent : NodeId)
    (heap : List (List ℤ × NodeId)) : List (List ℤ × NodeId) :=
  if (c.nodes parent).children.entries = [] ∧ (c.nodes parent).lockRef = 0 then
    (cfg.evictionPolicy.getPriority (c.nodes parent), parent) :: heap
  else heap

/-- The rounds of the loop of `evict`, with the nodes that they remove: each pops a least entry of the
heap, and they end when enough is evicted or the heap is empty. -/
inductive Rounds (cfg : CacheConfig) (numTokens : ℕ) (t' : RootedTree NodeId) (c' : RadixCache σ) :
    RootedTree NodeId → RadixCache σ → List (List ℤ × NodeId) → ℕ → List NodeId → Prop
  | stop {heap : List (List ℤ × NodeId)} {numEvicted : ℕ} : ¬ (numEvicted < numTokens ∧ heap ≠ []) →
    Rounds cfg numTokens t' c' t' c' heap numEvicted []
  | round {t : RootedTree NodeId} {c c₁ : RadixCache σ} {heap : List (List ℤ × NodeId)}
      {numEvicted : ℕ} {ns : List NodeId} {e : List ℤ × NodeId} : numEvicted < numTokens →
    e ∈ heapLeast c.nodes heap → (hd : Detaches cfg t c e.2 c₁) →
    (∀ m, SameRank (c.nodes m) (c₁.nodes m)) →
    Rounds cfg numTokens t' c' hd.tree c₁ (pushParent cfg c₁ (t.parent e.2) (heap.erase e))
      (numEvicted + (c.slots e.2).length) ns →
    Rounds cfg numTokens t' c' t c heap numEvicted (e.2 :: ns)

theorem Detaches.slots (h : Detaches cfg t c n c') : c'.slots = c.slots := by
  funext m
  rw [RadixCache.slots, h.value, RadixCache.slots]

variable {numEvicted : ℕ} {ns : List NodeId}

theorem Rounds.evicts {numTokens : ℕ}
    (h : Rounds cfg numTokens t' c' t c heap numEvicted ns) (hb : Base cfg t c)
    (hheap : HeapOk c heap) : Evicts cfg t c t' c' (ns.map c.slots) := by
  induction h with
  | stop _ => exact .refl
  | @round t c c₁ heap _ ns e _ he hd _ _ ih =>
    have hmem := (mem_heapLeast.mp he).1
    obtain ⟨hx, hr, h0, -⟩ := (hb.leaves.mem_iff e.2).mp (hheap.leaf e.2 (List.mem_map_of_mem hmem))
    obtain ⟨value, hv, -⟩ := hb.filled e.2 hx hr
    have hslots : c.slots e.2 = value := by rw [slots, hv]; rfl
    have hrest := ih (hd.base hb) (hheap.pop hmem hb hd rfl)
    rw [hd.slots] at hrest
    rw [List.map_cons, hslots]
    exact (Evicts.refl.step hd h0 hv).trans hrest

/-- The rounds do not end short of their aim while an unlocked leaf is left. -/
theorem Rounds.enough {numTokens : ℕ}
    (h : Rounds cfg numTokens t' c' t c heap numEvicted ns) (hb : Base cfg t c)
    (hheap : HeapOk c heap) : numTokens ≤ numEvicted + (ns.map c.slots).flatten.length ∨
      ∀ n ∈ c'.evictableLeaves, (c'.nodes n).lockRef ≠ 0 := by
  induction h with
  | @stop heap numEvicted hstop =>
    rcases Nat.lt_or_ge numEvicted numTokens with hlt | hge
    · right
      intro n hn h0
      have hin := hheap.full n hn h0
      rw [not_not.mp fun hne => hstop ⟨hlt, hne⟩] at hin
      cases hin
    · exact Or.inl (by simpa using hge)
  | @round t c c₁ heap numEvicted ns e _ he hd _ _ ih =>
    have hrest := ih (hd.base hb) (hheap.pop (mem_heapLeast.mp he).1 hb hd rfl)
    rw [hd.slots, Nat.add_assoc, ← length_append, ← flatten_cons] at hrest
    exact hrest

/-- **The loop of `evict`** returns after rounds that free the slots of the nodes they remove. -/
theorem evictLoop_rounds (numTokens : ℕ) : ∀ (fuel : ℕ) (t : RootedTree NodeId) (c : RadixCache σ)
    (heap : List (List ℤ × NodeId)) (numEvicted : ℕ) (freed : List (List σ)),
    Base cfg t c → HeapOk c heap → t.nodes.card < fuel →
    ∃ t' c' ns, evictLoop cfg numTokens fuel c heap numEvicted freed
        = some (numEvicted + (ns.map c.slots).flatten.length, freed ++ ns.map c.slots, c') ∧
      Rounds cfg numTokens t' c' t c heap numEvicted ns := by
  intro fuel
  induction fuel with
  | zero => intro t c heap numEvicted freed _ _ hfuel; omega
  | succ fuel ih =>
    intro t c heap numEvicted freed hb hheap hfuel
    by_cases hgo : numEvicted < numTokens ∧ heap ≠ []
    · obtain ⟨⟨x, heap'⟩, hpop⟩ := exists_heappop cfg c.nodes hgo.2
      obtain ⟨e, he, rfl, rfl⟩ := heappop_least hpop
      have hmem := (mem_heapLeast.mp he).1
      obtain ⟨hx, hr, h0, hleaf⟩ := (hb.leaves.mem_iff e.2).mp
        (hheap.leaf e.2 (List.mem_map_of_mem hmem))
      obtain ⟨value, hv, -⟩ := hb.filled e.2 hx hr
      have hslots : c.slots e.2 = value := by rw [slots, hv]; rfl
      obtain ⟨c₁, c', hdel, hrec, hnodes, hd⟩ := removeLeaf_spec hb.represents hx hr hleaf
        (fun hon => (hb.hashed hon).hasHashes hx hr)
      have hrank : ∀ m, SameRank (c.nodes m) (c'.nodes m) := by
        rw [← hnodes]
        exact deleteLeaf_sameRank hdel
      have hpar : (c'.nodes e.2).parent = some (t.parent e.2) := by
        rw [hd.parent]; exact hb.represents.parent_eq hx hr
      obtain ⟨t'', c'', ns, hloop, hrounds⟩ := ih hd.tree c'
        (pushParent cfg c' (t.parent e.2) (heap.erase e)) (numEvicted + value.length)
        (freed ++ [value]) (hd.base hb) (hheap.pop hmem hb hd rfl) (by
          rw [IsDetach.tree_nodes, card_erase_of_mem hx]
          have := card_pos.mpr ⟨e.2, hx⟩
          omega)
      rw [hd.slots] at hloop
      refine ⟨t'', c'', e.2 :: ns, ?_, .round hgo.1 he hd hrank (hslots ▸ hrounds)⟩
      rw [evictLoop, if_pos hgo]
      unfold pushParent at hloop
      simp only [hpop, bind_eq_bind, bind_some, hv, hdel, hpar, hnodes, hrec, hloop,
        List.map_cons, hslots, flatten_cons, length_append]
      simp [Nat.add_assoc]
    · exact ⟨t, c, [], by rw [evictLoop, if_neg hgo]; simp, .stop hgo⟩

theorem heapOk_start (hb : Base cfg t c) : HeapOk c (c.evictableLeaves.map fun n =>
    (cfg.evictionPolicy.getPriority (c.nodes n), n)) := by
  have hid : (c.evictableLeaves.map fun n =>
      (cfg.evictionPolicy.getPriority (c.nodes n), n)).map Prod.snd = c.evictableLeaves := by
    rw [List.map_map]
    exact List.map_id _
  refine ⟨by rw [hid]; exact hb.leaves.nodup, ?_, ?_⟩
  · rw [hid]; exact fun n hn => hn
  · rw [hid]; exact fun n hn _ => hn

theorem evict_rounds (hb : Base cfg t c) (numTokens : ℕ) :
    ∃ t' c' ns, c.evict cfg numTokens = some ((ns.map c.slots).flatten.length, ns.map c.slots, c') ∧
      Rounds cfg numTokens t' c' t c (c.evictableLeaves.map fun n =>
        (cfg.evictionPolicy.getPriority (c.nodes n), n)) 0 ns := by
  have hfuel : t.nodes.card < c.counter + 1 := by
    have hsub : t.nodes ⊆ Finset.range c.counter :=
      fun m hm => Finset.mem_range.mpr (hb.represents.lt_counter hm)
    have := card_le_card hsub
    rw [card_range] at this
    omega
  obtain ⟨t', c', ns, heq, hrounds⟩ := evictLoop_rounds numTokens (c.counter + 1) t c _ 0 [] hb
    (heapOk_start hb) hfuel
  rw [Nat.zero_add] at heq
  exact ⟨t', c', ns, heq, hrounds⟩

/-- **`evict`** returns. -/
theorem evict_spec (hb : Base cfg t c) (numTokens : ℕ) :
    ∃ t' c' freed, c.evict cfg numTokens = some (freed.flatten.length, freed, c') ∧
      Evicts cfg t c t' c' freed ∧
      (numTokens ≤ freed.flatten.length ∨ ∀ n ∈ c'.evictableLeaves, (c'.nodes n).lockRef ≠ 0) := by
  obtain ⟨t', c', ns, heq, hrounds⟩ := evict_rounds hb numTokens
  have henough := hrounds.enough hb (heapOk_start hb)
  rw [Nat.zero_add] at henough
  exact ⟨t', c', _, heq, hrounds.evicts hb (heapOk_start hb), henough⟩

/-! ## 6. Reset -/

/-- The tree of a cache that was just reset. -/
def rootTree (r : NodeId) : RootedTree NodeId where
  root := r
  nodes := {r}
  parent := fun _ => r
  up := fun _ => []
  root_mem := Finset.mem_singleton_self r
  up_root := rfl
  parent_mem := fun _ _ => Finset.mem_singleton_self r
  up_cons := fun hn hr => absurd (Finset.mem_singleton.mp hn) hr

theorem reset_counter (cfg : CacheConfig) (c : RadixCache σ) :
    (c.reset cfg).counter = c.counter + 1 := by
  cases hon : cfg.enableKvCacheEvents <;> simp [reset, recordAllClearedEvent, newTreeNode, hon]

theorem reset_sizes (cfg : CacheConfig) (c : RadixCache σ) :
    (c.reset cfg).evictableSize = 0 ∧ (c.reset cfg).protectedSize = 0 ∧
      (c.reset cfg).evictableLeaves = [] := by
  cases hon : cfg.enableKvCacheEvents <;> simp [reset, recordAllClearedEvent, hon]

theorem reset_root (cfg : CacheConfig) (c : RadixCache σ) :
    (c.reset cfg).nodes c.counter = { (TreeNode.init (-(2 ^ 63 - 1))
      (cfg.monotonic c.ticks) (cfg.monotonic (c.ticks + 1)) : TreeNode σ) with
      key := ⟨[], none, false⟩
      value := some []
      hostValue := some []
      lockRef := 1
      hashValue := some [] } := by
  cases hon : cfg.enableKvCacheEvents <;>
    simp [reset, recordAllClearedEvent, newTreeNode, modify, hon]

/-- **`reset`** establishes the invariant, whatever the state was, with no lock held. -/
theorem reset_inv (cfg : CacheConfig) (c : RadixCache σ) :
    Inv cfg (rootTree c.counter) [] (c.reset cfg) := by
  have hroot : (c.reset cfg).rootNode = c.counter := by
    cases hon : cfg.enableKvCacheEvents <;> simp [reset, recordAllClearedEvent, newTreeNode, hon]
  have hcounter := reset_counter cfg c
  have hsizes := reset_sizes cfg c
  have hnode := reset_root cfg c
  have honly : ∀ n ∈ (rootTree c.counter).nodes, n = c.counter :=
    fun n hn => Finset.mem_singleton.mp hn
  have hnone : ∀ p n, ¬ (rootTree c.counter).Child p n :=
    fun p n h => h.2.1 (honly n h.1)
  have htotal : ∀ f : NodeId → ℤ, (rootTree c.counter).total f = 0 := by
    intro f
    unfold RootedTree.total
    simp [rootTree]
  refine ⟨⟨⟨hroot, ?_, ?_, ?_, ?_, ?_⟩, ?_, ⟨?_, ?_, ?_⟩, ?_, ?_, ?_⟩, ⟨?_, ?_, ?_⟩, ?_, ?_⟩
  · intro n hn
    rw [honly n hn, hcounter]
    exact Nat.lt_succ_self _
  · exact fun hn hr => absurd (honly _ hn) hr
  · intro p hp ck n
    rw [honly p hp, hnode]
    constructor
    · intro h; cases h
    · exact fun h => absurd h.1 (hnone _ _)
  · exact fun hn hr => absurd (honly _ hn) hr
  · exact fun hn hr => absurd (honly _ hn) hr
  · exact fun n hn hr => absurd (honly n hn) hr
  · rw [hsizes.2.2]; exact nodup_nil
  · intro n
    rw [hsizes.2.2]
    constructor
    · intro h; cases h
    · exact fun h => absurd (honly n h.1) h.2.1
  · exact (congrArg TreeNode.lockRef hnode).symm ▸ Int.one_pos
  · exact congrArg TreeNode.value hnode
  · exact congrArg TreeNode.lockRef hnode
  · intro _
    refine ⟨congrArg (fun x => x.key.len) hnode, fun n hn => ?_, fun n hn => ?_⟩
    · rw [hashes, honly n hn, hnode]; rfl
    · rw [honly n hn]
      rfl
  · rw [hsizes.1, htotal]
  · rw [hsizes.2.1, htotal]
  · intro n hn
    rw [honly n hn, hnode]
    exact Int.one_nonneg
  · intro m hm; cases hm
  · exact fun n hn hr => absurd (honly n hn) hr

end Inv

end RadixCache

end Sglang
