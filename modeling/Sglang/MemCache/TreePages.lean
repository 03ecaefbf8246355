/-
# The pages the tree owns

When the slots of the tree come from a pool with pages, each node owns the pages its value reads.
This module follows `insert`, `match_prefix`, the lock walks and `evict` in terms of these pages:
splitting a node cuts between two pages, so it moves none; an insertion adds the pages behind the
part that was found; an eviction takes away those of the leaves it frees.  And a node that stays in
the tree keeps the path it had, pages and slots (`Keeps`), which is what a request that holds a
lock on it relies on.
-/
import Sglang.MemCache.LockAccounting

namespace Sglang

open Lib List Finset RootedTree

namespace RadixCache

/-! ## 1. The pages of the nodes -/

/-- The pages the nodes below the root own. -/
def treePages (p : ℕ) (t : RootedTree NodeId) (c : RadixCache ℕ) : Multiset ℕ :=
  t.total fun n => (heads p (c.slots n) : Multiset ℕ)

/-- Every value reads its pages from their first slot on. -/
def PagedTree (p : ℕ) (t : RootedTree NodeId) (c : RadixCache ℕ) : Prop :=
  ∀ n ∈ t.nodes, n ≠ t.root → Paged p (c.slots n)

/-- Every value has the property. -/
def AllSlots (P : List ℕ → Prop) (t : RootedTree NodeId) (c : RadixCache ℕ) : Prop :=
  ∀ n ∈ t.nodes, n ≠ t.root → P (c.slots n)

/-- A property that both sides of a cut between two pages have. -/
def CutClosed (p : ℕ) (P : List ℕ → Prop) : Prop :=
  ∀ value j, P value → P (value.take (p * j)) ∧ P (value.drop (p * j))

theorem cutClosed_paged {p : ℕ} (hp : 0 < p) : CutClosed p (Paged p) :=
  fun _ j h => ⟨h.take _, h.drop hp j⟩

variable {d : ℤ}

section Pages

variable {cfg : CacheConfig} {t t' : RootedTree NodeId} {c c' : RadixCache ℕ} {n v : NodeId}
  {j : ℕ}

theorem treePages_congr {p : ℕ} (h : c'.slots = c.slots) : treePages p t c' = treePages p t c := by
  rw [treePages, treePages, h]

theorem Base.dvd_slots (hb : Base cfg t c) (hn : n ∈ t.nodes) (hr : n ≠ t.root) :
    cfg.pageSize ∣ (c.slots n).length := by
  obtain ⟨value, hv, hlen⟩ := hb.filled n hn hr
  have hs : c.slots n = value := by rw [slots, hv]; rfl
  rw [hs, hlen]
  exact (hb.represents.fits hn hr).aligned

theorem Base.length_slots_take (hb : Base cfg t c) (h : Splits cfg t c n v j c') :
    cfg.pageSize ∣ ((c.slots n).take (cfg.pageSize * j)).length := by
  rw [length_take]
  rcases Nat.le_total (cfg.pageSize * j) (c.slots n).length with hle | hle
  · rw [min_eq_left hle]; exact Dvd.intro _ rfl
  · rw [min_eq_right hle]; exact hb.dvd_slots h.mem h.ne_root

/-- **A split moves no page.** -/
theorem Splits.treePages (h : Splits cfg t c n v j c') (hb : Base cfg t c) :
    treePages cfg.pageSize h.tree c' = RadixCache.treePages cfg.pageSize t c := by
  refine total_subdivide ?_ ?_
  · intro k hk _ hkn
    rw [h.slots_old k hk hkn]
  · rw [h.slots_new, h.slots_self, Multiset.coe_add,
      ← heads_append cfg.pageSize_pos (hb.length_slots_take h), take_append_drop]

variable {P : List ℕ → Prop}

theorem Splits.allSlots (h : Splits cfg t c n v j c')
    (hcut : CutClosed cfg.pageSize P) (hp : AllSlots P t c) : AllSlots P h.tree c' := by
  intro m hm hr
  rcases mem_insert.mp hm with rfl | hm
  · rw [h.slots_new]
    exact (hcut _ j (hp n h.mem h.ne_root)).1
  · by_cases hmn : m = n
    · rw [hmn, h.slots_self]
      exact (hcut _ j (hp n h.mem h.ne_root)).2
    · rw [h.slots_old m hm hmn]
      exact hp m hm hr

theorem Reshape.treePages (h : Reshape cfg t c t' c') (hb : Base cfg t c) :
    treePages cfg.pageSize t' c' = RadixCache.treePages cfg.pageSize t c := by
  induction h with
  | refl => rfl
  | touch _ ha ih => rw [treePages_congr ha.slots, ih]
  | split h hs ih => rw [hs.treePages (h.base hb), ih]

theorem Reshape.allSlots (h : Reshape cfg t c t' c')
    (hcut : CutClosed cfg.pageSize P) (hp : AllSlots P t c) : AllSlots P t' c' := by
  induction h with
  | refl => exact hp
  | touch _ ha ih =>
    intro m hm hr
    rw [ha.slots]
    exact ih m hm hr
  | split _ hs ih => exact hs.allSlots hcut ih

theorem Reshape.pagedTree (h : Reshape cfg t c t' c') (hp : PagedTree cfg.pageSize t c) :
    PagedTree cfg.pageSize t' c' :=
  h.allSlots (cutClosed_paged cfg.pageSize_pos) hp

theorem Attaches.slots_old {p : NodeId} {key : RadixKey} {value : List ℕ}
    (h : Attaches cfg t c p v key value c') : ∀ m ∈ t.nodes, c'.slots m = c.slots m := by
  intro m hm
  rw [slots, h.value_old m hm, slots]

/-- **An insertion adds the pages of what it stores.** -/
theorem Grows.treePages {node : NodeId} {rest : List RadixKey.TaggedPage} {value : List ℕ}
    (h : Grows cfg t c node rest value t' c') (hlen : rest = [] → value = []) :
    treePages cfg.pageSize t' c'
      = RadixCache.treePages cfg.pageSize t c + heads cfg.pageSize value := by
  cases h with
  | done hrest => rw [hlen hrest, heads_nil cfg.pageSize_pos, Multiset.coe_nil, add_zero]
  | @leaf v _ _ _ _ _ _ hat =>
    have hnew : c'.slots v = value := by rw [slots, hat.value_new]; rfl
    have htotal : RadixCache.treePages cfg.pageSize hat.tree c'
        = (heads cfg.pageSize (c'.slots v) : Multiset ℕ) + RadixCache.treePages cfg.pageSize t c :=
      total_attach fun k hk _ => by rw [hat.slots_old k hk]
    rw [htotal, hnew, add_comm]

theorem Grows.allSlots {node : NodeId} {rest : List RadixKey.TaggedPage}
    {value : List ℕ} (h : Grows cfg t c node rest value t' c') (hv : P value)
    (hp : AllSlots P t c) : AllSlots P t' c' := by
  cases h with
  | done _ => exact hp
  | leaf _ _ _ _ hat =>
    intro m hm hr
    rcases mem_insert.mp hm with rfl | hm
    · rw [slots, hat.value_new]; exact hv
    · rw [hat.slots_old m hm]; exact hp m hm hr

theorem Grows.pagedTree {node : NodeId} {rest : List RadixKey.TaggedPage} {value : List ℕ}
    (h : Grows cfg t c node rest value t' c') (hv : Paged cfg.pageSize value)
    (hp : PagedTree cfg.pageSize t c) : PagedTree cfg.pageSize t' c' :=
  h.allSlots hv hp

/-- **An eviction takes away the pages it frees.** -/
theorem Evicts.treePages {freed : List (List ℕ)} (h : Evicts cfg t c t' c' freed) :
    RadixCache.treePages cfg.pageSize t c
      = treePages cfg.pageSize t' c' + (freed.flatMap (heads cfg.pageSize) : Multiset ℕ) := by
  induction h with
  | refl => simp
  | @step t₁ c₁ c₂ freed x value _ hd _ hv ih =>
    have hx : c₁.slots x = value := by rw [slots, hv]; rfl
    have htotal : (heads cfg.pageSize (c₁.slots x) : Multiset ℕ)
        + RadixCache.treePages cfg.pageSize hd.tree c₂ = RadixCache.treePages cfg.pageSize t₁ c₁ :=
      total_detach (f := fun n => (heads cfg.pageSize (c₁.slots n) : Multiset ℕ)) hd.mem
        fun k _ _ _ => by rw [hd.slots]
    rw [hx] at htotal
    rw [ih, ← htotal, flatMap_append, ← Multiset.coe_add, flatMap_singleton]
    abel

theorem Evicts.allSlots {freed : List (List ℕ)}
    (h : Evicts cfg t c t' c' freed) (hp : AllSlots P t c) :
    AllSlots P t' c' ∧ ∀ value ∈ freed, P value := by
  induction h with
  | refl => exact ⟨hp, by simp⟩
  | @step t₁ c₁ c₂ freed x value _ hd _ hv ih =>
    obtain ⟨ih1, ih2⟩ := ih
    refine ⟨fun m hm hr => ?_, fun w hw => ?_⟩
    · rw [hd.slots]
      exact ih1 m (Finset.mem_of_mem_erase hm) hr
    · rcases mem_append.mp hw with hw | hw
      · exact ih2 w hw
      · rw [List.mem_singleton.mp hw]
        have := ih1 x hd.mem hd.ne_root
        rwa [slots, hv] at this

theorem Evicts.pagedTree {freed : List (List ℕ)} (h : Evicts cfg t c t' c' freed)
    (hp : PagedTree cfg.pageSize t c) :
    PagedTree cfg.pageSize t' c' ∧ ∀ value ∈ freed, Paged cfg.pageSize value :=
  h.allSlots hp

theorem Relocks.slots (h : Relocks t n d c c') : c'.slots = c.slots := by
  funext m
  rw [RadixCache.slots, h.value, RadixCache.slots]

theorem Relocks.allSlots (h : Relocks t n d c c') (hp : AllSlots P t c) : AllSlots P t c' := by
  intro m hm hr
  rw [h.slots]
  exact hp m hm hr

theorem Relocks.pagedTree (h : Relocks t n d c c') (hp : PagedTree cfg.pageSize t c) :
    PagedTree cfg.pageSize t c' :=
  h.allSlots hp

/-- A path reads whole pages, all the way. -/
theorem Base.paged_word (hb : Base cfg t c) (hp : PagedTree cfg.pageSize t c) :
    ∀ n ∈ t.nodes, Paged cfg.pageSize (t.word c.slots n) := by
  refine t.induction (by simp) ?_
  intro n hn hr ih
  rw [word_cons hn hr]
  refine ih.append cfg.pageSize_pos ?_ (hp n hn hr)
  rw [length_slots_word hb.represents hb.filled _ (t.parent_mem hn hr)]
  exact Dvd.intro _ rfl

end Pages

/-! ## 2. Paths that stay -/

/-- The nodes that are still there have the paths they had. -/
def Keeps (cfg : CacheConfig) (c c' : RadixCache ℕ) : Prop :=
  ∀ n w vs, Spells cfg c n w vs → InTree cfg c' n → Spells cfg c' n w vs

/-- All nodes are still there and have the paths they had. -/
def Retains (cfg : CacheConfig) (c c' : RadixCache ℕ) : Prop :=
  ∀ n w vs, Spells cfg c n w vs → Spells cfg c' n w vs

section Keeps

variable {cfg : CacheConfig} {t t' : RootedTree NodeId} {c c' c'' : RadixCache ℕ} {n m : NodeId}

theorem Retains.keeps (h : Retains cfg c c') : Keeps cfg c c' := fun n w vs hsp _ => h n w vs hsp

theorem Retains.trans (h : Retains cfg c c') (h' : Retains cfg c' c'') : Retains cfg c c'' :=
  fun n w vs hsp => h' n w vs (h n w vs hsp)

theorem retains_of_words (hrep : Represents cfg t c) (hrep' : Represents cfg t' c')
    (h : ∀ n ∈ t.nodes, n ∈ t'.nodes ∧ t'.word (c'.label cfg) n = t.word (c.label cfg) n ∧
      t'.word c'.slots n = t.word c.slots n) : Retains cfg c c' := by
  intro n w vs hsp
  obtain ⟨hn, rfl, rfl⟩ := hrep.spells_iff.mp hsp
  obtain ⟨h1, h2, h3⟩ := h n hn
  exact hrep'.spells_iff.mpr ⟨h1, h2.symm, h3.symm⟩

theorem Reshape.retains (h : Reshape cfg t c t' c') (hrep : Represents cfg t c) :
    Retains cfg c c' :=
  retains_of_words hrep (h.represents hrep) fun _ hn =>
    ⟨h.nodes_subset hn, h.word_eq hn, h.slots_eq hn⟩

theorem Grows.retains {node : NodeId} {rest : List RadixKey.TaggedPage} {value : List ℕ}
    (h : Grows cfg t c node rest value t' c') (hb : Base cfg t c) : Retains cfg c c' := by
  refine retains_of_words hb.represents (h.base hb).represents fun m hm => ?_
  cases h with
  | done _ => exact ⟨hm, rfl, rfl⟩
  | leaf _ _ _ _ hat =>
    exact ⟨Finset.mem_insert_of_mem hm, hat.word_old hm, word_attach_old hm hat.slots_old⟩

theorem Relocks.retains (h : Relocks t n d c c') (hrep : Represents cfg t c) :
    Retains cfg c c' := by
  refine retains_of_words hrep (hrep.of_sameLinks h.toSameLinks) fun m hm => ?_
  rw [h.toSameLinks.label, h.slots]
  exact ⟨hm, rfl, rfl⟩

theorem Evicts.keeps {freed : List (List ℕ)} (h : Evicts cfg t c t' c' freed)
    (hb : Base cfg t c) : Keeps cfg c c' := by
  have key : t'.nodes ⊆ t.nodes ∧ ∀ m ∈ t'.nodes,
      t'.word (c'.label cfg) m = t.word (c.label cfg) m ∧
      t'.word c'.slots m = t.word c.slots m := by
    induction h with
    | refl => exact ⟨Finset.Subset.refl _, fun _ _ => ⟨rfl, rfl⟩⟩
    | step _ hd _ _ ih =>
      refine ⟨(Finset.erase_subset _ _).trans ih.1, fun m hm => ?_⟩
      obtain ⟨h1, h2⟩ := ih.2 m (Finset.mem_of_mem_erase hm)
      rw [hd.word_eq, ← h1, ← h2]
      exact ⟨rfl, word_detach hm fun k _ => by rw [hd.slots]⟩
  intro n w vs hsp hin
  obtain ⟨-, rfl, rfl⟩ := hb.represents.spells_iff.mp hsp
  have hrep' := (h.base hb).represents
  have hn := hrep'.inTree_iff.mp hin
  exact hrep'.spells_iff.mpr ⟨hn, (key.2 n hn).1.symm, (key.2 n hn).2.symm⟩

variable {w : List RadixKey.TaggedPage} {vs : List ℕ}

/-- **Slots follow tokens**: a path that is the start of another has the start of its slots. -/
theorem Represents.slots_initial (hrep : Represents cfg t c) {w' : List RadixKey.TaggedPage}
    {vs' : List ℕ} (h : Spells cfg c n w vs) (h' : Spells cfg c m w' vs') (hw : w <+: w') :
    vs <+: vs' := by
  obtain ⟨hn, rfl, rfl⟩ := hrep.spells_iff.mp h
  obtain ⟨hm, rfl, rfl⟩ := hrep.spells_iff.mp h'
  rcases hrep.separated.mem_up_of_word_prefix hm n hn hw with rfl | hup
  · rw [word_root]
    exact nil_prefix
  · exact word_prefix_of_mem_up hm hup

variable {pgs : List RadixKey.TaggedPage}

/-- What a walk from the root returns is the path it went. -/
theorem Reaches.spells {j : ℕ} {node : NodeId}
    (h : Reaches cfg t c t.root pgs j vs t' c' node) (hb : Base cfg t c) :
    Spells cfg c' node (pgs.take j) vs ∧ vs.length = cfg.pageSize * j := by
  have hrep := h.reshape.represents hb.represents
  have hw := h.word
  have hs := h.slots
  rw [word_root, nil_append] at hw hs
  refine ⟨hrep.spells_iff.mpr ⟨h.mem, hw.symm, hs.symm⟩, ?_⟩
  have hlen := length_slots_word hrep (h.reshape.filled hb.filled) node h.mem
  rwa [hs, hw, length_take, min_eq_left h.le] at hlen

/-- A walk goes at least as far as any path of the tree that starts its key. -/
theorem Reaches.le_of_spells {j : ℕ} {us : List ℕ}
    {node : NodeId} (h : Reaches cfg t c t.root pgs j vs t' c' node) (hb : Base cfg t c)
    (hsp : Spells cfg c n w us) (hw : w <+: pgs) : w.length ≤ j := by
  have hsp' := h.reshape.retains hb.represents n w us hsp
  obtain ⟨hn, hword, -⟩ := (h.reshape.represents hb.represents).spells_iff.mp hsp'
  refine h.longest hb.represents hn hw.length_le ?_
  rw [← hword, ← prefix_iff_eq_take.mp hw]

end Keeps

/-! ## 3. Insertion and lookup -/

section Insert

variable {cfg : CacheConfig} {t : RootedTree NodeId} {c : RadixCache ℕ} {locks : List NodeId}
  {key : RadixKey} {value : List ℕ}

/-- What an insertion did to the pages and to the paths: `j` pages of the key were found. -/
structure Stores (cfg : CacheConfig) (t : RootedTree NodeId) (c : RadixCache ℕ)
    (locks : List NodeId) (key : RadixKey) (value : List ℕ) (j : ℕ) (t' : RootedTree NodeId)
    (c' : RadixCache ℕ) : Prop where
  inv : Inv cfg t' locks c'
  pagedTree : PagedTree cfg.pageSize t' c'
  retains : Retains cfg c c'
  le : j ≤ (key.label cfg.pageSize).length
  longest : ∀ n w us, Spells cfg c n w us → w <+: key.label cfg.pageSize → w.length ≤ j
  treePages : treePages cfg.pageSize t' c'
    = RadixCache.treePages cfg.pageSize t c + heads cfg.pageSize (value.drop (cfg.pageSize * j))
  stored : ∃ n us, Spells cfg c' n (key.label cfg.pageSize) us

/-- **`insert`** in terms of pages and paths. -/
theorem insert_stores (hi : Inv cfg t locks c) (hp : PagedTree cfg.pageSize t c)
    (hkey : key.Fits cfg.isEagle cfg.pageSize) (hlen : value.length = key.len)
    (hv : Paged cfg.pageSize value) (hhash : cfg.enableKvCacheEvents = true → key.Hashable)
    (priority : ℤ) (chunked : Bool) :
    ∃ j t' c', c.insert cfg key value priority chunked = some (cfg.pageSize * j, c') ∧
      Stores cfg t c locks key value j t' c' := by
  have hmode : ModeOk cfg key := fun h => by rw [← hkey.mode]; exact h
  obtain ⟨hpages, hnorm⟩ := hkey.pages_eq
  obtain ⟨j, vs, t₁, c₁, node, t', c', heq, hreach, hg⟩ := insert_spec hi.toBase hmode
    (by rw [hnorm, hlen]) hhash priority chunked
  rw [hnorm, ← hlen, take_length] at hg
  rw [hpages] at hreach hg
  have hi₁ := hreach.reshape.inv hi
  have hi' := hg.inv hi₁
  have hdrop : (key.label cfg.pageSize).drop j = [] → value.drop (cfg.pageSize * j) = [] := by
    intro h
    rw [drop_eq_nil_iff] at h ⊢
    rw [hlen, hkey.len_eq]
    exact Nat.mul_le_mul_left _ h
  refine ⟨j, t', c', heq, hi', ?_, ?_, hreach.le, ?_, ?_, ?_⟩
  · exact hg.pagedTree (hv.drop cfg.pageSize_pos j) (hreach.reshape.pagedTree hp)
  · exact (hreach.reshape.retains hi.represents).trans (hg.retains hi₁.toBase)
  · exact fun n w us hsp hw => hreach.le_of_spells hi.toBase hsp hw
  · rw [hg.treePages hdrop, hreach.reshape.treePages hi.toBase]
  · obtain ⟨hsp, -⟩ := hreach.spells hi.toBase
    cases hg with
    | done hrest =>
      rw [drop_eq_nil_iff] at hrest
      rw [take_of_length_le hrest] at hsp
      exact ⟨node, vs, hsp⟩
    | @leaf v key' _ _ hl _ _ hat =>
      have hrep' := hat.represents hi₁.represents
      refine ⟨v, _, hrep'.spells_iff.mpr ⟨Finset.mem_insert_self _ _, ?_, rfl⟩⟩
      rw [hat.word_new, hl, ← ((hi₁.represents.spells_iff.mp hsp).2.1), take_append_drop]

/-- **A lookup of a key that is in the tree** finds all of it. -/
theorem matchPrefix_stored (hi : Inv cfg t locks c) (hp : PagedTree cfg.pageSize t c)
    (hkey : key.Fits cfg.isEagle cfg.pageSize)
    (hst : ∃ n us, Spells cfg c n (key.label cfg.pageSize) us) :
    ∃ vs t' c' node, c.matchPrefix cfg key = some (⟨vs, node, node, 0⟩, c') ∧
      Inv cfg t' locks c' ∧ PagedTree cfg.pageSize t' c' ∧ Retains cfg c c' ∧
      treePages cfg.pageSize t' c' = treePages cfg.pageSize t c ∧ node ∈ t'.nodes ∧
      Spells cfg c' node (key.label cfg.pageSize) vs ∧ vs.length = key.len ∧
      Paged cfg.pageSize vs := by
  have hmode : ModeOk cfg key := fun h => by rw [← hkey.mode]; exact h
  obtain ⟨j, vs, t', c', node, heq, hreach⟩ := matchPrefix_spec hi.toBase hmode
  rw [hkey.pages_eq.1] at hreach
  obtain ⟨n, us, hsp⟩ := hst
  have hj : j = (key.label cfg.pageSize).length :=
    Nat.le_antisymm hreach.le (hreach.le_of_spells hi.toBase hsp (prefix_refl _))
  have hi' := hreach.reshape.inv hi
  have hp' := hreach.reshape.pagedTree hp
  obtain ⟨hsp', hlen⟩ := hreach.spells hi.toBase
  rw [hj, take_length] at hsp'
  refine ⟨vs, t', c', node, heq, hi', hp', hreach.reshape.retains hi.represents,
    hreach.reshape.treePages hi.toBase, hreach.mem, hsp', by rw [hlen, hj, ← hkey.len_eq], ?_⟩
  rw [(hi'.represents.spells_iff.mp hsp').2.2]
  exact hi'.toBase.paged_word hp' node hreach.mem

end Insert

end RadixCache

end Sglang
