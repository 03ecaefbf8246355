/-
# `RadixCache` is a prefix-closed map

A page of slots is STORED under a namespace and a list of pages when some path from the root
spells that list and more; `Stored` reads this off the heap, through the child dicts.  The
abstract state of the cache is a `PrefixMap`, and it is refined when it has exactly the stored
pages in it (`Refines`).

* A reshaping stores what it stored before: a split cuts a label, and no word changes.
* An insertion stores the absent prefixes of its key besides.
* An eviction keeps what does not end in a node it removed.

`Run` lets the map and the cache go side by side, the map by the abstract rules and the cache by
the transcribed methods; the theorem at the end says that they never come apart and that the
answers of the methods are those of the map.
-/
import Sglang.Lib.PrefixMap
import Sglang.MemCache.Invariant

namespace Sglang

open Lib List Finset RootedTree

namespace RadixCache

variable {σ : Type}

/-! ## 1. What is stored -/

/-- Following the child dicts from the root leads to `n` with the pages `w` and the slots `vs`
behind. -/
inductive Spells (cfg : CacheConfig) (c : RadixCache σ) :
    NodeId → List RadixKey.TaggedPage → List σ → Prop
  | root : Spells cfg c c.rootNode [] []
  | child {p n : NodeId} {ck : ChildKey} {w : List RadixKey.TaggedPage} {vs : List σ} :
    Spells cfg c p w vs → (c.nodes p).children.lookup ck = some n →
    Spells cfg c n (w ++ c.label cfg n) (vs ++ c.slots n)

/-- The node is in the tree. -/
def InTree (cfg : CacheConfig) (c : RadixCache σ) (n : NodeId) : Prop := ∃ w vs, Spells cfg c n w vs

/-- A list of pages in a namespace. -/
def tagged (ns : Option String) (pgs : List (List Atom)) : List RadixKey.TaggedPage :=
  pgs.map fun pg => (ns, pg)

/-- The `i`-th page of a list of slots. -/
def pageOf (cfg : CacheConfig) (vs : List σ) (i : ℕ) : List σ :=
  (vs.drop (i * cfg.pageSize)).take cfg.pageSize

/-- `page` holds the slots of the last page of `pgs`. -/
def Stored (cfg : CacheConfig) (c : RadixCache σ) (ns : Option String) (pgs : List (List Atom))
    (page : List σ) : Prop :=
  pgs ≠ [] ∧ ∃ n w vs, Spells cfg c n w vs ∧ tagged ns pgs <+: w ∧
    page = pageOf cfg vs (pgs.length - 1)

section Stored

variable {cfg : CacheConfig} {t t' : RootedTree NodeId} {c c' : RadixCache σ} {n m : NodeId}
  {ns : Option String} {pgs : List (List Atom)} {page : List σ}

@[simp] theorem length_tagged : (tagged ns pgs).length = pgs.length := length_map _

variable {w : List RadixKey.TaggedPage}

theorem tagged_untagged (h : ∀ tp ∈ w, tp.1 = ns) : tagged ns (untagged w) = w := by
  rw [tagged, untagged, List.map_map]
  conv_rhs => rw [← map_id w]
  refine map_congr_left fun tp htp => ?_
  rw [← h tp htp]
  rfl

theorem tagged_take (i : ℕ) : tagged ns (pgs.take i) = (tagged ns pgs).take i := map_take

theorem tagged_prefix_iff {pgs' : List (List Atom)} :
    tagged ns pgs <+: tagged ns pgs' ↔ pgs <+: pgs' := by
  constructor
  · intro h
    have := h.map Prod.snd
    simpa [tagged, Function.comp_def] using this
  · exact fun h => h.map _

/-- The walk through the dicts is the walk down the tree. -/
theorem Represents.spells_iff (hrep : Represents cfg t c) {vs : List σ} : Spells cfg c n w vs ↔
      n ∈ t.nodes ∧ w = t.word (c.label cfg) n ∧ vs = t.word c.slots n := by
  constructor
  · intro h
    induction h with
    | root => rw [hrep.root_eq]; simp
    | child _ hl ih =>
      obtain ⟨hp, rfl, rfl⟩ := ih
      obtain ⟨⟨h1, h2, rfl⟩, -⟩ := (hrep.lookup_iff hp).mp hl
      exact ⟨h1, (word_cons h1 h2).symm, (word_cons h1 h2).symm⟩
  · rintro ⟨hn, rfl, rfl⟩
    refine t.induction (P := fun n => Spells cfg c n (t.word (c.label cfg) n) (t.word c.slots n))
      ?_ ?_ n hn
    · rw [word_root, word_root, ← hrep.root_eq]
      exact .root
    · intro n hn hr ih
      obtain ⟨ck, -, hl⟩ := hrep.lookup_of_child ⟨hn, hr, rfl⟩
      rw [word_cons hn hr, word_cons hn hr]
      exact .child ih hl

theorem Represents.inTree_iff (hrep : Represents cfg t c) : InTree cfg c n ↔ n ∈ t.nodes := by
  constructor
  · rintro ⟨w, vs, h⟩
    exact (hrep.spells_iff.mp h).1
  · exact fun hn => ⟨_, _, hrep.spells_iff.mpr ⟨hn, rfl, rfl⟩⟩

theorem Represents.stored_iff (hrep : Represents cfg t c) :
    Stored cfg c ns pgs page ↔ pgs ≠ [] ∧ ∃ n ∈ t.nodes, tagged ns pgs <+: t.word (c.label cfg) n ∧
      page = pageOf cfg (t.word c.slots n) (pgs.length - 1) := by
  refine and_congr_right fun _ => ?_
  constructor
  · rintro ⟨n, w, vs, h, hpre, hpage⟩
    obtain ⟨hn, rfl, rfl⟩ := hrep.spells_iff.mp h
    exact ⟨n, hn, hpre, hpage⟩
  · rintro ⟨n, hn, hpre, hpage⟩
    exact ⟨n, _, _, hrep.spells_iff.mpr ⟨hn, rfl, rfl⟩, hpre, hpage⟩

/-- Along every path there are as many slots as units. -/
theorem length_slots_word (hrep : Represents cfg t c) (hfill : Filled t c) :
    ∀ n ∈ t.nodes, (t.word c.slots n).length = cfg.pageSize * (t.word (c.label cfg) n).length := by
  refine t.induction (by simp) ?_
  intro n hn hr ih
  obtain ⟨value, hv, hlen⟩ := hfill n hn hr
  have hs : c.slots n = value := by rw [slots, hv]; rfl
  rw [word_cons hn hr, word_cons hn hr, length_append,
    length_append, ih, hs, hlen, (hrep.fits hn hr).len_eq, Nat.mul_add]
  rfl

variable {i : ℕ}

/-- A page is read off any list of slots that starts with it. -/
theorem pageOf_eq_of_le {vs ws : List σ} (h : vs <+: ws)
    (hi : (i + 1) * cfg.pageSize ≤ vs.length) : pageOf cfg ws i = pageOf cfg vs i := by
  obtain ⟨a, rfl⟩ := h
  rw [Nat.add_mul] at hi
  rw [pageOf, pageOf, drop_append_of_le_length (by omega),
    take_append_of_le_length (by rw [length_drop]; omega)]

/-- The node in which the last page of a stored list lies, and the page there. -/
theorem exists_cover_node (hrep : Represents cfg t c) (hfill : Filled t c) (hne : pgs ≠ [])
    (hm : m ∈ t.nodes) (hpre : tagged ns pgs <+: t.word (c.label cfg) m) :
    ∃ a ∈ t.up m, (t.word (c.label cfg) (t.parent a)).length < pgs.length ∧
      tagged ns pgs <+: t.word (c.label cfg) a ∧
      pageOf cfg (t.word c.slots m) (pgs.length - 1)
        = pageOf cfg (t.word c.slots a) (pgs.length - 1) := by
  have hpos : 0 < pgs.length := length_pos_iff.mpr hne
  have hlen := hpre.length_le
  rw [length_tagged] at hlen
  obtain ⟨a, ha, h1, h2⟩ := exists_cover hpos hm hlen
  have ha' := (mem_of_mem_up hm ha).1
  refine ⟨a, ha, h1, ?_, ?_⟩
  · exact prefix_of_prefix_length_le hpre (word_prefix_of_mem_up hm ha)
      (by rw [length_tagged]; exact h2)
  · refine pageOf_eq_of_le (word_prefix_of_mem_up hm ha) ?_
    rw [length_slots_word hrep hfill a ha', Nat.sub_add_cancel hpos, Nat.mul_comm]
    exact Nat.mul_le_mul_left _ h2

/-- Two paths that agree on a list of pages have the same node at its end. -/
theorem cover_mem_up (hrep : Represents cfg t c) {a : NodeId} (ha : a ∈ t.nodes)
    (hr : a ≠ t.root) (hm : m ∈ t.nodes)
    (hlt : (t.word (c.label cfg) (t.parent a)).length < pgs.length)
    (hpa : tagged ns pgs <+: t.word (c.label cfg) a)
    (hpm : tagged ns pgs <+: t.word (c.label cfg) m) : a ∈ t.up m := by
  have hle := hpa.length_le
  rw [length_tagged] at hle
  refine hrep.separated.mem_up_of_cover ha hr hm hlt hle ?_
  rw [← @length_tagged ns, ← prefix_iff_eq_take.mp hpa]
  exact hpm

theorem Stored.take (h : Stored cfg c ns pgs page) (hi : 0 < i) :
    ∃ page', Stored cfg c ns (pgs.take i) page' := by
  obtain ⟨hne, n, w, vs, hs, hpre, -⟩ := h
  refine ⟨_, ?_, n, w, vs, hs, ?_, rfl⟩
  · rw [Ne, take_eq_nil_iff]
    rintro (h | h)
    · omega
    · exact hne h
  · rw [tagged_take]
    exact (List.take_prefix _ _).trans hpre

/-! ## 2. What the steps store -/

/-- Every path after a reshaping is part of a path before. -/
theorem Reshape.exists_old (h : Reshape cfg t c t' c') : ∀ m ∈ t'.nodes, ∃ n ∈ t.nodes,
    t'.word (c'.label cfg) m <+: t.word (c.label cfg) n ∧
      t'.word c'.slots m <+: t.word c.slots n := by
  induction h with
  | refl => exact fun m hm => ⟨m, hm, prefix_rfl, prefix_rfl⟩
  | touch _ ha ih =>
    intro m hm
    rw [ha.label, ha.slots]
    exact ih m hm
  | @split t₁ c₁ c₂ x v i h hs ih =>
    have hxv : v ∈ hs.tree.up x := (mem_subdivide_up_new hs.mem).mpr (mem_up_self hs.mem hs.ne_root)
    have hx : x ∈ hs.tree.nodes := Finset.mem_insert_of_mem hs.mem
    intro m hm
    rcases mem_insert.mp hm with rfl | hm
    · obtain ⟨n, hn, h1, h2⟩ := ih x hs.mem
      refine ⟨n, hn, ?_, ?_⟩
      · refine (word_prefix_of_mem_up hx hxv).trans ?_
        rw [hs.word_old hs.mem]
        exact h1
      · refine (word_prefix_of_mem_up hx hxv).trans ?_
        rw [hs.slots_word hs.mem]
        exact h2
    · obtain ⟨n, hn, h1, h2⟩ := ih m hm
      exact ⟨n, hn, by rw [hs.word_old hm]; exact h1, by rw [hs.slots_word hm]; exact h2⟩

/-- **Splits never change what is stored.** -/
theorem Reshape.stored_iff (h : Reshape cfg t c t' c') (hrep : Represents cfg t c)
    (hfill : Filled t c) : Stored cfg c' ns pgs page ↔ Stored cfg c ns pgs page := by
  have hrep' := h.represents hrep
  have hfill' := h.filled hfill
  rw [hrep'.stored_iff, hrep.stored_iff]
  refine and_congr_right fun hne => ?_
  have hpos : 0 < pgs.length := length_pos_iff.mpr hne
  constructor
  · rintro ⟨m, hm, hpre, rfl⟩
    obtain ⟨n, hn, h1, h2⟩ := h.exists_old m hm
    refine ⟨n, hn, hpre.trans h1, (pageOf_eq_of_le h2 ?_).symm⟩
    have hle := hpre.length_le
    rw [length_tagged] at hle
    rw [length_slots_word hrep' hfill' m hm, Nat.sub_add_cancel hpos, Nat.mul_comm]
    exact Nat.mul_le_mul_left _ hle
  · rintro ⟨n, hn, hpre, rfl⟩
    exact ⟨n, h.nodes_subset hn, by rw [h.word_eq hn]; exact hpre, by rw [h.slots_eq hn]⟩

theorem SameLinks.stored_iff (h : SameLinks c c')
    (hv : ∀ m, (c'.nodes m).value = (c.nodes m).value) :
    Stored cfg c' ns pgs page ↔ Stored cfg c ns pgs page := by
  have hspell : ∀ {n : NodeId} {w : List RadixKey.TaggedPage} {vs : List σ},
      Spells cfg c' n w vs ↔ Spells cfg c n w vs := by
    intro n w vs
    have hs : c'.slots = c.slots := by funext m; rw [slots, hv, slots]
    constructor
    · intro hw
      induction hw with
      | root => rw [h.rootNode]; exact .root
      | child _ hl ih => rw [h.label, hs]; rw [h.children] at hl; exact .child ih hl
    · intro hw
      induction hw with
      | root => rw [← h.rootNode]; exact .root
      | child _ hl ih => rw [← h.label, ← hs]; rw [← h.children] at hl; exact .child ih hl
  simp [Stored, hspell]

theorem tagged_pages (cfg : CacheConfig) (key : RadixKey) :
    tagged key.extraKey (untagged (pages cfg key)) = pages cfg key := by
  refine tagged_untagged fun tp htp => ?_
  obtain ⟨pg, -, rfl⟩ := List.mem_map.mp htp
  rw [normKey, RadixKey.pageAligned_extraKey]
  unfold RadixKey.maybeToBigramView
  split <;> rfl

/-- The map holds exactly the stored pages. -/
def Refines (cfg : CacheConfig) (M : PrefixMap (Option String) (List Atom) (List σ))
    (c : RadixCache σ) : Prop :=
  ∀ ns pgs page, M ns pgs = some page ↔ Stored cfg c ns pgs page

variable {M : PrefixMap (Option String) (List Atom) (List σ)} {j : ℕ} {vs : List σ}

theorem Refines.eq_none (hM : Refines cfg M c) (h : ∀ page, ¬ Stored cfg c ns pgs page) :
    M ns pgs = none := by
  cases e : M ns pgs with
  | none => rfl
  | some page => exact absurd ((hM _ _ _).mp e) (h page)

/-- A walk collects one page of slots for each page it went down. -/
theorem Reaches.length_slots {pgs : List RadixKey.TaggedPage} {node : NodeId}
    (h : Reaches cfg t c t.root pgs j vs t' c' node) (hrep : Represents cfg t c)
    (hfill : Filled t c) : vs.length = cfg.pageSize * j := by
  have hlen := length_slots_word (h.reshape.represents hrep) (h.reshape.filled hfill) node h.mem
  rw [h.slots, h.word, word_root, word_root, nil_append,
    nil_append, length_take, min_eq_left h.le] at hlen
  exact hlen

/-- What the walk went down is stored, page by page. -/
theorem Reaches.stored {node : NodeId} (h : Reaches cfg t c t.root (tagged ns pgs) j vs t' c' node)
    (hrep : Represents cfg t c) (hfill : Filled t c) (h0 : 0 < i) (hi : i ≤ j) :
    Stored cfg c ns (pgs.take i) (pageOf cfg vs (i - 1)) := by
  have hle := h.le
  rw [length_tagged] at hle
  rw [← h.reshape.stored_iff hrep hfill, (h.reshape.represents hrep).stored_iff]
  refine ⟨?_, node, h.mem, ?_, ?_⟩
  · rw [Ne, take_eq_nil_iff]
    rintro (e | e)
    · omega
    · rw [e, length_nil] at hle
      omega
  · rw [h.word, word_root, tagged_take]
    exact take_prefix_take_left hi
  · rw [h.slots, word_root, nil_append, length_take, min_eq_left (by omega)]

/-- What lies beyond is not. -/
theorem Reaches.not_stored {node : NodeId}
    (h : Reaches cfg t c t.root (tagged ns pgs) j vs t' c' node) (hrep : Represents cfg t c)
    (hfill : Filled t c) (hi : j < i) (hle : i ≤ pgs.length) (page : List σ) :
    ¬ Stored cfg c ns (pgs.take i) page := by
  intro hst
  rw [← h.reshape.stored_iff hrep hfill, (h.reshape.represents hrep).stored_iff] at hst
  obtain ⟨-, m, hm, hpre, -⟩ := hst
  rw [tagged_take] at hpre
  have := h.longest hrep hm (by rw [length_tagged]; exact hle) hpre
  omega

/-- **A walk finds the longest prefix that is present, and its slots.** -/
theorem Reaches.lookup_eq {node : NodeId}
    (h : Reaches cfg t c t.root (tagged ns pgs) j vs t' c' node) (hM : Refines cfg M c)
    (hrep : Represents cfg t c) (hfill : Filled t c) :
    M.longest ns pgs = j ∧ (M.lookup ns pgs).flatten = vs := by
  have hle := h.le
  rw [length_tagged] at hle
  have hlong : M.longest ns pgs = j := by
    refine PrefixMap.longest_eq hle (fun i h0 hi => ?_) (fun i h1 h2 => ?_)
    · rw [(hM _ _ _).mpr (h.stored hrep hfill h0 hi)]
      rfl
    · exact hM.eq_none (h.not_stored hrep hfill h1 h2)
  refine ⟨hlong, ?_⟩
  have hval : ∀ i, i < M.longest ns pgs → M ns (pgs.take (i + 1)) = some (pageOf cfg vs i) := by
    intro i hi
    rw [hlong] at hi
    exact (hM _ _ _).mpr (h.stored hrep hfill (Nat.succ_pos i) hi)
  have hlen := h.length_slots hrep hfill
  have hdiv : vs.length / cfg.pageSize = j := by
    rw [hlen, Nat.mul_div_cancel_left j cfg.pageSize_pos]
  rw [PrefixMap.lookup_eq hval, hlong, ← hdiv]
  exact flatten_chunks cfg.pageSize_pos ⟨j, hlen⟩

/-- **An insertion stores the absent prefixes of its key and nothing else.** -/
theorem Grows.stored_iff {node : NodeId} {t₁ : RootedTree NodeId} {c₁ : RadixCache σ}
    {value : List σ} (h : Reaches cfg t c t.root (tagged ns pgs) j vs t₁ c₁ node)
    (hg : Grows cfg t₁ c₁ node ((tagged ns pgs).drop j)
      ((value.take (cfg.pageSize * pgs.length)).drop (cfg.pageSize * j)) t' c')
    (hM : Refines cfg M c) (hb : Base cfg t c) (ns' : Option String) (pgs' : List (List Atom))
    (page : List σ) :
    M.insert ns pgs (pageOf cfg value) ns' pgs' = some page ↔ Stored cfg c' ns' pgs' page := by
  have hrep := hb.represents
  have hfill := hb.filled
  have hb₁ := h.reshape.base hb
  have hold : ∀ {ns pgs page}, Stored cfg c₁ ns pgs page ↔ M ns pgs = some page := by
    intro ns pgs page
    rw [h.reshape.stored_iff hrep hfill, hM]
  have hshort : ∀ {w : List (List Atom)}, w ≠ [] → w <+: pgs → w.length ≤ j →
      M ns w = some (pageOf cfg vs (w.length - 1)) := by
    intro w hne hpre hlen
    have := h.stored hrep hfill (length_pos_iff.mpr hne) hlen
    rw [← prefix_iff_eq_take.mp hpre] at this
    exact (hM _ _ _).mpr this
  rw [PrefixMap.insert_eq_some_iff]
  cases hg with
  | done hrest =>
    rw [hold]
    constructor
    · rintro (hs | ⟨hn, rfl, hne, hpre, -⟩)
      · exact hs
      · have hlen := hpre.length_le
        have : pgs.length ≤ j := by
          have := drop_eq_nil_iff.mp hrest
          rwa [length_tagged] at this
        rw [hshort hne hpre (by omega)] at hn
        cases hn
    · exact Or.inl
  | @leaf v key _ hrest hlabel hlen _ hat =>
    have hwnode : t₁.word (c₁.label cfg) node = (tagged ns pgs).take j := by
      rw [h.word, word_root, nil_append]
    have hsnode : t₁.word c₁.slots node = vs := by
      rw [h.slots, word_root, nil_append]
    have hslots : ∀ m ∈ t₁.nodes, c'.slots m = c₁.slots m := by
      intro m hm
      rw [slots, hat.value_old m hm, slots]
    have hwv : hat.tree.word (c'.label cfg) v = tagged ns pgs := by
      rw [hat.word_new, hwnode, hlabel, take_append_drop]
    have hsv : hat.tree.word c'.slots v
        = vs ++ (value.take (cfg.pageSize * pgs.length)).drop (cfg.pageSize * j) := by
      rw [IsAttach.tree, word_attach_new hslots, hsnode, slots, hat.value_new]
      rfl
    have hvs := h.length_slots hrep hfill
    have hcut : vs <+: vs ++ (value.take (cfg.pageSize * pgs.length)).drop (cfg.pageSize * j) :=
      prefix_append _ _
    have hnew : ∀ {i : ℕ}, j ≤ i → i < pgs.length →
        pageOf cfg (vs ++ (value.take (cfg.pageSize * pgs.length)).drop (cfg.pageSize * j)) i
          = pageOf cfg value i := by
      intro i hji hi
      have h1 : cfg.pageSize * j ≤ i * cfg.pageSize := by
        rw [Nat.mul_comm i]; exact Nat.mul_le_mul_left _ hji
      have h2 : i * cfg.pageSize + cfg.pageSize ≤ cfg.pageSize * pgs.length := by
        rw [Nat.mul_comm]; exact Nat.mul_le_mul_left _ hi
      rw [pageOf, drop_append, hvs, drop_eq_nil_of_le (by omega), nil_append,
        drop_drop, Nat.add_sub_cancel' h1, drop_take, take_take,
        min_eq_left (by omega), pageOf]
    rw [(hat.represents hb₁.represents).stored_iff]
    constructor
    · rintro (hs | ⟨hn, rfl, hne, hpre, rfl⟩)
      · obtain ⟨hne, m, hm, hpre, hpage⟩ := hb₁.represents.stored_iff.mp (hold.mpr hs)
        refine ⟨hne, m, Finset.mem_insert_of_mem hm, by rw [hat.word_old hm]; exact hpre, ?_⟩
        rw [IsAttach.tree, word_attach_old hm hslots]
        exact hpage
      · refine ⟨hne, v, Finset.mem_insert_self _ _, ?_, ?_⟩
        · rw [hwv]; exact tagged_prefix_iff.mpr hpre
        · have hpos : 0 < pgs'.length := length_pos_iff.mpr hne
          have hle := hpre.length_le
          rw [hsv, hnew _ (by omega)]
          by_contra hc
          rw [hshort hne hpre (by omega)] at hn
          cases hn
    · rintro ⟨hne, m, hm, hpre, hpage⟩
      rcases mem_insert.mp hm with rfl | hm
      · rw [hwv] at hpre
        have hpos : 0 < pgs'.length := length_pos_iff.mpr hne
        have hns : ns' = ns := by
          have hnth : (tagged ns' pgs')[0]? = (tagged ns pgs)[0]? := by
            obtain ⟨a, ha⟩ := hpre
            rw [← ha, getElem?_append_left (by rw [length_tagged]; exact hpos)]
          obtain ⟨x, l, rfl⟩ := exists_cons_of_ne_nil hne
          cases pgs with
          | nil => simp [tagged] at hnth
          | cons y k =>
            simp only [tagged, List.map_cons, getElem?_cons_zero, Option.some.injEq,
              Prod.mk.injEq] at hnth
            exact hnth.1
        subst hns
        have hpre' := tagged_prefix_iff.mp hpre
        rw [hsv] at hpage
        by_cases hj : pgs'.length ≤ j
        · left
          rw [hshort hne hpre' hj, hpage, pageOf_eq_of_le hcut]
          rw [hvs, Nat.sub_add_cancel hpos, Nat.mul_comm]
          exact Nat.mul_le_mul_left _ hj
        · right
          have hle := hpre'.length_le
          have hnone : M ns' pgs' = none := by
            have := hM.eq_none (h.not_stored hrep hfill (i := pgs'.length) (by omega) hle)
            rwa [← prefix_iff_eq_take.mp hpre'] at this
          refine ⟨hnone, rfl, hne, hpre', ?_⟩
          rw [hpage, hnew (by omega) (by omega)]
      · left
        rw [hat.word_old hm] at hpre
        rw [IsAttach.tree, word_attach_old hm hslots] at hpage
        exact hold.mp (hb₁.represents.stored_iff.mpr ⟨hne, m, hm, hpre, hpage⟩)

/-! ## 3. Evictions -/

/-- What a run of evictions amounts to: the nodes of `removed` are gone, each after its children,
and nothing else has changed. -/
structure Removes (t : RootedTree NodeId) (c : RadixCache σ) (removed : List NodeId)
    (t' : RootedTree NodeId) (c' : RadixCache σ) (freed : List (List σ)) : Prop where
  mem_nodes : ∀ n, n ∈ t'.nodes ↔ n ∈ t.nodes ∧ n ∉ removed
  root : t'.root = t.root
  parent : t'.parent = t.parent
  up : t'.up = t.up
  key : ∀ n, (c'.nodes n).key = (c.nodes n).key
  value : ∀ n, (c'.nodes n).value = (c.nodes n).value
  lockRef : ∀ n, (c'.nodes n).lockRef = (c.nodes n).lockRef
  freed_eq : freed = removed.map c.slots
  unlocked : ∀ n ∈ removed, n ∈ t.nodes ∧ n ≠ t.root ∧ (c.nodes n).lockRef ≤ 0
  nodup : removed.Nodup
  leaves_first : ∀ l₁ n l₂, removed = l₁ ++ n :: l₂ → ∀ k, t.Child n k → k ∈ l₁

theorem Evicts.exists_removes {freed : List (List σ)} (h : Evicts cfg t c t' c' freed) :
    ∃ removed, Removes t c removed t' c' freed := by
  induction h with
  | refl =>
    refine ⟨[], by simp, rfl, rfl, rfl, fun _ => rfl, fun _ => rfl, fun _ => rfl, rfl, by simp,
      nodup_nil, ?_⟩
    intro l₁ n l₂ e
    simp at e
  | @step t₁ c₁ c₂ freed x value h hd h0 hv ih =>
    obtain ⟨removed, hr⟩ := ih
    have hx := (hr.mem_nodes x).mp hd.mem
    refine ⟨removed ++ [x], ?_, hr.root, hr.parent, hr.up,
      fun n => (hd.key n).trans (hr.key n), fun n => (hd.value n).trans (hr.value n),
      fun n => (hd.lockRef n).trans (hr.lockRef n), ?_, ?_, ?_, ?_⟩
    · intro n
      rw [hd.tree_nodes, mem_erase, hr.mem_nodes, mem_append, List.mem_singleton]
      tauto
    · rw [hr.freed_eq, map_append]
      have : c.slots x = value := by rw [slots, ← hr.value, hv]; rfl
      rw [List.map_singleton, this]
    · intro n hn
      rcases mem_append.mp hn with hn | hn
      · exact hr.unlocked n hn
      · rw [List.mem_singleton.mp hn]
        exact ⟨hx.1, fun e => hd.ne_root (e.trans hr.root.symm), by rw [← hr.lockRef]; exact h0⟩
    · rw [nodup_append]
      refine ⟨hr.nodup, nodup_singleton x, fun a ha b hb => ?_⟩
      rw [List.mem_singleton.mp hb]
      exact fun e => hx.2 (e ▸ ha)
    · intro l₁ n l₂ e k hk
      rcases append_eq_append_iff.mp e with ⟨as, h1, h2⟩ | ⟨bs, h1, h2⟩
      · cases as with
        | nil =>
          rw [append_nil] at h1
          obtain ⟨rfl, -⟩ := List.cons.inj h2
          by_contra hk'
          rw [h1] at hk'
          refine hd.leaf k ⟨(hr.mem_nodes k).mpr ⟨hk.1, hk'⟩, fun e => hk.2.1 (e.trans hr.root), ?_⟩
          rw [hr.parent]
          exact hk.2.2
        | cons b as =>
          have := congrArg List.length h2
          simp at this
      · cases bs with
        | nil =>
          rw [append_nil] at h1
          obtain ⟨rfl, -⟩ := List.cons.inj h2
          by_contra hk'
          rw [← h1] at hk'
          refine hd.leaf k ⟨(hr.mem_nodes k).mpr ⟨hk.1, hk'⟩, fun e => hk.2.1 (e.trans hr.root), ?_⟩
          rw [hr.parent]
          exact hk.2.2
        | cons b bs =>
          obtain ⟨rfl, -⟩ := List.cons.inj h2
          exact hr.leaves_first l₁ n bs h1 k hk

/-- The list of pages ends in the label of the node `n`. -/
def EndsIn (cfg : CacheConfig) (c : RadixCache σ) (n : NodeId) (ns : Option String)
    (pgs : List (List Atom)) : Prop :=
  ∃ w vs, Spells cfg c n w vs ∧ tagged ns pgs <+: w ∧ w.length < pgs.length + (c.label cfg n).length

/-- **An eviction forgets what ends in a node that it removed, and nothing else.** -/
theorem Evicts.stored_iff {freed : List (List σ)} (h : Evicts cfg t c t' c' freed)
    (hb : Base cfg t c) : Stored cfg c' ns pgs page ↔ Stored cfg c ns pgs page ∧
      ¬ ∃ n, InTree cfg c n ∧ ¬ InTree cfg c' n ∧ EndsIn cfg c n ns pgs := by
  have hrep := hb.represents
  have hrep' := (h.base hb).represents
  obtain ⟨removed, hr⟩ := h.exists_removes
  have hword : ∀ {α : Type} (label : NodeId → List α), t'.word label = t.word label := by
    intro α label
    funext m
    rw [RootedTree.word, hr.up, RootedTree.word]
  have hlabel : c'.label cfg = c.label cfg := by
    funext m
    rw [label, hr.key, label]
  have hslots : c'.slots = c.slots := by
    funext m
    rw [slots, hr.value, slots]
  rw [hrep'.stored_iff, hrep.stored_iff, hword, hword, hlabel, hslots]
  constructor
  · rintro ⟨hne, m, hm, hpre, hpage⟩
    have hm' := (hr.mem_nodes m).mp hm
    refine ⟨⟨hne, m, hm'.1, hpre, hpage⟩, ?_⟩
    rintro ⟨n, hn, hn', w, vs, hsp, hpn, hlt⟩
    obtain ⟨hnt, rfl, rfl⟩ := hrep.spells_iff.mp hsp
    have hnr : n ≠ t.root := by
      rintro rfl
      have := hpn.length_le
      rw [word_root, length_tagged, length_nil] at this
      exact hne (eq_nil_of_length_eq_zero (by omega))
    have hcov : (t.word (c.label cfg) (t.parent n)).length < pgs.length := by
      rw [word_cons hnt hnr, length_append] at hlt
      omega
    have hup := cover_mem_up hrep hnt hnr hm'.1 hcov hpn hpre
    rw [← hr.up] at hup
    exact hn' (hrep'.inTree_iff.mpr (mem_of_mem_up hm hup).1)
  · rintro ⟨⟨hne, m, hm, hpre, rfl⟩, hnot⟩
    obtain ⟨a, ha, hlt, hpa, hpage⟩ := exists_cover_node hrep hb.filled hne hm hpre
    obtain ⟨hat, har⟩ := mem_of_mem_up hm ha
    refine ⟨hne, a, ?_, hpa, hpage⟩
    by_contra hna
    refine hnot ⟨a, hrep.inTree_iff.mpr hat, fun h => hna (hrep'.inTree_iff.mp h), _, _,
      hrep.spells_iff.mpr ⟨hat, rfl, rfl⟩, hpa, ?_⟩
    rw [word_cons hat har, length_append]
    omega

end Stored

/-! ## 4. The refinement -/

/-- The map and the cache side by side, from a reset on.  The keys are in the mode of the cache,
there is a slot for every unit, with events on the token ids are 32-bit numbers, and locks are
taken and given back at nodes of the tree. -/
inductive Run (cfg : CacheConfig) :
    PrefixMap (Option String) (List Atom) (List σ) → RadixCache σ → Prop
  | reset (c : RadixCache σ) : Run cfg .empty (c.reset cfg)
  | insert {M : PrefixMap (Option String) (List Atom) (List σ)} {c c' : RadixCache σ}
      {key : RadixKey} {value : List σ} {priority : ℤ} {chunked : Bool} {r : ℕ} :
    Run cfg M c → ModeOk cfg key → (normKey cfg key).len ≤ value.length →
    (cfg.enableKvCacheEvents = true → key.Hashable) →
    c.insert cfg key value priority chunked = some (r, c') →
    Run cfg (M.insert key.extraKey (untagged (pages cfg key)) (pageOf cfg value)) c'
  | matchPrefix {M : PrefixMap (Option String) (List Atom) (List σ)} {c c' : RadixCache σ}
      {key : RadixKey} {r : MatchResult σ} :
    Run cfg M c → ModeOk cfg key → c.matchPrefix cfg key = some (r, c') → Run cfg M c'
  | incLockRef {M : PrefixMap (Option String) (List Atom) (List σ)} {c c' : RadixCache σ}
      {n : NodeId} {delta : ℤ} :
    Run cfg M c → InTree cfg c n → c.incLockRef n = some (c', delta) → Run cfg M c'
  | decLockRef {M : PrefixMap (Option String) (List Atom) (List σ)} {c c' : RadixCache σ}
      {n : NodeId} {delta : ℤ} :
    Run cfg M c → InTree cfg c n → c.decLockRef n = some (c', delta) → Run cfg M c'
  | evict {M : PrefixMap (Option String) (List Atom) (List σ)} {c c' : RadixCache σ}
      {numTokens r : ℕ} {freed : List (List σ)} :
    Run cfg M c → c.evict cfg numTokens = some (r, freed, c') →
    Run cfg (M.without fun ns pgs =>
      ∃ n, InTree cfg c n ∧ ¬ InTree cfg c' n ∧ EndsIn cfg c n ns pgs) c'

section Run

variable {cfg : CacheConfig} {M : PrefixMap (Option String) (List Atom) (List σ)}
  {c c' : RadixCache σ} {t : RootedTree NodeId}

/-- `insert` on a state with the base invariant, in terms of the map. -/
theorem insert_refines (hb : Base cfg t c) (hM : Refines cfg M c) {key : RadixKey}
    {value : List σ} (hmode : ModeOk cfg key) (hlen : (normKey cfg key).len ≤ value.length)
    (hhash : cfg.enableKvCacheEvents = true → key.Hashable) (priority : ℤ) (chunked : Bool) :
    ∃ t' c', c.insert cfg key value priority chunked
        = some (cfg.pageSize * M.longest key.extraKey (untagged (pages cfg key)), c') ∧
      Base cfg t' c' ∧
      Refines cfg (M.insert key.extraKey (untagged (pages cfg key)) (pageOf cfg value)) c' := by
  obtain ⟨j, vs, t₁, c₁, node, t', c', heq, hreach, hg⟩ :=
    insert_spec hb hmode hlen hhash priority chunked
  have hnorm : (normKey cfg key).len = cfg.pageSize * (untagged (pages cfg key)).length := by
    rw [(normKey_fits hmode).len_eq, untagged, length_map]
    rfl
  rw [← tagged_pages cfg key] at hreach hg
  rw [hnorm] at hg
  have hlong := (hreach.lookup_eq hM hb.represents hb.filled).1
  refine ⟨t', c', by rw [heq, hlong], hg.base (hreach.reshape.base hb), ?_⟩
  exact fun ns pgs page => Grows.stored_iff hreach hg hM hb ns pgs page

theorem matchPrefix_refines (hb : Base cfg t c) (hM : Refines cfg M c) {key : RadixKey}
    (hmode : ModeOk cfg key) :
    ∃ t' c' r, c.matchPrefix cfg key = some (r, c') ∧
      r.deviceIndices = (M.lookup key.extraKey (untagged (pages cfg key))).flatten ∧
      Base cfg t' c' ∧ Refines cfg M c' := by
  obtain ⟨j, vs, t', c', node, heq, hreach⟩ := matchPrefix_spec hb hmode
  rw [← tagged_pages cfg key] at hreach
  refine ⟨t', c', _, heq, (hreach.lookup_eq hM hb.represents hb.filled).2.symm,
    hreach.reshape.base hb, ?_⟩
  intro ns pgs page
  rw [hM, hreach.reshape.stored_iff hb.represents hb.filled]

theorem Relocks.refines {n : NodeId} {d : ℤ} (h : Relocks t n d c c') (hM : Refines cfg M c) :
    Refines cfg M c' := by
  intro ns pgs page
  rw [hM, h.toSameLinks.stored_iff h.value]

theorem Evicts.refines {t' : RootedTree NodeId} {freed : List (List σ)}
    (h : Evicts cfg t c t' c' freed) (hb : Base cfg t c) (hM : Refines cfg M c) :
    Refines cfg (M.without fun ns pgs =>
      ∃ n, InTree cfg c n ∧ ¬ InTree cfg c' n ∧ EndsIn cfg c n ns pgs) c' := by
  intro ns pgs page
  rw [PrefixMap.without_eq_some_iff, hM, h.stored_iff hb]

/-- **Along every run the map is refined**, and the base invariant holds. -/
theorem Run.refines (h : Run cfg M c) : (∃ t, Base cfg t c) ∧ Refines cfg M c := by
  induction h with
  | reset c =>
    have hb := (reset_inv cfg c).toBase
    refine ⟨⟨_, hb⟩, fun ns pgs page => ?_⟩
    rw [hb.represents.stored_iff]
    constructor
    · intro h; cases h
    · rintro ⟨hne, n, hn, hpre, -⟩
      have hroot : n = (rootTree c.counter).root := Finset.mem_singleton.mp hn
      rw [hroot, word_root] at hpre
      have := hpre.length_le
      rw [length_tagged, length_nil] at this
      exact absurd (eq_nil_of_length_eq_zero (by omega)) hne
  | insert _ hmode hlen hhash heq ih =>
    obtain ⟨⟨t, hb⟩, hM⟩ := ih
    obtain ⟨t', c', heq', hb', hM'⟩ := insert_refines hb hM hmode hlen hhash _ _
    rw [heq'] at heq
    cases heq
    exact ⟨⟨t', hb'⟩, hM'⟩
  | matchPrefix _ hmode heq ih =>
    obtain ⟨⟨t, hb⟩, hM⟩ := ih
    obtain ⟨t', c', r, heq', -, hb', hM'⟩ := matchPrefix_refines hb hM hmode
    rw [heq'] at heq
    cases heq
    exact ⟨⟨t', hb'⟩, hM'⟩
  | incLockRef _ hin heq ih =>
    obtain ⟨⟨t, hb⟩, hM⟩ := ih
    obtain ⟨c', delta, heq', hre, hb'⟩ := incLockRef_base hb (hb.represents.inTree_iff.mp hin)
    rw [heq'] at heq
    cases heq
    exact ⟨⟨t, hb'⟩, hre.refines hM⟩
  | decLockRef _ hin heq ih =>
    obtain ⟨⟨t, hb⟩, hM⟩ := ih
    obtain ⟨c', delta, heq', hre, hb'⟩ := decLockRef_base hb (hb.represents.inTree_iff.mp hin)
    rw [heq'] at heq
    cases heq
    exact ⟨⟨t, hb'⟩, hre.refines hM⟩
  | evict _ heq ih =>
    obtain ⟨⟨t, hb⟩, hM⟩ := ih
    obtain ⟨t', c', freed, heq', hev, -⟩ := evict_spec hb _
    rw [heq'] at heq
    cases heq
    exact ⟨⟨t', hev.base hb⟩, hev.refines hb hM⟩

/-- **`RadixCache` refines a prefix-closed map.**  In every state that a reset and any sequence of
insertions, matches, lock operations and evictions lead to, the map is prefix-closed and has
exactly the stored pages; `match_prefix` returns the pages of the longest prefix that is present
and stores nothing new; `insert` returns the length of that prefix and adds the absent prefixes of
its key; the lock operations change nothing; and `evict` removes whole nodes, each of them a leaf
by the time it goes. -/
theorem radixCache_refines_prefixMap (h : Run cfg M c) :
    M.Closed ∧ Refines cfg M c ∧
    (∀ key, ModeOk cfg key → ∃ r c', c.matchPrefix cfg key = some (r, c') ∧
      r.deviceIndices = (M.lookup key.extraKey (untagged (pages cfg key))).flatten ∧
      Refines cfg M c') ∧
    (∀ key value priority chunked, ModeOk cfg key → (normKey cfg key).len ≤ value.length →
      (cfg.enableKvCacheEvents = true → key.Hashable) →
      ∃ c', c.insert cfg key value priority chunked
          = some (cfg.pageSize * M.longest key.extraKey (untagged (pages cfg key)), c') ∧
        Refines cfg (M.insert key.extraKey (untagged (pages cfg key)) (pageOf cfg value)) c') ∧
    (∀ n, InTree cfg c n → (∃ c' delta, c.incLockRef n = some (c', delta) ∧ Refines cfg M c') ∧
      ∃ c' delta, c.decLockRef n = some (c', delta) ∧ Refines cfg M c') ∧
    ∀ numTokens, ∃ removed freed c',
      c.evict cfg numTokens = some (freed.flatten.length, freed, c') ∧
      (∀ n, n ∈ removed ↔ InTree cfg c n ∧ ¬ InTree cfg c' n) ∧ removed.Nodup ∧
      freed = removed.map c.slots ∧
      (∀ l₁ n l₂, removed = l₁ ++ n :: l₂ → ∀ ck k,
        (c.nodes n).children.lookup ck = some k → k ∈ l₁) ∧
      Refines cfg (M.without fun ns pgs =>
        ∃ n, InTree cfg c n ∧ ¬ InTree cfg c' n ∧ EndsIn cfg c n ns pgs) c' := by
  obtain ⟨⟨t, hb⟩, hM⟩ := h.refines
  have hrep := hb.represents
  refine ⟨?_, hM, ?_, ?_, ?_, ?_⟩
  · intro ns w hsome
    obtain ⟨page, hpage⟩ := Option.isSome_iff_exists.mp hsome
    have hst := (hM _ _ _).mp hpage
    refine ⟨hst.1, fun i hi => ?_⟩
    obtain ⟨page', hst'⟩ := hst.take hi
    rw [(hM _ _ _).mpr hst']
    rfl
  · intro key hmode
    obtain ⟨-, c', r, heq, hr, -, hM'⟩ := matchPrefix_refines hb hM hmode
    exact ⟨r, c', heq, hr, hM'⟩
  · intro key value priority chunked hmode hlen hhash
    obtain ⟨-, c', heq, -, hM'⟩ := insert_refines hb hM hmode hlen hhash priority chunked
    exact ⟨c', heq, hM'⟩
  · intro n hin
    have hn := hrep.inTree_iff.mp hin
    obtain ⟨c₁, d₁, h1, hre₁, -⟩ := incLockRef_base hb hn
    obtain ⟨c₂, d₂, h2, hre₂, -⟩ := decLockRef_base hb hn
    exact ⟨⟨c₁, d₁, h1, hre₁.refines hM⟩, c₂, d₂, h2, hre₂.refines hM⟩
  · intro numTokens
    obtain ⟨t', c', freed, heq, hev, -⟩ := evict_spec hb numTokens
    obtain ⟨removed, hr⟩ := hev.exists_removes
    have hrep' := (hev.base hb).represents
    refine ⟨removed, freed, c', heq, ?_, hr.nodup, hr.freed_eq, ?_, hev.refines hb hM⟩
    · intro n
      rw [hrep.inTree_iff, hrep'.inTree_iff, hr.mem_nodes]
      constructor
      · exact fun hn => ⟨(hr.unlocked n hn).1, fun h => h.2 hn⟩
      · rintro ⟨h1, h2⟩
        by_contra hn
        exact h2 ⟨h1, hn⟩
    · intro l₁ n l₂ e ck k hk
      have hn : n ∈ t.nodes := (hr.unlocked n (by rw [e]; simp)).1
      exact hr.leaves_first l₁ n l₂ e k ((hrep.lookup_iff hn).mp hk).1

/-- The state after one insertion, for the run below. -/
def smallInsert : Option (ℕ × RadixCache ℕ) :=
  (init (smallConfig false)).insert (smallConfig false) ⟨[1, 2, 3, 4], none, false⟩
    [10, 11, 12, 13] 0 false

theorem smallInsert_isSome : smallInsert.isSome = true := by decide +kernel

/-- The theorem on a run: four tokens were stored, and a query that leaves them after two gets the
first page. -/
theorem radixCache_refines_prefixMap_small :
    ∃ (M : PrefixMap (Option String) (List Atom) (List ℕ)) (c : RadixCache ℕ),
      Run (smallConfig false) M c ∧
      ∃ r c', c.matchPrefix (smallConfig false) ⟨[1, 2, 9, 9], none, false⟩ = some (r, c') ∧
        r.deviceIndices = [10, 11] := by
  have heq : (init (smallConfig false)).insert (smallConfig false) ⟨[1, 2, 3, 4], none, false⟩
      [10, 11, 12, 13] 0 false = some (smallInsert.get smallInsert_isSome) :=
    (Option.some_get smallInsert_isSome).symm
  have hrun := Run.insert (Run.reset _) (by nofun) (by decide +kernel) (by nofun) heq
  obtain ⟨r, c', heq, hr, -⟩ := (radixCache_refines_prefixMap hrun).2.2.1
    ⟨[1, 2, 9, 9], none, false⟩ (fun h => nomatch h)
  refine ⟨_, _, hrun, r, c', heq, hr.trans ?_⟩
  decide +kernel

end Run

end RadixCache

end Sglang
