/-
# The walks of the two radix trees

`tree_walk` looks for the first page of the key in the child dict and compares from the second page
on; `_match_prefix_helper` and `_insert_helper` compare page by page from the start.  Both go through
the same children, cut the same child at the same place and stop at the same node
(`Sim.treeWalkLoop`).  The walks up to the root visit the same chain.
-/
import Sglang.MemCache.CppSimulation

namespace Sglang

open Lib RadixCache List Option CppRadixTree

variable {σ : Type} {cfg : CacheConfig} {off : ℕ} {t t' : RootedTree NodeId} {c c' : RadixCache σ}
  {T T' : CppRadixTree σ} {i j : ℕ}

/-! ## 1. Down -/

/-- **The two ways to compare a node with the key** give the same number of tokens. -/
theorem CppRadixTree.align_diffKey {p j : ℕ} {l k : List Token} (hp : 0 < p) (hj : 0 < j)
    (h : commonPrefixLength ((⟨l, none, false⟩ : RadixKey).label p)
      ((⟨k, none, false⟩ : RadixKey).label p) = j) :
    align p (diffKey l k p + p) = p * j := by
  rw [commonPrefixLength_label_plain hp, commonPrefixLength_comm] at h
  have hpage : p ≤ commonPrefixLength k l := by
    have := (Nat.le_div_iff_mul_le hp).mp (h ▸ hj : 1 ≤ commonPrefixLength k l / p)
    omega
  rw [align, diffKey, Nat.add_comm, ← commonPrefixLength_drop hpage, h, Nat.mul_comm]

namespace Sim

/-- A key that goes on finds the child its first page leads to. -/
theorem lookup_child (h : Sim cfg off t c T) (hrep : Represents cfg t c) (hi : off + i ∈ t.nodes)
    {key : List Token} (hkey : cfg.pageSize ∣ key.length) (hne : key ≠ []) {l : ℕ} :
    (T.nodes i).children.lookup (key.take cfg.pageSize) = some l ↔ t.Child (off + i) (off + l) ∧
        (c.label cfg (off + l)).head? = ((⟨key, none, false⟩ : RadixKey).label cfg.pageSize).head? := by
  rw [h.children hi]
  refine and_congr_right fun hc => ?_
  rw [label, h.key hc.1]
  exact (head?_label_plain_iff cfg.pageSize_pos (h.dvd_length hrep hc.1) hkey
    (h.tokens_ne_nil hrep hc.1 hc.2.1) hne).symm

/-- A round of `tree_walk` at a child that agrees with the key for `j` pages. -/
theorem round (h : Sim cfg off t c T) (hrep : Represents cfg t c) (hi : off + i ∈ t.nodes)
    {key : List Token} (hkey : cfg.pageSize ∣ key.length) {child : NodeId}
    (hchild : t.Child (off + i) child) (hj : 0 < j) (hjc : j ≤ (c.label cfg child).length)
    (hjk : j ≤ ((⟨key, none, false⟩ : RadixKey).label cfg.pageSize).length)
    (htake : (c.label cfg child).take j
      = ((⟨key, none, false⟩ : RadixKey).label cfg.pageSize).take j)
    (hstop : (c.label cfg child).length = j ∨ ((c.label cfg child).drop j).head?
      ≠ (((⟨key, none, false⟩ : RadixKey).label cfg.pageSize).drop j).head?) :
    ∃ l, child = off + l ∧ key.length > 0 ∧ getKey cfg.pageSize key = some (key.take cfg.pageSize) ∧
      (T.nodes i).children.lookup (key.take cfg.pageSize) = some l ∧
      (T.nodes l).tokens.take cfg.pageSize = key.take cfg.pageSize ∧
      CppRadixTree.align cfg.pageSize (diffKey (T.nodes l).tokens key cfg.pageSize
        + cfg.pageSize) = cfg.pageSize * j ∧
      (T.nodes l).tokens.length = cfg.pageSize * (c.label cfg child).length := by
  obtain ⟨l, rfl⟩ := Nat.exists_eq_add_of_le (h.shift hchild.1)
  have hne : key ≠ [] := by
    rintro rfl
    have : ((⟨[], none, false⟩ : RadixKey).label cfg.pageSize).length = 0 := by
      rw [RadixKey.length_label]
      exact Nat.zero_div _
    omega
  have hlen : key.length > 0 := length_pos_iff.mpr hne
  have hhead : (c.label cfg (off + l)).head?
      = ((⟨key, none, false⟩ : RadixKey).label cfg.pageSize).head? := by
    have := congrArg List.head? htake
    rwa [head?_take, head?_take, if_neg hj.ne', if_neg hj.ne'] at this
  have hl := (h.lookup_child hrep hi hkey hne).mpr ⟨hchild, hhead⟩
  refine ⟨l, rfl, hlen, if_pos (Nat.le_of_dvd hlen hkey), hl, ((h.children hi).mp hl).2, ?_, ?_⟩
  · refine align_diffKey cfg.pageSize_pos hj ?_
    have := commonPrefixLength_eq hjc hjk htake hstop
    rwa [label, h.key hchild.1] at this
  · rw [← h.len_key hchild.1]
    exact (hrep.fits hchild.1 hchild.2.1).len_eq

/-- **The walk down**: `tree_walk` ends where the Python walk ends, after as many tokens. -/
theorem treeWalkLoop {node node' : NodeId} {pgs : List RadixKey.TaggedPage}
    (hdesc : Descends cfg t c node pgs j t' c' node') :
    ∀ {T : CppRadixTree σ} {i : ℕ} {key : List Token} {fuel total : ℕ}, Sim cfg off t c T →
      Represents cfg t c → node = off + i → off + i ∈ t.nodes →
      pgs = (⟨key, none, false⟩ : RadixKey).label cfg.pageSize → cfg.pageSize ∣ key.length →
      key.length < fuel → ∃ i' T', CppRadixTree.treeWalkLoop cfg.pageSize fuel T i key total
          = some (i', total + cfg.pageSize * j, T') ∧ node' = off + i' ∧ Sim cfg off t' c' T' := by
  have hpos := cfg.pageSize_pos
  induction hdesc with
  | @stop t c node pgs hstuck =>
    intro T i key fuel total h hrep hnode hi hpgs hkey hfuel
    obtain ⟨fuel, rfl⟩ := Nat.exists_eq_add_of_lt (Nat.zero_lt_of_lt hfuel)
    subst hnode hpgs
    refine ⟨i, T, ?_, rfl, h⟩
    by_cases h0 : key = []
    · subst h0
      rw [CppRadixTree.treeWalkLoop, if_neg (by simp), Nat.mul_zero, Nat.add_zero]
    · have hlen : key.length > 0 := length_pos_iff.mpr h0
      have hget : getKey cfg.pageSize key = some (key.take cfg.pageSize) :=
        if_pos (Nat.le_of_dvd hlen hkey)
      have hnone : (T.nodes i).children.lookup (key.take cfg.pageSize) = none := by
        rw [eq_none_iff_forall_ne_some]
        intro l hl
        obtain ⟨hc, hhead⟩ := (h.lookup_child hrep hi hkey h0).mp hl
        exact hstuck _ hc hhead
      rw [CppRadixTree.treeWalkLoop, hget]
      simp [hnone]
  | touch ha _ ih =>
    intro T i key fuel total h hrep hnode hi hpgs hkey hfuel
    exact ih (h.of_agree ha) (hrep.of_sameLinks ha.toSameLinks) hnode hi hpgs hkey hfuel
  | @cut t t' c c₁ c' node child node' pgs j j' hchild hle htake hdrop hs hd ih =>
    intro T i key fuel total h hrep hnode hi hpgs hkey hfuel
    obtain ⟨fuel, rfl⟩ := Nat.exists_eq_add_of_lt (Nat.zero_lt_of_lt hfuel)
    subst hnode hpgs
    obtain ⟨l, rfl, hlen, hget, hl, hfirst, halign, hlenl⟩ :=
      h.round hrep hi hkey hchild hs.pos hs.lt.le hle htake (.inr hdrop)
    -- the Python walk is stuck at the upper half, where `tree_walk` returns
    obtain ⟨rfl, rfl, rfl, ha⟩ := hd.of_stuck (hs.represents hrep) (hs.stuck hdrop)
    have hi0 : l ≠ i := by
      rintro rfl
      exact RootedTree.parent_ne hchild.1 hchild.2.1 hchild.2.2
    have hv : off + T.nodeCounter ∉ t.nodes := h.counter ▸ hrep.counter_not_mem
    have hcut : cfg.pageSize * j + cfg.pageSize ≤ (T.nodes l).tokens.length := by
      rw [hlenl]
      exact Nat.mul_le_mul_left _ hs.lt
    obtain ⟨T', hsplit, hT⟩ := splitNode_splitAt (k := key.take cfg.pageSize)
      (h.parent_eq hchild.1 (h.ne_root_iff.mp hchild.2.1) hchild.2.2)
      (Nat.mul_pos hpos hs.pos) hpos hcut (fun e => hv (e ▸ hchild.1)) (fun e => hv (e ▸ hi))
      hi0.symm
    refine ⟨T.nodeCounter, T', ?_, h.counter, ?_⟩
    · rw [CppRadixTree.treeWalkLoop, if_pos hlen, hget]
      simp only [bind_eq_bind, bind_some, hl, halign]
      rw [if_pos (by omega), hsplit]
      rfl
    · exact (h.split hrep hs hchild.2.2 (hfirst ▸ hT)).of_agree ha
  | @whole t t' c c' node child node' pgs j j' hchild hlen hpre hd ih =>
    intro T i key fuel total h hrep hnode hi hpgs hkey hfuel
    obtain ⟨fuel, rfl⟩ := Nat.exists_eq_add_of_lt (Nat.zero_lt_of_lt hfuel)
    subst hnode hpgs
    have hj : 0 < j := by
      rw [← hlen]
      exact length_pos_iff.mpr (hrep.label_ne hchild.1 hchild.2.1)
    have hle : j ≤ ((⟨key, none, false⟩ : RadixKey).label cfg.pageSize).length := by
      have := congrArg List.length hpre
      rw [length_take] at this
      omega
    have htake : (c.label cfg child).take j
        = ((⟨key, none, false⟩ : RadixKey).label cfg.pageSize).take j := by
      rw [hpre, take_of_length_le hlen.le]
    obtain ⟨l, rfl, hlen0, hget, hl, -, halign, hlenl⟩ :=
      h.round hrep hi hkey hchild hj hlen.ge hle htake (.inl hlen)
    have hdrop : cfg.pageSize ∣ (key.drop (cfg.pageSize * j)).length := by
      rw [length_drop]
      exact Nat.dvd_sub hkey (Nat.dvd_mul_right _ _)
    have hpage : 0 < cfg.pageSize * j := Nat.mul_pos hpos hj
    obtain ⟨i', T', hloop, hnode', hsim⟩ := @ih T l (key.drop (cfg.pageSize * j)) fuel
      (total + cfg.pageSize * j) h hrep rfl hchild.1
      (by rw [← RadixKey.label_dropTo, dropTo_plain]) hdrop
      (by rw [length_drop]; omega)
    refine ⟨i', T', ?_, hnode', hsim⟩
    rw [Nat.zero_add, CppRadixTree.treeWalkLoop, if_pos hlen0, hget]
    simp only [bind_eq_bind, bind_some, hl, halign]
    rw [if_neg (by rw [hlenl, hlen]; omega), hloop, Nat.mul_add, Nat.add_assoc]

/-! ## 2. Up -/

/-- The node above, by its handle. -/
theorem exists_parent (h : Sim cfg off t c T) (hi : off + i ∈ t.nodes) (h0 : i ≠ 0) :
    ∃ k, (T.nodes i).parent = some k ∧ off + k ∈ t.nodes ∧
      t.up (off + i) = (off + i) :: t.up (off + k) ∧ t.parent (off + i) = off + k := by
  have hr := h.ne_root_iff.mpr h0
  obtain ⟨k, hk, hkp⟩ := h.parent hi h0
  exact ⟨k, hk, hkp ▸ t.parent_mem hi hr, by rw [hkp, t.up_cons hi hr], hkp.symm⟩

theorem up_zero (h : Sim cfg off t c T) : t.up (off + 0) = [] := by
  exact h.root ▸ t.up_root

/-- The number of rounds that a walk up takes. -/
theorem up_length_lt (h : Sim cfg off t c T) (hrep : Represents cfg t c) (hi : off + i ∈ t.nodes) :
    (t.up (off + i)).length < T.nodeCounter + 1 := by
  have hsub : t.nodes ⊆ Finset.Ico off (off + T.nodeCounter) := fun n hn =>
    Finset.mem_Ico.mpr ⟨h.shift hn, h.counter ▸ hrep.lt_counter hn⟩
  have hcard := Finset.card_le_card hsub
  rw [Nat.card_Ico] at hcard
  have := RootedTree.up_length_lt hi
  omega

/-- **The slots on the way to the root** are those of the path, in reverse order. -/
theorem collectIndices (h : Sim cfg off t c T) (hfill : Filled t c) : ∀ (fuel i : ℕ),
    off + i ∈ t.nodes → (t.up (off + i)).length < fuel →
    ∃ ls, T.collectIndices fuel i = some ls ∧ ls.reverse.flatten = t.word c.slots (off + i)
  | 0, _, _, hfuel => by omega
  | fuel + 1, i, hi, hfuel => by
    by_cases h0 : i = 0
    · refine ⟨[], by rw [CppRadixTree.collectIndices, h0, h.parent_root], ?_⟩
      rw [h0, Nat.add_zero, ← h.root, RootedTree.word_root]
      rfl
    · obtain ⟨k, hk, hkmem, hup, hpar⟩ := h.exists_parent hi h0
      have hr := h.ne_root_iff.mpr h0
      obtain ⟨ls, hls, hword⟩ := h.collectIndices hfill fuel k hkmem
        (by rw [hup, length_cons] at hfuel; omega)
      obtain ⟨v, hv, -⟩ := hfill _ hi hr
      refine ⟨v :: ls, ?_, ?_⟩
      · simp only [CppRadixTree.collectIndices, hk, h.value hi h0, hv, hls, bind_eq_bind, bind_some]
        rfl
      · have hslots : c.slots (off + i) = v := by rw [slots, hv]; rfl
        rw [reverse_cons, flatten_append, hword, RootedTree.word_cons hi hr, hpar, hslots]
        simp

/-- What the rounds of a walk up do, one by one, they do together. -/
theorem of_walkToRoot (f : CppRadixTree σ → NodeHandle → Option (CppRadixTree σ))
    (round : RadixCache σ → NodeId → RadixCache σ)
    (hf : ∀ {c : RadixCache σ} {T T' : CppRadixTree σ} {i}, Sim cfg off t c T → off + i ∈ t.nodes →
      i ≠ 0 → f T i = some T' → Sim cfg off t (round c (off + i)) T') :
    ∀ (fuel : ℕ) {c : RadixCache σ} {T T' : CppRadixTree σ} {i : ℕ}, Sim cfg off t c T →
      off + i ∈ t.nodes → walkToRoot f fuel T i = some T' →
      Sim cfg off t ((t.up (off + i)).foldl round c) T'
  | 0, c, T, T', i, _, _, hw => by simp [walkToRoot] at hw
  | fuel + 1, c, T, T', i, h, hi, hw => by
    by_cases h0 : i = 0
    · rw [walkToRoot, h0, h.parent_root] at hw
      cases hw
      rw [h0, h.up_zero]
      exact h
    · obtain ⟨k, hk, hkmem, hup, -⟩ := h.exists_parent hi h0
      simp only [walkToRoot, hk, bind_eq_bind, bind_eq_some_iff] at hw
      obtain ⟨T₁, hT₁, hw⟩ := hw
      rw [hup]
      exact of_walkToRoot f round hf fuel (hf h hi h0 hT₁) hkmem hw

theorem exists_walkToRoot (f : CppRadixTree σ → NodeHandle → Option (CppRadixTree σ))
    (round : RadixCache σ → NodeId → RadixCache σ) (ok : CppTreeNode σ → Prop)
    (hf : ∀ {c : RadixCache σ} {T : CppRadixTree σ} {i}, Sim cfg off t c T → off + i ∈ t.nodes →
      i ≠ 0 → ok (T.nodes i) → ∃ T', f T i = some T' ∧ Sim cfg off t (round c (off + i)) T' ∧
        ∀ m, m ≠ i → T'.nodes m = T.nodes m) :
    ∀ (fuel : ℕ) {c : RadixCache σ} {T : CppRadixTree σ} {i : ℕ}, Sim cfg off t c T →
      off + i ∈ t.nodes → (t.up (off + i)).length < fuel →
      (∀ m, off + m ∈ t.up (off + i) → ok (T.nodes m)) →
      ∃ T', walkToRoot f fuel T i = some T'
  | 0, _, _, _, _, _, hfuel, _ => by omega
  | fuel + 1, c, T, i, h, hi, hfuel, hok => by
    by_cases h0 : i = 0
    · exact ⟨T, by rw [walkToRoot, h0, h.parent_root]⟩
    · obtain ⟨k, hk, hkmem, hup, hpar⟩ := h.exists_parent hi h0
      rw [hup] at hok hfuel
      have hnot := RootedTree.not_mem_up_parent hi (h.ne_root_iff.mpr h0)
      rw [hpar] at hnot
      obtain ⟨T₁, hT₁, hsim, hother⟩ := hf h hi h0 (hok i mem_cons_self)
      obtain ⟨T', hw⟩ := exists_walkToRoot f round ok hf fuel hsim hkmem
        (by rw [length_cons] at hfuel; omega) (fun m hm => by
          have hmi : m ≠ i := by
            rintro rfl
            exact hnot hm
          rw [hother m hmi]
          exact hok m (mem_cons_of_mem _ hm))
      refine ⟨T', ?_⟩
      simp [walkToRoot, hk, hT₁, hw]

/-! ## 3. Rounds -/

theorem hit (h : Sim cfg off t c T) (i : ℕ) :
    Sim cfg off t c (T.modify i fun x => { x with hitCount := x.hitCount + 1 }) := by
  have hnodes : ∀ m, ∃ x, (T.modify i fun x => { x with hitCount := x.hitCount + 1 }).nodes m
      = { T.nodes m with hitCount := x } := by
    intro m
    by_cases hm : m = i
    · exact ⟨_, by rw [hm, CppRadixTree.modify_nodes_self]⟩
    · exact ⟨_, by rw [CppRadixTree.modify_nodes_ne _ _ hm]⟩
  refine h.recount (SameLinks.refl c) (fun _ => rfl) (fun m => ?_) rfl rfl
    ⟨h.evictableSize, h.protectedSize⟩ (fun {m} hm => ?_)
  · obtain ⟨x, hx⟩ := hnodes m
    exact ⟨_, x, hx⟩
  · obtain ⟨x, hx⟩ := hnodes m
    rw [hx, h.refCount hm]

/-- A round that moves a reference of one node on both sides, with equal sizes. -/
theorem relocked (h : Sim cfg off t c T) {d e : ℤ} {r : ℕ} (hc : Relocked (off + i) d c c')
    (hT : CppRadixTree.RefAt T i r e T') (hi : off + i ∈ t.nodes)
    (hr : (r : ℤ) = (T.nodes i).refCount + d) (hevict : c'.evictableSize = c.evictableSize - e)
    (hprot : c'.protectedSize = c.protectedSize + e) : Sim cfg off t c' T' := by
  refine h.recount hc.toSameLinks hc.value (fun m => ?_) hT.nodeMap hT.nodeCounter ⟨?_, ?_⟩
    (fun {m} hm => ?_)
  · by_cases hmi : m = i
    · exact ⟨r, _, by rw [hmi, hT.self]⟩
    · exact ⟨_, _, by rw [hT.other m hmi]⟩
  · rw [hT.evictableSize, h.evictableSize, hevict]
  · rw [hT.protectedSize, h.protectedSize, hprot]
  · by_cases hmi : m = i
    · rw [hmi, hc.lockRef_self, h.refCount hi, hT.self, hr]
    · rw [hc.lockRef_other _ (fun e => hmi (Nat.add_left_cancel e)), h.refCount hm, hT.other m hmi]

/-- **A reference is taken** on both sides. -/
theorem incRef (h : Sim cfg off t c T) (hi : off + i ∈ t.nodes) :
    ∃ T', T.incRef i = some T' ∧ Sim cfg off t (c.incLockRound (off + i)) T' ∧
      ∀ m, m ≠ i → T'.nodes m = T.nodes m := by
  obtain ⟨T', heq, hT⟩ := T.incRef_refAt i
  refine ⟨T', heq, h.relocked (incLockRound_relocked c (off + i)) hT hi (by push_cast; rfl) ?_ ?_,
    hT.other⟩
  all_goals
    rw [incLockRound, h.refCount hi, h.len_key hi]
    by_cases h0 : (T.nodes i).refCount = 0 <;> simp [h0]

/-- **A reference is given back** on both sides, if there is one. -/
theorem decRef (h : Sim cfg off t c T) (hi : off + i ∈ t.nodes) (hne : (T.nodes i).refCount ≠ 0) :
    ∃ T', T.decRef i = some T' ∧ Sim cfg off t (c.decLockRound (off + i)) T' ∧
      ∀ m, m ≠ i → T'.nodes m = T.nodes m := by
  obtain ⟨T', heq, hT⟩ := decRef_refAt hne
  refine ⟨T', heq, h.relocked (decLockRound_relocked c (off + i)) hT hi (by omega) ?_ ?_, hT.other⟩
  all_goals
    rw [decLockRound, h.refCount hi, h.len_key hi]
    by_cases h1 : (T.nodes i).refCount = 1 <;> simp [h1, sub_eq_add_neg]

end Sim

/-! ## 4. Locks -/

/-- The Python walk does its rounds along the chain. -/
theorem RadixCache.lockLoop_foldl {round : RadixCache σ → NodeId → RadixCache σ}
    (change : TreeNode σ → ℤ) (hround : ∀ (c : RadixCache σ) n, SameLinks c (round c n)) :
    ∀ (fuel : ℕ) (c : RadixCache σ) (n : NodeId) (delta : ℤ), Represents cfg t c → n ∈ t.nodes →
      (t.up n).length < fuel →
      ∃ delta', lockLoop round change fuel c n delta = some ((t.up n).foldl round c, delta')
  | 0, _, _, _, _, _, hfuel => by omega
  | fuel + 1, c, n, delta, hrep, hn, hfuel => by
    by_cases hr : n = t.root
    · refine ⟨delta, ?_⟩
      rw [lockLoop, if_pos (hr.trans hrep.root_eq.symm), hr, t.up_root]
      rfl
    · have hcons := t.up_cons hn hr
      have hs := hround c n
      obtain ⟨delta', hloop⟩ := lockLoop_foldl change hround fuel (round c n) (t.parent n)
        (delta + change (c.nodes n)) (hrep.of_sameLinks hs) (t.parent_mem hn hr)
        (by rw [hcons, length_cons] at hfuel; omega)
      refine ⟨delta', ?_⟩
      rw [lockLoop, if_neg (fun e => hr (e.trans hrep.root_eq))]
      simp [hs.parent, hrep.parent_eq hn hr, hloop, hcons]

namespace Sim

/-- `lock_ref` at a node of the tree is the walk to the root; at the root it does nothing. -/
theorem lockRef_eq (h : Sim cfg off t c T) (hfill : Filled t c) (hi : off + i ∈ t.nodes)
    (increment : Bool) : T.lockRef i increment
      = walkToRoot (if increment then CppRadixTree.incRef else CppRadixTree.decRef)
          (T.nodeCounter + 1) T i := by
  have hid : T.id2node i = some i := if_pos (h.nodeMap.mpr hi)
  by_cases h0 : i = 0
  · rw [CppRadixTree.lockRef, hid, walkToRoot]
    simp [h0, h.parent_root]
  · obtain ⟨k, hk, -⟩ := h.exists_parent hi h0
    obtain ⟨v, hv, -⟩ := hfill _ hi (h.ne_root_iff.mpr h0)
    simp [CppRadixTree.lockRef, hid, hk, h.value hi h0, hv]

/-- **`inc_lock_ref`** on both sides. -/
theorem incLockRef (h : Sim cfg off t c T) (hb : Base cfg t c) (hi : off + i ∈ t.nodes) :
    ∃ c' delta T', c.incLockRef (off + i) = some (c', delta) ∧ T.lockRef i true = some T' ∧
      Sim cfg off t c' T' := by
  have hrep := hb.represents
  obtain ⟨delta, heq⟩ := lockLoop_foldl (fun n => if n.lockRef = 0 then -(n.key.len : ℤ) else 0)
    (fun c n => (incLockRound_relocked (σ := σ) c n).toSameLinks) (c.counter + 1) c (off + i) 0
    hrep hi ((hrep.up_length_lt_counter hi).trans (Nat.lt_succ_self _))
  obtain ⟨T', hT'⟩ := exists_walkToRoot CppRadixTree.incRef incLockRound (fun _ => True)
    (fun hs hj _ _ => hs.incRef hj) (T.nodeCounter + 1) h hi (h.up_length_lt hrep hi)
    (fun _ _ => trivial)
  refine ⟨_, delta, T', heq, (h.lockRef_eq hb.filled hi true).trans hT', ?_⟩
  refine of_walkToRoot CppRadixTree.incRef incLockRound (fun hs hj _ hf => ?_) (T.nodeCounter + 1) h hi hT'
  obtain ⟨T₁, hT₁, hsim, -⟩ := hs.incRef hj
  cases hT₁.symm.trans hf
  exact hsim

/-- **`dec_lock_ref`** on both sides: the C++ tree refuses what would go below zero. -/
theorem decLockRef (h : Sim cfg off t c T) (hb : Base cfg t c) (hi : off + i ∈ t.nodes) :
    ∃ c' delta, c.decLockRef (off + i) = some (c', delta) ∧
      (∀ T', T.lockRef i false = some T' → Sim cfg off t c' T') ∧
      ((∀ m ∈ t.up (off + i), 0 < (c.nodes m).lockRef) → ∃ T', T.lockRef i false = some T') := by
  have hrep := hb.represents
  obtain ⟨delta, heq⟩ := lockLoop_foldl (fun n => if n.lockRef = 1 then (n.key.len : ℤ) else 0)
    (fun c n => (decLockRound_relocked (σ := σ) c n).toSameLinks) (c.counter + 1) c (off + i) 0
    hrep hi ((hrep.up_length_lt_counter hi).trans (Nat.lt_succ_self _))
  refine ⟨_, delta, heq, fun T' hT' => ?_, fun hpos => ?_⟩
  · rw [h.lockRef_eq hb.filled hi false] at hT'
    refine of_walkToRoot CppRadixTree.decRef decLockRound (fun {c T T' j} hs hj _ hf => ?_)
      (T.nodeCounter + 1) h hi hT'
    have hne : (T.nodes j).refCount ≠ 0 := by
      intro e
      rw [CppRadixTree.decRef, if_neg (not_not.mpr e)] at hf
      cases hf
    obtain ⟨T₁, hT₁, hsim, -⟩ := hs.decRef hj hne
    cases hT₁.symm.trans hf
    exact hsim
  · rw [h.lockRef_eq hb.filled hi false]
    refine exists_walkToRoot CppRadixTree.decRef decLockRound (fun x => x.refCount ≠ 0)
      (fun hs hj _ hne => hs.decRef hj hne) (T.nodeCounter + 1) h hi (h.up_length_lt hrep hi) (fun m hm => ?_)
    have hlock := hpos _ hm
    rw [h.refCount (RootedTree.mem_of_mem_up hi hm).1] at hlock
    omega

end Sim

end Sglang
