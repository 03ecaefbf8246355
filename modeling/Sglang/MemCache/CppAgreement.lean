/-
# The two radix trees agree

Insertions, matches, locks, unlocks and resets in any order: as long as the C++ tree does not fail an
assertion, it returns what the Python cache returns and reports the same sizes after every call
(`agreement`).  It fails one exactly where the Python cache would let a reference count go below zero,
so a sequence in which every unlock gives back a lock is never refused.
-/
import Sglang.MemCache.CppWalk

namespace Sglang

open Lib RadixCache List Option Finset

variable {σ : Type} {cfg : CacheConfig} {off : ℕ} {t t' : RootedTree NodeId} {c c' : RadixCache σ}
  {T T' : CppRadixTree σ} {i j : ℕ}

/-! ## 1. Calls -/

/-- Both cut a key of tokens to whole pages. -/
theorem normKey_plain (hplain : cfg.isEagle = false) (l : List Token) :
    normKey cfg ⟨l, none, false⟩
      = ⟨l.take (CppRadixTree.align cfg.pageSize l.length), none, false⟩ := by
  have hview : ((⟨l, none, false⟩ : RadixKey).maybeToBigramView (σ := ℕ) cfg.isEagle none).1
      = ⟨l, none, false⟩ := by
    rw [hplain]
    rfl
  rw [normKey, hview, RadixKey.pageAligned, CppRadixTree.align]
  split
  · rename_i h1
    rw [h1, Nat.div_one, Nat.mul_one, take_length]
  · exact takeTo_plain l _

theorem length_aligned (p : ℕ) (l : List Token) :
    (l.take (CppRadixTree.align p l.length)).length = l.length / p * p := by
  rw [length_take]
  exact min_eq_left (Nat.div_mul_le_self _ _)

theorem eq_of_label_eq {p : ℕ} (hp : 0 < p) {k : RadixKey} {l : List Token} (hk : k.Fits false p)
    (hl : p ∣ l.length) (hne : l ≠ [])
    (h : k.label p = (⟨l, none, false⟩ : RadixKey).label p) : k = ⟨l, none, false⟩ := by
  have hne' : k.label p ≠ [] := h ▸ label_plain_ne_nil hl hne
  have hhead := congrArg List.head? h
  rw [hk.head?_label hp hne', (fits_plain hl).head?_label hp (label_plain_ne_nil hl hne)] at hhead
  have hextra : k.extraKey = none := (Prod.mk.inj (Option.some.inj hhead)).1
  have hchunks : chunks p k.iter = chunks p (l.map Atom.tok) := by
    have := congrArg (List.map Prod.snd) h
    simpa [RadixKey.label, RadixKey.iter, Function.comp_def] using this
  have hiter := chunks_injective hp (by rw [RadixKey.length_iter]; exact hk.aligned)
    (by rw [length_map]; exact hl) hchunks
  have hinj : Function.Injective (List.map Atom.tok) :=
    map_injective_iff.mpr fun a b e => Atom.tok.inj e
  obtain ⟨tokens, extra, bigram⟩ := k
  obtain rfl : bigram = false := hk.mode
  obtain rfl : extra = none := hextra
  obtain rfl : tokens = l := hinj hiter
  rfl

namespace Sim

theorem zero_mem (h : Sim cfg off t c T) : off + 0 ∈ t.nodes := by
  exact h.root ▸ t.root_mem

theorem treeWalk (h : Sim cfg off t c T) (hrep : Represents cfg t c) {key : List Token}
    (hkey : cfg.pageSize ∣ key.length) {vs : List σ} {node : NodeId}
    (hreach : Reaches cfg t c t.root ((⟨key, none, false⟩ : RadixKey).label cfg.pageSize) j vs
      t' c' node) :
    ∃ i' T', T.treeWalk cfg.pageSize key = some (i', cfg.pageSize * j, T') ∧ node = off + i' ∧
      Sim cfg off t' c' T' := by
  obtain ⟨i', T', heq, hnode, hsim⟩ := @treeWalkLoop _ _ _ _ _ _ _ _ _ _ _ hreach.descends T 0 key
    (key.length + 1) 0 h hrep h.root h.zero_mem rfl hkey (Nat.lt_succ_self _)
  refine ⟨i', T', ?_, hnode, hsim⟩
  rw [CppRadixTree.treeWalk, if_pos (Nat.mod_eq_zero_of_dvd hkey), heq, Nat.zero_add]

/-- What is left of the key is hung in on both sides, or nothing is left on either. -/
theorem grows (h : Sim cfg off t c T) (hrep : Represents cfg t c) (hplain : cfg.isEagle = false)
    {key : List Token} (hkey : cfg.pageSize ∣ key.length) {value : List σ}
    (hj : j ≤ ((⟨key, none, false⟩ : RadixKey).label cfg.pageSize).length)
    (hgrow : Grows cfg t c (off + i)
      (((⟨key, none, false⟩ : RadixKey).label cfg.pageSize).drop j) value t' c') :
    ∃ T', (if cfg.pageSize * j ≠ key.length then
        T.createDeviceNode cfg.pageSize i (key.drop (cfg.pageSize * j)) value
      else some T) = some T' ∧ Sim cfg off t' c' T' := by
  have hlen : key.length = cfg.pageSize * ((⟨key, none, false⟩ : RadixKey).label cfg.pageSize).length :=
    (fits_plain hkey).len_eq
  have hrest : (⟨key.drop (cfg.pageSize * j), none, false⟩ : RadixKey).label cfg.pageSize
      = ((⟨key, none, false⟩ : RadixKey).label cfg.pageSize).drop j := by
    rw [← RadixKey.label_dropTo, dropTo_plain]
  have hdvd : cfg.pageSize ∣ (key.drop (cfg.pageSize * j)).length := by
    rw [length_drop]
    exact Nat.dvd_sub hkey (Nat.dvd_mul_right _ _)
  have hnil := (fits_plain hdvd).label_eq_nil
  rw [hrest] at hnil
  have hzero : (⟨key.drop (cfg.pageSize * j), none, false⟩ : RadixKey).len = 0 ↔
      cfg.pageSize * j = key.length := by
    have hle : cfg.pageSize * j ≤ key.length := hlen ▸ Nat.mul_le_mul_left _ hj
    rw [RadixKey.len, if_neg Bool.false_ne_true, length_drop]
    omega
  rw [hzero] at hnil
  cases hgrow with
  | done hdone => exact ⟨T, if_neg (not_not.mpr (hnil.mp hdone)), h⟩
  | @leaf v k c' hne hlabel hvalue hv hat =>
    subst hv
    have hne0 : key.drop (cfg.pageSize * j) ≠ [] := by
      intro e
      exact hne (hrest ▸ (fits_plain hdvd).label_eq_nil.mpr (by rw [e]; rfl))
    have hk := eq_of_label_eq cfg.pageSize_pos (hplain ▸ hat.fits) hdvd hne0 (hlabel.trans hrest.symm)
    subst hk
    have hpv : i ≠ T.nodeCounter := by
      rintro rfl
      exact hrep.counter_not_mem (h.counter ▸ hat.mem)
    obtain ⟨T', hT', hleaf⟩ : ∃ T', T.createDeviceNode cfg.pageSize i
          (key.drop (cfg.pageSize * j)) value = some T' ∧
        CppRadixTree.LeafAt cfg.pageSize T i (key.drop (cfg.pageSize * j)) value T' :=
      CppRadixTree.createDeviceNode_leafAt (Nat.le_of_dvd (length_pos_iff.mpr hne0) hdvd) hpv
    exact ⟨T', (if_pos (mt hnil.mpr hne)).trans hT', h.attach hrep hat hleaf⟩

/-- The hits counted on the way up are not seen. -/
theorem hits (h : Sim cfg off t c T) (hrep : Represents cfg t c) (hi : off + i ∈ t.nodes) :
    ∃ T', CppRadixTree.walkToRoot
        (fun T n => some (T.modify n fun x => { x with hitCount := x.hitCount + 1 }))
        (T.nodeCounter + 1) T i = some T' ∧ Sim cfg off t c T' := by
  obtain ⟨T', hT'⟩ := exists_walkToRoot _ (fun c _ => c) (fun _ => True)
    (fun {c T i} hs _ _ _ => ⟨_, rfl, hs.hit i, fun m hm => CppRadixTree.modify_nodes_ne _ _ hm⟩)
    (T.nodeCounter + 1) h hi (h.up_length_lt hrep hi) (fun _ _ => trivial)
  refine ⟨T', hT', ?_⟩
  have hsim := of_walkToRoot _ (fun c _ => c) (fun {c T T₁ i} hs _ _ hf => by
    cases hf
    exact hs.hit i) (T.nodeCounter + 1) h hi hT'
  rwa [foldl_fixed] at hsim

variable (h : Sim cfg off t c T) (hb : Base cfg t c) (hplain : cfg.isEagle = false)

include h hb hplain

/-- **`match_prefix`** on both sides. -/
theorem matchPrefix (key : List Token) :
    ∃ vs t' c' i' ls T', c.matchPrefix cfg ⟨key, none, false⟩
        = some (⟨vs, off + i', off + i', 0⟩, c') ∧
      T.matchPrefix cfg.pageSize key = some ((ls, i'), T') ∧ CppRadixTree.mergeTensor ls = vs ∧
      Reshape cfg t c t' c' ∧ off + i' ∈ t'.nodes ∧ Sim cfg off t' c' T' := by
  have hmode : ModeOk cfg ⟨key, none, false⟩ := fun e => absurd e Bool.false_ne_true
  obtain ⟨j, vs, t', c', node, heq, hreach⟩ := matchPrefix_spec hb hmode
  have hdvd : cfg.pageSize ∣ (key.take (CppRadixTree.align cfg.pageSize key.length)).length := by
    rw [length_aligned]
    exact Nat.dvd_mul_left _ _
  have hreach' := hreach
  rw [pages, normKey_plain hplain] at hreach'
  obtain ⟨i', T', hwalk, rfl, hsim⟩ := h.treeWalk hb.represents hdvd hreach'
  obtain ⟨ls, hls, hword⟩ := hsim.collectIndices (hreach.reshape.filled hb.filled)
    (T'.nodeCounter + 1) i' hreach.mem
    (hsim.up_length_lt (hreach.reshape.represents hb.represents) hreach.mem)
  refine ⟨vs, t', c', i', ls.reverse, T', heq, ?_, ?_, hreach.reshape, hreach.mem, hsim⟩
  · simp only [CppRadixTree.matchPrefix, hwalk, hls, bind_eq_bind, bind_some]
    rfl
  · rw [CppRadixTree.mergeTensor, hword, hreach.slots, RootedTree.word_root, nil_append]

/-- **`insert`** on both sides. -/
theorem insert {key : List Token} {value : List σ} (hlen : value.length = key.length)
    (hhash : ∀ x ∈ key, x < 2 ^ 32) (priority : ℤ) (chunked : Bool) :
    ∃ j vs t₁ c₁ node t' c' T', c.insert cfg ⟨key, none, false⟩ value priority chunked
        = some (cfg.pageSize * j, c') ∧
      T.writingThrough cfg.pageSize key value = some (cfg.pageSize * j, T') ∧
      Reaches cfg t c t.root (pages cfg ⟨key, none, false⟩) j vs t₁ c₁ node ∧
      Grows cfg t₁ c₁ node ((pages cfg ⟨key, none, false⟩).drop j)
        ((value.take (normKey cfg ⟨key, none, false⟩).len).drop (cfg.pageSize * j)) t' c' ∧
      Sim cfg off t' c' T' := by
  have hmode : ModeOk cfg ⟨key, none, false⟩ := fun e => absurd e Bool.false_ne_true
  have halign := length_aligned cfg.pageSize key
  have hnorm : (normKey cfg ⟨key, none, false⟩).len
      = (key.take (CppRadixTree.align cfg.pageSize key.length)).length := by
    rw [normKey_plain hplain]
    rfl
  obtain ⟨j, vs, t₁, c₁, node, t', c', heq, hreach, hgrow⟩ := insert_spec hb hmode
    (by rw [hnorm, halign, hlen]; exact Nat.div_mul_le_self _ _) (fun _ => hhash) priority chunked
  have hdvd : cfg.pageSize ∣ (key.take (CppRadixTree.align cfg.pageSize key.length)).length := by
    rw [halign]
    exact Nat.dvd_mul_left _ _
  have hreach' := hreach
  have hgrow' := hgrow
  rw [pages, normKey_plain hplain] at hreach' hgrow'
  have hrep₁ := hreach.reshape.represents hb.represents
  obtain ⟨i', T₁, hwalk, rfl, hsim₁⟩ := h.treeWalk hb.represents hdvd hreach'
  obtain ⟨T₂, hT₂, hsim₂⟩ := hsim₁.grows hrep₁ hplain hdvd hreach'.le hgrow'
  have hb' := hgrow.base (hreach.reshape.base hb)
  obtain ⟨T', hT', hsim⟩ := hsim₂.hits hb'.represents (hgrow.nodes_subset hreach.mem)
  refine ⟨j, vs, t₁, c₁, off + i', t', c', T', heq, ?_, hreach, hgrow, hsim⟩
  rw [CppRadixTree.writingThrough, if_pos hlen.symm]
  simp only [hwalk, bind_eq_bind, bind_some]
  simp only [RadixKey.len, Bool.false_eq_true, if_false] at hT₂
  by_cases hmore : cfg.pageSize * j ≠ (key.take (CppRadixTree.align cfg.pageSize key.length)).length
  · rw [if_pos hmore] at hT₂ ⊢
    rw [hT₂, bind_some, hT']
    rfl
  · rw [if_neg hmore] at hT₂ ⊢
    cases hT₂
    rw [hT']
    rfl

end Sim

/-! ## 2. Sizes and reset -/

/-- The Python cache counts the slots of all nodes. -/
theorem RadixCache.totalSize_eq (hb : Base cfg t c) :
    c.totalSize = some (∑ n ∈ t.nodes, (c.slots n).length) := by
  have hrep := hb.represents
  have hkeep : ∀ p ∈ t.nodes, ((c.nodes p).children.values.filter
      fun child => !(c.nodes child).evicted) = (c.nodes p).children.values := by
    intro p hp
    rw [List.filter_eq_self]
    intro n hn
    obtain ⟨hm, hr, -⟩ := (hrep.mem_values_iff hp).mp hn
    obtain ⟨v, hv, -⟩ := hb.filled n hm hr
    simp [TreeNode.evicted, hv]
  have hcard : t.nodes.card < c.counter + 1 := by
    have hsub : t.nodes ⊆ Finset.range c.counter := fun n hn =>
      Finset.mem_range.mpr (hrep.lt_counter hn)
    have := card_le_card hsub
    rw [card_range] at this
    omega
  rw [totalSize, hrep.root_eq]
  refine RootedTree.depthFirstSum_eq (fun p hp n => ?_) (fun p hp => ?_) hcard
  · rw [hkeep p hp, hrep.mem_values_iff hp]
  · rw [hkeep p hp]
    refine Dict.nodup_values _ fun k k' v hk hk' => ?_
    have h1 := ((hrep.lookup_iff hp).mp hk).2
    rw [((hrep.lookup_iff hp).mp hk').2] at h1
    exact (Option.some.inj h1).symm

namespace Sim

/-- **`total_size`** is the same on both sides. -/
theorem totalSize_eq (h : Sim cfg off t c T) (hb : Base cfg t c) : T.totalSize = c.totalSize := by
  have hrep := hb.represents
  have hchild : ∀ p ∈ t.nodes, ∀ n,
      n ∈ ((T.nodes (p - off)).children.values.map (off + ·)) ↔ t.Child p n := by
    intro p hp n
    obtain ⟨i, rfl⟩ := Nat.exists_eq_add_of_le (h.shift hp)
    rw [Nat.add_sub_cancel_left, List.mem_map]
    simp only [Dict.mem_values_iff, h.children hp]
    constructor
    · rintro ⟨j, ⟨k, hc, -⟩, rfl⟩
      exact hc
    · intro hc
      obtain ⟨j, rfl⟩ := Nat.exists_eq_add_of_le (h.shift hc.1)
      exact ⟨j, ⟨_, hc, rfl⟩, rfl⟩
  have hnd : ∀ p ∈ t.nodes, ((T.nodes (p - off)).children.values.map (off + ·)).Nodup := by
    intro p hp
    obtain ⟨i, rfl⟩ := Nat.exists_eq_add_of_le (h.shift hp)
    rw [Nat.add_sub_cancel_left]
    refine List.Nodup.map (fun a b e => Nat.add_left_cancel e) (Dict.nodup_values _ ?_)
    intro k k' v hk hk'
    rw [← ((h.children hp).mp hk).2, ← ((h.children hp).mp hk').2]
  have hcard : t.nodes.card < T.nodeCounter + 1 := by
    have hsub : t.nodes ⊆ Finset.Ico off (off + T.nodeCounter) := fun n hn =>
      mem_Ico.mpr ⟨h.shift hn, h.counter ▸ hrep.lt_counter hn⟩
    have := card_le_card hsub
    rw [Nat.card_Ico] at this
    omega
  have hmap : depthFirstSum (fun p => (T.nodes (p - off)).children.values.map (off + ·))
      (fun p => (T.nodes (p - off)).tokens.length) (T.nodeCounter + 1) [t.root] 0
        = T.totalSize := by
    rw [h.root]
    exact depthFirstSum_map (off + ·) (fun n => by simp) (fun n => by simp) _ [0] 0
  rw [← hmap, RadixCache.totalSize_eq hb, RootedTree.depthFirstSum_eq hchild hnd hcard]
  refine congrArg some (sum_congr rfl fun p hp => ?_)
  obtain ⟨i, rfl⟩ := Nat.exists_eq_add_of_le (h.shift hp)
  rw [Nat.add_sub_cancel_left, slots]
  by_cases h0 : i = 0
  · rw [h0, h.tokens_root, Nat.add_zero, ← h.root, hb.root_value]
    rfl
  · obtain ⟨v, hv, hlen⟩ := hb.filled _ hp (h.ne_root_iff.mpr h0)
    rw [hv, getD_some, hlen, h.len_key hp]

/-- A Python cache that was just reset and a C++ tree that is only a root. -/
theorem of_root (cfg : CacheConfig) (c : RadixCache σ) {x : ℕ}
    (hnodes : T.nodes 0 = ⟨[], none, none, ∅, 1, x⟩) (hmap : T.nodeMap = [0])
    (hcounter : T.nodeCounter = 1) (hevict : T.evictableSize = 0) (hprot : T.protectedSize = 0) :
    Sim cfg c.counter (rootTree c.counter) (c.reset cfg) T := by
  have hroot := reset_root cfg c
  obtain ⟨hevict', hprot', -⟩ := reset_sizes cfg c
  have hone : ∀ {i}, c.counter + i ∈ (rootTree c.counter).nodes ↔ i = 0 := by
    intro i
    rw [rootTree, Finset.mem_singleton]
    omega
  constructor
  case root => rfl
  case shift => exact fun hn => (Finset.mem_singleton.mp hn).ge
  case counter => rw [reset_counter, hcounter]
  case evictableSize => rw [hevict, hevict']
  case protectedSize => rw [hprot, hprot']
  case nodeMap => exact fun {i} => by rw [hone, hmap, List.mem_singleton]
  case key =>
    intro i hi
    rw [hone.mp hi, Nat.add_zero, hroot, hnodes]
  case tokens_root => rw [hnodes]
  case parent_root => rw [hnodes]
  case parent => exact fun hi h0 => absurd (hone.mp hi) h0
  case value_root => rw [hnodes]
  case value => exact fun hi h0 => absurd (hone.mp hi) h0
  case refCount =>
    intro i hi
    rw [hone.mp hi, Nat.add_zero, hroot, hnodes]
    rfl
  case children =>
    intro i hi k j
    rw [hone.mp hi, hnodes]
    constructor
    · intro e
      cases e
    · rintro ⟨hc, -⟩
      exact absurd (Finset.mem_singleton.mp hc.1) hc.2.1

/-- **`reset`** on both sides; the handles start over, the object numbers do not. -/
theorem reset (h : Sim cfg off t c T) (hb : Base cfg t c) :
    ∃ T', T.reset = some T' ∧ Sim cfg c.counter (rootTree c.counter) (c.reset cfg) T' := by
  have href : (T.nodes 0).refCount = 1 := by
    have := h.refCount h.zero_mem
    rw [Nat.add_zero, ← h.root, hb.root_lockRef] at this
    omega
  have hself := CppRadixTree.modify_nodes_self T 0 fun n => { n with children := ∅ }
  refine ⟨_, if_pos ⟨href, h.parent_root, h.tokens_root, h.value_root⟩,
    of_root cfg c (x := (T.nodes 0).hitCount) (hself.trans ?_) rfl rfl rfl rfl⟩
  rw [href, h.parent_root, h.tokens_root, h.value_root]

theorem init (cfg : CacheConfig) : ∃ off t, Inv cfg t [] (RadixCache.init cfg : RadixCache σ) ∧
    Sim cfg off t (RadixCache.init cfg : RadixCache σ) CppRadixTree.new :=
  ⟨_, _, reset_inv cfg _, of_root (x := 0) cfg _ rfl rfl rfl rfl rfl⟩

end Sim

/-! ## 3. Histories of calls -/

/-- What an insertion is given: token ids that fit `token_t`, and one slot for each. -/
structure InsertArgs (σ : Type) where
  key : List Token
  value : List σ
  priority : ℤ
  chunked : Bool
  length_eq : value.length = key.length
  int32 : ∀ x ∈ key, x < 2 ^ 31

/-- The calls; `lock i` and `unlock i` are about the `i`-th node that a match has returned since the
last reset. -/
inductive TreeCall (σ : Type)
  | insert (args : InsertArgs σ)
  | matchPrefix (key : List Token)
  | lock (i : ℕ)
  | unlock (i : ℕ)
  | reset

/-- What a call returns. -/
inductive Answer (σ : Type)
  | prefixLen (n : ℕ)
  | indices (l : List σ)
  | done
deriving DecidableEq

/-- The answer of a call and the sizes after it. -/
structure Report (σ : Type) where
  answer : Answer σ
  evictableSize : ℤ
  protectedSize : ℤ
  totalSize : ℕ
deriving DecidableEq

/-- A Python cache with the nodes it has returned. -/
structure PySession (σ : Type) where
  cache : RadixCache σ
  returned : List NodeId

/-- A C++ tree with the handles it has returned. -/
structure CppSession (σ : Type) where
  tree : CppRadixTree σ
  returned : List NodeHandle

def PySession.report (s : PySession σ) (answer : Answer σ) : Option (Report σ × PySession σ) := do
  return (⟨answer, s.cache.evictableSize, s.cache.protectedSize, ← s.cache.totalSize⟩, s)

def CppSession.report (s : CppSession σ) (answer : Answer σ) : Option (Report σ × CppSession σ) := do
  return (⟨answer, s.tree.evictableSize, s.tree.protectedSize, ← s.tree.totalSize⟩, s)

/-- One call to the Python cache. -/
def PySession.step (cfg : CacheConfig) (s : PySession σ) :
    TreeCall σ → Option (Report σ × PySession σ)
  | .insert args => do
    let (n, c) ← s.cache.insert cfg ⟨args.key, none, false⟩ args.value args.priority args.chunked
    PySession.report { s with cache := c } (.prefixLen n)
  | .matchPrefix key => do
    let (r, c) ← s.cache.matchPrefix cfg ⟨key, none, false⟩
    PySession.report ⟨c, s.returned ++ [r.lastDeviceNode]⟩ (.indices r.deviceIndices)
  | .lock i => do
    let (c, _) ← s.cache.incLockRef (← s.returned[i]?)
    PySession.report { s with cache := c } .done
  | .unlock i => do
    let (c, _) ← s.cache.decLockRef (← s.returned[i]?)
    PySession.report { s with cache := c } .done
  | .reset => PySession.report ⟨s.cache.reset cfg, []⟩ .done

/-- One call to the C++ tree. -/
def CppSession.step (pageSize : ℕ) (s : CppSession σ) :
    TreeCall σ → Option (Report σ × CppSession σ)
  | .insert args => do
    let (n, T) ← s.tree.writingThrough pageSize args.key args.value
    CppSession.report { s with tree := T } (.prefixLen n)
  | .matchPrefix key => do
    let ((l, n), T) ← s.tree.matchPrefix pageSize key
    CppSession.report ⟨T, s.returned ++ [n]⟩ (.indices (CppRadixTree.mergeTensor l))
  | .lock i => do
    let T ← s.tree.lockRef (← s.returned[i]?) true
    CppSession.report { s with tree := T } .done
  | .unlock i => do
    let T ← s.tree.lockRef (← s.returned[i]?) false
    CppSession.report { s with tree := T } .done
  | .reset => do
    let T ← s.tree.reset
    CppSession.report ⟨T, []⟩ .done

/-- The reports of a whole history; `none` when a call failed. -/
def observe {S : Type} (step : S → TreeCall σ → Option (Report σ × S)) :
    S → List (TreeCall σ) → Option (List (Report σ))
  | _, [] => some []
  | s, call :: calls => do
    let (r, s) ← step s call
    return r :: (← observe step s calls)

/-- The reports of the Python cache, from the start. -/
def pyReports (cfg : CacheConfig) (calls : List (TreeCall σ)) : Option (List (Report σ)) :=
  observe (PySession.step cfg) ⟨RadixCache.init cfg, []⟩ calls

/-- The reports of the C++ tree, from the start. -/
def cppReports (pageSize : ℕ) (calls : List (TreeCall σ)) : Option (List (Report σ)) :=
  observe (CppSession.step pageSize) ⟨CppRadixTree.new, []⟩ calls

/-- How many nodes have been returned since the last reset, and which of them are held: an unlock has
to give back a lock. -/
def lockLedger : ℕ × List ℕ → TreeCall σ → Option (ℕ × List ℕ)
  | (n, held), .insert _ => some (n, held)
  | (n, held), .matchPrefix _ => some (n + 1, held)
  | (n, held), .lock i => if i < n then some (n, i :: held) else none
  | (n, held), .unlock i => if i ∈ held then some (n, held.erase i) else none
  | _, .reset => some (0, [])

/-- Locks are taken on returned nodes, and every unlock gives one back. -/
def Balanced (calls : List (TreeCall σ)) : Prop := (calls.foldlM lockLedger (0, [])).isSome

instance (calls : List (TreeCall σ)) : Decidable (Balanced calls) :=
  inferInstanceAs (Decidable (_ = true))

/-! ## 4. Every history -/

/-- Two sessions that have seen the same calls. -/
structure Lockstep (cfg : CacheConfig) (off : ℕ) (t : RootedTree NodeId) (s : PySession σ)
    (S : CppSession σ) : Prop where
  base : Base cfg t s.cache
  sim : Sim cfg off t s.cache S.tree
  returned : s.returned = S.returned.map (off + ·)
  mem : ∀ i ∈ S.returned, off + i ∈ t.nodes

/-- The held nodes are those the Python cache has references from. -/
structure Holds (cfg : CacheConfig) (t : RootedTree NodeId) (s : PySession σ) (L : ℕ × List ℕ) :
    Prop where
  length : s.returned.length = L.1
  lt : ∀ i ∈ L.2, i < L.1
  inv : Inv cfg t (L.2.map (s.returned.getD · 0)) s.cache

/-- Both sessions do the call: they give the same answer and stay in step, and the locks stay held
if the call keeps the ledger. -/
def Together (cfg : CacheConfig) (t : RootedTree NodeId) (s : PySession σ) (S : CppSession σ)
    (call : TreeCall σ) : Prop :=
  ∃ off' t' s' S' a, s.step cfg call = PySession.report s' a ∧
    S.step cfg.pageSize call = CppSession.report S' a ∧ Lockstep cfg off' t' s' S' ∧
    ∀ L L', Holds cfg t s L → lockLedger L call = some L' → Holds cfg t' s' L'

/-- The C++ tree fails an assertion, and the ledger refuses the call, too. -/
def Refused (cfg : CacheConfig) (t : RootedTree NodeId) (s : PySession σ) (S : CppSession σ)
    (call : TreeCall σ) : Prop :=
  S.step cfg.pageSize call = none ∧ ∀ L, Holds cfg t s L → lockLedger L call = none

namespace Lockstep

variable {s : PySession σ} {S : CppSession σ} (h : Lockstep cfg off t s S)

include h

theorem report (a : Answer σ) :
    ∃ r, PySession.report s a = some (r, s) ∧ CppSession.report S a = some (r, S) := by
  have htotal := RadixCache.totalSize_eq h.base
  refine ⟨_, by rw [PySession.report, htotal]; rfl, ?_⟩
  rw [CppSession.report, h.sim.totalSize_eq h.base, htotal, h.sim.evictableSize, h.sim.protectedSize]
  rfl

/-- The node that a lock or an unlock is about. -/
theorem getElem?_returned (i : ℕ) :
    (s.returned[i]? = none ∧ S.returned[i]? = none) ∨
      ∃ k, s.returned[i]? = some (off + k) ∧ S.returned[i]? = some k ∧ off + k ∈ t.nodes := by
  rw [h.returned, getElem?_map]
  rcases hk : S.returned[i]? with _ | k
  · exact .inl ⟨rfl, rfl⟩
  · exact .inr ⟨k, rfl, rfl, h.mem k (mem_of_getElem? hk)⟩

theorem step_insert (hplain : cfg.isEagle = false) (args : InsertArgs σ) :
    Together cfg t s S (.insert args) := by
  have hhash : ∀ x ∈ args.key, x < 2 ^ 32 := fun x hx => (args.int32 x hx).trans (by decide)
  obtain ⟨j, vs, t₁, c₁, node, t', c', T', hpy, hcpp, hreach, hgrow, hsim⟩ :=
    h.sim.insert h.base hplain args.length_eq hhash args.priority args.chunked
  refine ⟨off, t', { s with cache := c' }, { S with tree := T' }, .prefixLen (cfg.pageSize * j),
    by simp [PySession.step, hpy], by simp [CppSession.step, hcpp], ?_, ?_⟩
  · exact ⟨hgrow.base (hreach.reshape.base h.base), hsim, h.returned,
      fun i hi => hgrow.nodes_subset (hreach.reshape.nodes_subset (h.mem i hi))⟩
  · intro L L' hL hledger
    cases hledger
    exact ⟨hL.length, hL.lt, hgrow.inv (hreach.reshape.inv hL.inv)⟩

theorem step_matchPrefix (hplain : cfg.isEagle = false) (key : List Token) :
    Together cfg t s S (.matchPrefix key) := by
  obtain ⟨vs, t', c', i', ls, T', hpy, hcpp, hmerge, hre, hmem, hsim⟩ :=
    h.sim.matchPrefix h.base hplain key
  refine ⟨off, t', ⟨c', s.returned ++ [off + i']⟩, ⟨T', S.returned ++ [i']⟩, .indices vs,
    by simp [PySession.step, hpy], by simp [CppSession.step, hcpp, hmerge], ?_, ?_⟩
  · refine ⟨hre.base h.base, hsim, by simp [h.returned], fun i hi => ?_⟩
    rcases mem_append.mp hi with hi | hi
    · exact hre.nodes_subset (h.mem i hi)
    · exact List.mem_singleton.mp hi ▸ hmem
  · rintro ⟨n, held⟩ L' hL hledger
    cases hledger
    refine ⟨by rw [length_append, hL.length]; rfl, fun i hi => (hL.lt i hi).trans n.lt_succ_self,
      ?_⟩
    have hsame : held.map ((s.returned ++ [off + i']).getD · 0) = held.map (s.returned.getD · 0) := by
      refine map_congr_left fun i hi => ?_
      have hlt : i < s.returned.length := hL.length ▸ hL.lt i hi
      rw [getD_eq_getElem?_getD, getElem?_append_left hlt, ← getD_eq_getElem?_getD]
    rw [hsame]
    exact hre.inv hL.inv

theorem step_reset : Together cfg t s S .reset := by
  obtain ⟨T', hreset, hsim⟩ := h.sim.reset h.base
  have hinv := reset_inv cfg s.cache
  refine ⟨_, _, ⟨s.cache.reset cfg, []⟩, ⟨T', []⟩, .done, rfl, by simp [CppSession.step, hreset],
    ⟨hinv.toBase, hsim, rfl, fun i hi => absurd hi not_mem_nil⟩, ?_⟩
  rintro L L' - hledger
  cases hledger
  exact ⟨rfl, fun i hi => absurd hi not_mem_nil, hinv⟩

theorem step_lock (i : ℕ) :
    Together cfg t s S (.lock i) ∨ Refused cfg t s S (.lock i) := by
  rcases h.getElem?_returned i with ⟨hpy, hcpp⟩ | ⟨k, hpy, hcpp, hk⟩
  · refine .inr ⟨by simp [CppSession.step, hcpp], fun L hL => ?_⟩
    refine if_neg fun hlt => ?_
    rw [List.getElem?_eq_none_iff, hL.length] at hpy
    omega
  · obtain ⟨c', delta, T', hinc, hlock, hsim⟩ := h.sim.incLockRef h.base hk
    obtain ⟨c₁, delta₁, hc₁, -, hb'⟩ := incLockRef_base h.base hk
    cases hinc.symm.trans hc₁
    refine .inl ⟨off, t, { s with cache := c' }, { S with tree := T' }, .done,
      by simp [PySession.step, hpy, hinc], by simp [CppSession.step, hcpp, hlock],
      ⟨hb', hsim, h.returned, h.mem⟩, ?_⟩
    rintro ⟨n, held⟩ L' hL hledger
    obtain ⟨c₂, delta₂, hc₂, -, hinv⟩ := incLockRef_inv hL.inv hk
    cases hinc.symm.trans hc₂
    simp only [lockLedger, ite_none_right_eq_some] at hledger
    obtain ⟨hlt, hL'⟩ := hledger
    cases hL'
    refine ⟨hL.length, fun m hm => ?_, ?_⟩
    · rcases List.mem_cons.mp hm with rfl | hm
      · exact hlt
      · exact hL.lt m hm
    · rw [List.map_cons, getD_eq_getElem?_getD, hpy]
      exact hinv

theorem step_unlock (i : ℕ) :
    Together cfg t s S (.unlock i) ∨ Refused cfg t s S (.unlock i) := by
  rcases h.getElem?_returned i with ⟨hpy, hcpp⟩ | ⟨k, hpy, hcpp, hk⟩
  · refine .inr ⟨by simp [CppSession.step, hcpp], fun L hL => ?_⟩
    refine if_neg fun hi => ?_
    have hlt := hL.lt i hi
    rw [List.getElem?_eq_none_iff, hL.length] at hpy
    omega
  · have hnode : s.returned.getD i 0 = off + k := by
      rw [getD_eq_getElem?_getD, hpy]
      rfl
    obtain ⟨c', delta, hdec, hsim, hpos⟩ := h.sim.decLockRef h.base hk
    obtain ⟨c₁, delta₁, hc₁, -, hb'⟩ := decLockRef_base h.base hk
    cases hdec.symm.trans hc₁
    have hheld : ∀ {L : ℕ × List ℕ}, Holds cfg t s L → i ∈ L.2 →
        off + k ∈ L.2.map (s.returned.getD · 0) := fun hL hi =>
      List.mem_map.mpr ⟨i, hi, hnode⟩
    rcases hT : S.tree.lockRef k false with _ | T'
    · refine .inr ⟨by simp [CppSession.step, hcpp, hT], fun L hL => if_neg fun hi => ?_⟩
      obtain ⟨T', hT'⟩ := hpos (hL.inv.locked (hheld hL hi))
      cases hT.symm.trans hT'
    · refine .inl ⟨off, t, { s with cache := c' }, { S with tree := T' }, .done,
        by simp [PySession.step, hpy, hdec], by simp [CppSession.step, hcpp, hT],
        ⟨hb', hsim T' hT, h.returned, h.mem⟩, ?_⟩
      rintro ⟨n, held⟩ L' hL hledger
      simp only [lockLedger, ite_none_right_eq_some] at hledger
      obtain ⟨hi, hL'⟩ := hledger
      cases hL'
      obtain ⟨c₂, delta₂, hc₂, -, hinv⟩ := decLockRef_inv hL.inv (hheld hL hi)
      cases hdec.symm.trans hc₂
      refine ⟨hL.length, fun m hm => hL.lt m (List.mem_of_mem_erase hm), hinv.perm ?_⟩
      -- one occurrence of the index goes, and with it one occurrence of its node
      have hperm := ((perm_cons_erase hi).map (s.returned.getD · 0)).erase (off + k)
      rwa [List.map_cons, hnode, erase_cons_head] at hperm

/-- **One call**: both sessions do it together, or the C++ tree refuses it and the ledger does, too. -/
theorem step (hplain : cfg.isEagle = false) (call : TreeCall σ) :
    Together cfg t s S call ∨ Refused cfg t s S call := by
  cases call with
  | insert args => exact .inl (h.step_insert hplain args)
  | matchPrefix key => exact .inl (h.step_matchPrefix hplain key)
  | lock i => exact h.step_lock i
  | unlock i => exact h.step_unlock i
  | reset => exact .inl h.step_reset

end Lockstep

/-- Whatever the C++ tree reports, the Python cache reports. -/
theorem Lockstep.observe (hplain : cfg.isEagle = false) (calls : List (TreeCall σ)) :
    ∀ {off : ℕ} {t : RootedTree NodeId} {s : PySession σ} {S : CppSession σ} {rs : List (Report σ)},
      Lockstep cfg off t s S →
      Sglang.observe (CppSession.step cfg.pageSize) S calls = some rs →
      Sglang.observe (PySession.step cfg) s calls = some rs := by
  induction calls with
  | nil => exact fun _ hrs => hrs
  | cons call calls ih =>
    intro off t s S rs h hrs
    simp only [Sglang.observe, bind_eq_bind, bind_eq_some_iff] at hrs
    obtain ⟨⟨r, S₁⟩, hstep, rest, hrest, hrs⟩ := hrs
    rcases h.step hplain call with ⟨off', t', s', S', a, hpy, hcpp, h', -⟩ | ⟨hnone, -⟩
    · obtain ⟨r', hr, hR⟩ := h'.report a
      cases hstep.symm.trans (hcpp.trans hR)
      simp only [Sglang.observe, hpy, hr, bind_eq_bind, bind_some, ih h' hrest]
      exact hrs
    · cases hstep.symm.trans hnone

/-- The C++ tree does every history that keeps the ledger. -/
theorem Lockstep.exists_observe (hplain : cfg.isEagle = false) (calls : List (TreeCall σ)) :
    ∀ {off : ℕ} {t : RootedTree NodeId} {s : PySession σ} {S : CppSession σ} {L : ℕ × List ℕ},
      Lockstep cfg off t s S → Holds cfg t s L → (calls.foldlM lockLedger L).isSome →
      ∃ rs, Sglang.observe (CppSession.step cfg.pageSize) S calls = some rs := by
  induction calls with
  | nil => exact fun _ _ _ => ⟨[], rfl⟩
  | cons call calls ih =>
    intro off t s S L h hL hledger
    rw [foldlM_cons, bind_eq_bind] at hledger
    rcases hcall : lockLedger L call with _ | L'
    · rw [hcall] at hledger
      cases hledger
    · rw [hcall] at hledger
      rcases h.step hplain call with ⟨off', t', s', S', a, -, hcpp, h', hholds⟩ | ⟨-, hnone⟩
      · obtain ⟨r, -, hR⟩ := h'.report a
        obtain ⟨rs, hrs⟩ := ih h' (hholds L L' hL hcall) hledger
        refine ⟨r :: rs, ?_⟩
        simp only [Sglang.observe, hcpp, hR, bind_eq_bind, bind_some, hrs]
        rfl
      · cases hcall.symm.trans (hnone L hL)

/-- **The two radix trees agree**: the reports of every history that the C++ tree gets through are
those of the Python cache, and it gets through every history in which each unlock gives back a
lock. -/
theorem cppReports_agree (cfg : CacheConfig) (hplain : cfg.isEagle = false)
    (calls : List (TreeCall σ)) :
    (∀ rs, cppReports cfg.pageSize calls = some rs → pyReports cfg calls = some rs) ∧
      (Balanced calls → ∃ rs, cppReports cfg.pageSize calls = some rs ∧
        pyReports cfg calls = some rs) := by
  obtain ⟨off, t, hinv, hsim⟩ := Sim.init (σ := σ) cfg
  have hstart : Lockstep cfg off t ⟨RadixCache.init cfg, []⟩ ⟨CppRadixTree.new, []⟩ :=
    ⟨hinv.toBase, hsim, rfl, fun i hi => absurd hi not_mem_nil⟩
  have hagree : ∀ rs, cppReports cfg.pageSize calls = some rs → pyReports cfg calls = some rs :=
    fun rs hrs => hstart.observe hplain calls hrs
  have hholds : Holds cfg t ⟨RadixCache.init cfg, []⟩ (0, []) :=
    ⟨rfl, fun i hi => absurd hi not_mem_nil, hinv⟩
  refine ⟨hagree, fun hbal => ?_⟩
  obtain ⟨rs, hrs⟩ := hstart.exists_observe hplain calls hholds hbal
  exact ⟨rs, hrs, hagree rs hrs⟩

/-- Five tokens, of which two pages are stored; a match of one page cuts the leaf, and a second key
leaves it there while the first page is locked. -/
def splitUnderLock : List (TreeCall ℕ) :=
  [.insert ⟨[1, 2, 3, 4, 5], [10, 11, 12, 13, 14], 0, false, rfl, by decide⟩,
    .matchPrefix [1, 2, 3], .lock 0,
    .insert ⟨[1, 2, 7, 8], [20, 21, 22, 23], 0, false, rfl, by decide⟩,
    .matchPrefix [1, 2, 7, 8], .lock 1, .unlock 0, .matchPrefix [1], .unlock 1, .reset]

theorem cppReports_agree_splitUnderLock :
    (smallConfig true).isEagle = false ∧ Balanced splitUnderLock ∧
      ∃ rs, cppReports (smallConfig true).pageSize splitUnderLock = some rs ∧
        pyReports (smallConfig true) splitUnderLock = some rs :=
  ⟨rfl, by decide +kernel, (cppReports_agree (smallConfig true) rfl splitUnderLock).2
    (by decide +kernel)⟩

/-- A returned node is unlocked before it was locked. -/
def unlockFirst : List (TreeCall ℕ) :=
  [.insert ⟨[1, 2], [10, 11], 0, false, rfl, by decide⟩, .matchPrefix [1, 2], .unlock 0, .lock 0]

/-- The C++ tree fails the assertion that there is a reference; the Python cache counts down to minus
one, and the lock that follows protects nothing. -/
theorem cppReports_unlockFirst :
    cppReports (smallConfig false).pageSize unlockFirst = none ∧
      pyReports (smallConfig false) unlockFirst
        = some [⟨.prefixLen 0, 2, 0, 2⟩, ⟨.indices [10, 11], 2, 0, 2⟩, ⟨.done, 2, 0, 2⟩,
          ⟨.done, 2, 0, 2⟩] := by
  decide +kernel

end Sglang
