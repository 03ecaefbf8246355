/-
# The order of evictions by priority

With the strategy `priority` the order of the evictions is that of the priorities.  A node has at least
the priority of each of its children (`Descending`): an insertion raises the whole path that it walks,
and the upper half of a split inherits the priority of the lower one.  So a parent that joins the heap
is no smaller than what has been popped (`evict_ordered`).
-/
import Sglang.MemCache.Eviction

namespace Sglang

open Lib List Option

/-! ## 1. Priorities -/

namespace RadixCache

variable {σ : Type}

/-- **No node has a higher priority than its parent.**  Pointers of nodes that have left the tree count as
well: they still lead to older nodes. -/
structure Descending (c : RadixCache σ) : Prop where
  le_parent : ∀ n p, (c.nodes n).parent = some p → (c.nodes n).priority ≤ (c.nodes p).priority
  lt_counter : ∀ n p, (c.nodes n).parent = some p → n < c.counter ∧ p < c.counter
  root_parent : (c.nodes c.rootNode).parent = none
  root_lt : c.rootNode < c.counter

/-- Parent pointers and priorities are left alone. -/
structure SameOrder (c c' : RadixCache σ) : Prop where
  counter : c'.counter = c.counter
  rootNode : c'.rootNode = c.rootNode
  parent : ∀ n, (c'.nodes n).parent = (c.nodes n).parent
  priority : ∀ n, (c'.nodes n).priority = (c.nodes n).priority

section Descending

variable {cfg : CacheConfig} {c c' c'' : RadixCache σ} {n m : NodeId}

theorem SameOrder.refl (c : RadixCache σ) : SameOrder c c :=
  ⟨rfl, rfl, fun _ => rfl, fun _ => rfl⟩

theorem SameOrder.trans (h : SameOrder c c') (h' : SameOrder c' c'') : SameOrder c c'' :=
  ⟨h'.counter.trans h.counter, h'.rootNode.trans h.rootNode, fun n => (h'.parent n).trans (h.parent n),
    fun n => (h'.priority n).trans (h.priority n)⟩

variable {f : TreeNode σ → TreeNode σ}

theorem SameOrder.modify (c : RadixCache σ) (n : NodeId)
    (hparent : ∀ x, (f x).parent = x.parent) (hpriority : ∀ x, (f x).priority = x.priority) :
    SameOrder c (c.modify n f) :=
  ⟨rfl, rfl, c.modify_field n f _ hparent, c.modify_field n f _ hpriority⟩

theorem SameOrder.of_nodes (hcounter : c'.counter = c.counter) (hroot : c'.rootNode = c.rootNode)
    (hnodes : c'.nodes = c.nodes) : SameOrder c c' :=
  ⟨hcounter, hroot, fun _ => by rw [hnodes], fun _ => by rw [hnodes]⟩

theorem SameOrder.touch (c : RadixCache σ) (n : NodeId) (accessTime : ℤ) :
    SameOrder c (c.modify n fun x => { x with lastAccessTime := accessTime }) :=
  .modify c n (fun _ => rfl) fun _ => rfl

theorem SameOrder.readClock (cfg : CacheConfig) (c : RadixCache σ) :
    SameOrder c (c.readClock cfg).2 :=
  .of_nodes rfl rfl rfl

theorem Descending.of_sameOrder (h : Descending c) (hs : SameOrder c c') : Descending c' := by
  refine ⟨fun n p hp => ?_, fun n p hp => ?_, ?_, ?_⟩
  · rw [hs.parent] at hp
    rw [hs.priority, hs.priority]
    exact h.le_parent n p hp
  · rw [hs.parent] at hp
    rw [hs.counter]
    exact h.lt_counter n p hp
  · rw [hs.rootNode, hs.parent]
    exact h.root_parent
  · rw [hs.rootNode, hs.counter]
    exact h.root_lt

theorem SameOrder.incHitCount (c : RadixCache σ) (n : NodeId) (chunked : Bool) :
    SameOrder c (c.incHitCount n chunked) := by
  unfold RadixCache.incHitCount
  split
  · exact .refl c
  · exact .modify c n (fun _ => rfl) fun _ => rfl

theorem SameOrder.updateLeafStatus (c : RadixCache σ) (n : NodeId) :
    SameOrder c (c.updateLeafStatus n) :=
  .of_nodes (updateLeafStatus_counter c n) (updateLeafStatus_rootNode c n) (updateLeafStatus_nodes c n)

theorem SameOrder.ensureHash (h : c.ensureHash cfg n = some c') : SameOrder c c' := by
  unfold RadixCache.ensureHash at h
  split at h
  · cases h
    exact .refl c
  · simp only [bind_eq_bind, bind_eq_some_iff] at h
    obtain ⟨hs, -, h⟩ := h
    cases h
    exact .modify c n (fun _ => rfl) fun _ => rfl

theorem SameOrder.recordStoreEvent {medium : StorageMedium}
    (h : c.recordStoreEvent cfg n medium = some c') : SameOrder c c' := by
  unfold RadixCache.recordStoreEvent at h
  split at h
  · simp only [bind_eq_bind, bind_eq_some_iff] at h
    obtain ⟨c₁, hhash, hs, -, es, -, h⟩ := h
    cases h
    exact (SameOrder.ensureHash hhash).trans (.of_nodes rfl rfl rfl)
  · cases h
    exact .refl c

theorem Descending.raise (h : Descending c) (priority : ℤ)
    (hfparent : ∀ x, (f x).parent = x.parent) (hfprio : ∀ x, (f x).priority = max x.priority priority)
    (hparent : ∀ p, (c.nodes m).parent = some p → priority ≤ (c.nodes p).priority) :
    Descending (c.modify m f) := by
  have hsame : ∀ k, ((c.modify m f).nodes k).parent = (c.nodes k).parent :=
    c.modify_field m f _ hfparent
  have hself : ((c.modify m f).nodes m).priority = max (c.nodes m).priority priority := by
    rw [modify_nodes_self, hfprio]
  have hother : ∀ k, k ≠ m → ((c.modify m f).nodes k).priority = (c.nodes k).priority := by
    intro k hk
    rw [modify_nodes_ne _ _ hk]
  have hge : ∀ k, (c.nodes k).priority ≤ ((c.modify m f).nodes k).priority := by
    intro k
    by_cases hk : k = m
    · rw [hk, hself]
      exact le_max_left _ _
    · exact (hother k hk).ge
  refine ⟨fun n p hp => ?_, fun n p hp => ?_, ?_, h.root_lt⟩
  · rw [hsame] at hp
    refine le_trans ?_ (hge p)
    by_cases hn : n = m
    · subst hn
      rw [hself]
      exact max_le (h.le_parent n p hp) (hparent p hp)
    · rw [hother n hn]
      exact h.le_parent n p hp
  · rw [hsame] at hp
    exact h.lt_counter n p hp
  · rw [hsame]
    exact h.root_parent

variable {v : NodeId} {splitLen : ℕ}

theorem splitNode_order {key : RadixKey} {child parent : NodeId}
    (heq : c.splitNode cfg key child splitLen = some (v, c'))
    (hparent : (c.nodes child).parent = some parent) (hchild : child < c.counter)
    (hlt : parent < c.counter) :
    v = c.counter ∧ c'.counter = c.counter + 1 ∧ c'.rootNode = c.rootNode
      ∧ (c'.nodes v).parent = some parent ∧ (c'.nodes v).priority = (c.nodes child).priority
      ∧ (c'.nodes child).parent = some v
      ∧ (∀ m, m ≠ v → m ≠ child → (c'.nodes m).parent = (c.nodes m).parent)
      ∧ ∀ m, m ≠ v → (c'.nodes m).priority = (c.nodes m).priority := by
  unfold RadixCache.splitNode at heq
  simp only [hparent, bind_eq_bind, bind_some, bind_eq_some_iff] at heq
  obtain ⟨value, -, restKey, -, firstKey, -, heq⟩ := heq
  cases heq
  have hcv : child ≠ c.counter := hchild.ne
  have hpv : parent ≠ c.counter := hlt.ne
  refine ⟨rfl, rfl, rfl, ?_, ?_, ?_, fun m hm hmc => ?_, fun m hm => ?_⟩
  · simp [newTreeNode, modify, hcv.symm, hpv.symm]
  · simp [newTreeNode, modify, hcv.symm, hpv.symm, TreeNode.init]
  · by_cases hcp : child = parent
    · subst hcp
      simp [newTreeNode, modify]
    · simp [newTreeNode, modify, hcp]
  · have hm : m ≠ c.counter := hm
    by_cases hmp : m = parent
    · subst hmp
      simp [newTreeNode, modify, hm, hmc]
    · simp [newTreeNode, modify, hm, hmc, hmp]
  · have hm : m ≠ c.counter := hm
    by_cases hmp : m = parent <;> by_cases hmc : m = child <;>
      simp_all [newTreeNode, modify]

/-- **A split**: the upper half has the parent and the priority that the node had. -/
theorem Descending.splitNode (h : Descending c) {key : RadixKey} {child : NodeId}
    (heq : c.splitNode cfg key child splitLen = some (v, c')) :
    Descending c' ∧ ∃ p, (c.nodes child).parent = some p ∧ (c'.nodes v).parent = some p
      ∧ (c'.nodes p).priority = (c.nodes p).priority := by
  obtain ⟨parent, hparent⟩ : ∃ p, (c.nodes child).parent = some p := by
    cases hp : (c.nodes child).parent with
    | none => simp [RadixCache.splitNode, hp] at heq
    | some p => exact ⟨p, rfl⟩
  obtain ⟨hchild, hlt⟩ := h.lt_counter _ _ hparent
  obtain ⟨rfl, hcounter, hroot, hvp, hvprio, hcp, hpar, hprio⟩ :=
    splitNode_order heq hparent hchild hlt
  refine ⟨⟨fun n p hp => ?_, fun n p hp => ?_, ?_, ?_⟩, parent, hparent, hvp, hprio parent hlt.ne⟩
  · by_cases hn : n = c.counter
    · subst hn
      rw [hvp, Option.some.injEq] at hp
      subst hp
      rw [hvprio, hprio parent hlt.ne]
      exact h.le_parent _ _ hparent
    · by_cases hnc : n = child
      · subst hnc
        rw [hcp, Option.some.injEq] at hp
        subst hp
        rw [hvprio, hprio n hn]
      · rw [hpar n hn hnc] at hp
        rw [hprio n hn, hprio p (h.lt_counter n p hp).2.ne]
        exact h.le_parent n p hp
  · rw [hcounter]
    by_cases hn : n = c.counter
    · subst hn
      rw [hvp, Option.some.injEq] at hp
      exact ⟨Nat.lt_succ_self _, hp ▸ Nat.lt_succ_of_lt hlt⟩
    · by_cases hnc : n = child
      · subst hnc
        rw [hcp, Option.some.injEq] at hp
        exact ⟨Nat.lt_succ_of_lt hchild, hp ▸ Nat.lt_succ_self _⟩
      · rw [hpar n hn hnc] at hp
        exact ⟨Nat.lt_succ_of_lt (h.lt_counter n p hp).1, Nat.lt_succ_of_lt (h.lt_counter n p hp).2⟩
  · have hne : c.rootNode ≠ child := by
      intro hne
      rw [← hne, h.root_parent] at hparent
      cases hparent
    rw [hroot, hpar _ h.root_lt.ne hne]
    exact h.root_parent
  · rw [hroot, hcounter]
    exact Nat.lt_succ_of_lt h.root_lt

variable {accessTime : ℤ}

/-- A lookup splits at most one node. -/
theorem Descending.matchLoop : ∀ {fuel : ℕ} {c c' : RadixCache σ} {node node' : NodeId}
    {key : RadixKey} {ck : ChildKey} {value value' : List (List σ)}, Descending c →
    matchLoop cfg accessTime fuel c node key ck value = some (value', node', c') → Descending c' := by
  intro fuel
  induction fuel with
  | zero => intro c c' node node' key ck value value' _ heq; cases heq
  | succ fuel ih =>
    intro c c' node node' key ck value value' h heq
    rw [RadixCache.matchLoop] at heq
    split at heq
    · cases hl : (c.nodes node).children.lookup ck with
      | none =>
        rw [hl] at heq
        cases heq
        exact h
      | some child =>
        simp only [hl, bind_eq_bind, bind_eq_some_iff] at heq
        have h₁ := h.of_sameOrder (.touch c child accessTime)
        generalize (c.modify child fun n => { n with lastAccessTime := accessTime }) = c₁ at heq h₁
        obtain ⟨prefixLen, -, heq⟩ := heq
        split at heq
        · simp only [bind_eq_some_iff] at heq
          obtain ⟨⟨v, c₂⟩, hsplit, value, -, heq⟩ := heq
          cases heq
          exact (h₁.splitNode hsplit).1
        · simp only [bind_eq_some_iff] at heq
          obtain ⟨value, -, ck', -, heq⟩ := heq
          exact ih h₁ heq
    · cases heq
      exact h

theorem Descending.matchPrefix (h : Descending c) {key : RadixKey} {m : MatchResult σ}
    (heq : c.matchPrefix cfg key = some (m, c')) : Descending c' := by
  unfold RadixCache.matchPrefix at heq
  simp only at heq
  split at heq
  · cases heq
    exact h
  · split at heq
    · cases heq
      exact h
    · simp only [bind_eq_bind, bind_eq_some_iff] at heq
      obtain ⟨⟨value, node, c₁⟩, hhelper, heq⟩ := heq
      cases heq
      unfold RadixCache.matchPrefixHelper at hhelper
      simp only [bind_eq_bind, bind_eq_some_iff] at hhelper
      obtain ⟨ck, -, hloop⟩ := hhelper
      exact Descending.matchLoop (h.of_sameOrder ((SameOrder.readClock cfg c).trans (.touch _ _ _))) hloop

/-- **The walk of an insertion** raises every node that it comes to, each after its parent. -/
theorem Descending.insertLoop {priority : ℤ} {chunked : Bool} : ∀ (fuel : ℕ)
    {t : RootedTree NodeId} {c : RadixCache σ} {node : NodeId} {key : RadixKey} {value : List σ}
    {ck : ChildKey} {total : ℕ} {w : InsertWalk σ},
    Represents cfg t c → Filled t c → node ∈ t.nodes → key.Fits cfg.isEagle cfg.pageSize →
    (key.label cfg.pageSize ≠ [] → key.childKey cfg.pageSize = some ck) →
    Descending c → priority ≤ (c.nodes node).priority →
    insertLoop cfg accessTime priority chunked fuel c node key value ck total = some w →
    Descending w.cache ∧ priority ≤ (w.cache.nodes w.node).priority := by
  intro fuel
  induction fuel with
  | zero => intro t c node key value ck total w _ _ _ _ _ _ _ heq; cases heq
  | succ fuel ih =>
    intro t c node key value ck total w hrep hfill hnode hkey hck h hle heq
    by_cases hlen : key.len > 0
    · have hne : key.label cfg.pageSize ≠ [] := by
        rw [Ne, hkey.label_eq_nil]
        omega
      cases hl : (c.nodes node).children.lookup ck with
      | none =>
        simp only [RadixCache.insertLoop, hlen, if_true, hl] at heq
        cases heq
        exact ⟨h, hle⟩
      | some child =>
        have ha : Agree c (c.modify child fun n => { n with lastAccessTime := accessTime }) :=
          Agree.modify (by constructor <;> (intros; rfl)) c child
        have hs := SameOrder.touch c child accessTime
        generalize hc₁ : (c.modify child fun n => { n with lastAccessTime := accessTime }) = c₁ at ha hs
        have h₁ := h.of_sameOrder hs
        have hrep₁ := hrep.of_sameLinks ha.toSameLinks
        obtain ⟨j, hrd⟩ := exists_round hrep₁ hnode hkey hne (hck hne) (by rw [ha.children]; exact hl)
        obtain ⟨t₂, c₂, node₂, -, hstay, hre₂, hmem₂, -⟩ := hrd.splitOrStay hrep₁ (ha.filled hfill)
        have hpar : (c₁.nodes child).parent = some node := by
          rw [hrep₁.parent_eq hrd.isChild.1 hrd.isChild.2.1, hrd.isChild.2.2]
        have hle₁ : priority ≤ (c₁.nodes node).priority := by
          rw [hs.priority]
          exact hle
        -- the node that the round ends at hangs under the node it came from
        obtain ⟨h₂, hnext⟩ : Descending c₂ ∧ ∀ p, (c₂.nodes node₂).parent = some p →
            priority ≤ (c₂.nodes p).priority := by
          unfold RadixCache.splitOrStay at hstay
          split at hstay
          · obtain ⟨h₂, p, hp, hp', hprio⟩ := h₁.splitNode hstay
            rw [hpar, Option.some.injEq] at hp
            subst hp
            refine ⟨h₂, fun q hq => ?_⟩
            rw [hp', Option.some.injEq] at hq
            rw [← hq, hprio]
            exact hle₁
          · cases hstay
            refine ⟨h₁, fun q hq => ?_⟩
            rw [hpar, Option.some.injEq] at hq
            rw [← hq]
            exact hle₁
        have hagree : Agree c₂ ((c₂.modify node₂ fun n =>
            { n with priority := max n.priority priority }).incHitCount node₂ chunked) :=
          (Agree.modify (by constructor <;> (intros; rfl)) c₂ node₂).trans
            (Agree.incHitCount _ node₂ chunked)
        have hcount := SameOrder.incHitCount (c₂.modify node₂ fun n =>
          { n with priority := max n.priority priority }) node₂ chunked
        have h₃ := (h₂.raise priority (f := fun n => { n with priority := max n.priority priority })
          (fun _ => rfl) (fun _ => rfl) hnext).of_sameOrder hcount
        have hle₃ : priority ≤ (((c₂.modify node₂ fun n =>
            { n with priority := max n.priority priority }).incHitCount node₂ chunked).nodes
              node₂).priority := by
          rw [hcount.priority, modify_nodes_self]
          exact le_max_right _ _
        generalize hc₃ : ((c₂.modify node₂ fun n =>
            { n with priority := max n.priority priority }).incHitCount node₂ chunked) = c₃
          at hagree h₃ hle₃
        have hre₃ : Reshape cfg t c t₂ c₃ := ((Reshape.of_agree ha).trans hre₂).touch hagree
        have hkey' := hkey.dropTo j
        obtain ⟨ck', hck', hck''⟩ := exists_nextChildKey hkey' ck
        simp only [RadixCache.insertLoop, hlen, if_true, hl, hc₁, hrd.matchLen, bind_eq_bind,
          bind_some, hstay, hc₃, hck'] at heq
        exact ih (hre₃.represents hrep) (hre₃.filled hfill) hmem₂ hkey' hck'' h₃ hle₃ heq
    · simp only [RadixCache.insertLoop, hlen, if_false] at heq
      cases heq
      exact ⟨h, hle⟩

/-- **A new leaf** has the priority of the insertion, which its parent has been raised to. -/
theorem Descending.addLeaf (h : Descending c) {node : NodeId} {key : RadixKey} {value : List σ}
    {ck : ChildKey} {priority : ℤ} {chunked : Bool} (hnode : node < c.counter)
    (hle : priority ≤ (c.nodes node).priority)
    (heq : c.addLeaf cfg node key value ck priority chunked = some c') : Descending c' := by
  have hne : node ≠ c.counter := hnode.ne
  generalize hc₁ : (c.linkLeaf cfg node key value ck priority chunked).2 = c₁
  have hcounter : c₁.counter = c.counter + 1 := by
    rw [← hc₁]
    cases chunked <;> rfl
  have hnew : (c₁.nodes c.counter).parent = some node ∧ (c₁.nodes c.counter).priority = priority := by
    rw [← hc₁]
    cases chunked <;>
      simp [linkLeaf, newTreeNode, incHitCount, modify, hne, hne.symm, TreeNode.init]
  have hold : ∀ m, m ≠ c.counter → (c₁.nodes m).parent = (c.nodes m).parent
      ∧ (c₁.nodes m).priority = (c.nodes m).priority := by
    intro m hm
    rw [← hc₁]
    by_cases hmn : m = node
    · subst hmn
      cases chunked <;> simp [linkLeaf, newTreeNode, incHitCount, modify, hm]
    · cases chunked <;> simp [linkLeaf, newTreeNode, incHitCount, modify, hm, hmn]
  have hroot : c₁.rootNode = c.rootNode := by
    rw [← hc₁]
    cases chunked <;> rfl
  have h₁ : Descending c₁ := by
    refine ⟨fun n p hp => ?_, fun n p hp => ?_, ?_, ?_⟩
    · by_cases hn : n = c.counter
      · subst hn
        rw [hnew.1, Option.some.injEq] at hp
        subst hp
        rw [hnew.2, (hold node hne).2]
        exact hle
      · rw [(hold n hn).1] at hp
        rw [(hold n hn).2, (hold p (h.lt_counter n p hp).2.ne).2]
        exact h.le_parent n p hp
    · rw [hcounter]
      by_cases hn : n = c.counter
      · subst hn
        rw [hnew.1, Option.some.injEq] at hp
        exact ⟨Nat.lt_succ_self _, hp ▸ Nat.lt_succ_of_lt hnode⟩
      · rw [(hold n hn).1] at hp
        exact ⟨Nat.lt_succ_of_lt (h.lt_counter n p hp).1, Nat.lt_succ_of_lt (h.lt_counter n p hp).2⟩
    · rw [hroot, (hold _ h.root_lt.ne).1]
      exact h.root_parent
    · rw [hroot, hcounter]
      exact Nat.lt_succ_of_lt h.root_lt
  have hrec : ((c₁.updateLeafStatus node).updateLeafStatus c.counter).recordStoreEvent cfg
      c.counter .gpu = some c' := by
    rw [← heq, ← hc₁]
    rfl
  exact h₁.of_sameOrder (((SameOrder.updateLeafStatus c₁ node).trans
    (SameOrder.updateLeafStatus _ c.counter)).trans (SameOrder.recordStoreEvent hrec))

variable {k : ℕ}

theorem Descending.insertHelper {t : RootedTree NodeId} (h : Descending c) (hb : Base cfg t c)
    {key : RadixKey} {value : List σ} {priority : ℤ} {chunked : Bool}
    (hkey : key.Fits cfg.isEagle cfg.pageSize)
    (heq : c.insertHelper cfg c.rootNode key value priority chunked = some (k, c')) :
    Descending c' := by
  unfold RadixCache.insertHelper at heq
  have hagree : Agree c ((c.readClock cfg).2.modify c.rootNode fun n => { n with
      lastAccessTime := (c.readClock cfg).1
      priority := max n.priority priority }) :=
    (Agree.readClock cfg c).trans (Agree.modify (by constructor <;> (intros; rfl)) _ _)
  have hclock := h.of_sameOrder (.readClock cfg c)
  have h₀ := hclock.raise (m := c.rootNode) priority (f := fun n => { n with
      lastAccessTime := (c.readClock cfg).1
      priority := max n.priority priority }) (fun _ => rfl) (fun _ => rfl) fun p hp => by
    have hp : (c.nodes c.rootNode).parent = some p := hp
    rw [h.root_parent] at hp
    cases hp
  have hle : priority ≤ (((c.readClock cfg).2.modify c.rootNode fun n => { n with
      lastAccessTime := (c.readClock cfg).1
      priority := max n.priority priority }).nodes c.rootNode).priority := by
    rw [modify_nodes_self]
    exact le_max_right _ _
  generalize hc₀ : ((c.readClock cfg).2.modify c.rootNode fun n => { n with
      lastAccessTime := (c.readClock cfg).1
      priority := max n.priority priority }) = c₀ at hagree h₀ hle
  have hb₀ := hagree.base hb
  simp only [hc₀] at heq
  split at heq
  · cases heq
    exact h₀
  · simp only [bind_eq_bind, bind_eq_some_iff] at heq
    obtain ⟨ck, hck, w, hloop, heq⟩ := heq
    have hroot : c.rootNode ∈ t.nodes := by
      rw [hb.represents.root_eq]
      exact t.root_mem
    obtain ⟨hw, hwle⟩ := Descending.insertLoop _ hb₀.represents hb₀.filled hroot hkey (fun _ => hck) h₀
      hle hloop
    split at heq
    · simp only [bind_eq_some_iff] at heq
      obtain ⟨c₁, hadd, heq⟩ := heq
      cases heq
      obtain ⟨j, vs, t₁, w', hloop', hreach, -⟩ := insertLoop_spec (c.readClock cfg).1 priority
        chunked (key.len + 1) t c₀ c.rootNode key value ck 0 hb₀.represents hb₀.filled hroot hkey
        (fun _ => hck) (Nat.lt_succ_self _)
      cases hloop.symm.trans hloop'
      exact hw.addLeaf ((hreach.reshape.base hb₀).represents.lt_counter hreach.mem) hwle hadd
    · cases heq
      exact hw

/-- **An insertion** of any priority leaves the priorities descending. -/
theorem Descending.insert {t : RootedTree NodeId} (h : Descending c) (hb : Base cfg t c)
    {key : RadixKey} {value : List σ} {priority : ℤ} {chunked : Bool} (hmode : ModeOk cfg key)
    (heq : c.insert cfg key value priority chunked = some (k, c')) : Descending c' := by
  have hhelper : c.insertHelper cfg c.rootNode (normKey cfg key)
      ((((key.maybeToBigramView cfg.isEagle (some value)).2).getD []).take (normKey cfg key).len)
      priority chunked = some (k, c') := by
    rw [normKey, ← maybeToBigramView_fst key cfg.isEagle (some value)]
    exact heq
  exact h.insertHelper hb (normKey_fits hmode) hhelper

theorem SameOrder.lockLoop {round : RadixCache σ → NodeId → RadixCache σ} {change : TreeNode σ → ℤ}
    (hround : ∀ c n, SameOrder c (round c n)) : ∀ {fuel : ℕ} {c c' : RadixCache σ} {n : NodeId}
    {delta delta' : ℤ}, lockLoop round change fuel c n delta = some (c', delta') → SameOrder c c' := by
  intro fuel
  induction fuel with
  | zero => intro c c' n delta delta' heq; cases heq
  | succ fuel ih =>
    intro c c' n delta delta' heq
    rw [RadixCache.lockLoop] at heq
    split at heq
    · cases heq
      exact .refl c
    · simp only [bind_eq_bind, bind_eq_some_iff] at heq
      obtain ⟨p, -, heq⟩ := heq
      exact (hround c n).trans (ih heq)

theorem SameOrder.incLockRound (c : RadixCache σ) (n : NodeId) : SameOrder c (c.incLockRound n) := by
  refine SameOrder.trans ?_ (.updateLeafStatus _ n)
  refine SameOrder.trans ?_ (.modify _ n (fun _ => rfl) fun _ => rfl)
  split <;> exact .of_nodes rfl rfl rfl

theorem SameOrder.decLockRound (c : RadixCache σ) (n : NodeId) : SameOrder c (c.decLockRound n) := by
  refine SameOrder.trans ?_ (.updateLeafStatus _ n)
  refine SameOrder.trans ?_ (.modify _ n (fun _ => rfl) fun _ => rfl)
  split <;> exact .of_nodes rfl rfl rfl

/-- An eviction takes no pointer and no priority away. -/
theorem Rounds.sameOrder {numTokens numEvicted : ℕ} {t t' : RootedTree NodeId}
    {heap : List (List ℤ × NodeId)} {ns : List NodeId}
    (h : Rounds cfg numTokens t' c' t c heap numEvicted ns) : SameOrder c c' := by
  induction h with
  | stop _ => exact .refl _
  | round _ _ hd hrank _ ih =>
    exact SameOrder.trans ⟨hd.counter, hd.rootNode, hd.parent, fun n => (hrank n).priority⟩ ih

theorem descending_init (cfg : CacheConfig) : Descending (RadixCache.init cfg : RadixCache σ) := by
  have hnone : ∀ n, ((RadixCache.init cfg : RadixCache σ).nodes n).parent = none := by
    intro n
    by_cases hn : n = 0 <;> cases hon : cfg.enableKvCacheEvents <;>
      simp [RadixCache.init, reset, newTreeNode, modify, recordAllClearedEvent, TreeNode.init, hn,
        hon]
  refine ⟨fun n p hp => ?_, fun n p hp => ?_, hnone _, ?_⟩
  · rw [hnone] at hp
    cases hp
  · rw [hnone] at hp
    cases hp
  · cases hon : cfg.enableKvCacheEvents <;>
      simp [RadixCache.init, reset, newTreeNode, modify, recordAllClearedEvent, hon]

/-! ## 2. The order of an eviction -/

variable {numTokens numEvicted : ℕ} {t t' : RootedTree NodeId} {heap : List (List ℤ × NodeId)}
  {ns : List NodeId}

/-- The heap is sorted by the priorities that the nodes have. -/
def FreshHeap (cfg : CacheConfig) (c : RadixCache σ) (heap : List (List ℤ × NodeId)) : Prop :=
  ∀ e ∈ heap, e.1 = cfg.evictionPolicy.getPriority (c.nodes e.2)

theorem FreshHeap.pushParent (h : FreshHeap cfg c heap)
    (hrank : ∀ m, SameRank (c.nodes m) (c'.nodes m)) (parent : NodeId) (e : List ℤ × NodeId) :
    FreshHeap cfg c' (pushParent cfg c' parent (heap.erase e)) := by
  have hrest : FreshHeap cfg c' (heap.erase e) := fun x hx => by
    rw [(hrank x.2).getPriority]
    exact h x (mem_of_mem_erase hx)
  unfold RadixCache.pushParent
  split
  · intro x hx
    rcases mem_cons.mp hx with rfl | hx
    · rfl
    · exact hrest x hx
  · exact hrest

theorem FreshHeap.priority_le (h : FreshHeap cfg c heap) (hpolicy : cfg.evictionPolicy = .priority)
    {e e' : List ℤ × NodeId} (he : e ∈ heapLeast c.nodes heap) (he' : e' ∈ heap) :
    (c.nodes e.2).priority ≤ (c.nodes e'.2).priority := by
  obtain ⟨hmem, hle⟩ := mem_heapLeast.mp he
  have hrank := hle e' he'
  rw [heapRank, heapRank, h e hmem, h e' he', hpolicy] at hrank
  by_contra hlt
  exact absurd hrank (not_le_of_gt (List.Lex.rel (lt_of_not_ge hlt)))

/-- What is popped from now on has at least the priority that everything on the heap has. -/
theorem Rounds.priority_ge (h : Rounds cfg numTokens t' c' t c heap numEvicted ns)
    (hrep : Represents cfg t c) (hdesc : Descending c) {q : ℤ}
    (hq : ∀ e ∈ heap, q ≤ (c.nodes e.2).priority) : ∀ n ∈ ns, q ≤ (c.nodes n).priority := by
  induction h with
  | stop _ => exact nofun
  | @round t c c₁ heap numEvicted ns e _ he hd hrank _ ih =>
    have hmem := (mem_heapLeast.mp he).1
    have hs : SameOrder c c₁ := ⟨hd.counter, hd.rootNode, hd.parent, fun n => (hrank n).priority⟩
    have hparent := hdesc.le_parent e.2 (t.parent e.2) (hrep.parent_eq hd.mem hd.ne_root)
    have hrest : ∀ x ∈ heap.erase e, q ≤ (c₁.nodes x.2).priority := fun x hx => by
      rw [hs.priority]
      exact hq x (mem_of_mem_erase hx)
    have hrounds := ih (hd.represents hrep) (hdesc.of_sameOrder hs) (by
      unfold pushParent
      split
      · intro x hx
        rcases mem_cons.mp hx with rfl | hx
        · rw [hs.priority]
          exact (hq e hmem).trans hparent
        · exact hrest x hx
      · exact hrest)
    intro n hn
    rcases mem_cons.mp hn with rfl | hn
    · exact hq e hmem
    · rw [← hs.priority]
      exact hrounds n hn

/-- **The nodes are evicted in the order of their priorities.** -/
theorem Rounds.sorted (h : Rounds cfg numTokens t' c' t c heap numEvicted ns)
    (hpolicy : cfg.evictionPolicy = .priority) (hrep : Represents cfg t c) (hdesc : Descending c)
    (hfresh : FreshHeap cfg c heap) :
    ns.Pairwise fun m n => (c.nodes m).priority ≤ (c.nodes n).priority := by
  induction h with
  | stop _ => exact .nil
  | @round t c c₁ heap numEvicted ns e hlt he hd hrank hrounds ih =>
    have hs : SameOrder c c₁ := ⟨hd.counter, hd.rootNode, hd.parent, fun n => (hrank n).priority⟩
    have hrest := ih (hd.represents hrep) (hdesc.of_sameOrder hs) (hfresh.pushParent hrank _ e)
    refine pairwise_cons.mpr ⟨?_, hrest.imp fun hle => by rwa [hs.priority, hs.priority] at hle⟩
    intro n hn
    exact (Rounds.round hlt he hd hrank hrounds).priority_ge hrep hdesc
      (fun e' he' => hfresh.priority_le hpolicy he he') n (mem_cons_of_mem _ hn)

/-- **No node is evicted while an unlocked leaf of lower priority is left.** -/
theorem Rounds.least (h : Rounds cfg numTokens t' c' t c heap numEvicted ns)
    (hpolicy : cfg.evictionPolicy = .priority) (hb : Base cfg t c) (hheap : HeapOk c heap)
    (hfresh : FreshHeap cfg c heap) {before after : List NodeId} {x y : NodeId}
    (hns : ns = before ++ x :: after) (hy : y ∈ t.nodes) (hr : y ≠ t.root)
    (hlock : (c.nodes y).lockRef = 0) (hout : y ∉ before) (hleaf : ∀ k, t.Child y k → k ∈ before) :
    (c.nodes x).priority ≤ (c.nodes y).priority := by
  induction h generalizing before with
  | stop _ => simp at hns
  | @round t c c₁ heap numEvicted ns e hlt he hd hrank _ ih =>
    cases before with
    | nil =>
      obtain ⟨rfl, -⟩ := List.cons.inj hns
      have hin := hheap.full y ((hb.leaves.mem_iff y).mpr
        ⟨hy, hr, hlock.le, fun k hk => absurd (hleaf k hk) not_mem_nil⟩) hlock
      obtain ⟨e', he', rfl⟩ := List.mem_map.mp hin
      exact hfresh.priority_le hpolicy he he'
    | cons z before =>
      obtain ⟨rfl, htail⟩ := List.cons.inj hns
      have hrest := ih (hd.base hb) (hheap.pop (mem_heapLeast.mp he).1 hb hd rfl)
        (hfresh.pushParent hrank _ e) htail
        (by
          exact Finset.mem_erase.mpr ⟨fun h => hout (h ▸ mem_cons_self), hy⟩)
        hr (by rw [hd.lockRef]; exact hlock) (fun h => hout (mem_cons_of_mem _ h))
        (fun k hk => by
          obtain ⟨hchild, hne⟩ := RootedTree.detach_child_iff.mp hk
          rcases mem_cons.mp (hleaf k hchild) with h | h
          · exact absurd h hne
          · exact h)
      rwa [(hrank x).priority, (hrank y).priority] at hrest

end Descending

end RadixCache

namespace KVSystem

open RadixCache

variable {cfg : CacheConfig} {args : ServerArgs} {locks : List NodeId} {S S' : KVSystem} {r : ReqId}

theorem unlockLast_sameOrder (h : S.unlockLast r = some S') : SameOrder S.cache S'.cache := by
  unfold unlockLast at h
  split at h
  · cases h
    exact .refl _
  · simp only [bind_eq_bind, bind_eq_some_iff] at h
    obtain ⟨⟨c', delta⟩, hdec, h⟩ := h
    cases h
    exact SameOrder.lockLoop .decLockRound hdec

theorem cacheFinishedReq_descending {t : RootedTree NodeId} {isInsert : Bool}
    (hi : Inv cfg t locks S.cache) (hdesc : Descending S.cache)
    (h : S.cacheFinishedReq cfg args r isInsert = some S') : Descending S'.cache := by
  unfold cacheFinishedReq at h
  simp only [bind_eq_bind] at h
  generalize (if cfg.disableFinishedInsert then false else isInsert) = isInsert at h
  split at h
  · cases h
  · simp only [bind_eq_some_iff] at h
    obtain ⟨idx, -, S₁, hstore, hunlock⟩ := h
    refine Descending.of_sameOrder ?_ (unlockLast_sameOrder hunlock)
    show Descending S₁.cache
    unfold storeFinished at hstore
    split at hstore
    · simp only [bind_eq_bind, bind_eq_some_iff] at hstore
      obtain ⟨⟨k, c'⟩, hins, hstore⟩ := hstore
      cases hstore
      exact Descending.insert hdesc hi.toBase (fun h => by rw [← (Req.radixKey_fits cfg _ _).mode]; exact h) hins
    · cases hstore
      exact hdesc

theorem cacheUnfinishedReq_descending {t : RootedTree NodeId} {chunked : Bool}
    (hi : Inv cfg t locks S.cache) (hdesc : Descending S.cache)
    (h : S.cacheUnfinishedReq cfg r chunked = some S') : Descending S'.cache := by
  unfold cacheUnfinishedReq at h
  simp only [bind_eq_bind, bind_eq_some_iff] at h
  obtain ⟨idx, -, ⟨k, c₁⟩, hins, ⟨m, c₂⟩, hmatch, h⟩ := h
  have h₁ := Descending.insert hdesc hi.toBase
    (fun h => by rw [← (Req.radixKey_fits cfg _ _).mode]; exact h) hins
  have h₂ := h₁.matchPrefix hmatch
  split at h
  · cases h
  · simp only [bind_eq_some_iff] at h
    obtain ⟨n, -, ⟨c₃, d⟩, hdec, ⟨c₄, d'⟩, hinc, h⟩ := h
    cases h
    exact (h₂.of_sameOrder (SameOrder.lockLoop .decLockRound hdec)).of_sameOrder
      (SameOrder.lockLoop .incLockRound hinc)

/-- **In every state of a run the priorities descend.** -/
theorem LockRun.descending (h : LockRun cfg args locks S) : Descending S.cache := by
  induction h with
  | init heq =>
    rw [heq]
    exact descending_init cfg
  | insert hrun hmode _ _ heq ih =>
    obtain ⟨t, hi⟩ := hrun.inv
    exact ih.insert hi.toBase hmode heq
  | matchPrefix _ _ heq ih => exact ih.matchPrefix heq
  | incLockRef _ _ heq ih => exact ih.of_sameOrder (SameOrder.lockLoop .incLockRound heq)
  | decLockRef _ _ heq ih => exact ih.of_sameOrder (SameOrder.lockLoop .decLockRound heq)
  | cacheFinishedReq hrun _ _ heq ih =>
    obtain ⟨t, hi⟩ := hrun.inv
    exact cacheFinishedReq_descending hi ih heq
  | cacheUnfinishedReq hrun _ _ _ heq _ ih =>
    obtain ⟨t, hi⟩ := hrun.inv
    exact cacheUnfinishedReq_descending hi ih heq
  | @evict locks S S' numTokens hrun heq ih =>
    obtain ⟨t, hi⟩ := hrun.inv
    obtain ⟨t', c', ns, hev, hrounds⟩ := evict_rounds hi.toBase numTokens
    rw [KVSystem.evict, hev] at heq
    cases heq
    rw [foldl_free_cache]
    exact ih.of_sameOrder hrounds.sameOrder
  | env _ heq ih =>
    rw [heq]
    exact ih

/-- The nodes are evicted in the order of their priorities, and each when no unlocked leaf of lower priority
is left. -/
structure EvictsByPriority (cfg : CacheConfig) (c : RadixCache ℕ) (ns : List NodeId) : Prop where
  sorted : ns.Pairwise fun m n => (c.nodes m).priority ≤ (c.nodes n).priority
  least : ∀ before x after, ns = before ++ x :: after → ∀ y, InTree cfg c y → y ≠ c.rootNode →
    (c.nodes y).lockRef = 0 → y ∉ before →
    (∀ ck k, (c.nodes y).children.lookup ck = some k → k ∈ before) →
    (c.nodes x).priority ≤ (c.nodes y).priority

/-- **With the strategy `priority`, evictions go by priority**: in every state of a run a node has at least
the priority of each of its children, and every call of `evict` removes nodes of priorities that do not
decrease. -/
theorem evict_ordered (h : LockRun cfg args locks S) (hpolicy : cfg.evictionPolicy = .priority) :
    (∀ p ck n, InTree cfg S.cache p → (S.cache.nodes p).children.lookup ck = some n →
      (S.cache.nodes n).priority ≤ (S.cache.nodes p).priority)
    ∧ ∀ numTokens, ∃ n freed c' ns, S.cache.evict cfg numTokens = some (n, freed, c')
      ∧ EvictsExactly cfg S.cache numTokens n freed c' ns ∧ EvictsByPriority cfg S.cache ns := by
  obtain ⟨t, hi⟩ := h.inv
  have hrep := hi.represents
  have hdesc := h.descending
  refine ⟨fun p ck n hp hl => ?_, fun numTokens => ?_⟩
  · obtain ⟨hn, hr, rfl⟩ := ((hrep.lookup_iff (hrep.inTree_iff.mp hp)).mp hl).1
    exact hdesc.le_parent n _ (hrep.parent_eq hn hr)
  · obtain ⟨t', c', ns, heq, hrounds, hexact⟩ := evict_rounds_exact hi numTokens
    have hfresh : FreshHeap cfg S.cache (S.cache.evictableLeaves.map fun n =>
        (cfg.evictionPolicy.getPriority (S.cache.nodes n), n)) := by
      intro e he
      obtain ⟨n, -, rfl⟩ := List.mem_map.mp he
      rfl
    refine ⟨_, _, c', ns, heq, hexact, hrounds.sorted hpolicy hrep hdesc hfresh,
      fun before x after hns y hy hr hlock hout hleaf => ?_⟩
    refine hrounds.least hpolicy hi.toBase (heapOk_start hi.toBase) hfresh hns (hrep.inTree_iff.mp hy)
      (hrep.root_eq ▸ hr) hlock hout fun k hk => ?_
    obtain ⟨ck, -, hl⟩ := hrep.lookup_of_child hk
    exact hleaf ck k hl

def priorityConfig : CacheConfig :=
  { smallConfig false with evictionPolicy := .priority }

/-- A key of priority 5, and one of priority 1 that shares its first page. -/
def smallPriorities : Option (ℕ × RadixCache ℕ) := do
  let (_, c) ← (RadixCache.init priorityConfig).insert priorityConfig ⟨[1, 2, 3, 4], none, false⟩
    [10, 11, 12, 13] 5 false
  c.insert priorityConfig ⟨[1, 2, 5, 6], none, false⟩ [10, 11, 14, 15] 1 false

theorem smallPriorities_isSome : smallPriorities.isSome = true := by decide +kernel

/-- The theorem on that run: the leaf of priority 1 goes before the one of priority 5. -/
theorem evict_ordered_small : ∃ (S : KVSystem) (n : ℕ) (freed : List (List ℕ)) (c' : RadixCache ℕ)
    (ns : List NodeId), S.cache.evictableSize = 6
      ∧ S.cache.evict priorityConfig 4 = some (n, freed, c')
      ∧ EvictsByPriority priorityConfig S.cache ns := by
  have hget := (some_get smallPriorities_isSome).symm
  have hsize : (smallPriorities.get smallPriorities_isSome).2.evictableSize = 6 := by decide +kernel
  generalize smallPriorities.get smallPriorities_isSome = last at hget hsize
  rw [smallPriorities] at hget
  obtain ⟨⟨k, c₁⟩, h₁, h₂⟩ := bind_eq_some_iff.mp hget
  have hrun : LockRun priorityConfig ⟨false, false⟩ [] { bare c₁ with cache := last.2 } :=
    .insert (S := bare c₁) (.insert (S := bare (RadixCache.init priorityConfig)) (.init rfl)
      (fun h => by cases h) (by decide +kernel) (fun h => by cases h) h₁)
      (fun h => by cases h) (by decide +kernel) (fun h => by cases h) h₂
  obtain ⟨n, freed, c', ns, heq, -, hordered⟩ := (evict_ordered hrun rfl).2 4
  exact ⟨_, n, freed, c', ns, hsize, heq, hordered⟩

end KVSystem

end Sglang
