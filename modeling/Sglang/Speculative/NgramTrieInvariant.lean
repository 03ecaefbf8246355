/-
# What the n-gram trie keeps

The invariant of the trie and what the two edits of its nodes do to it: a child is added or used, and the
last node of the global list is evicted.  The list of all nodes has parents first (`Lib.ParentsFirst`), so
that its last node never has children; the three collections of children of a node agree; and the node
at which `insert` stands has been counted once more than its children.
-/
import Sglang.Speculative.NgramTrie
import Mathlib.Data.List.TakeWhile

namespace Sglang

open Lib Lib.AssocList List Option Function

namespace Trie

variable {t t' : Trie} {a b c p q cursor node : ℕ} {token : ℤ} {l : List ℕ}

/-! ## 1. The order of the children -/

theorem compareByFreq_congr (h : ∀ p, (t'.nodes p).freq = (t.nodes p).freq)
    (h' : ∀ p, (t'.nodes p).token = (t.nodes p).token) : t'.compareByFreq = t.compareByFreq := by
  funext a b
  simp [compareByFreq, h, h']

theorem compareByFreq_iff : t.compareByFreq a b = true ↔ (t.nodes b).freq < (t.nodes a).freq ∨
    (t.nodes b).freq = (t.nodes a).freq ∧ ((t.nodes a).token < (t.nodes b).token ∨
      (t.nodes a).token = (t.nodes b).token ∧ a < b) := by
  simp [compareByFreq]

theorem compareByFreq_trans (h : t.compareByFreq a b = true) (h' : t.compareByFreq b c = true) :
    t.compareByFreq a c = true := by
  rw [compareByFreq_iff] at *
  omega

theorem compareByFreq_of_not (hne : a ≠ b) (h : t.compareByFreq a b = false) :
    t.compareByFreq b a = true := by
  rw [← Bool.not_eq_true, compareByFreq_iff] at h
  rw [compareByFreq_iff]
  omega

theorem compareByFreq_irrefl : t.compareByFreq a a = false := by
  rw [← Bool.not_eq_true, compareByFreq_iff]
  omega

theorem sortedErase_eq (hnd : l.Nodup) : t.sortedErase l node = l.erase node := by
  rw [hnd.erase_eq_filter]
  refine filter_congr fun b _ => ?_
  by_cases hb : b = node
  · subst hb
    simp [compareByFreq_irrefl]
  · rw [bne_iff_ne.mpr hb, Bool.or_eq_true]
    by_cases h : t.compareByFreq node b = true
    · exact Or.inl h
    · exact Or.inr (compareByFreq_of_not (fun e => hb e.symm) (by simpa using h))

theorem sortedInsert_perm : (t.sortedInsert l node).Perm (node :: l) := by
  refine perm_middle.trans (List.Perm.cons _ ?_)
  rw [takeWhile_append_dropWhile]

theorem sortedInsert_sorted (h : l.Pairwise (t.compareByFreq · ·)) (hnode : node ∉ l) :
    (t.sortedInsert l node).Pairwise (t.compareByFreq · ·) := by
  rw [sortedInsert]
  have hsplit := (takeWhile_append_dropWhile (p := fun b => !t.compareByFreq node b) (l := l))
  generalize hf : l.takeWhile (fun b => !t.compareByFreq node b) = front at *
  generalize hr : l.dropWhile (fun b => !t.compareByFreq node b) = rest at *
  have hfront : ∀ b ∈ front, t.compareByFreq b node = true := fun b hb => by
    have hlow : t.compareByFreq node b = false := by
      have := mem_takeWhile_imp (hf.symm ▸ hb)
      simpa using this
    refine compareByFreq_of_not ?_ hlow
    rintro rfl
    exact hnode (hsplit ▸ mem_append_left _ hb)
  rw [← hsplit] at h
  obtain ⟨h1, h2, h3⟩ := pairwise_append.mp h
  have hrest : ∀ b ∈ rest, t.compareByFreq node b = true := by
    cases rest with
    | nil => simp
    | cons x rest =>
      have hx : t.compareByFreq node x = true := by
        have := head?_dropWhile_not (p := fun b => !t.compareByFreq node b) (l := l)
        rw [hr] at this
        simpa using this
      intro b hb
      rcases mem_cons.mp hb with rfl | hb
      · exact hx
      · exact compareByFreq_trans hx ((pairwise_cons.mp h2).1 b hb)
  refine pairwise_append.mpr ⟨h1, pairwise_cons.mpr ⟨hrest, h2⟩, fun x hx y hy => ?_⟩
  rcases mem_cons.mp hy with rfl | hy
  · exact hfront x hx
  · exact h3 x hx y hy

/-! ## 2. The invariant -/

/-- The frequencies of the children of a node together. -/
def childFreq (t : Trie) (p : ℕ) : ℕ := ((t.nodes p).child.map fun e => (t.nodes e.2).freq).sum

/-- The collections of children of a node. -/
structure NodeOk (t : Trie) (p : ℕ) : Prop where
  keys : ((t.nodes p).child.map Prod.fst).Nodup
  entry : ∀ e ∈ (t.nodes p).child, e.2 ∈ t.globalLru ∧ (t.nodes e.2).parent = p ∧
    (t.nodes e.2).token = e.1
  lru : (t.nodes p).lru.Perm ((t.nodes p).child.map Prod.snd)
  sorted_perm : (t.nodes p).sortedChildren.Perm ((t.nodes p).child.map Prod.snd)
  sorted : (t.nodes p).sortedChildren.Pairwise (t.compareByFreq · ·)

/-- The nodes of the trie. -/
def Live (t : Trie) (p : ℕ) : Prop := p = t.root ∨ p ∈ t.globalLru

/-- What every insertion keeps. -/
structure Inv (t : Trie) : Prop where
  memory : (t.root :: (t.globalLru ++ t.nodePool)).Perm (List.range t.capacity)
  first : ParentsFirst (fun p => (t.nodes p).parent) t.root t.globalLru
  node : ∀ p, t.Live p → NodeOk t p
  linked : ∀ c ∈ t.globalLru, (t.nodes (t.nodes c).parent).child.lookup (t.nodes c).token = some c
  freq : ∀ c ∈ t.globalLru, t.childFreq c ≤ (t.nodes c).freq
  depth : ∀ w p, t.find t.root w = some p → w.length ≤ t.maxTrieDepth

namespace Inv

theorem nodup (h : Inv t) : (t.root :: (t.globalLru ++ t.nodePool)).Nodup :=
  h.memory.nodup_iff.mpr nodup_range

theorem nodup_live (h : Inv t) : (t.root :: t.globalLru).Nodup :=
  h.nodup.sublist (List.Sublist.cons_cons _ (sublist_append_left _ _))

theorem nodup_lru (h : Inv t) : t.globalLru.Nodup := (nodup_cons.mp h.nodup_live).2

theorem ne_root (h : Inv t) (hc : c ∈ t.globalLru) : c ≠ t.root := by
  rintro rfl
  exact (nodup_cons.mp h.nodup_live).1 hc

theorem not_live_of_pool (h : Inv t) (hc : c ∈ t.nodePool) : ¬ t.Live c := by
  rintro (rfl | hl)
  · exact (nodup_cons.mp h.nodup).1 (mem_append_right _ hc)
  · exact (nodup_append.mp (nodup_cons.mp h.nodup).2).2.2 c hl c hc rfl

theorem count (h : Inv t) : t.freeNodeCount + (t.globalLru.length + 1) = t.capacity := by
  have := h.memory.length_eq
  rw [length_cons, length_append, length_range] at this
  rw [freeNodeCount]
  omega

theorem parent_live (h : Inv t) (hc : c ∈ t.globalLru) : t.Live (t.nodes c).parent :=
  h.first.parent_mem hc

theorem child_of_lookup (h : Inv t) (hp : t.Live p) (hl : (t.nodes p).child.lookup token = some c) :
    c ∈ t.globalLru ∧ (t.nodes c).parent = p ∧ (t.nodes c).token = token :=
  (h.node p hp).entry (token, c) (mem_of_lookup hl)

theorem live_of_find (h : Inv t) : ∀ (w : List ℤ) (p : ℕ), t.Live p → t.find p w = some q → t.Live q
  | [], p, hp, hf => by
    cases hf
    exact hp
  | token :: w, p, hp, hf => by
    rw [find_cons, bind_eq_some_iff] at hf
    obtain ⟨c, hc, hf⟩ := hf
    exact live_of_find h w c (Or.inr (h.child_of_lookup hp hc).1) hf

/-- **Every live node is found**, and only live nodes are. -/
theorem exists_find (h : Inv t) : ∀ c, t.Live c → ∃ w, t.find t.root w = some c := by
  rintro c (rfl | hc)
  · exact ⟨[], rfl⟩
  · refine h.first.induction (P := fun c => ∃ w, t.find t.root w = some c) ⟨[], rfl⟩ ?_ c hc
    rintro c hc ⟨w, hw⟩
    refine ⟨w ++ [(t.nodes c).token], ?_⟩
    rw [find_concat, hw]
    exact h.linked c hc

theorem find_inj (h : Inv t) : ∀ (w w' : List ℤ) (c : ℕ), t.find t.root w = some c →
    t.find t.root w' = some c → w = w' := by
  intro w
  induction w using List.reverseRecOn with
  | nil =>
    intro w' c hw hw'
    cases hw
    rcases eq_nil_or_concat' w' with rfl | ⟨u, token, rfl⟩
    · rfl
    · rw [find_concat, bind_eq_some_iff] at hw'
      obtain ⟨q, hq, hl⟩ := hw'
      have hql := h.live_of_find u _ (Or.inl rfl) hq
      exact absurd rfl (h.ne_root (h.child_of_lookup hql hl).1)
  | append_singleton u token ih =>
    intro w' c hw hw'
    rw [find_concat, bind_eq_some_iff] at hw
    obtain ⟨q, hq, hl⟩ := hw
    have hc := h.child_of_lookup (h.live_of_find u _ (Or.inl rfl) hq) hl
    rcases eq_nil_or_concat' w' with rfl | ⟨u', token', rfl⟩
    · cases hw'
      exact absurd rfl (h.ne_root hc.1)
    · rw [find_concat, bind_eq_some_iff] at hw'
      obtain ⟨q', hq', hl'⟩ := hw'
      have hc' := h.child_of_lookup (h.live_of_find u' _ (Or.inl rfl) hq') hl'
      obtain rfl : q = q' := hc.2.1.symm.trans hc'.2.1
      rw [ih u' q hq hq', hc.2.2.symm.trans hc'.2.2]

end Inv

/-! ## 3. A child is added -/

/-- What no edit of the nodes changes. -/
structure Frame (t t' : Trie) : Prop where
  root : t'.root = t.root
  capacity : t'.capacity = t.capacity
  maxTrieDepth : t'.maxTrieDepth = t.maxTrieDepth
  trieEpoch : t'.trieEpoch = t.trieEpoch

/-- The effect of `addChild`. -/
structure AddsChild (t : Trie) (cursor : ℕ) (token : ℤ) (node : ℕ) (t' : Trie) : Prop where
  frame : Frame t t'
  pool : t.nodePool = node :: t'.nodePool
  globalLru : t'.globalLru = t.globalLru ++ [node]
  cursor_eq : t'.nodes cursor = { t.nodes cursor with
    child := (token, node) :: (t.nodes cursor).child
    lru := node :: (t.nodes cursor).lru
    sortedChildren := t'.sortedInsert (t.nodes cursor).sortedChildren node }
  node_eq : t'.nodes node =
    { token := token, parent := cursor, freq := 1, version := (t.nodes node).version }
  other : ∀ p, p ≠ cursor → p ≠ node → t'.nodes p = t.nodes p

theorem addChild_spec {pool : List ℕ} (hpool : t.nodePool = node :: pool) (hne : cursor ≠ node)
    (token : ℤ) : ∃ t', t.addChild cursor token = some (node, t') ∧
      AddsChild t cursor token node t' := by
  rw [addChild, getNode, hpool]
  refine ⟨_, rfl, ⟨rfl, rfl, rfl, rfl⟩, hpool, rfl, ?_, ?_, fun p h1 h2 => ?_⟩
  · simp only [modify, update_self, ne_eq, hne, not_false_eq_true, update_of_ne]
    congr 1
    refine congrArg (fun c => List.takeWhile (fun b => !c node b) _ ++
      node :: List.dropWhile (fun b => !c node b) _) (compareByFreq_congr ?_ ?_).symm
    all_goals
      intro p
      by_cases hp : p = cursor
      · subst hp
        simp [hne]
      · simp [hp]
  · simp [modify, hne.symm]
  · simp [modify, h1, h2]

theorem NodeOk.nodup_children (h : NodeOk t p) : ((t.nodes p).child.map Prod.snd).Nodup := by
  have hmap : (t.nodes p).child.map Prod.fst
      = ((t.nodes p).child.map Prod.snd).map fun c => (t.nodes c).token := by
    rw [List.map_map]
    exact map_congr_left fun e he => (h.entry e he).2.2.symm
  exact List.Nodup.of_map _ (hmap ▸ h.keys)

/-- Reading another node's children needs only what is written at those children. -/
theorem NodeOk.congr (h : NodeOk t p) (hchild : (t'.nodes p).child = (t.nodes p).child)
    (hlru : (t'.nodes p).lru = (t.nodes p).lru)
    (hsorted : (t'.nodes p).sortedChildren = (t.nodes p).sortedChildren)
    (hentry : ∀ e ∈ (t.nodes p).child, (e.2 ∈ t'.globalLru) ∧
      (t'.nodes e.2).parent = (t.nodes e.2).parent ∧ (t'.nodes e.2).token = (t.nodes e.2).token ∧
      (t'.nodes e.2).freq = (t.nodes e.2).freq) : NodeOk t' p := by
  have hmem : ∀ c ∈ (t.nodes p).sortedChildren, ∃ e ∈ (t.nodes p).child, e.2 = c := fun c hc =>
    List.mem_map.mp (h.sorted_perm.mem_iff.mp hc)
  refine ⟨hchild ▸ h.keys, fun e he => ?_, ?_, ?_, ?_⟩
  · rw [hchild] at he
    obtain ⟨h1, h2, h3, -⟩ := hentry e he
    obtain ⟨-, h2', h3'⟩ := h.entry e he
    exact ⟨h1, h2.trans h2', h3.trans h3'⟩
  · rw [hlru, hchild]
    exact h.lru
  · rw [hsorted, hchild]
    exact h.sorted_perm
  · rw [hsorted]
    refine h.sorted.imp_of_mem fun {a b} ha hb hab => ?_
    obtain ⟨e, he, rfl⟩ := hmem a ha
    obtain ⟨e', he', rfl⟩ := hmem b hb
    obtain ⟨-, -, h3, h4⟩ := hentry e he
    obtain ⟨-, -, h3', h4'⟩ := hentry e' he'
    rw [compareByFreq_iff] at hab ⊢
    rwa [h3, h3', h4, h4']

theorem childFreq_congr (hchild : (t'.nodes p).child = (t.nodes p).child)
    (hfreq : ∀ e ∈ (t.nodes p).child, (t'.nodes e.2).freq = (t.nodes e.2).freq) :
    t'.childFreq p = t.childFreq p := by
  rw [childFreq, hchild]
  exact congrArg List.sum (map_congr_left hfreq)

theorem AddsChild.fresh (ha : AddsChild t cursor token node t') (h : Inv t) : ¬ t.Live node :=
  h.not_live_of_pool (by rw [ha.pool]; exact mem_cons_self)

theorem AddsChild.ne_of_live (ha : AddsChild t cursor token node t') (h : Inv t) (hp : t.Live p) :
    p ≠ node := by
  rintro rfl
  exact ha.fresh h hp

theorem AddsChild.keep (ha : AddsChild t cursor token node t') (hp : p ≠ node) :
    (t'.nodes p).parent = (t.nodes p).parent ∧ (t'.nodes p).token = (t.nodes p).token ∧
      (t'.nodes p).freq = (t.nodes p).freq := by
  by_cases hc : p = cursor
  · rw [hc, ha.cursor_eq]
    exact ⟨rfl, rfl, rfl⟩
  · rw [ha.other p hc hp]
    exact ⟨rfl, rfl, rfl⟩

section AddsChild

variable (h : Inv t) (ha : AddsChild t cursor token node t')
include h ha

theorem AddsChild.child_eq (hp : t.Live p) (hpc : p ≠ cursor) :
    t'.nodes p = t.nodes p := ha.other p hpc (ha.ne_of_live h hp)

/-- Other tokens lead on as before. -/
theorem AddsChild.lookup (hp : t.Live p) (d : ℤ) : (t'.nodes p).child.lookup d
    = if p = cursor ∧ d = token then some node else (t.nodes p).child.lookup d := by
  by_cases hpc : p = cursor
  · subst hpc
    rw [ha.cursor_eq, lookup_cons_eq]
    by_cases hd : d = token
    · rw [if_pos hd, if_pos ⟨rfl, hd⟩]
    · rw [if_neg hd, if_neg fun e => hd e.2]
  · rw [ha.child_eq h hp hpc, if_neg fun e => hpc e.1]

theorem AddsChild.find_mono (hnone : (t.nodes cursor).child.lookup token = none) :
    ∀ (w : List ℤ) (p : ℕ), t.Live p → t.find p w = some q → t'.find p w = some q
  | [], _, _, hf => hf
  | d :: w, p, hp, hf => by
    rw [find_cons, bind_eq_some_iff] at hf ⊢
    obtain ⟨c, hc, hf⟩ := hf
    refine ⟨c, ?_, AddsChild.find_mono hnone w c (Or.inr (h.child_of_lookup hp hc).1) hf⟩
    rw [ha.lookup h hp, if_neg, hc]
    rintro ⟨rfl, rfl⟩
    rw [hnone] at hc
    cases hc

/-- **What is found more is the new node.** -/
theorem AddsChild.find_of : ∀ (w : List ℤ) (p : ℕ), t.Live p → t'.find p w = some q →
    t.find p w = some q ∨ ∃ u, w = u ++ [token] ∧ t.find p u = some cursor ∧ q = node
  | [], _, _, hf => Or.inl hf
  | d :: w, p, hp, hf => by
    rw [find_cons, bind_eq_some_iff] at hf
    obtain ⟨c, hc, hf⟩ := hf
    rw [ha.lookup h hp] at hc
    by_cases hpd : p = cursor ∧ d = token
    · rw [if_pos hpd] at hc
      cases hc
      obtain ⟨rfl, rfl⟩ := hpd
      right
      cases w with
      | nil =>
        cases hf
        exact ⟨[], rfl, rfl, rfl⟩
      | cons e w =>
        rw [find_cons, ha.node_eq] at hf
        cases hf
    · rw [if_neg hpd] at hc
      have hcl := (h.child_of_lookup hp hc).1
      rcases AddsChild.find_of w c (Or.inr hcl) hf with hf | ⟨u, rfl, hu, hq⟩
      · exact Or.inl (by rw [find_cons, hc]; exact hf)
      · exact Or.inr ⟨d :: u, rfl, by rw [find_cons, hc]; exact hu, hq⟩

/-- **Adding a child keeps the invariant**, if the cursor has been counted once more than its
children. -/
theorem AddsChild.inv (hcursor : t.Live cursor) {u : List ℤ} (hu : t.find t.root u = some cursor)
    (hlen : u.length < t.maxTrieDepth) (hnone : (t.nodes cursor).child.lookup token = none)
    (hspare : cursor ∈ t.globalLru → t.childFreq cursor + 1 ≤ (t.nodes cursor).freq) : Inv t' := by
  have hmem : ∀ {c}, c ∈ t.globalLru → c ∈ t'.globalLru := fun hc => by
    rw [ha.globalLru]; exact mem_append_left _ hc
  have hnode : node ∈ t'.globalLru := by rw [ha.globalLru]; simp
  have hlive : ∀ p, t'.Live p → p = node ∨ t.Live p := by
    rintro p (rfl | hp)
    · rw [ha.frame.root]
      exact Or.inr (Or.inl rfl)
    · rw [ha.globalLru, mem_append, mem_singleton] at hp
      exact hp.symm.imp_right Or.inr
  have hchildren : ∀ p, t.Live p → ∀ e ∈ (t.nodes p).child, e.2 ∈ t'.globalLru ∧
      (t'.nodes e.2).parent = (t.nodes e.2).parent ∧ (t'.nodes e.2).token = (t.nodes e.2).token ∧
      (t'.nodes e.2).freq = (t.nodes e.2).freq := fun p hp e he => by
    have hel := ((h.node p hp).entry e he).1
    exact ⟨hmem hel, ha.keep (ha.ne_of_live h (Or.inr hel))⟩
  have hcur := h.node cursor hcursor
  refine ⟨?_, ?_, fun p hp => ?_, fun c hc => ?_, fun c hc => ?_, fun w q hf => ?_⟩
  · rw [ha.frame.root, ha.frame.capacity, ha.globalLru, append_assoc]
    have := h.memory
    rwa [ha.pool] at this
  · rw [ha.globalLru, ha.frame.root]
    refine ParentsFirst.concat (h.first.congr fun c hc => (ha.keep (ha.ne_of_live h (Or.inr hc))).1) ?_
    rw [ha.node_eq]
    exact hcursor
  · rcases hlive p hp with rfl | hp
    · constructor <;> rw [ha.node_eq] <;> simp
    · by_cases hpc : p = cursor
      · subst hpc
        have hold : ∀ c ∈ (t.nodes p).sortedChildren, ∃ e ∈ (t.nodes p).child, e.2 = c := fun c hc =>
          List.mem_map.mp (hcur.sorted_perm.mem_iff.mp hc)
        constructor
        · rw [ha.cursor_eq]
          exact nodup_cons.mpr ⟨lookup_eq_none_iff.mp hnone, hcur.keys⟩
        · rw [ha.cursor_eq]
          intro e he
          rcases mem_cons.mp he with rfl | he
          · rw [ha.node_eq]
            exact ⟨hnode, rfl, rfl⟩
          · obtain ⟨h1, h2, h3, -⟩ := hchildren p hp e he
            obtain ⟨-, h2', h3'⟩ := hcur.entry e he
            exact ⟨h1, h2.trans h2', h3.trans h3'⟩
        · rw [ha.cursor_eq]
          exact hcur.lru.cons _
        · rw [ha.cursor_eq]
          exact sortedInsert_perm.trans (hcur.sorted_perm.cons _)
        · rw [ha.cursor_eq]
          refine sortedInsert_sorted (hcur.sorted.imp_of_mem fun {a b} ha' hb' hab => ?_) fun hm => ?_
          · obtain ⟨e, he, rfl⟩ := hold a ha'
            obtain ⟨e', he', rfl⟩ := hold b hb'
            obtain ⟨-, -, h3, h4⟩ := hchildren p hp e he
            obtain ⟨-, -, h3', h4'⟩ := hchildren p hp e' he'
            rw [compareByFreq_iff] at hab ⊢
            rwa [h3, h3', h4, h4']
          · obtain ⟨e, he, rfl⟩ := hold node hm
            exact ha.fresh h (Or.inr (hcur.entry e he).1)
      · have hsame := ha.child_eq h hp hpc
        exact (h.node p hp).congr (by rw [hsame]) (by rw [hsame]) (by rw [hsame]) (hchildren p hp)
  · rw [ha.globalLru, mem_append, mem_singleton] at hc
    rcases hc with hc | rfl
    · have hk := ha.keep (ha.ne_of_live h (Or.inr hc))
      rw [hk.1, hk.2.1, ha.lookup h (h.parent_live hc), if_neg, h.linked c hc]
      rintro ⟨hp, hd⟩
      have := h.linked c hc
      rw [hp, hd, hnone] at this
      cases this
    · rw [ha.node_eq, ha.lookup h hcursor, if_pos ⟨rfl, rfl⟩]
  · rw [ha.globalLru, mem_append, mem_singleton] at hc
    rcases hc with hc | rfl
    · have hcl : t.Live c := Or.inr hc
      rw [(ha.keep (ha.ne_of_live h hcl)).2.2]
      by_cases hcc : c = cursor
      · subst hcc
        have hsum : t'.childFreq c = 1 + t.childFreq c := by
          rw [childFreq, ha.cursor_eq, map_cons, ha.node_eq]
          exact congrArg (1 + List.sum ·) (map_congr_left fun e he => (hchildren c hcl e he).2.2.2)
        rw [hsum, Nat.add_comm]
        exact hspare hc
      · rw [childFreq_congr (by rw [ha.child_eq h hcl hcc]) fun e he => (hchildren c hcl e he).2.2.2]
        exact h.freq c hc
    · rw [childFreq, ha.node_eq]
      exact Nat.zero_le _
  · rw [ha.frame.maxTrieDepth]
    rw [ha.frame.root] at hf
    rcases ha.find_of h w t.root (Or.inl rfl) hf with hf | ⟨v, rfl, hv, -⟩
    · exact h.depth w q hf
    · rw [h.find_inj v u cursor hv hu, length_append]
      exact hlen

end AddsChild

/-! ## 4. A child is used -/

theorem Inv.parent_ne (h : Inv t) (hc : c ∈ t.globalLru) : (t.nodes c).parent ≠ c := by
  intro hp
  obtain ⟨l₁, l₂, hl⟩ := append_of_mem hc
  rcases h.first l₁ c l₂ hl with hr | hm
  · exact h.ne_root hc (hp.symm.trans hr)
  · have hnd := h.nodup_lru
    rw [hl] at hnd
    exact (nodup_append.mp hnd).2.2 c (hp ▸ hm) c mem_cons_self rfl

/-- The effect of `useChild`. -/
structure UsesChild (t : Trie) (cursor node : ℕ) (t' : Trie) : Prop where
  frame : Frame t t'
  pool : t'.nodePool = t.nodePool
  globalLru : t'.globalLru = t.globalLru
  cursor_eq : t'.nodes cursor = { t.nodes cursor with
    lru := moveFront node (t.nodes cursor).lru
    sortedChildren := t'.sortedInsert (t.sortedErase (t.nodes cursor).sortedChildren node) node }
  node_eq : t'.nodes node = { t.nodes node with freq := (t.nodes node).freq + 1 }
  other : ∀ p, p ≠ cursor → p ≠ node → t'.nodes p = t.nodes p

theorem useChild_spec (t : Trie) (hne : cursor ≠ node) :
    UsesChild t cursor node (t.useChild cursor node) := by
  refine ⟨⟨rfl, rfl, rfl, rfl⟩, rfl, rfl, ?_, ?_, fun p h1 h2 => ?_⟩
  · simp only [useChild, modify, update_self, ne_eq, hne, not_false_eq_true, update_of_ne]
    congr 1
    refine congrArg (fun c => List.takeWhile (fun b => !c node b) _ ++
      node :: List.dropWhile (fun b => !c node b) _) (compareByFreq_congr ?_ ?_).symm
    all_goals
      intro p
      by_cases hp : p = cursor
      · subst hp
        simp [hne]
      · simp [hp]
  · simp [useChild, modify, hne.symm]
  · simp [useChild, modify, h1, h2]

theorem UsesChild.keep (hu : UsesChild t cursor node t') (p : ℕ) :
    (t'.nodes p).child = (t.nodes p).child ∧ (t'.nodes p).parent = (t.nodes p).parent ∧
      (t'.nodes p).token = (t.nodes p).token ∧ (t'.nodes p).version = (t.nodes p).version := by
  by_cases hc : p = cursor
  · rw [hc, hu.cursor_eq]
    exact ⟨rfl, rfl, rfl, rfl⟩
  · by_cases hn : p = node
    · rw [hn, hu.node_eq]
      exact ⟨rfl, rfl, rfl, rfl⟩
    · rw [hu.other p hc hn]
      exact ⟨rfl, rfl, rfl, rfl⟩

theorem UsesChild.freq_eq (hu : UsesChild t cursor node t') (hp : p ≠ node) :
    (t'.nodes p).freq = (t.nodes p).freq := by
  by_cases hc : p = cursor
  · rw [hc, hu.cursor_eq]
  · rw [hu.other p hc hp]

theorem find_congr (h : ∀ p, (t'.nodes p).child = (t.nodes p).child) : ∀ (w : List ℤ) (p : ℕ),
    t'.find p w = t.find p w
  | [], _ => rfl
  | token :: w, p => by
    rw [find_cons, find_cons, h]
    congr 1
    funext c
    exact find_congr h w c

section UsesChild

variable (h : Inv t) (hu : UsesChild t cursor node t') (hcursor : t.Live cursor)
  (hl : (t.nodes cursor).child.lookup token = some node)
include h hu hcursor hl

/-- The children of a node that is not the cursor do not change. -/
theorem UsesChild.entry_ne (hp : t.Live p) (hpc : p ≠ cursor) :
    ∀ e ∈ (t.nodes p).child, e.2 ≠ node := by
  rintro e he rfl
  exact hpc (((h.node p hp).entry e he).2.1.symm.trans (h.child_of_lookup hcursor hl).2.1)

theorem UsesChild.childFreq_eq (hp : t.Live p) (hpc : p ≠ cursor) :
    t'.childFreq p = t.childFreq p :=
  childFreq_congr (hu.keep p).1 fun e he => hu.freq_eq (hu.entry_ne h hcursor hl hp hpc e he)

/-- The collections of the cursor: the child comes first in the one and is sorted in again in the
other. -/
theorem UsesChild.nodeOk_cursor : NodeOk t' cursor := by
  have hcur := h.node cursor hcursor
  have hnd := hcur.sorted_perm.nodup_iff.mpr hcur.nodup_children
  have hin : node ∈ (t.nodes cursor).child.map Prod.snd :=
    List.mem_map.mpr ⟨_, mem_of_lookup hl, rfl⟩
  refine ⟨?_, fun e he => ?_, ?_, ?_, ?_⟩
  · rw [(hu.keep cursor).1]
    exact hcur.keys
  · rw [(hu.keep cursor).1] at he
    rw [hu.globalLru, (hu.keep e.2).2.1, (hu.keep e.2).2.2.1]
    exact hcur.entry e he
  · rw [hu.cursor_eq]
    exact (perm_cons_erase (hcur.lru.mem_iff.mpr hin)).symm.trans hcur.lru
  · rw [hu.cursor_eq, sortedErase_eq hnd]
    exact sortedInsert_perm.trans
      ((perm_cons_erase (hcur.sorted_perm.mem_iff.mpr hin)).symm.trans hcur.sorted_perm)
  · rw [hu.cursor_eq, sortedErase_eq hnd]
    refine sortedInsert_sorted ?_ (List.Nodup.not_mem_erase hnd)
    refine (hcur.sorted.sublist erase_sublist).imp_of_mem fun {a b} ha hb hab => ?_
    have hane : a ≠ node := fun e => hnd.not_mem_erase (e ▸ ha)
    have hbne : b ≠ node := fun e => hnd.not_mem_erase (e ▸ hb)
    rw [compareByFreq_iff] at hab ⊢
    rwa [hu.freq_eq hane, hu.freq_eq hbne, (hu.keep a).2.2.1, (hu.keep b).2.2.1]

theorem UsesChild.childFreq_cursor : t'.childFreq cursor = t.childFreq cursor + 1 := by
  have hcur := h.node cursor hcursor
  have hperm := perm_of_lookup hcur.keys hl
  have hsum : ∀ s : Trie, ((t.nodes cursor).child.map fun e => (s.nodes e.2).freq).sum
      = (s.nodes node).freq
        + ((eraseEntry token (t.nodes cursor).child).map fun e => (s.nodes e.2).freq).sum := fun s => by
    rw [(hperm.map _).sum_eq, map_cons, sum_cons]
  have hrest : ∀ e ∈ eraseEntry token (t.nodes cursor).child,
      (t'.nodes e.2).freq = (t.nodes e.2).freq := fun e he => by
    obtain ⟨he, hne⟩ := mem_filter.mp he
    refine hu.freq_eq fun e' => ?_
    have htok := (hcur.entry e he).2.2
    rw [e', (h.child_of_lookup hcursor hl).2.2] at htok
    simp [htok] at hne
  rw [childFreq, childFreq, (hu.keep cursor).1, hsum t', hsum t, hu.node_eq, map_congr_left hrest]
  exact Nat.add_right_comm _ _ _

/-- **Using a child keeps the invariant**, if the cursor has been counted once more than its
children. -/
theorem UsesChild.inv
    (hspare : cursor ∈ t.globalLru → t.childFreq cursor + 1 ≤ (t.nodes cursor).freq) : Inv t' := by
  refine ⟨?_, ?_, fun p hp => ?_, fun c hc => ?_, fun c hc => ?_, fun w q hf => ?_⟩
  · rw [hu.frame.root, hu.frame.capacity, hu.globalLru, hu.pool]
    exact h.memory
  · rw [hu.frame.root, hu.globalLru]
    exact h.first.congr fun c _ => (hu.keep c).2.1
  · have hpl : t.Live p := by rwa [Live, hu.frame.root, hu.globalLru] at hp
    by_cases hpc : p = cursor
    · rw [hpc]
      exact hu.nodeOk_cursor h hcursor hl
    · have hsame : (t'.nodes p).lru = (t.nodes p).lru ∧
          (t'.nodes p).sortedChildren = (t.nodes p).sortedChildren := by
        by_cases hpn : p = node
        · rw [hpn, hu.node_eq]
          exact ⟨rfl, rfl⟩
        · rw [hu.other p hpc hpn]
          exact ⟨rfl, rfl⟩
      refine (h.node p hpl).congr (hu.keep p).1 hsame.1 hsame.2 fun e he => ?_
      exact ⟨hu.globalLru ▸ ((h.node p hpl).entry e he).1, (hu.keep _).2.1, (hu.keep _).2.2.1,
        hu.freq_eq (hu.entry_ne h hcursor hl hpl hpc e he)⟩
  · rw [hu.globalLru] at hc
    rw [(hu.keep c).2.1, (hu.keep c).2.2.1, (hu.keep _).1]
    exact h.linked c hc
  · rw [hu.globalLru] at hc
    have hfreq := h.freq c hc
    by_cases hcc : c = cursor
    · subst hcc
      have hcn : c ≠ node := by
        rintro rfl
        exact h.parent_ne hc (h.child_of_lookup hcursor hl).2.1
      rw [hu.childFreq_cursor h hcursor hl, hu.freq_eq hcn]
      exact hspare hc
    · rw [hu.childFreq_eq h hcursor hl (Or.inr hc) hcc]
      by_cases hcn : c = node
      · rw [hcn, hu.node_eq, ← hcn]
        exact Nat.le_succ_of_le hfreq
      · rw [hu.freq_eq hcn]
        exact hfreq
  · rw [hu.frame.maxTrieDepth]
    rw [hu.frame.root, find_congr fun p => (hu.keep p).1] at hf
    exact h.depth w q hf

theorem UsesChild.spare : t'.childFreq node + 1 ≤ (t'.nodes node).freq := by
  have hnode := h.child_of_lookup hcursor hl
  have hnc : node ≠ cursor := by
    rintro rfl
    exact h.parent_ne hnode.1 hnode.2.1
  rw [hu.childFreq_eq h hcursor hl (Or.inr hnode.1) hnc, hu.node_eq]
  exact Nat.succ_le_succ (h.freq node hnode.1)

end UsesChild

/-! ## 5. The last node is evicted -/

/-- The effect of `evictLast`. -/
structure Evicts (t : Trie) (last : ℕ) (t' : Trie) : Prop where
  frame : Frame t t'
  pool : t'.nodePool = last :: t.nodePool
  globalLru : t.globalLru = t'.globalLru ++ [last]
  childless : (t.nodes last).child = []
  parent_eq : t'.nodes (t.nodes last).parent = { t.nodes (t.nodes last).parent with
    child := eraseEntry (t.nodes last).token (t.nodes (t.nodes last).parent).child
    lru := (t.nodes (t.nodes last).parent).lru.erase last
    sortedChildren := t.sortedErase (t.nodes (t.nodes last).parent).sortedChildren last }
  last_eq : t'.nodes last = { t.nodes last with version := (t.nodes last).version + 1 }
  other : ∀ p, p ≠ (t.nodes last).parent → p ≠ last → t'.nodes p = t.nodes p

theorem evictNode_spec (t : Trie) {last : ℕ} (hl : t.globalLru = l ++ [last])
    (hchild : (t.nodes last).child = []) (hp : (t.nodes last).parent ≠ last) :
    Evicts t last ({ t with globalLru := t.globalLru.dropLast }.evictNode last) := by
  have hcmp : ∀ (s : Trie) (f : TrieNode → List ℕ) (q : ℕ),
      (s.modify q fun p => { p with lru := f p }).compareByFreq = s.compareByFreq := by
    intro s f q
    refine compareByFreq_congr ?_ ?_
    all_goals
      intro r
      by_cases hr : r = q
      · subst hr
        simp [modify]
      · simp [modify, hr]
  refine ⟨⟨rfl, rfl, rfl, rfl⟩, rfl, ?_, hchild, ?_, ?_, fun p h1 h2 => ?_⟩
  · simp [evictNode, modify, hl]
  · simp only [evictNode, sortedErase, hcmp]
    simp [modify, hp, hp.symm, compareByFreq]
  · simp [evictNode, modify, hp.symm]
  · simp [evictNode, modify, h1, h2]

/-- **The last node has no children**, so that it can be evicted. -/
theorem Inv.evictLast_spec (h : Inv t) (hne : t.globalLru ≠ []) :
    ∃ last t', t.evictLast = some t' ∧ Evicts t last t' := by
  obtain ⟨l, last, hl⟩ := eq_nil_or_concat' t.globalLru |>.resolve_left hne
  have hlast : last ∈ t.globalLru := by rw [hl]; simp
  have hchild : (t.nodes last).child = [] := by
    refine eq_nil_iff_forall_not_mem.mpr fun e he => ?_
    obtain ⟨h1, h2, -⟩ := (h.node last (Or.inr hlast)).entry e he
    have hfirst := h.first
    have hnd := h.nodup_lru
    rw [hl] at hfirst hnd h1
    exact hfirst.childless_of_last hnd (h.ne_root hlast) h1 h2
  refine ⟨last, _, ?_, evictNode_spec t hl hchild (h.parent_ne hlast)⟩
  rw [evictLast, hl, getLast?_append]
  simp [hchild]

theorem Evicts.mem_last {last : ℕ} (he : Evicts t last t') : last ∈ t.globalLru := by
  rw [he.globalLru]; simp

theorem Evicts.keep {last : ℕ} (he : Evicts t last t') (p : ℕ) : (t'.nodes p).parent = (t.nodes p).parent ∧
    (t'.nodes p).token = (t.nodes p).token ∧ (t'.nodes p).freq = (t.nodes p).freq := by
  by_cases hl : p = last
  · rw [hl, he.last_eq]
    exact ⟨rfl, rfl, rfl⟩
  · by_cases hp : p = (t.nodes last).parent
    · rw [hp, he.parent_eq]
      exact ⟨rfl, rfl, rfl⟩
    · rw [he.other p hp hl]
      exact ⟨rfl, rfl, rfl⟩

section Evicts

variable {last : ℕ} (h : Inv t) (he : Evicts t last t')
include h he

theorem Evicts.mem_iff : c ∈ t'.globalLru ↔ c ∈ t.globalLru ∧ c ≠ last := by
  have hnd := h.nodup_lru
  rw [he.globalLru] at hnd ⊢
  rw [mem_append, mem_singleton]
  have hnot : last ∉ t'.globalLru := fun hm =>
    (nodup_append.mp hnd).2.2 last hm last mem_cons_self rfl
  constructor
  · exact fun hc => ⟨Or.inl hc, fun e => hnot (e ▸ hc)⟩
  · rintro ⟨hc | hc, hne⟩
    · exact hc
    · exact absurd hc hne

theorem Evicts.live_iff : t'.Live p ↔ t.Live p ∧ p ≠ last := by
  have hroot := h.ne_root (he.mem_last)
  rw [Live, he.frame.root, he.mem_iff h]
  constructor
  · rintro (rfl | ⟨hp, hne⟩)
    · exact ⟨Or.inl rfl, hroot.symm⟩
    · exact ⟨Or.inr hp, hne⟩
  · rintro ⟨rfl | hp, hne⟩
    · exact Or.inl rfl
    · exact Or.inr ⟨hp, hne⟩

/-- Only the token of the evicted node leads nowhere now. -/
theorem Evicts.lookup (hp : t.Live p) (hpl : p ≠ last) (d : ℤ) : (t'.nodes p).child.lookup d
    = if (t.nodes p).child.lookup d = some last then none else (t.nodes p).child.lookup d := by
  have hlinked := h.linked last (he.mem_last)
  by_cases hpp : p = (t.nodes last).parent
  · rw [hpp, he.parent_eq, lookup_eraseEntry]
    by_cases hd : d = (t.nodes last).token
    · rw [if_pos hd, hd, if_pos hlinked]
    · rw [if_neg hd, if_neg]
      exact fun hl => hd (h.child_of_lookup (hpp ▸ hp) hl).2.2.symm
  · rw [he.other p hpp hpl, if_neg]
    exact fun hl => hpp (h.child_of_lookup hp hl).2.1.symm

/-- **What is found less is the evicted node.** -/
theorem Evicts.find_iff : ∀ (w : List ℤ) (p : ℕ), t.Live p → p ≠ last →
    (t'.find p w = some q ↔ t.find p w = some q ∧ q ≠ last)
  | [], p, _, hpl => by
    rw [find_nil]
    constructor
    · intro e
      cases e
      exact ⟨rfl, hpl⟩
    · exact fun e => e.1
  | d :: w, p, hp, hpl => by
    rw [find_cons, find_cons, he.lookup h hp hpl]
    by_cases hd : (t.nodes p).child.lookup d = some last
    · rw [if_pos hd, hd, bind_some]
      refine ⟨fun e => absurd e (some_ne_none q).symm, ?_⟩
      rintro ⟨hf, hq⟩
      cases w with
      | nil =>
        cases hf
        exact absurd rfl hq
      | cons e w =>
        rw [find_cons, he.childless] at hf
        cases hf
    · rw [if_neg hd]
      cases hc : (t.nodes p).child.lookup d with
      | none => simp
      | some c =>
        rw [bind_some]
        exact Evicts.find_iff w c (Or.inr (h.child_of_lookup hp hc).1) fun e => hd (e ▸ hc)

theorem Evicts.nodeOk_parent : NodeOk t' (t.nodes last).parent := by
  have hlast := he.mem_last
  have hok := h.node _ (h.parent_live hlast)
  have hperm := (perm_of_lookup hok.keys (h.linked last hlast)).map Prod.snd
  have hnd := hok.sorted_perm.nodup_iff.mpr hok.nodup_children
  refine ⟨?_, fun e hm => ?_, ?_, ?_, ?_⟩
  · rw [he.parent_eq]
    exact nodup_eraseEntry hok.keys
  · rw [he.parent_eq] at hm
    obtain ⟨hm, hne⟩ := mem_filter.mp hm
    obtain ⟨h1, h2, h3⟩ := hok.entry e hm
    obtain ⟨k1, k2, -⟩ := he.keep e.2
    refine ⟨(he.mem_iff h).mpr ⟨h1, ?_⟩, k1.trans h2, k2.trans h3⟩
    intro e'
    rw [e'] at h3
    simp [h3] at hne
  · rw [he.parent_eq]
    have := (hok.lru.trans hperm).erase last
    rwa [map_cons, erase_cons_head] at this
  · rw [he.parent_eq, sortedErase_eq hnd]
    have := (hok.sorted_perm.trans hperm).erase last
    rwa [map_cons, erase_cons_head] at this
  · rw [he.parent_eq, sortedErase_eq hnd,
      compareByFreq_congr (fun p => (he.keep p).2.2) fun p => (he.keep p).2.1]
    exact hok.sorted.sublist erase_sublist

/-- **Evicting the last node keeps the invariant.** -/
theorem Evicts.inv : Inv t' := by
  have hlast := he.mem_last
  have hchildren : ∀ p, t.Live p → p ≠ (t.nodes last).parent → ∀ e ∈ (t.nodes p).child,
      e.2 ∈ t'.globalLru := fun p hp hpp e hm => by
    obtain ⟨h1, h2, -⟩ := (h.node p hp).entry e hm
    refine (he.mem_iff h).mpr ⟨h1, ?_⟩
    rintro e'
    exact hpp (h2.symm.trans (by rw [e']))
  refine ⟨?_, ?_, fun p hp => ?_, fun c hc => ?_, fun c hc => ?_, fun w q hf => ?_⟩
  · rw [he.frame.root, he.frame.capacity, he.pool]
    have := h.memory
    rw [he.globalLru, append_assoc] at this
    exact this
  · rw [he.frame.root]
    have := h.first
    rw [he.globalLru] at this
    exact this.of_append.congr fun c _ => (he.keep c).1
  · obtain ⟨hp, hpl⟩ := (he.live_iff h).mp hp
    by_cases hpp : p = (t.nodes last).parent
    · rw [hpp]
      exact he.nodeOk_parent h
    · have hsame := he.other p hpp hpl
      exact (h.node p hp).congr (by rw [hsame]) (by rw [hsame]) (by rw [hsame]) fun e hm =>
        ⟨hchildren p hp hpp e hm, he.keep e.2⟩
  · obtain ⟨hc, hcl⟩ := (he.mem_iff h).mp hc
    have hpl : (t.nodes c).parent ≠ last := by
      intro e
      have := h.linked c hc
      rw [e, he.childless] at this
      cases this
    rw [(he.keep c).1, (he.keep c).2.1, he.lookup h (h.parent_live hc) hpl, h.linked c hc, if_neg]
    exact fun e => hcl (Option.some.inj e)
  · obtain ⟨hc, hcl⟩ := (he.mem_iff h).mp hc
    rw [(he.keep c).2.2]
    refine le_trans ?_ (h.freq c hc)
    have hfreq : t'.childFreq c = ((t'.nodes c).child.map fun e => (t.nodes e.2).freq).sum :=
      congrArg List.sum (map_congr_left fun e _ => (he.keep e.2).2.2)
    rw [hfreq, childFreq]
    by_cases hcp : c = (t.nodes last).parent
    · rw [hcp, he.parent_eq]
      exact sum_eraseEntry_le (fun p => (t.nodes p).freq) _ _
    · rw [he.other c hcp hcl]
  · rw [he.frame.maxTrieDepth]
    rw [he.frame.root] at hf
    exact h.depth w q ((he.find_iff h w _ (Or.inl rfl) (h.ne_root hlast).symm).mp hf).1

end Evicts

end Trie

end Sglang
