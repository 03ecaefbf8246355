/-
# Lists in the order of a tree

Items that hang at the nodes of a rooted tree, in the order of a depth-first walk: the children of a node
by decreasing weight, and then the node itself.  `DepthFirst` says what such an order is worth: the items
of every subtree stand together, those of a node behind those of its descendants, and of two siblings the
one with more items below it comes first.  A walk that puts the orders of the children side by side and
the items of the node behind them keeps all of it (`DepthFirst.node`).
-/
import Sglang.Lib.RootedTree

namespace Lib

namespace RootedTree

open List

variable {ι α : Type} [DecidableEq ι]

/-! ## 1. Subtrees -/

/-- `m` is `n` or a descendant of it. -/
def Under (t : RootedTree ι) (n m : ι) : Prop := n = t.root ∨ n ∈ t.up m

instance (t : RootedTree ι) (n m : ι) : Decidable (t.Under n m) :=
  inferInstanceAs (Decidable (n = t.root ∨ n ∈ t.up m))

variable {t : RootedTree ι} {n m k k' p q q' : ι}

theorem under_self (hn : n ∈ t.nodes) : t.Under n n := by
  by_cases hr : n = t.root
  · exact .inl hr
  · exact .inr (mem_up_self hn hr)

omit [DecidableEq ι] in
theorem under_trans (hm : m ∈ t.nodes) (h : t.Under n k) (h' : t.Under k m) : t.Under n m := by
  rcases h with h | h
  · exact .inl h
  rcases h' with rfl | h'
  · rw [up_root] at h
    exact absurd h not_mem_nil
  · exact .inr (mem_up_trans hm h' h)

theorem under_child (h : t.Child n k) : t.Under n k := by
  obtain ⟨hk, hr, rfl⟩ := h
  by_cases hp : t.parent k = t.root
  · exact .inl hp
  · refine .inr ?_
    rw [t.up_cons hk hr]
    exact mem_cons_of_mem _ (mem_up_self (t.parent_mem hk hr) hp)

omit [DecidableEq ι] in
theorem up_length_child (h : t.Child n k) : (t.up k).length = (t.up n).length + 1 := by
  rw [t.up_cons h.1 h.2.1, length_cons, h.2.2]

omit [DecidableEq ι] in
theorem not_under_parent (h : t.Child n k) : ¬ t.Under k n := by
  rintro (hr | hk)
  · exact h.2.1 hr
  · exact not_mem_up_parent h.1 h.2.1 (h.2.2.symm ▸ hk)

omit [DecidableEq ι] in
theorem under_or_under (hm : m ∈ t.nodes) (h : t.Under n m) (h' : t.Under k m) :
    t.Under n k ∨ t.Under k n := by
  rcases h with h | h
  · exact .inl (.inl h)
  rcases h' with h' | h'
  · exact .inr (.inl h')
  have hn := mem_of_mem_up hm h
  have hk := mem_of_mem_up hm h'
  rcases suffix_or_suffix_of_suffix (up_suffix hm h) (up_suffix hm h') with hs | hs
  · exact .inl (.inr (hs.subset (mem_up_self hn.1 hn.2)))
  · exact .inr (.inr (hs.subset (mem_up_self hk.1 hk.2)))

omit [DecidableEq ι] in
theorem sibling_eq (hm : m ∈ t.nodes) (h : t.Child p k) (h' : t.Child p k') (hk : t.Under k m)
    (hk' : t.Under k' m) : k = k' := by
  have hside : ∀ {a b}, t.Child p a → t.Child p b → t.Under a b → a = b := by
    intro a b ha hb hab
    rcases hab with hr | hab
    · exact absurd hr ha.2.1
    · rw [t.up_cons hb.1 hb.2.1, hb.2.2, mem_cons] at hab
      rcases hab with rfl | hab
      · rfl
      · exact absurd (.inr hab) (not_under_parent ha)
  rcases under_or_under hm hk hk' with hab | hab
  · exact hside h h' hab
  · exact (hside h' h hab).symm

theorem under_iff (hn : n ∈ t.nodes) (hm : m ∈ t.nodes) :
    t.Under n m ↔ m = n ∨ ∃ k, t.Child n k ∧ t.Under k m := by
  constructor
  · intro h
    by_cases hne : n = m
    · exact .inl hne.symm
    · obtain ⟨k, hk, hc⟩ := exists_child_of_mem_up hm hne (h.symm)
      exact .inr ⟨k, hc, .inr hk⟩
  · rintro (rfl | ⟨k, hc, hk⟩)
    · exact under_self hn
    · exact under_trans hm (under_child hc) hk

/-! ## 2. Orders of the items -/

variable (t) (key : α → ι) (items : List α)

/-- The items at a node and below. -/
def itemsUnder (n : ι) : List α := items.filter fun a => t.Under n (key a)

theorem itemsUnder_root : t.itemsUnder key items t.root = items :=
  filter_eq_self.mpr fun _ _ => decide_eq_true (.inl rfl)

/-- How many there are. -/
def weight (n : ι) : ℕ := (t.itemsUnder key items n).length

/-- The items for which `P` holds stand together. -/
def Together (P : α → Prop) (l : List α) : Prop :=
  ∃ before mid after, l = before ++ mid ++ after ∧ (∀ a ∈ mid, P a) ∧
    ∀ a ∈ before ++ after, ¬ P a

/-- An order of the items below `n` in the manner of a depth-first walk. -/
structure DepthFirst (n : ι) (l : List α) : Prop where
  perm : l.Perm (t.itemsUnder key items n)
  together : ∀ m ∈ t.nodes, Together (fun a => t.Under m (key a)) l
  /-- No item stands behind one of an ancestor. -/
  deeper : l.Pairwise fun a b => ¬ (key b ≠ key a ∧ t.Under (key a) (key b))
  /-- The first of two siblings has at least as many items. -/
  heavier : l.Pairwise fun a b => ∀ p q q', t.Child p q → t.Child p q' → q ≠ q' →
    t.Under q (key a) → t.Under q' (key b) → t.weight key items q' ≤ t.weight key items q

variable {t key items} {l : List α} {ks : List ι} {block : ι → List α}

theorem DepthFirst.under (h : t.DepthFirst key items n l) {a : α} (ha : a ∈ l) :
    a ∈ items ∧ t.Under n (key a) := by
  have := h.perm.subset ha
  rwa [itemsUnder, mem_filter, decide_eq_true_eq] at this

theorem perm_flatMap_filter_of_disjoint {β : Type} (P : β → α → Prop) [∀ k a, Decidable (P k a)]
    (items : List α) {ks : List β} (hnd : ks.Nodup)
    (hdisj : ∀ a ∈ items, ∀ k ∈ ks, ∀ k' ∈ ks, P k a → P k' a → k = k') :
    (ks.flatMap fun k => items.filter fun a => P k a).Perm
      (items.filter fun a => decide (∃ k ∈ ks, P k a)) := by
  induction ks with
  | nil => simp
  | cons k ks ih =>
    rw [nodup_cons] at hnd
    have ih := ih hnd.2 fun a ha i hi j hj => hdisj a ha i (mem_cons_of_mem _ hi) j
      (mem_cons_of_mem _ hj)
    have hsplit := filter_append_perm (fun a => decide (P k a))
      (items.filter fun a => decide (∃ i ∈ k :: ks, P i a))
    rw [filter_filter, filter_filter] at hsplit
    have hleft : (items.filter fun a => decide (P k a) && decide (∃ i ∈ k :: ks, P i a)) =
        items.filter fun a => decide (P k a) := by
      refine filter_congr fun a _ => ?_
      by_cases hP : P k a
      · simp [hP]
      · simp [hP]
    have hright : (items.filter fun a => !decide (P k a) && decide (∃ i ∈ k :: ks, P i a)) =
        items.filter fun a => decide (∃ i ∈ ks, P i a) := by
      refine filter_congr fun a ha => ?_
      by_cases hP : P k a
      · have hnone : ¬ ∃ i ∈ ks, P i a := by
          rintro ⟨i, hi, hPi⟩
          have hik := hdisj a ha i (mem_cons_of_mem _ hi) k mem_cons_self hPi hP
          exact hnd.1 (hik ▸ hi)
        simp [hP, hnone]
      · simp [hP]
    rw [hleft, hright] at hsplit
    exact (ih.append_left _).trans hsplit

theorem perm_itemsUnder (hn : n ∈ t.nodes) (hkey : ∀ a ∈ items, key a ∈ t.nodes) (hnd : ks.Nodup)
    (hks : ∀ k, k ∈ ks ↔ t.Child n k) :
    (ks.flatMap (t.itemsUnder key items) ++ items.filter fun a => key a = n).Perm
      (t.itemsUnder key items n) := by
  have hchildren := perm_flatMap_filter_of_disjoint (fun k a => t.Under k (key a)) items hnd
    fun a ha k hk k' hk' h h' =>
      sibling_eq (hkey a ha) ((hks k).mp hk) ((hks k').mp hk') h h'
  have hsplit := filter_append_perm (fun a => decide (key a = n)) (t.itemsUnder key items n)
  rw [itemsUnder, filter_filter, filter_filter] at hsplit
  have hself : (items.filter fun a => decide (key a = n) && decide (t.Under n (key a))) =
      items.filter fun a => key a = n := by
    refine filter_congr fun a _ => ?_
    by_cases ha : key a = n
    · simp [ha, under_self hn]
    · simp [ha]
  have hbelow : (items.filter fun a => !decide (key a = n) && decide (t.Under n (key a))) =
      items.filter fun a => decide (∃ k ∈ ks, t.Under k (key a)) := by
    refine filter_congr fun a ha => ?_
    rw [Bool.eq_iff_iff, Bool.and_eq_true, Bool.not_eq_true', decide_eq_false_iff_not,
      decide_eq_true_eq, decide_eq_true_eq, under_iff hn (hkey a ha)]
    constructor
    · rintro ⟨hne, heq | ⟨k, hc, hu⟩⟩
      · exact absurd heq hne
      · exact ⟨k, (hks k).mpr hc, hu⟩
    · rintro ⟨k, hk, hu⟩
      have hc := (hks k).mp hk
      exact ⟨fun heq => not_under_parent hc (heq ▸ hu), .inr ⟨k, hc, hu⟩⟩
  rw [hself, hbelow] at hsplit
  exact (hchildren.append_right _).trans (perm_append_comm.trans hsplit)

theorem weight_node (hn : n ∈ t.nodes) (hkey : ∀ a ∈ items, key a ∈ t.nodes) (hnd : ks.Nodup)
    (hks : ∀ k, k ∈ ks ↔ t.Child n k) :
    t.weight key items n =
      (items.filter fun a => key a = n).length + (ks.map (t.weight key items)).sum := by
  have hlen := (perm_itemsUnder hn hkey hnd hks).length_eq
  rw [length_append, length_flatMap] at hlen
  rw [weight, ← hlen, Nat.add_comm]
  rfl

omit [DecidableEq ι] in
theorem together_flatMap {P : α → Prop} {before after : List ι} (h : Together P (block k))
    (hout : ∀ i ∈ before ++ after, ∀ a ∈ block i, ¬ P a) {rest : List α} (hrest : ∀ a ∈ rest, ¬ P a) :
    Together P ((before ++ k :: after).flatMap block ++ rest) := by
  obtain ⟨x, mid, y, heq, hmid, hxy⟩ := h
  refine ⟨before.flatMap block ++ x, mid, y ++ after.flatMap block ++ rest, ?_, hmid, fun a ha => ?_⟩
  · rw [flatMap_append, flatMap_cons, heq]
    simp only [append_assoc]
  · simp only [mem_append, mem_flatMap] at ha hxy hout
    rcases ha with (⟨i, hi, ha⟩ | hx) | ((hy | ⟨i, hi, ha⟩) | hr)
    · exact hout i (.inl hi) a ha
    · exact hxy a (.inl hx)
    · exact hxy a (.inr hy)
    · exact hout i (.inr hi) a ha
    · exact hrest a hr

/-- **A node of a depth-first walk**: the orders of the children, by decreasing weight, and the items of
the node. -/
theorem DepthFirst.node (hn : n ∈ t.nodes) (hkey : ∀ a ∈ items, key a ∈ t.nodes) (hnd : ks.Nodup)
    (hks : ∀ k, k ∈ ks ↔ t.Child n k)
    (hsorted : ks.Pairwise fun k k' => t.weight key items k' ≤ t.weight key items k)
    (hblock : ∀ k ∈ ks, t.DepthFirst key items k (block k)) :
    t.DepthFirst key items n (ks.flatMap block ++ items.filter fun a => key a = n) := by
  have hunder : ∀ k ∈ ks, ∀ a ∈ block k, key a ∈ t.nodes ∧ t.Under k (key a) := fun k hk a ha =>
    have h := (hblock k hk).under ha
    ⟨hkey a h.1, h.2⟩
  have hself : ∀ a ∈ items.filter (fun a => key a = n), key a = n := fun a ha => by
    rw [mem_filter, decide_eq_true_eq] at ha
    exact ha.2
  have hbelow : ∀ k ∈ ks, ∀ a ∈ block k, t.Under n (key a) := fun k hk a ha =>
    under_trans (hunder k hk a ha).1 (under_child ((hks k).mp hk)) (hunder k hk a ha).2
  have hall : ∀ a ∈ ks.flatMap block ++ items.filter (fun a => key a = n),
      key a ∈ t.nodes ∧ t.Under n (key a) := by
    intro a ha
    rcases mem_append.mp ha with ha | ha
    · obtain ⟨k, hk, ha⟩ := mem_flatMap.mp ha
      exact ⟨(hunder k hk a ha).1, hbelow k hk a ha⟩
    · rw [hself a ha]
      exact ⟨hn, under_self hn⟩
  refine ⟨?_, fun m hm => ?_, ?_, ?_⟩
  · refine List.Perm.trans ?_ (perm_itemsUnder hn hkey hnd hks)
    exact (List.Perm.flatMap_left _ fun k hk => (hblock k hk).perm).append_right _
  · by_cases hmn : t.Under m n
    · -- everything is below `m`
      refine ⟨[], _, [], by rw [nil_append, append_nil], fun a ha => ?_, fun a ha => ?_⟩
      · exact under_trans (hall a ha).1 hmn (hall a ha).2
      · exact absurd ha not_mem_nil
    by_cases hchild : ∃ k ∈ ks, t.Under k m
    · -- `m` is in the subtree of one child
      obtain ⟨k, hk, hkm⟩ := hchild
      obtain ⟨before, after, rfl⟩ := append_of_mem hk
      refine together_flatMap ((hblock k hk).together m hm) (fun i hi a ha hma => ?_) fun a ha hma => ?_
      · have hi' : i ∈ before ++ k :: after := by
          rw [mem_append] at hi
          exact mem_append.mpr (hi.imp_right (mem_cons_of_mem _))
        have ha' := hunder i hi' a ha
        have heq := sibling_eq ha'.1 ((hks i).mp hi') ((hks k).mp hk) ha'.2
          (under_trans ha'.1 hkm hma)
        rw [nodup_append, nodup_cons] at hnd
        rw [heq, mem_append] at hi
        rcases hi with hi | hi
        · exact hnd.2.2 k hi k mem_cons_self rfl
        · exact hnd.2.1.1 hi
      · exact hmn (hself a ha ▸ hma)
    · -- nothing is below `m`
      refine ⟨_, [], [], by rw [append_nil, append_nil], fun a ha => ?_, fun a ha hma => ?_⟩
      · exact absurd ha not_mem_nil
      · rw [append_nil] at ha
        have ha := hall a ha
        rcases under_or_under ha.1 hma ha.2 with h | h
        · exact hmn h
        · rcases (under_iff hn hm).mp h with rfl | ⟨k, hc, hk⟩
          · exact hmn (under_self hn)
          · exact hchild ⟨k, (hks k).mpr hc, hk⟩
  · refine pairwise_append.mpr ⟨?_, ?_, fun a ha b hb => ?_⟩
    · refine pairwise_flatMap.mpr ⟨fun k hk => (hblock k hk).deeper, ?_⟩
      refine (List.Pairwise.and_mem.mp hnd).imp ?_
      rintro k k' ⟨hk, hk', hne⟩ a ha b hb ⟨-, hab⟩
      have hb' := hunder k' hk' b hb
      exact hne (sibling_eq hb'.1 ((hks k).mp hk) ((hks k').mp hk')
        (under_trans hb'.1 (hunder k hk a ha).2 hab) hb'.2)
    · refine List.Pairwise.imp_of_mem (fun {a b} ha hb _ => ?_) (pairwise_of_forall (R := fun _ _ => True)
        fun _ _ => trivial)
      rw [hself a ha, hself b hb]
      exact fun h => h.1 rfl
    · obtain ⟨k, hk, ha⟩ := mem_flatMap.mp ha
      rw [hself b hb]
      rintro ⟨-, hab⟩
      exact not_under_parent ((hks k).mp hk) (under_trans hn (hunder k hk a ha).2 hab)
  · refine pairwise_append.mpr ⟨?_, ?_, fun a ha b hb p q q' hq hq' hne hqa hqb => ?_⟩
    · refine pairwise_flatMap.mpr ⟨fun k hk => (hblock k hk).heavier, ?_⟩
      refine (List.Pairwise.and_mem.mp (hnd.and hsorted)).imp ?_
      rintro k k' ⟨hk, hk', hkk, hle⟩ a ha b hb p q q' hq hq' hne hqa hqb
      have ha' := hunder k hk a ha
      have hb' := hunder k' hk' b hb
      have hc := (hks k).mp hk
      have hc' := (hks k').mp hk'
      -- the siblings are the two children themselves
      have hqk : q = k := by
        rcases under_or_under ha'.1 hqa ha'.2 with h | h
        · -- were `q` above the children, `b` would be below `q` and below `q'`
          rcases (under_iff hq.1 hc.1).mp h with heq | ⟨i, hi, hik⟩
          · exact heq.symm
          · exfalso
            have hqn : t.Under q n := by
              rcases h with hr | h
              · exact absurd hr hq.2.1
              · rw [t.up_cons hc.1 hc.2.1, mem_cons, hc.2.2] at h
                rcases h with rfl | h
                · exact absurd hik (not_under_parent hi)
                · exact .inr h
            exact hne (sibling_eq hb'.1 hq hq' (under_trans hb'.1 hqn (hbelow k' hk' b hb)) hqb)
        · -- were `q` below `k`, so would be `q'`, and `b` below both children
          rcases (under_iff hc.1 hq.1).mp h with heq | ⟨i, hi, hiq⟩
          · exact heq
          · exfalso
            have hkp : t.Under k p := by
              rcases h with hr | h
              · exact absurd hr hc.2.1
              · rw [t.up_cons hq.1 hq.2.1, mem_cons, hq.2.2] at h
                rcases h with rfl | h
                · exact absurd hiq (not_under_parent hi)
                · exact .inr h
            have hkb := under_trans hb'.1 (under_trans hq'.1 hkp (under_child hq')) hqb
            exact hkk (sibling_eq hb'.1 hc hc' hkb hb'.2)
      subst hqk
      have hpn : p = n := hq.2.2.symm.trans hc.2.2
      subst hpn
      rw [sibling_eq hb'.1 hq' hc' hqb hb'.2]
      exact hle
    · refine List.Pairwise.imp_of_mem (fun {a b} ha hb _ => ?_) (pairwise_of_forall (R := fun _ _ => True)
        fun _ _ => trivial)
      rw [hself a ha, hself b hb]
      exact fun p q q' hq hq' hne hqn hqn' => absurd (sibling_eq hn hq hq' hqn hqn') hne
    · rw [hself b hb] at hqb
      obtain ⟨k, hk, ha⟩ := mem_flatMap.mp ha
      have ha' := hunder k hk a ha
      exact absurd (sibling_eq ha'.1 hq hq' hqa (under_trans ha'.1 hqb (hbelow k hk a ha))) hne

end RootedTree

end Lib
