/-
# The shape of the multi-tenant tree

What every node under the root has (`Good`), and what a tenant can read along the nodes it owns
(`Reach`).  Both are told by the children of a node, so an update of one child is described by what
happens to that child.
-/
import Sglang.Gateway.TenantTree

namespace Sglang

namespace TenantNode

open CharText Lib Lib.AssocList

variable {n n' m parent : TenantNode} {c d : Char} {t : String} {s : List Char}

/-! ## 1. Well-formed nodes -/

/-- What a node has as the child of another under a character. -/
structure Fits (parent : TenantNode) (c : Char) (m : TenantNode) : Prop where
  head : m.text.text.head? = some c
  count : m.text.charCount = m.text.text.length
  owned : ∃ t, t ∈ m.tenants
  sub : ∀ t, t ∈ m.tenants → t ∈ parent.tenants

/-- How far a text that begins like a child agrees with it. -/
theorem Fits.shared (hf : Fits parent c m) {k : ℕ} {remaining : List Char}
    (hk : k = sharedPrefixCount (c :: remaining) m.text.text) :
    0 < k ∧ k ≤ m.text.charCount ∧ (c :: remaining).take k = m.text.text.take k := by
  rw [sharedPrefixCount_eq] at hk
  refine ⟨?_, ?_, ?_⟩
  · have hhead := hf.head
    cases hmt : m.text.text with
    | nil =>
      rw [hmt] at hhead
      cases hhead
    | cons e u =>
      rw [hmt] at hhead
      cases hhead
      rw [hk, hmt, commonPrefixLength, if_pos rfl]
      exact Nat.succ_pos _
  · rw [hf.count, hk]
    exact commonPrefixLength_le_right _ _
  · rw [hk]
    exact take_commonPrefixLength _ _

/-- Every node under this one fits its parent. -/
inductive Good : TenantNode → Prop
  | mk {n : TenantNode} (nodup : (n.children.map Prod.fst).Nodup)
      (fits : ∀ {c m}, n.child? c = some m → Fits n c m)
      (good : ∀ {c m}, n.child? c = some m → Good m) : Good n

namespace Good

theorem nodup (h : Good n) : (n.children.map Prod.fst).Nodup := by
  cases h; assumption

theorem fits (h : Good n) (hm : n.child? c = some m) : Fits n c m := by
  cases h with
  | mk _ fits _ => exact fits hm

theorem child (h : Good n) (hm : n.child? c = some m) : Good m := by
  cases h with
  | mk _ _ good => exact good hm

theorem of_children (h : Good n) (hch : n'.children = n.children)
    (hsub : ∀ c m, n.child? c = some m → ∀ t, t ∈ m.tenants → t ∈ n'.tenants) : Good n' := by
  have hchild : ∀ c, n'.child? c = n.child? c := fun c => by rw [child?, hch]; rfl
  refine .mk (hch ▸ h.nodup) (fun {c m} hm => ?_) fun {c m} hm => h.child (hchild c ▸ hm)
  rw [hchild] at hm
  have hf := h.fits hm
  exact ⟨hf.head, hf.count, hf.owned, hsub c m hm⟩

theorem setChild (h : Good n) (hf : Fits n c m) (hm : Good m) : Good (n.setChild c m) := by
  refine .mk (nodup_setEntry h.nodup) (fun {d k} hk => ?_) fun {d k} hk => ?_
  all_goals
    rw [child?_setChild] at hk
    split at hk
  · rename_i hd
    cases hk
    rw [hd]
    exact ⟨hf.head, hf.count, hf.owned, hf.sub⟩
  · have := h.fits hk
    exact ⟨this.head, this.count, this.owned, this.sub⟩
  · cases hk
    exact hm
  · exact h.child hk

theorem eraseChild (h : Good n) : Good (n.eraseChild c) := by
  refine .mk (nodup_eraseEntry h.nodup) (fun {d k} hk => ?_) fun {d k} hk => ?_
  all_goals
    rw [child?_eraseChild] at hk
    split at hk
  · cases hk
  · have := h.fits hk
    exact ⟨this.head, this.count, this.owned, this.sub⟩
  · cases hk
  · exact h.child hk

theorem child?_eq_none (h : Good n) (hno : ∀ t, t ∉ n.tenants) : n.child? c = none := by
  cases hm : n.child? c with
  | none => rfl
  | some m =>
    have hf := h.fits hm
    obtain ⟨t, ht⟩ := hf.owned
    exact absurd (hf.sub t ht) (hno t)

theorem children_eq_nil (h : Good n) (hno : ∀ t, t ∉ n.tenants) : n.children = [] := by
  cases hch : n.children with
  | nil => rfl
  | cons e l =>
    have hsome : n.child? e.1 = some e.2 := by rw [child?, hch, lookup_cons_eq, if_pos rfl]
    rw [h.child?_eq_none hno] at hsome
    cases hsome

/-- What holds for the nodes under a node of a path holds there. -/
theorem nodeAt : ∀ {path : List Char} {n m : TenantNode}, Good n → n.nodeAt path = some m → Good m
  | [], n, m, h, hm => by
    cases hm
    exact h
  | c :: path, n, m, h, hm => by
    rw [TenantNode.nodeAt] at hm
    obtain ⟨k, hk, hm⟩ := Option.bind_eq_some_iff.mp hm
    exact nodeAt (h.child hk) hm

end Good

theorem good_leaf (a b l) : Good (node a b l []) :=
  .mk List.nodup_nil (fun hm => by cases hm) fun hm => by cases hm

/-! ## 2. What a tenant can read -/

/-- A text can be read from a node on, through nodes that the tenant owns. -/
inductive Reach (t : String) : TenantNode → List Char → Prop
  | nil (n : TenantNode) : Reach t n []
  | within {n m : TenantNode} {c : Char} {s : List Char} (hm : n.child? c = some m) (ht : t ∈ m.tenants)
      (hs : c :: s <+: m.text.text) : Reach t n (c :: s)
  | past {n m : TenantNode} {c : Char} {s r : List Char} (hm : n.child? c = some m)
      (ht : t ∈ m.tenants) (hs : c :: s = m.text.text ++ r) (hr : Reach t m r) : Reach t n (c :: s)

/-- A text can be read from the beginning of a node on. -/
def Via (t : String) (m : TenantNode) (s : List Char) : Prop :=
  t ∈ m.tenants ∧ (s <+: m.text.text ∨ ∃ r, s = m.text.text ++ r ∧ Reach t m r)

/-- The first character tells the child through which a text is read. -/
theorem reach_cons : Reach t n (c :: s) ↔ ∃ m, n.child? c = some m ∧ Via t m (c :: s) := by
  constructor
  · intro h
    cases h with
    | within hm ht hs => exact ⟨_, hm, ht, .inl hs⟩
    | past hm ht hs hr => exact ⟨_, hm, ht, .inr ⟨_, hs, hr⟩⟩
  · rintro ⟨m, hm, ht, hs | ⟨r, hs, hr⟩⟩
    · exact .within hm ht hs
    · exact .past hm ht hs hr

/-- Two nodes with the same reading through each child have the same reading. -/
theorem reach_congr (h : ∀ c s, (∃ m, n'.child? c = some m ∧ Via t m (c :: s)) ↔
      ∃ m, n.child? c = some m ∧ Via t m (c :: s)) : Reach t n' s ↔ Reach t n s := by
  cases s with
  | nil => exact ⟨fun _ => .nil _, fun _ => .nil _⟩
  | cons c s => rw [reach_cons, reach_cons, h]

theorem reach_of_children (hch : n'.children = n.children) : Reach t n' s ↔ Reach t n s :=
  reach_congr fun c s => by rw [child?, child?, hch]

theorem Reach.eq_nil (hg : Good n) (ht : t ∉ n.tenants) (h : Reach t n s) : s = [] := by
  cases s with
  | nil => rfl
  | cons c s =>
    obtain ⟨m, hm, hvia⟩ := reach_cons.mp h
    exact absurd ((hg.fits hm).sub t hvia.1) ht

end TenantNode

/-! ## 3. The tree -/

namespace TenantTree

open CharText TenantNode

theorem mem_insert_self_iff {ts : LoadMap String} {t : String} {e : ℕ} (ht : t ∈ ts) (t' : String) :
    t' ∈ ts.insert t e ↔ t' ∈ ts := by
  rw [AList.mem_insert]
  refine ⟨?_, .inr⟩
  rintro (rfl | h)
  · exact ht
  · exact h

/-- The count of a tenant, zero if there is none. -/
def count (counts : LoadMap String) (t : String) : ℕ := (counts.lookup t).getD 0

/-- The invariant of the tree.  It is about every tenant, also one that was never inserted. -/
structure WellFormed (T : TenantTree) : Prop where
  root : T.root.text = NodeText.empty
  good : Good T.root
  used : ∀ t, count T.tenantCharCount t = usedSize t T.root

theorem wellFormed_new : WellFormed new where
  root := rfl
  good := good_leaf _ _ _
  used := fun _ => rfl

end TenantTree

end Sglang
