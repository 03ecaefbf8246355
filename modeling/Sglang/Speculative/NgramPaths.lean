/-
# The paths of a draft tree

A path of a draft tree is the list of tokens on the way from the root to a node.  Where siblings carry distinct
tokens (`DraftTree`) a path leads to one node only, and in a listing of the tree each position stands for one
path (`Lists.mem_rootPaths_iff`), the path of its parent with its own token behind it.
-/
import Sglang.Speculative.NgramRoundTrip

namespace Sglang

open Lib Lib.ParentTree List Option

namespace NgramResult

/-! ## 1. Paths -/

/-- The tokens on the way from one node to another. -/
inductive Path (tree : List NgramNode) (i : ℕ) : List ℤ → ℕ → Prop
  | nil : Path tree i [] i
  | snoc {w : List ℤ} {j k : ℕ} {t : ℤ} : Path tree i w j → (t, k) ∈ entries tree j →
      Path tree i (w ++ [t]) k

/-- The paths from the root to the other nodes. -/
def RootPaths (tree : List NgramNode) (root : ℕ) : Set (List ℤ) := {w | w ≠ [] ∧ ∃ j, Path tree root w j}

/-- A tree in which siblings carry distinct tokens. -/
structure DraftTree (tree : List NgramNode) (root size : ℕ) : Prop extends HoldsTree tree root size where
  keys : ∀ i < size, ((entries tree i).map Prod.fst).Nodup

variable {tree : List NgramNode} {root size i j k : ℕ} {w w' : List ℤ} {t t' : ℤ}

theorem mem_kids_of_mem_entries (h : (t, k) ∈ entries tree i) : k ∈ kids tree i :=
  List.mem_map.mpr ⟨(t, k), h, rfl⟩

@[simp]
theorem path_nil_iff : Path tree i [] j ↔ j = i := by
  constructor
  · intro h
    generalize hw : ([] : List ℤ) = w at h
    cases h with
    | nil => rfl
    | snoc _ _ => simp at hw
  · rintro rfl
    exact .nil

theorem path_concat_iff : Path tree i (w ++ [t]) k ↔ ∃ j, Path tree i w j ∧ (t, k) ∈ entries tree j := by
  constructor
  · intro h
    generalize hw : w ++ [t] = v at h
    cases h with
    | nil => simp at hw
    | snoc hpath hentry =>
      obtain ⟨rfl, ht⟩ := append_inj' hw rfl
      cases ht
      exact ⟨_, hpath, hentry⟩
  · rintro ⟨j, hpath, hentry⟩
    exact hpath.snoc hentry

theorem HoldsTree.path_lt (h : HoldsTree tree root size) (hi : i < size) (hpath : Path tree i w j) :
    j < size := by
  induction hpath with
  | nil => exact hi
  | snoc _ hentry ih => exact (h.lt _ ih _ (mem_kids_of_mem_entries hentry)).1

theorem HoldsTree.entry_unique (h : HoldsTree tree root size) (hi : i < size) (hj : j < size)
    (hik : (t, k) ∈ entries tree i) (hjk : (t', k) ∈ entries tree j) : i = j ∧ t = t' := by
  have hij := h.parent_unique i hi j hj k (mem_kids_of_mem_entries hik) (mem_kids_of_mem_entries hjk)
  subst hij
  have hinj := inj_on_of_nodup_map (h.nodup i hi) hik hjk rfl
  exact ⟨rfl, congrArg Prod.fst hinj⟩

/-- **A node has one path** from the root. -/
theorem HoldsTree.path_unique (h : HoldsTree tree root size) (hw : Path tree root w k)
    (hw' : Path tree root w' k) : w = w' := by
  induction hw generalizing w' with
  | nil =>
    cases hw' with
    | nil => rfl
    | snoc hj hentry =>
      exact absurd rfl (h.lt _ (h.path_lt h.root_lt hj) _ (mem_kids_of_mem_entries hentry)).2
  | snoc hj hentry ih =>
    cases hw' with
    | nil => exact absurd rfl (h.lt _ (h.path_lt h.root_lt hj) _ (mem_kids_of_mem_entries hentry)).2
    | snoc hj' hentry' =>
      obtain ⟨rfl, rfl⟩ := h.entry_unique (h.path_lt h.root_lt hj) (h.path_lt h.root_lt hj') hentry hentry'
      rw [ih hj']

/-- **A path leads to one node.** -/
theorem DraftTree.node_unique (h : DraftTree tree root size) (hj : Path tree root w j)
    (hk : Path tree root w k) : j = k := by
  induction hj generalizing k with
  | nil => exact (path_nil_iff.mp hk).symm
  | snoc hj hentry ih =>
    obtain ⟨i, hi, hentry'⟩ := path_concat_iff.mp hk
    obtain rfl := ih hi
    have hkeys := h.keys _ (h.path_lt h.root_lt hi)
    exact congrArg Prod.snd (inj_on_of_nodup_map hkeys hentry hentry' rfl)

/-! ## 2. The path of a position -/

section Positions

variable {token : List ℤ} {parent : ℕ → ℕ} {n p q : ℕ} {lastToken : ℤ} {order : List ℕ}

/-- The tokens on the way to a position. -/
def tokenPath (token : List ℤ) (parent : ℕ → ℕ) (p : ℕ) : List ℤ :=
  ((path parent p).dropLast.map fun q => token.getD q 0).reverse

@[simp]
theorem tokenPath_zero : tokenPath token parent 0 = [] := by simp [tokenPath]

theorem tokenPath_pos (h : Falls parent n) (h0 : 0 < p) (hp : p < n) :
    tokenPath token parent p = tokenPath token parent (parent p) ++ [token.getD p 0] := by
  have hne : path parent (parent p) ≠ [] := ne_nil_of_mem (mem_path_self _)
  rw [tokenPath, path_pos h h0 hp, dropLast_cons_of_ne_nil hne, map_cons, reverse_cons, tokenPath]

theorem tokenPath_ne_nil (h : Falls parent n) (h0 : 0 < p) (hp : p < n) : tokenPath token parent p ≠ [] := by
  rw [tokenPath_pos h h0 hp]
  simp

theorem Lists.tokenPath_padding (hl : Lists tree root size lastToken n order token parent) (hroot : 0 < size)
    (hp : size ≤ p) (hpn : p < n) : tokenPath token parent p = [0] := by
  have hlen : (lastToken :: order.flatMap fun i => (entries tree i).map Prod.fst).length = size := by
    have htoken := congrArg List.length hl.token_eq
    rw [length_append, length_replicate, hl.length_token] at htoken
    omega
  have hzero : token.getD p 0 = 0 := by
    rw [hl.token_eq, getD_eq_getElem?_getD, getElem?_append_right (by omega), getElem?_replicate]
    split <;> rfl
  rw [tokenPath_pos hl.parent_lt (by omega) hpn, hl.padding p hp hpn, hzero]
  rfl

theorem Lists.length_order (hl : Lists tree root size lastToken n order token parent) : order.length = size := by
  have hperm : order.Perm (List.range size) :=
    (perm_ext_iff_of_nodup hl.nodup nodup_range).mpr fun i => by
      rw [hl.mem_iff, mem_range]
  simpa using hperm.length_eq

/-- **The entry of a position** is one of its parent's. -/
theorem Lists.entry (hl : Lists tree root size lastToken n order token parent)
    (htree : HoldsTree tree root size) (h0 : 0 < p) (hp : p < size) :
    ∃ i c, order[parent p]? = some i ∧ order[p]? = some c ∧ (token.getD p 0, c) ∈ entries tree i := by
  obtain ⟨i, c, hi, hc, hkid⟩ := hl.child p h0 hp
  refine ⟨i, c, hi, hc, ?_⟩
  obtain ⟨q, rfl⟩ := Nat.exists_eq_add_of_lt h0
  rw [Nat.zero_add] at hc hp ⊢
  -- the token and the node at a position come from the same entry
  have hnodes : order = root :: (order.flatMap (entries tree)).map Prod.snd := by
    rw [map_flatMap]
    exact hl.breadthFirst
  have htokens : token = (lastToken :: (order.flatMap (entries tree)).map Prod.fst)
      ++ List.replicate (n - size) 0 := by
    rw [map_flatMap]
    exact hl.token_eq
  rw [hnodes, getElem?_cons_succ, getElem?_map, map_eq_some_iff] at hc
  obtain ⟨⟨t, c'⟩, hentry, rfl⟩ := hc
  have htoken : token.getD (q + 1) 0 = t := by
    rw [htokens, getD_eq_getElem?_getD, getElem?_append_left, getElem?_cons_succ,
      getElem?_map, hentry]
    · rfl
    · rw [length_cons, length_map]
      exact Nat.succ_lt_succ (List.getElem?_eq_some_iff.mp hentry).1
  obtain ⟨i', hi', hentry'⟩ := mem_flatMap.mp (mem_of_getElem? hentry)
  have hii : i = i' := htree.parent_unique i ((hl.mem_iff i).mp (mem_of_getElem? hi)) i'
    ((hl.mem_iff i').mp hi') c' hkid (mem_kids_of_mem_entries hentry')
  rw [htoken, hii]
  exact hentry'

variable {c : ℕ}

/-- **A position stands for the path of its node.** -/
theorem Lists.path (hl : Lists tree root size lastToken n order token parent)
    (htree : HoldsTree tree root size) (hsize : size ≤ n) (hc : order[p]? = some c) :
    Path tree root (tokenPath token parent p) c := by
  induction p using Nat.strong_induction_on generalizing c with
  | _ p ih =>
    have hp : p < size := hl.length_order ▸ (List.getElem?_eq_some_iff.mp hc).1
    rcases Nat.eq_zero_or_pos p with rfl | h0
    · have hroot : order[0]? = some root := by
        rw [hl.breadthFirst]
        rfl
      rw [hroot, some_inj] at hc
      subst hc
      simp
    · obtain ⟨i, c', hi, hc', hentry⟩ := hl.entry htree h0 hp
      rw [hc', some_inj] at hc
      subst hc
      rw [tokenPath_pos hl.parent_lt h0 (hp.trans_le hsize)]
      exact (ih _ (hl.parent_lt p h0 (hp.trans_le hsize)) hi).snoc hentry

theorem Lists.exists_position (hl : Lists tree root size lastToken n order token parent)
    (hc : c < size) : ∃ p < size, order[p]? = some c := by
  obtain ⟨p, hp⟩ := mem_iff_getElem?.mp ((hl.mem_iff c).mpr hc)
  exact ⟨p, hl.length_order ▸ (List.getElem?_eq_some_iff.mp hp).1, hp⟩

/-- **The paths of the tree** are those of the positions behind the root. -/
theorem Lists.mem_rootPaths_iff (hl : Lists tree root size lastToken n order token parent)
    (htree : HoldsTree tree root size) (hsize : size ≤ n) :
    w ∈ RootPaths tree root ↔ ∃ p, 0 < p ∧ p < size ∧ tokenPath token parent p = w := by
  constructor
  · rintro ⟨hne, c, hpath⟩
    obtain ⟨p, hp, hc⟩ := hl.exists_position (htree.path_lt htree.root_lt hpath)
    have heq := htree.path_unique (hl.path htree hsize hc) hpath
    refine ⟨p, Nat.pos_of_ne_zero ?_, hp, heq⟩
    rintro rfl
    exact hne (heq ▸ tokenPath_zero)
  · rintro ⟨p, h0, hp, rfl⟩
    have hc := getElem?_eq_getElem (hl.length_order.symm ▸ hp)
    exact ⟨tokenPath_ne_nil hl.parent_lt h0 (hp.trans_le hsize), _, hl.path htree hsize hc⟩

/-- Different positions stand for different paths. -/
theorem Lists.tokenPath_inj (hl : Lists tree root size lastToken n order token parent)
    (htree : DraftTree tree root size) (hsize : size ≤ n) (hp : p < size) (hq : q < size)
    (h : tokenPath token parent p = tokenPath token parent q) : p = q := by
  have hp' := getElem?_eq_getElem (hl.length_order.symm ▸ hp)
  have hq' := getElem?_eq_getElem (hl.length_order.symm ▸ hq)
  have hpath := hl.path htree.toHoldsTree hsize hp'
  rw [h] at hpath
  have hnode := htree.node_unique hpath (hl.path htree.toHoldsTree hsize hq')
  exact (List.Nodup.getElem_inj_iff hl.nodup).mp hnode

theorem Lists.childless_iff (hl : Lists tree root size lastToken n order token parent)
    (htree : HoldsTree tree root size) (hc : order[p]? = some c) :
    kids tree c = [] ↔ ∀ q, 0 < q → q < size → parent q ≠ p := by
  have hclt := (hl.mem_iff c).mp (mem_of_getElem? hc)
  constructor
  · rintro hnil q h0 hq rfl
    obtain ⟨i, c', hi, -, hkid⟩ := hl.child q h0 hq
    rw [hc, some_inj] at hi
    subst hi
    rw [hnil] at hkid
    exact not_mem_nil hkid
  · intro hnone
    refine eq_nil_iff_forall_not_mem.mpr fun k hk => ?_
    obtain ⟨hklt, hkroot⟩ := htree.lt c hclt k hk
    obtain ⟨q, hq, hkq⟩ := hl.exists_position hklt
    have h0 : 0 < q := by
      refine Nat.pos_of_ne_zero ?_
      rintro rfl
      rw [hl.breadthFirst] at hkq
      exact hkroot (some_inj.mp hkq).symm
    obtain ⟨i, k', hi, hk', hkid⟩ := hl.child q h0 hq
    rw [hkq, some_inj] at hk'
    subst hk'
    have hic := htree.parent_unique i ((hl.mem_iff i).mp (mem_of_getElem? hi)) c hclt k hkid hk
    subst hic
    obtain ⟨hlt, hget⟩ := List.getElem?_eq_some_iff.mp hi
    obtain ⟨hlt', hget'⟩ := List.getElem?_eq_some_iff.mp hc
    exact hnone q h0 hq ((List.Nodup.getElem_inj_iff hl.nodup).mp (hget.trans hget'.symm))

end Positions

end NgramResult

end Sglang
