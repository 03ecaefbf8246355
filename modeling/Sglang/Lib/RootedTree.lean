/-
# Rooted trees given by parent pointers

A tree kept as linked nodes has no constructor to recurse on: what a program holds is a finite
set of node names, a parent pointer at each and a distinguished root.  `RootedTree` carries that
data together with the one ghost field that makes it a TREE, the list `up n` of the nodes met
when the pointers are followed from `n` to the root (the root itself left out).

Three edits are enough for a compressed trie, and each is given here with its effect on `up`:

* `attach p v`:    a new leaf `v` under `p`;
* `subdivide n v`: a new node `v` in the middle of the edge from `n` to its parent;
* `detach n`:      a childless node `n` is unlinked.

Over a tree whose nodes carry labels, `word n` is the concatenation of the labels from the root
down to `n`.  The main fact about it is `mem_up_of_word_prefix`: when the labels are nonempty and
siblings differ in their first letter, the word of one node is a prefix of the word of another
only along an ancestor chain.
-/
import Mathlib.Tactic

namespace Lib

open List Finset Function

/-- Linked nodes that form a tree: `up n` is the chain of pointers from `n` to the root. -/
structure RootedTree (ι : Type) where
  root : ι
  nodes : Finset ι
  parent : ι → ι
  up : ι → List ι
  root_mem : root ∈ nodes
  up_root : up root = []
  parent_mem : ∀ {n}, n ∈ nodes → n ≠ root → parent n ∈ nodes
  up_cons : ∀ {n}, n ∈ nodes → n ≠ root → up n = n :: up (parent n)

namespace RootedTree

variable {ι α : Type}

attribute [simp] up_root root_mem

/-! ## 1. Chains of ancestors -/

/-- The node `n` hangs directly under `p`. -/
def Child (t : RootedTree ι) (p n : ι) : Prop := n ∈ t.nodes ∧ n ≠ t.root ∧ t.parent n = p

theorem induction (t : RootedTree ι) {P : ι → Prop} (hroot : P t.root)
    (hstep : ∀ n ∈ t.nodes, n ≠ t.root → P (t.parent n) → P n) :
    ∀ n ∈ t.nodes, P n := by
  have key : ∀ (k : ℕ) (n : ι), n ∈ t.nodes → (t.up n).length = k → P n := by
    intro k
    induction k with
    | zero =>
      intro n hn hk
      by_cases hr : n = t.root
      · exact hr ▸ hroot
      · rw [t.up_cons hn hr] at hk
        simp at hk
    | succ k ih =>
      intro n hn hk
      by_cases hr : n = t.root
      · exact hr ▸ hroot
      · rw [t.up_cons hn hr, length_cons] at hk
        exact hstep n hn hr (ih _ (t.parent_mem hn hr) (by omega))
  exact fun n hn => key _ n hn rfl

variable {t : RootedTree ι} {n m p v : ι}

theorem mem_up_self (hn : n ∈ t.nodes) (hr : n ≠ t.root) : n ∈ t.up n := by
  rw [t.up_cons hn hr]
  exact List.mem_cons_self

theorem mem_of_mem_up (hn : n ∈ t.nodes) : m ∈ t.up n → m ∈ t.nodes ∧ m ≠ t.root := by
  refine t.induction (P := fun n => m ∈ t.up n → m ∈ t.nodes ∧ m ≠ t.root) ?_ ?_ n hn
  · simp
  · intro n hn hr ih hm
    rw [t.up_cons hn hr, List.mem_cons] at hm
    rcases hm with rfl | hm
    · exact ⟨hn, hr⟩
    · exact ih hm

theorem up_suffix (hn : n ∈ t.nodes) : m ∈ t.up n → t.up m <:+ t.up n := by
  refine t.induction (P := fun n => m ∈ t.up n → t.up m <:+ t.up n) ?_ ?_ n hn
  · simp
  · intro n hn hr ih hm
    rw [t.up_cons hn hr, List.mem_cons] at hm
    rcases hm with rfl | hm
    · exact suffix_rfl
    · rw [t.up_cons hn hr]
      exact (ih hm).trans (suffix_cons _ _)

/-- **No cycle**: a node is not an ancestor of its parent. -/
theorem not_mem_up_parent (hn : n ∈ t.nodes) (hr : n ≠ t.root) : n ∉ t.up (t.parent n) := by
  intro hm
  have h := (up_suffix (t.parent_mem hn hr) hm).length_le
  rw [t.up_cons hn hr, length_cons] at h
  omega

theorem parent_ne (hn : n ∈ t.nodes) (hr : n ≠ t.root) : t.parent n ≠ n := by
  intro h
  by_cases hp : t.parent n = t.root
  · exact hr (h.symm.trans hp)
  · have := not_mem_up_parent hn hr
    rw [h] at this
    exact this (mem_up_self hn hr)

theorem nodup_up (hn : n ∈ t.nodes) : (t.up n).Nodup := by
  refine t.induction (P := fun n => (t.up n).Nodup) ?_ ?_ n hn
  · simp
  · intro n hn hr ih
    rw [t.up_cons hn hr]
    exact nodup_cons.mpr ⟨not_mem_up_parent hn hr, ih⟩

variable {k : ι}

theorem mem_up_trans (hn : n ∈ t.nodes) (hm : m ∈ t.up n) (hk : k ∈ t.up m) :
    k ∈ t.up n := (up_suffix hn hm).subset hk

theorem exists_child_of_mem_up (hn : n ∈ t.nodes) (hne : m ≠ n) :
    m ∈ t.up n ∨ (m = t.root) → ∃ k ∈ t.up n, t.Child m k := by
  refine t.induction (P := fun n => m ≠ n → m ∈ t.up n ∨ m = t.root →
    ∃ k ∈ t.up n, t.Child m k) ?_ ?_ n hn hne
  · rintro hne (h | h)
    · simp at h
    · exact absurd h hne
  · intro n hn hr ih hne hm
    rw [t.up_cons hn hr]
    by_cases hp : t.parent n = m
    · exact ⟨n, List.mem_cons_self, hn, hr, hp⟩
    · obtain ⟨k, hk, hc⟩ := ih (fun h => hp h.symm) (by
        rcases hm with hm | hm
        · rw [t.up_cons hn hr, List.mem_cons] at hm
          exact Or.inl (hm.resolve_left hne)
        · exact Or.inr hm)
      exact ⟨k, List.mem_cons_of_mem _ hk, hc⟩

theorem up_length_lt [DecidableEq ι] (hn : n ∈ t.nodes) : (t.up n).length < t.nodes.card := by
  have hsub : (t.up n).toFinset ⊆ t.nodes.erase t.root := by
    intro k hk
    obtain ⟨h1, h2⟩ := mem_of_mem_up hn (mem_toFinset.mp hk)
    exact mem_erase.mpr ⟨h2, h1⟩
  have h := card_le_card hsub
  rw [toFinset_card_of_nodup (nodup_up hn), card_erase_of_mem t.root_mem] at h
  have : 0 < t.nodes.card := card_pos.mpr ⟨_, t.root_mem⟩
  omega

/-! ## 2. The three edits -/

section Edits

variable [DecidableEq ι]

/-- A new leaf `v` under `p`. -/
def attach (t : RootedTree ι) (p v : ι) (hp : p ∈ t.nodes) (hv : v ∉ t.nodes) :
    RootedTree ι where
  root := t.root
  nodes := insert v t.nodes
  parent := Function.update t.parent v p
  up := Function.update t.up v (v :: t.up p)
  root_mem := Finset.mem_insert_of_mem t.root_mem
  up_root := by
    have : t.root ≠ v := fun h => hv (h ▸ t.root_mem)
    simp [this]
  parent_mem := by
    intro n hn hr
    by_cases h : n = v
    · subst h; simp [hp]
    · have hn' := (mem_insert.mp hn).resolve_left h
      rw [update_of_ne h]
      exact Finset.mem_insert_of_mem (t.parent_mem hn' hr)
  up_cons := by
    intro n hn hr
    by_cases h : n = v
    · subst h
      have : p ≠ n := fun e => hv (e ▸ hp)
      simp [this]
    · have hn' := (mem_insert.mp hn).resolve_left h
      have : t.parent n ≠ v := fun e => hv (e ▸ t.parent_mem hn' hr)
      simp [h, this, t.up_cons hn' hr]

/-- A new node `v` between `n` and its parent. -/
def subdivide (t : RootedTree ι) (n v : ι) (hn : n ∈ t.nodes) (hr : n ≠ t.root)
    (hv : v ∉ t.nodes) : RootedTree ι where
  root := t.root
  nodes := insert v t.nodes
  parent := Function.update (Function.update t.parent n v) v (t.parent n)
  up := fun m => if m = v then v :: t.up (t.parent n)
    else (t.up m).flatMap fun k => if k = n then [n, v] else [k]
  root_mem := Finset.mem_insert_of_mem t.root_mem
  up_root := by
    have : t.root ≠ v := fun h => hv (h ▸ t.root_mem)
    simp [this]
  parent_mem := by
    intro m hm hmr
    by_cases h : m = v
    · subst h; simp [t.parent_mem hn hr]
    · have hm' := (mem_insert.mp hm).resolve_left h
      rw [update_of_ne h]
      by_cases hmn : m = n
      · subst hmn; simp
      · rw [update_of_ne hmn]
        exact Finset.mem_insert_of_mem (t.parent_mem hm' hmr)
  up_cons := by
    have hstay : ∀ l : List ι, n ∉ l →
        (l.flatMap fun k => if k = n then [n, v] else [k]) = l := by
      intro l hl
      induction l with
      | nil => rfl
      | cons a l ih =>
        rw [List.mem_cons, not_or] at hl
        simp [flatMap_cons, Ne.symm hl.1, ih hl.2]
    have hpn : t.parent n ≠ v := fun e => hv (e ▸ t.parent_mem hn hr)
    intro m hm hmr
    by_cases h : m = v
    · subst h
      simp only [if_true, update_self, if_neg hpn]
      rw [hstay _ (not_mem_up_parent hn hr)]
    · have hm' := (mem_insert.mp hm).resolve_left h
      simp only [if_neg h, update_of_ne h]
      by_cases hmn : m = n
      · subst hmn
        simp only [update_self, if_true]
        rw [t.up_cons hm' hmr, flatMap_cons, if_pos rfl,
          hstay _ (not_mem_up_parent hm' hmr)]
        rfl
      · have hpm : t.parent m ≠ v := fun e => hv (e ▸ t.parent_mem hm' hmr)
        rw [update_of_ne hmn, if_neg hpm, t.up_cons hm' hmr, flatMap_cons,
          if_neg hmn]
        rfl

/-- A childless node is unlinked. -/
def detach (t : RootedTree ι) (n : ι) (hr : n ≠ t.root) (hleaf : ∀ k, ¬ t.Child n k) :
    RootedTree ι where
  root := t.root
  nodes := t.nodes.erase n
  parent := t.parent
  up := t.up
  root_mem := mem_erase.mpr ⟨hr.symm, t.root_mem⟩
  up_root := t.up_root
  parent_mem := by
    intro m hm hmr
    have hm' := Finset.mem_of_mem_erase hm
    exact mem_erase.mpr ⟨fun e => hleaf m ⟨hm', hmr, e⟩, t.parent_mem hm' hmr⟩
  up_cons := fun hm hmr => t.up_cons (Finset.mem_of_mem_erase hm) hmr

variable {hp : p ∈ t.nodes} {hv : v ∉ t.nodes} {hn : n ∈ t.nodes} {hr : n ≠ t.root}
  {hleaf : ∀ k, ¬ t.Child n k}

@[simp] theorem attach_root : (t.attach p v hp hv).root = t.root := rfl
@[simp] theorem attach_nodes : (t.attach p v hp hv).nodes = insert v t.nodes := rfl
@[simp] theorem subdivide_root : (t.subdivide n v hn hr hv).root = t.root := rfl
@[simp] theorem subdivide_nodes : (t.subdivide n v hn hr hv).nodes = insert v t.nodes := rfl
@[simp] theorem detach_root : (t.detach n hr hleaf).root = t.root := rfl
@[simp] theorem detach_nodes : (t.detach n hr hleaf).nodes = t.nodes.erase n := rfl
@[simp] theorem detach_parent : (t.detach n hr hleaf).parent = t.parent := rfl

@[simp] theorem attach_parent_new : (t.attach p v hp hv).parent v = p := by simp [attach]

theorem attach_parent_old (hm : m ∈ t.nodes) : (t.attach p v hp hv).parent m = t.parent m := by
  simp [attach, ne_of_mem_of_not_mem hm hv]

theorem attach_up_old (hm : m ∈ t.nodes) : (t.attach p v hp hv).up m = t.up m := by
  simp [attach, ne_of_mem_of_not_mem hm hv]

@[simp] theorem subdivide_parent_new : (t.subdivide n v hn hr hv).parent v = t.parent n := by
  simp [subdivide]

@[simp] theorem subdivide_parent_self : (t.subdivide n v hn hr hv).parent n = v := by
  simp [subdivide, ne_of_mem_of_not_mem hn hv]

theorem subdivide_parent_old (hm : m ∈ t.nodes) (hmn : m ≠ n) :
    (t.subdivide n v hn hr hv).parent m = t.parent m := by
  simp [subdivide, ne_of_mem_of_not_mem hm hv, hmn]

theorem subdivide_up_old (hm : m ∈ t.nodes) : (t.subdivide n v hn hr hv).up m =
    (t.up m).flatMap fun k => if k = n then [n, v] else [k] := by
  simp [subdivide, ne_of_mem_of_not_mem hm hv]

theorem mem_subdivide_up_old (hm : m ∈ t.nodes) (hk : k ∈ t.nodes) :
    k ∈ (t.subdivide n v hn hr hv).up m ↔ k ∈ t.up m := by
  rw [subdivide_up_old hm, mem_flatMap]
  have hkv := ne_of_mem_of_not_mem hk hv
  constructor
  · rintro ⟨a, ha, hka⟩
    by_cases h : a = n
    · simp [h, hkv] at hka
      exact hka ▸ h ▸ ha
    · simp [h] at hka
      exact hka ▸ ha
  · intro h
    refine ⟨k, h, ?_⟩
    by_cases e : k = n <;> simp [e]

/-- The new node is an ancestor of exactly the nodes that had `n` as an ancestor. -/
theorem mem_subdivide_up_new (hm : m ∈ t.nodes) :
    v ∈ (t.subdivide n v hn hr hv).up m ↔ n ∈ t.up m := by
  rw [subdivide_up_old hm, mem_flatMap]
  constructor
  · rintro ⟨a, ha, hka⟩
    by_cases h : a = n
    · exact h ▸ ha
    · simp [h] at hka
      exact absurd (mem_of_mem_up hm (hka ▸ ha)).1 hv
  · exact fun h => ⟨n, h, by simp⟩

variable {q : ι}

theorem attach_child_iff : (t.attach p v hp hv).Child q m ↔ t.Child q m ∨ (m = v ∧ q = p) := by
  have hvr : v ≠ t.root := fun h => hv (h ▸ t.root_mem)
  by_cases h : m = v
  · subst h
    simp [Child, hvr, hv, eq_comm]
  · simp only [Child, attach_nodes, mem_insert, h, false_or, attach_root, false_and, or_false]
    constructor
    · rintro ⟨h1, h2, h3⟩
      exact ⟨h1, h2, by rwa [attach_parent_old h1] at h3⟩
    · rintro ⟨h1, h2, h3⟩
      exact ⟨h1, h2, by rwa [attach_parent_old h1]⟩

/-- After the subdivision `v` takes the place of `n` under its parent, and `n` is the only child
of `v`. -/
theorem subdivide_child_iff (hq : q ∈ insert v t.nodes) : (t.subdivide n v hn hr hv).Child q m ↔
      (m = v ∧ q = t.parent n) ∨ (m = n ∧ q = v) ∨ (m ≠ n ∧ t.Child q m) := by
  have hvr : v ≠ t.root := fun h => hv (h ▸ t.root_mem)
  have hnv : n ≠ v := ne_of_mem_of_not_mem hn hv
  by_cases h : m = v
  · subst h
    simp [Child, hvr, hv, hnv.symm, eq_comm]
  · by_cases hmn : m = n
    · subst hmn
      simp [Child, h, hn, hr, eq_comm]
    · simp only [Child, subdivide_nodes, mem_insert, h, hmn, false_or, subdivide_root,
        false_and, ne_eq, not_false_eq_true, true_and]
      constructor
      · rintro ⟨h1, h2, h3⟩
        exact ⟨h1, h2, by rwa [subdivide_parent_old h1 hmn] at h3⟩
      · rintro ⟨h1, h2, h3⟩
        exact ⟨h1, h2, by rwa [subdivide_parent_old h1 hmn]⟩

theorem detach_child_iff : (t.detach n hr hleaf).Child q m ↔ t.Child q m ∧ m ≠ n := by
  simp only [Child, detach_nodes, mem_erase, detach_root, detach_parent]
  tauto

end Edits

/-! ## 3. Words -/

/-- The labels from the root down to `n`, concatenated. -/
def word (t : RootedTree ι) (label : ι → List α) (n : ι) : List α :=
  (t.up n).reverse.flatMap label

variable {label label' : ι → List α}

@[simp] theorem word_root : t.word label t.root = [] := by simp [word]

theorem word_cons (hn : n ∈ t.nodes) (hr : n ≠ t.root) :
    t.word label n = t.word label (t.parent n) ++ label n := by
  simp [word, t.up_cons hn hr, flatMap_append]

theorem word_congr (hn : n ∈ t.nodes) (h : ∀ m ∈ t.nodes, label m = label' m) :
    t.word label n = t.word label' n := by
  refine flatMap_congr ?_
  intro m hm
  exact h m (mem_of_mem_up hn (mem_reverse.mp hm)).1

theorem word_prefix_of_mem_up (hn : n ∈ t.nodes) (hm : m ∈ t.up n) :
    t.word label m <+: t.word label n := by
  obtain ⟨l, hl⟩ := up_suffix hn hm
  refine ⟨l.reverse.flatMap label, ?_⟩
  simp [word, ← hl, flatMap_append]

section Edits

variable [DecidableEq ι] {hp : p ∈ t.nodes} {hv : v ∉ t.nodes} {hn : n ∈ t.nodes}
  {hr : n ≠ t.root} {hleaf : ∀ k, ¬ t.Child n k}

theorem word_attach_old (hm : m ∈ t.nodes) (h : ∀ k ∈ t.nodes, label' k = label k) :
    (t.attach p v hp hv).word label' m = t.word label m := by
  rw [word, attach_up_old hm]
  exact word_congr hm h

theorem word_attach_new (h : ∀ k ∈ t.nodes, label' k = label k) :
    (t.attach p v hp hv).word label' v = t.word label p ++ label' v := by
  have hvr : v ≠ (t.attach p v hp hv).root := fun e => hv (e ▸ t.root_mem)
  rw [word_cons (by simp) hvr, attach_parent_new, word_attach_old hp h]

/-- **Cutting an edge changes no word**: the two halves of the label are read one after the
other. -/
theorem word_subdivide (h : ∀ k ∈ t.nodes, k ≠ n → label' k = label k)
    (hcut : label' v ++ label' n = label n) :
    (∀ m ∈ t.nodes, (t.subdivide n v hn hr hv).word label' m = t.word label m) ∧
      (t.subdivide n v hn hr hv).word label' v = t.word label (t.parent n) ++ label' v := by
  have hvr : v ≠ (t.subdivide n v hn hr hv).root := fun e => hv (e ▸ t.root_mem)
  have hpar : ∀ m ∈ t.nodes, n ∉ t.up m →
      (t.subdivide n v hn hr hv).word label' m = t.word label m := by
    intro m hm hnm
    rw [word, subdivide_up_old hm]
    have : (t.up m).flatMap (fun k => if k = n then [n, v] else [k]) = t.up m := by
      have hc : (t.up m).flatMap (fun k => if k = n then [n, v] else [k])
          = (t.up m).flatMap (fun k => [k]) :=
        flatMap_congr fun k hk => if_neg fun e : k = n => hnm (e ▸ hk)
      simpa using hc
    rw [this]
    refine flatMap_congr fun k hk => ?_
    have hk' := mem_reverse.mp hk
    exact h k (mem_of_mem_up hm hk').1 (fun e => hnm (e ▸ hk'))
  have hnew : (t.subdivide n v hn hr hv).word label' v = t.word label (t.parent n) ++ label' v := by
    rw [word_cons (by simp) hvr, subdivide_parent_new,
      hpar _ (t.parent_mem hn hr) (not_mem_up_parent hn hr)]
  refine ⟨?_, hnew⟩
  refine t.induction ?_ ?_
  · exact (word_root (t := t.subdivide n v hn hr hv)).trans word_root.symm
  · intro m hm hmr ih
    have hm' : m ∈ (t.subdivide n v hn hr hv).nodes := Finset.mem_insert_of_mem hm
    rw [word_cons hm' hmr, word_cons hm hmr]
    by_cases hmn : m = n
    · subst hmn
      rw [subdivide_parent_self, hnew, append_assoc, hcut]
    · rw [subdivide_parent_old hm hmn, ih, h m hm hmn]

theorem word_detach (hm : m ∈ t.nodes.erase n) (h : ∀ k ∈ t.nodes.erase n, label' k = label k) :
    (t.detach n hr hleaf).word label' m = t.word label m :=
  word_congr (t := t.detach n hr hleaf) hm h

end Edits

/-- Labels are nonempty below the root, and children of one node differ in their first letter. -/
structure Separated (t : RootedTree ι) (label : ι → List α) : Prop where
  ne_nil : ∀ n ∈ t.nodes, n ≠ t.root → label n ≠ []
  head_inj : ∀ p n m, t.Child p n → t.Child p m → (label n).head? = (label m).head? → n = m

/-- **Prefixes are ancestors**: in a separated tree the word of `n` is a prefix of the word of
`m` only if `n` is the root or lies on the chain of `m`. -/
theorem Separated.mem_up_of_word_prefix (hs : t.Separated label) (hm : m ∈ t.nodes) :
    ∀ n ∈ t.nodes, t.word label n <+: t.word label m → n = t.root ∨ n ∈ t.up m := by
  refine t.induction (fun _ => Or.inl rfl) ?_
  intro n hn hr ih hpre
  right
  rw [word_cons hn hr] at hpre
  have hanc := ih ((prefix_append _ _).trans hpre)
  have hne := hs.ne_nil n hn hr
  have hpm : t.parent n ≠ m := by
    intro e
    have := hpre.length_le
    rw [e, length_append] at this
    exact hne (eq_nil_of_length_eq_zero (by omega))
  obtain ⟨k, hk, hc⟩ := exists_child_of_mem_up hm hpm hanc.symm
  have hkm : t.word label k <+: t.word label m := word_prefix_of_mem_up hm hk
  rw [word_cons hc.1 hc.2.1, hc.2.2] at hkm
  obtain ⟨a, ha⟩ := hkm
  obtain ⟨b, hb⟩ := hpre
  rw [append_assoc] at ha hb
  have hab : label k ++ a = label n ++ b := append_cancel_left (ha.trans hb.symm)
  have hhead : (label k).head? = (label n).head? := by
    have hkne := hs.ne_nil k hc.1 hc.2.1
    obtain ⟨x, xs, hx⟩ := exists_cons_of_ne_nil hkne
    obtain ⟨y, ys, hy⟩ := exists_cons_of_ne_nil hne
    rw [hx, hy] at hab ⊢
    simp only [cons_append, List.cons.injEq] at hab
    simp [hab.1]
  exact hs.head_inj _ k n hc ⟨hn, hr, rfl⟩ hhead ▸ hk

variable {i : ℕ}

/-- Every position of the word of `n` lies in the label of one node of its chain. -/
theorem exists_cover (hi : 0 < i) (hn : n ∈ t.nodes) : i ≤ (t.word label n).length → ∃ a ∈ t.up n,
      (t.word label (t.parent a)).length < i ∧ i ≤ (t.word label a).length := by
  refine t.induction (P := fun n => i ≤ (t.word label n).length → ∃ a ∈ t.up n,
    (t.word label (t.parent a)).length < i ∧ i ≤ (t.word label a).length) ?_ ?_ n hn
  · intro h
    rw [word_root, length_nil] at h
    omega
  · intro n hn hr ih hle
    by_cases h : i ≤ (t.word label (t.parent n)).length
    · obtain ⟨a, ha, hcov⟩ := ih h
      exact ⟨a, by rw [t.up_cons hn hr]; exact List.mem_cons_of_mem _ ha, hcov⟩
    · exact ⟨n, mem_up_self hn hr, by omega, hle⟩

/-- The node that covers a position lies on the chain of every node whose word agrees up to
there. -/
theorem Separated.mem_up_of_cover (hs : t.Separated label) (hn : n ∈ t.nodes) (hr : n ≠ t.root)
    (hm : m ∈ t.nodes) (hlt : (t.word label (t.parent n)).length < i)
    (hle : i ≤ (t.word label n).length) (hpre : (t.word label n).take i <+: t.word label m) :
    n ∈ t.up m := by
  have hw : t.word label n = t.word label (t.parent n) ++ label n := word_cons hn hr
  have hp := t.parent_mem hn hr
  have hpm : t.word label (t.parent n) <+: t.word label m := by
    refine List.IsPrefix.trans ?_ hpre
    rw [hw]
    exact prefix_take_iff.mpr ⟨prefix_append _ _, hlt.le⟩
  have hne : t.parent n ≠ m := by
    rintro rfl
    have := hpre.length_le
    rw [length_take] at this
    omega
  obtain ⟨k, hk, hc⟩ := exists_child_of_mem_up hm hne (hs.mem_up_of_word_prefix hm _ hp hpm).symm
  have hkm : t.word label k <+: t.word label m := word_prefix_of_mem_up hm hk
  rw [word_cons hc.1 hc.2.1, hc.2.2] at hkm
  have hnth : ∀ x ∈ t.nodes, x ≠ t.root → ∀ {w : List α},
      t.word label (t.parent n) ++ label x <+: w →
      w[(t.word label (t.parent n)).length]? = (label x).head? := by
    rintro x hx hxr w ⟨a, rfl⟩
    obtain ⟨y, l, hy⟩ := exists_cons_of_ne_nil (hs.ne_nil x hx hxr)
    rw [hy, append_assoc, getElem?_append_right le_rfl, Nat.sub_self]
    rfl
  have hheadk := hnth k hc.1 hc.2.1 hkm
  have hheadn : (t.word label m)[(t.word label (t.parent n)).length]? = (label n).head? := by
    obtain ⟨b, hb⟩ := hpre
    rw [← hb, getElem?_append_left (by rw [length_take]; omega), getElem?_take_of_lt hlt]
    exact hnth n hn hr (by rw [← hw])
  have hkn : k = n := hs.head_inj _ k n hc ⟨hn, hr, rfl⟩ (hheadk.symm.trans hheadn)
  exact hkn ▸ hk

/-! ## 4. Marks below a node and sums over the nodes -/

section Marks

variable [DecidableEq ι]

/-- How many of the marked nodes lie at or below `n`. -/
def below (t : RootedTree ι) (marks : List ι) (n : ι) : ℕ :=
  marks.countP fun m => n ∈ t.up m

theorem below_mono (marks : List ι) (hmarks : ∀ m ∈ marks, m ∈ t.nodes) (h : n ∈ t.up m) :
    t.below marks m ≤ t.below marks n := by
  refine countP_mono_left fun k hk hm => ?_
  simp only [decide_eq_true_eq] at hm ⊢
  exact mem_up_trans (hmarks k hk) hm h

/-- Marks spread upwards: a node has at least as many marks below it as its child. -/
theorem below_le_parent (marks : List ι) (hmarks : ∀ m ∈ marks, m ∈ t.nodes)
    (hn : n ∈ t.nodes) (hr : n ≠ t.root) (hp : t.parent n ≠ t.root) :
    t.below marks n ≤ t.below marks (t.parent n) := by
  refine below_mono marks hmarks ?_
  rw [t.up_cons hn hr]
  exact List.mem_cons_of_mem _ (mem_up_self (t.parent_mem hn hr) hp)

theorem exists_leaf_below (hn : n ∈ t.nodes) (hr : n ≠ t.root) :
    ∃ m ∈ t.nodes, m ≠ t.root ∧ n ∈ t.up m ∧ ∀ k, ¬ t.Child m k := by
  obtain ⟨m, hm, hmax⟩ := (t.nodes.filter fun m => n ∈ t.up m).exists_max_image
    (fun m => (t.up m).length) ⟨n, Finset.mem_filter.mpr ⟨hn, mem_up_self hn hr⟩⟩
  obtain ⟨hmem, hup⟩ := Finset.mem_filter.mp hm
  refine ⟨m, hmem, ?_, hup, ?_⟩
  · rintro rfl
    rw [t.up_root] at hup
    cases hup
  · rintro k ⟨hk, hkr, rfl⟩
    have hlen := hmax k (Finset.mem_filter.mpr ⟨hk, by
      rw [t.up_cons hk hkr]
      exact List.mem_cons_of_mem _ hup⟩)
    rw [t.up_cons hk hkr, length_cons] at hlen
    omega

variable {marks : List ι} {hp : p ∈ t.nodes} {hv : v ∉ t.nodes} {hn : n ∈ t.nodes}
  {hr : n ≠ t.root} {hleaf : ∀ k, ¬ t.Child n k}

theorem below_attach_old (hmarks : ∀ m ∈ marks, m ∈ t.nodes) :
    (t.attach p v hp hv).below marks m = t.below marks m :=
  countP_congr fun k hk => by rw [attach_up_old (hmarks k hk)]

theorem below_attach_new (hmarks : ∀ m ∈ marks, m ∈ t.nodes) :
    (t.attach p v hp hv).below marks v = 0 := by
  rw [below, countP_eq_zero]
  intro k hk
  rw [attach_up_old (hmarks k hk)]
  simp only [decide_eq_true_eq]
  exact fun h => hv (mem_of_mem_up (hmarks k hk) h).1

theorem below_subdivide_old (hmarks : ∀ m ∈ marks, m ∈ t.nodes) (hm : m ∈ t.nodes) :
    (t.subdivide n v hn hr hv).below marks m = t.below marks m :=
  countP_congr fun k hk => by
    simp only [decide_eq_true_eq]
    exact mem_subdivide_up_old (hmarks k hk) hm

theorem below_subdivide_new (hmarks : ∀ m ∈ marks, m ∈ t.nodes) :
    (t.subdivide n v hn hr hv).below marks v = t.below marks n :=
  countP_congr fun k hk => by
    simp only [decide_eq_true_eq]
    exact mem_subdivide_up_new (hmarks k hk)

theorem below_cons (m : ι) :
    t.below (m :: marks) n = t.below marks n + if n ∈ t.up m then 1 else 0 := by
  simp [below, countP_cons]

theorem below_erase (hm : m ∈ marks) :
    t.below (marks.erase m) n + (if n ∈ t.up m then 1 else 0) = t.below marks n := by
  rw [← below_cons]
  exact ((perm_cons_erase hm).countP_eq _).symm

end Marks

section Sums

variable [DecidableEq ι] {M : Type} [AddCommMonoid M] {f g : ι → M}
  {hp : p ∈ t.nodes} {hv : v ∉ t.nodes} {hn : n ∈ t.nodes}
  {hr : n ≠ t.root} {hleaf : ∀ k, ¬ t.Child n k}

/-- A quantity added up over the nodes below the root. -/
def total (t : RootedTree ι) (f : ι → M) : M := ∑ n ∈ t.nodes.erase t.root, f n

theorem total_congr (h : ∀ n ∈ t.nodes, n ≠ t.root → f n = g n) : t.total f = t.total g :=
  sum_congr rfl fun n hn => h n (Finset.mem_of_mem_erase hn) (ne_of_mem_erase hn)

theorem total_split (hn : n ∈ t.nodes) (hr : n ≠ t.root) :
    t.total f = f n + ∑ k ∈ (t.nodes.erase t.root).erase n, f k :=
  (add_sum_erase _ f (mem_erase.mpr ⟨hr, hn⟩)).symm

theorem total_change (hn : n ∈ t.nodes) (hr : n ≠ t.root)
    (h : ∀ k ∈ t.nodes, k ≠ t.root → k ≠ n → g k = f k) :
    f n + t.total g = g n + t.total f := by
  rw [total_split (f := f) hn hr, total_split (f := g) hn hr]
  have hrest : ∑ k ∈ (t.nodes.erase t.root).erase n, g k
      = ∑ k ∈ (t.nodes.erase t.root).erase n, f k := by
    refine sum_congr rfl fun k hk => ?_
    rw [mem_erase, mem_erase] at hk
    exact h k hk.2.2 hk.2.1 hk.1
  rw [hrest, add_left_comm]

theorem total_attach (h : ∀ k ∈ t.nodes, k ≠ t.root → g k = f k) :
    (t.attach p v hp hv).total g = g v + t.total f := by
  have hvr : v ≠ t.root := fun e => hv (e ▸ t.root_mem)
  unfold total
  rw [attach_nodes, attach_root, erase_insert_of_ne hvr,
    sum_insert (fun e => hv (Finset.mem_of_mem_erase e))]
  congr 1
  exact total_congr h

theorem total_subdivide (h : ∀ k ∈ t.nodes, k ≠ t.root → k ≠ n → g k = f k)
    (hcut : g v + g n = f n) : (t.subdivide n v hn hr hv).total g = t.total f := by
  have hvr : v ≠ t.root := fun e => hv (e ▸ t.root_mem)
  have hrest : ∑ k ∈ (t.nodes.erase t.root).erase n, g k
      = ∑ k ∈ (t.nodes.erase t.root).erase n, f k := by
    refine sum_congr rfl fun k hk => ?_
    rw [mem_erase, mem_erase] at hk
    exact h k hk.2.2 hk.2.1 hk.1
  have hmem : n ∈ t.nodes.erase t.root := mem_erase.mpr ⟨hr, hn⟩
  unfold total
  rw [subdivide_nodes, subdivide_root, erase_insert_of_ne hvr,
    sum_insert (fun e => hv (Finset.mem_of_mem_erase e)),
    ← add_sum_erase _ g hmem, ← add_sum_erase _ f hmem, hrest, ← hcut, add_assoc]

theorem total_detach (hn : n ∈ t.nodes) (h : ∀ k ∈ t.nodes, k ≠ t.root → k ≠ n → g k = f k) :
    f n + (t.detach n hr hleaf).total g = t.total f := by
  rw [total_split hn hr]
  congr 1
  unfold total
  rw [detach_nodes, erase_right_comm]
  refine sum_congr rfl fun k hk => ?_
  rw [mem_erase, mem_erase] at hk
  exact h k hk.2.2 hk.2.1 hk.1

end Sums

end RootedTree

end Lib
