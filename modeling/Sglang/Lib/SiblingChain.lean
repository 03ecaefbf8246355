/-
# Ordered trees by first child and next sibling

An ordered tree over the numbers below `n` can be kept in two arrays of pointers: for each node its
first child, and its next sibling, with `-1` for none.  `Chain next i l` says that the pointer `i` leads
along `next` through the nodes `l` and ends; `EncodesTree` that the two arrays hold the children lists
of a tree.  A chain is determined by its pointer, so it has no repetition and fits into `n` rounds.
-/
import Mathlib.Tactic

namespace Lib

open List

/-! ## 1. Chains -/

/-- The nodes from a pointer onwards. -/
inductive Chain (next : ℕ → ℤ) : ℤ → List ℕ → Prop
  | nil : Chain next (-1) []
  | cons {i : ℕ} {l : List ℕ} : Chain next (next i) l → Chain next i (i :: l)

namespace Chain

variable {next : ℕ → ℤ} {i : ℤ} {l l' : List ℕ} {n c : ℕ}

theorem unique (h : Chain next i l) (h' : Chain next i l') : l = l' := by
  induction h generalizing l' with
  | nil =>
    cases h' with
    | nil => rfl
  | cons _ ih =>
    cases h' with
    | cons h' => rw [ih h']

theorem of_mem (h : Chain next i l) (hc : c ∈ l) : ∃ l', Chain next c (c :: l') ∧ (c :: l') <:+ l := by
  induction h with
  | nil => cases hc
  | @cons j l h ih =>
    rcases mem_cons.mp hc with rfl | hc
    · exact ⟨l, .cons h, suffix_refl _⟩
    · obtain ⟨l', h1, h2⟩ := ih hc
      exact ⟨l', h1, h2.trans (suffix_cons _ _)⟩

theorem nodup (h : Chain next i l) : l.Nodup := by
  induction h with
  | nil => exact nodup_nil
  | @cons j l h ih =>
    refine nodup_cons.mpr ⟨fun hj => ?_, ih⟩
    obtain ⟨l', h1, h2⟩ := h.of_mem hj
    have hlen := h2.length_le
    rw [h1.unique (.cons h), length_cons] at hlen
    omega

theorem length_le (h : Chain next i l) (hl : ∀ c ∈ l, c < n) : l.length ≤ n := by
  have hsub : l ⊆ List.range n := fun c hc => mem_range.mpr (hl c hc)
  simpa using (h.nodup.subperm hsub).length_le

end Chain

/-! ## 2. Trees and paths -/

/-- The two arrays hold the children lists of the nodes below `n`. -/
structure EncodesTree (n : ℕ) (firstChild nextSibling : ℕ → ℤ) (children : ℕ → List ℕ) : Prop where
  lt : ∀ i < n, ∀ c ∈ children i, c < n
  chain : ∀ i < n, Chain nextSibling (firstChild i) (children i)

/-- The nodes of a path downwards from `i`, without `i` itself. -/
inductive Descent (children : ℕ → List ℕ) : ℕ → List ℕ → Prop
  | nil {i : ℕ} : Descent children i []
  | cons {i c : ℕ} {path : List ℕ} : c ∈ children i → Descent children c path →
    Descent children i (c :: path)

theorem Descent.lt {n : ℕ} {children : ℕ → List ℕ} (hlt : ∀ i < n, ∀ c ∈ children i, c < n) {i : ℕ}
    {path : List ℕ} (h : Descent children i path) (hi : i < n) : ∀ c ∈ path, c < n := by
  induction h with
  | nil => nofun
  | @cons i c path hc _ ih =>
    intro d hd
    have hcn := hlt i hi c hc
    rcases mem_cons.mp hd with rfl | hd
    · exact hcn
    · exact ih hcn d hd

/-! ## 3. Paths that their ends determine -/

namespace Descent

variable {children : ℕ → List ℕ} {i c : ℕ} {p q : List ℕ}

theorem append (h : Descent children i p) (h' : Descent children (p.getLastD i) q) :
    Descent children i (p ++ q) := by
  induction h with
  | nil => exact h'
  | cons hc _ ih => exact .cons hc (ih (by simpa only [getLastD_cons] using h'))

theorem of_append (h : Descent children i (p ++ q)) :
    Descent children i p ∧ Descent children (p.getLastD i) q := by
  induction p generalizing i with
  | nil => exact ⟨.nil, h⟩
  | cons c p ih =>
    cases h with
    | cons hc h =>
      obtain ⟨h1, h2⟩ := ih h
      exact ⟨.cons hc h1, by simpa only [getLastD_cons] using h2⟩

theorem concat (h : Descent children i p) (hc : c ∈ children (p.getLastD i)) :
    Descent children i (p ++ [c]) :=
  h.append (.cons hc .nil)

end Descent

theorem getLastD_append (p q : List ℕ) (i : ℕ) :
    (p ++ q).getLastD i = q.getLastD (p.getLastD i) := by
  induction p generalizing i with
  | nil => rfl
  | cons c p ih => rw [cons_append, getLastD_cons, ih, getLastD_cons]

/-- Below the root every node has one path: no node is its own descendant or hangs in two places. -/
def UniquePaths (children : ℕ → List ℕ) (root : ℕ) : Prop :=
  ∀ p q, Descent children root p → Descent children root q →
    p.getLastD root = q.getLastD root → p = q

namespace UniquePaths

variable {children : ℕ → List ℕ} {root c n : ℕ} {p : List ℕ}

theorem nodup (h : UniquePaths children root) (hp : Descent children root p) :
    (root :: p).Nodup := by
  induction p using List.reverseRecOn with
  | nil => simp
  | append_singleton p c ih =>
    have hlast : (p ++ [c]).getLastD root = c := by rw [getLastD_append]; rfl
    have hnotMem : c ∉ root :: p := by
      intro hc
      rcases mem_cons.mp hc with rfl | hc
      · exact absurd (h [] _ .nil hp hlast.symm) (by simp)
      · obtain ⟨a, b, rfl⟩ := append_of_mem hc
        have ha : Descent children root (a ++ [c]) := by
          rw [append_assoc, cons_append, append_cons] at hp
          exact (Descent.of_append hp).1
        have heq := h _ _ ha hp (by rw [hlast, getLastD_append]; rfl)
        have hlen := congrArg List.length heq
        simp at hlen
    exact List.Nodup.append (ih hp.of_append.1) (nodup_singleton c) (disjoint_singleton.mpr hnotMem)

theorem length_lt (h : UniquePaths children root) (hp : Descent children root p)
    (hlt : ∀ i < n, ∀ c ∈ children i, c < n) (hroot : root < n) : p.length < n := by
  have hsub : root :: p ⊆ List.range n := by
    intro c hc
    rcases mem_cons.mp hc with rfl | hc
    · exact mem_range.mpr hroot
    · exact mem_range.mpr (hp.lt hlt hroot c hc)
  have hlen := ((h.nodup hp).subperm hsub).length_le
  rw [length_range] at hlen
  exact hlen

theorem child_eq (h : UniquePaths children root) {path path' : List ℕ} {c' : ℕ}
    (hp : Descent children root (p ++ c :: path)) (hq : Descent children root (p ++ c' :: path'))
    (hlast : path.getLastD c = path'.getLastD c') : c = c' ∧ path = path' := by
  have heq := h _ _ hp hq (by
    rw [getLastD_append, getLastD_append, getLastD_cons, getLastD_cons, hlast])
  exact List.cons.inj (append_cancel_left heq)

theorem ne_below (h : UniquePaths children root) {path : List ℕ}
    (hp : Descent children root (p ++ c :: path)) : path.getLastD c ≠ p.getLastD root := by
  intro hlast
  have heq := h _ _ hp hp.of_append.1 (by rw [getLastD_append, getLastD_cons, hlast])
  have hlen := congrArg List.length heq
  simp at hlen

end UniquePaths

end Lib
