/-
# Trees numbered from the root

The nodes of a tree are the numbers below `n`, with the root `0`, and every other node has a parent with
a smaller number.  `Upward` lists the nodes from one of them up to the root, without the root; it exists
and is unique, its length is the depth of the node, and its members are the node and its ancestors.

`linkAll` turns parents into first children and next siblings: it goes through the nodes from the last
one down and puts each in front of the children its parent has so far.  So the first child of a node is
its smallest, and the next sibling the next larger child of the same parent (`linkAll_spec`).
-/
import Mathlib.Tactic

namespace Lib

open List Function

variable {parent : ℕ → ℕ} {n i j : ℕ} {l : List ℕ}

/-! ## 1. The way up -/

/-- Every node below `n` other than the root has a smaller parent. -/
def Numbered (parent : ℕ → ℕ) (n : ℕ) : Prop := ∀ i < n, 0 < i → parent i < i

/-- The nodes from `i` upwards, without the root. -/
inductive Upward (parent : ℕ → ℕ) : ℕ → List ℕ → Prop
  | root : Upward parent 0 []
  | step {i : ℕ} {l : List ℕ} : 0 < i → Upward parent (parent i) l → Upward parent i (i :: l)

/-- `j` is `i` or one of its ancestors. -/
def IsAbove (parent : ℕ → ℕ) (i j : ℕ) : Prop :=
  Relation.ReflTransGen (fun a b => 0 < a ∧ b = parent a) i j

namespace Upward

/-- Every node has a way up. -/
theorem exists_of_numbered (hp : Numbered parent n) : ∀ i < n, ∃ l, Upward parent i l := by
  intro i
  induction i using Nat.strong_induction_on with
  | h i ih =>
    intro hi
    rcases Nat.eq_zero_or_pos i with rfl | hpos
    · exact ⟨[], .root⟩
    · have hlt := hp i hi hpos
      obtain ⟨l, hl⟩ := ih (parent i) hlt (hlt.trans hi)
      exact ⟨i :: l, .step hpos hl⟩

theorem length_le (h : Upward parent i l) (hp : Numbered parent n) (hi : i < n) : l.length ≤ i := by
  induction h with
  | root => exact le_rfl
  | @step i l hpos _ ih =>
    have hlt := hp i hi hpos
    rw [length_cons]
    omega

/-- The members of the way up are the node and its ancestors, but for the root. -/
theorem mem_iff (h : Upward parent i l) : j ∈ l ↔ 0 < j ∧ IsAbove parent i j := by
  induction h with
  | root =>
    constructor
    · exact fun hj => absurd hj not_mem_nil
    · rintro ⟨hj, habove⟩
      rcases Relation.ReflTransGen.cases_head habove with rfl | ⟨c, ⟨hc, -⟩, -⟩
      · exact absurd hj (lt_irrefl 0)
      · exact absurd hc (lt_irrefl 0)
  | @step i l hpos _ ih =>
    rw [mem_cons, ih]
    constructor
    · rintro (rfl | ⟨hj, habove⟩)
      · exact ⟨hpos, .refl⟩
      · exact ⟨hj, .head ⟨hpos, rfl⟩ habove⟩
    · rintro ⟨hj, habove⟩
      rcases Relation.ReflTransGen.cases_head habove with rfl | ⟨c, ⟨-, rfl⟩, habove⟩
      · exact Or.inl rfl
      · exact Or.inr ⟨hj, habove⟩

theorem mem_le (h : Upward parent i l) (hp : Numbered parent n) (hi : i < n) : ∀ j ∈ l, 0 < j ∧ j ≤ i := by
  induction h with
  | root => exact fun j hj => absurd hj not_mem_nil
  | @step i l hpos _ ih =>
    have hlt := hp i hi hpos
    intro j hj
    rcases mem_cons.mp hj with rfl | hj
    · exact ⟨hpos, le_rfl⟩
    · have := ih (hlt.trans hi) j hj
      exact ⟨this.1, this.2.trans hlt.le⟩

theorem root_isAbove (h : Upward parent i l) : IsAbove parent i 0 := by
  induction h with
  | root => exact .refl
  | step hpos _ ih => exact .head ⟨hpos, rfl⟩ ih

theorem eq_zero_or_mem_iff (h : Upward parent i l) : j = 0 ∨ j ∈ l ↔ IsAbove parent i j := by
  rcases Nat.eq_zero_or_pos j with rfl | hpos
  · exact ⟨fun _ => h.root_isAbove, fun _ => Or.inl rfl⟩
  · rw [h.mem_iff]
    exact ⟨fun hor => (hor.resolve_left hpos.ne').2, fun habove => Or.inr ⟨hpos, habove⟩⟩

end Upward

/-! ## 2. First children and next siblings -/

/-- A pointer to the least number with a property, `-1` where there is none. -/
def PointsToLeast (v : ℤ) (P : ℕ → Prop) : Prop :=
  (v = -1 ∧ ∀ i, ¬ P i) ∨ ∃ i : ℕ, v = i ∧ P i ∧ ∀ j, P j → i ≤ j

theorem PointsToLeast.congr {v : ℤ} {P Q : ℕ → Prop} (h : PointsToLeast v P) (hPQ : ∀ i, P i ↔ Q i) :
    PointsToLeast v Q := by
  rwa [show Q = P from funext fun i => (propext (hPQ i)).symm]

/-- Two arrays of pointers. -/
structure Links where
  next : ℕ → ℤ
  sibling : ℕ → ℤ

/-- A node in front of the children its parent has so far.  `addr` is where the arrays hold a node. -/
def link (addr parent : ℕ → ℕ) (i : ℕ) (s : Links) : Links :=
  if s.next (addr (parent i)) = -1 then
    { s with next := Function.update s.next (addr (parent i)) i }
  else
    { next := Function.update s.next (addr (parent i)) i
      sibling := Function.update s.sibling (addr i) (s.next (addr (parent i))) }

/-- The nodes from the last one down to `1`. -/
def linkAll (addr parent : ℕ → ℕ) (n : ℕ) (s : Links) : Links :=
  (List.range' 1 (n - 1)).foldr (link addr parent) s

/-- What the arrays hold when the nodes from `m` on are linked. -/
structure LinkedFrom (addr parent : ℕ → ℕ) (n m : ℕ) (s : Links) : Prop where
  next : ∀ p < n, PointsToLeast (s.next (addr p)) fun i => m ≤ i ∧ i < n ∧ parent i = p
  sibling : ∀ i, m ≤ i → i < n →
    PointsToLeast (s.sibling (addr i)) fun j => i < j ∧ j < n ∧ parent j = parent i
  unlinked : ∀ i < m, i < n → s.sibling (addr i) = -1

variable {addr : ℕ → ℕ} {s : Links}

theorem LinkedFrom.link {m : ℕ} (haddr : Function.Injective addr)
    (hp : Numbered parent n) (hm : 0 < m) (hmn : m < n) (h : LinkedFrom addr parent n (m + 1) s) :
    LinkedFrom addr parent n m (link addr parent m s) := by
  have hlt := hp m hmn hm
  have hnext : (Lib.link addr parent m s).next = Function.update s.next (addr (parent m)) m := by
    unfold Lib.link
    split <;> rfl
  have hfirst := h.next (parent m) (hlt.trans hmn)
  have hsibling : ∀ i, i ≠ m → (Lib.link addr parent m s).sibling (addr i) = s.sibling (addr i) := by
    intro i hi
    unfold Lib.link
    split
    · rfl
    · exact update_of_ne (fun heq => hi (haddr heq)) _ _
  refine ⟨fun p hpn => ?_, fun i hi hin => ?_, fun i hi hin => ?_⟩
  · rw [hnext]
    by_cases hpm : p = parent m
    · subst hpm
      rw [update_self]
      exact Or.inr ⟨m, rfl, ⟨le_rfl, hmn, rfl⟩, fun j hj => hj.1⟩
    · rw [update_of_ne fun heq => hpm (haddr heq)]
      refine (h.next p hpn).congr fun i => ?_
      constructor
      · rintro ⟨hi, hin, hpar⟩
        exact ⟨by omega, hin, hpar⟩
      · rintro ⟨hi, hin, hpar⟩
        have hne : i ≠ m := fun heq => hpm (heq ▸ hpar.symm)
        exact ⟨by omega, hin, hpar⟩
  · by_cases him : i = m
    · subst him
      -- the child that was first so far is the next larger one
      have hvalue : (Lib.link addr parent i s).sibling (addr i) = s.next (addr (parent i)) := by
        unfold Lib.link
        split
        · rename_i hnone
          exact (h.unlinked i (Nat.lt_succ_self i) hin).trans hnone.symm
        · exact update_self ..
      rw [hvalue]
      exact hfirst
    · rw [hsibling i him]
      exact h.sibling i (by omega) hin
  · rw [hsibling i (by omega)]
    exact h.unlinked i (by omega) hin

/-- **The links are those of the tree.** -/
theorem linkAll_spec (haddr : Function.Injective addr)
    (hp : Numbered parent n) (hn : 0 < n) (hnext : ∀ p < n, s.next (addr p) = -1)
    (hsib : ∀ i < n, s.sibling (addr i) = -1) :
    LinkedFrom addr parent n 1 (linkAll addr parent n s) := by
  have hfrom : ∀ k m, m + k = n → 0 < m →
      LinkedFrom addr parent n m ((List.range' m k).foldr (Lib.link addr parent) s) := by
    intro k
    induction k with
    | zero =>
      intro m hm _
      refine ⟨fun p hpn => Or.inl ⟨hnext p hpn, ?_⟩, fun i hi hin => by omega, fun i _ hin => hsib i hin⟩
      rintro i ⟨hi, hin, -⟩
      omega
    | succ k ih =>
      intro m hm hpos
      exact (ih (m + 1) (by omega) (by omega)).link haddr hp hpos (by omega)
  exact hfrom (n - 1) 1 (by omega) Nat.one_pos

/-- Linking writes nowhere else. -/
theorem linkAll_frame (s : Links) (hp : Numbered parent n) {a : ℕ} (ha : ∀ i < n, a ≠ addr i) :
    (linkAll addr parent n s).next a = s.next a ∧ (linkAll addr parent n s).sibling a = s.sibling a := by
  have hfold : ∀ l : List ℕ, (∀ i ∈ l, 0 < i ∧ i < n) →
      (l.foldr (link addr parent) s).next a = s.next a ∧
        (l.foldr (link addr parent) s).sibling a = s.sibling a := by
    intro l hl
    induction l with
    | nil => exact ⟨rfl, rfl⟩
    | cons i l ih =>
      obtain ⟨hpos, hin⟩ := hl i mem_cons_self
      have hne := ha (parent i) ((hp i hin hpos).trans hin)
      obtain ⟨h1, h2⟩ := ih fun j hj => hl j (mem_cons_of_mem _ hj)
      rw [foldr_cons, link]
      split
      · exact ⟨(update_of_ne hne _ _).trans h1, h2⟩
      · exact ⟨(update_of_ne hne _ _).trans h1, (update_of_ne (ha i hin) _ _).trans h2⟩
  refine hfold _ fun i hi => ?_
  rw [mem_range'_1] at hi
  omega

/-- Where the pointers before are the same, so are those after. -/
theorem linkAll_congr {s' : Links} (hp : Numbered parent n)
    (hnext : ∀ i < n, s.next (addr i) = s'.next (addr i))
    (hsib : ∀ i < n, s.sibling (addr i) = s'.sibling (addr i)) :
    ∀ i < n, (linkAll addr parent n s).next (addr i) = (linkAll addr parent n s').next (addr i) ∧
      (linkAll addr parent n s).sibling (addr i) = (linkAll addr parent n s').sibling (addr i) := by
  have hfold : ∀ l : List ℕ, (∀ i ∈ l, 0 < i ∧ i < n) → ∀ i < n,
      (l.foldr (link addr parent) s).next (addr i) = (l.foldr (link addr parent) s').next (addr i) ∧
        (l.foldr (link addr parent) s).sibling (addr i) =
          (l.foldr (link addr parent) s').sibling (addr i) := by
    intro l hl
    induction l with
    | nil => exact fun i hi => ⟨hnext i hi, hsib i hi⟩
    | cons j l ih =>
      obtain ⟨hpos, hjn⟩ := hl j mem_cons_self
      have hrest := ih fun k hk => hl k (mem_cons_of_mem _ hk)
      have hfirst := (hrest (parent j) ((hp j hjn hpos).trans hjn)).1
      intro i hi
      obtain ⟨h1, h2⟩ := hrest i hi
      rw [foldr_cons, foldr_cons, link, link, hfirst]
      split
      · refine ⟨?_, h2⟩
        simp [update_apply, h1]
      · refine ⟨?_, ?_⟩
        · simp [update_apply, h1]
        · simp [update_apply, h2]
  refine hfold _ fun i hi => ?_
  rw [mem_range'_1] at hi
  omega

end Lib
