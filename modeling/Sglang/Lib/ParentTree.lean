/-
# Trees with smaller parents

A tree over the numbers below `n` in which every node but `0` has a smaller parent, given by the
function `parent`.  The path from a node up to `0` then falls strictly, so it can be read off the set of
its members: the nearest smaller member is the parent, the number of members is the depth, the first
larger number with a node on its path is its first child, and a larger number has the parent `p` if `p`
is on its path with no member between.
-/
import Mathlib.Tactic

namespace Lib

namespace ParentTree

variable {parent : ℕ → ℕ} {n i j k p : ℕ}

/-- Every node below `n` but `0` has a smaller parent. -/
def Falls (parent : ℕ → ℕ) (n : ℕ) : Prop := ∀ i, 0 < i → i < n → parent i < i

/-- The nodes from `i` upwards, as far as the fuel goes. -/
def climb (parent : ℕ → ℕ) : ℕ → ℕ → List ℕ
  | 0, _ => []
  | fuel + 1, i => i :: if i = 0 then [] else climb parent fuel (parent i)

/-- The node and its ancestors. -/
def path (parent : ℕ → ℕ) (i : ℕ) : List ℕ := climb parent (i + 1) i

/-- The number of its ancestors. -/
def depth (parent : ℕ → ℕ) (i : ℕ) : ℕ := (path parent i).length - 1

theorem climb_eq (h : Falls parent n) : ∀ (f f' i : ℕ), i < n → i < f → i < f' →
    climb parent f i = climb parent f' i
  | 0, _, _, _, hf, _ => absurd hf (Nat.not_lt_zero _)
  | _ + 1, 0, _, _, _, hf' => absurd hf' (Nat.not_lt_zero _)
  | f + 1, f' + 1, i, hi, hf, hf' => by
    rw [climb, climb]
    by_cases h0 : i = 0
    · rw [if_pos h0, if_pos h0]
    · have hp := h i (Nat.pos_of_ne_zero h0) hi
      rw [if_neg h0, if_neg h0, climb_eq h f f' (parent i) (by omega) (by omega) (by omega)]

@[simp] theorem path_zero : path parent 0 = [0] := by simp [path, climb]

theorem path_pos (h : Falls parent n) (h0 : 0 < i) (hi : i < n) :
    path parent i = i :: path parent (parent i) := by
  have hp := h i h0 hi
  rw [path, climb, if_neg (Nat.ne_of_gt h0), path,
    climb_eq h i (parent i + 1) (parent i) (by omega) hp (Nat.lt_succ_self _)]

theorem mem_path_self (i : ℕ) : i ∈ path parent i := by
  exact List.mem_cons_self

theorem mem_path_iff (h : Falls parent n) (h0 : 0 < i) (hi : i < n) :
    j ∈ path parent i ↔ j = i ∨ j ∈ path parent (parent i) := by
  rw [path_pos h h0 hi, List.mem_cons]

/-- **Paths fall.** -/
theorem le_of_mem_path (h : Falls parent n) : ∀ i, i < n → ∀ j ∈ path parent i, j ≤ i := by
  intro i
  induction i using Nat.strong_induction_on with
  | _ i ih =>
    intro hi j hj
    rcases Nat.eq_zero_or_pos i with rfl | h0
    · simpa using hj
    · have hp := h i h0 hi
      rcases (mem_path_iff h h0 hi).mp hj with rfl | hj
      · exact Nat.le_refl _
      · exact (ih (parent i) hp (by omega) j hj).trans hp.le

theorem nodup_path (h : Falls parent n) : ∀ i, i < n → (path parent i).Nodup := by
  intro i
  induction i using Nat.strong_induction_on with
  | _ i ih =>
    intro hi
    rcases Nat.eq_zero_or_pos i with rfl | h0
    · simp
    · have hp := h i h0 hi
      rw [path_pos h h0 hi, List.nodup_cons]
      refine ⟨fun hm => ?_, ih (parent i) hp (by omega)⟩
      have := le_of_mem_path h (parent i) (by omega) i hm
      omega

theorem parent_mem_path (h : Falls parent n) (h0 : 0 < i) (hi : i < n) :
    parent i ∈ path parent i :=
  (mem_path_iff h h0 hi).mpr (Or.inr (mem_path_self _))

theorem not_mem_path_of_between (h : Falls parent n) (hi : i < n) (hp : parent i < j) (hj : j < i) :
    j ∉ path parent i := by
  intro hm
  rcases (mem_path_iff h (by omega) hi).mp hm with rfl | hm
  · omega
  · have := le_of_mem_path h (parent i) (by omega) j hm
    omega

theorem parent_eq_iff (h : Falls parent n) (hi : i < n) (hp : p < i) :
    parent i = p ↔ p ∈ path parent i ∧ ∀ k, p < k → k < i → k ∉ path parent i := by
  constructor
  · rintro rfl
    exact ⟨parent_mem_path h (by omega) hi, fun k h1 h2 => not_mem_path_of_between h hi h1 h2⟩
  · rintro ⟨hm, hbetween⟩
    have h0 : 0 < i := by omega
    have hpi := h i h0 hi
    by_contra hne
    rcases (mem_path_iff h h0 hi).mp hm with e | hm
    · omega
    · have hle := le_of_mem_path h (parent i) (by omega) p hm
      exact hbetween (parent i) (by omega) hpi (parent_mem_path h h0 hi)

/-- **The first larger number with `p` on its path is a child of `p`.** -/
theorem parent_eq_of_first (h : Falls parent n) (hi : i < n) (hp : p < i) (hm : p ∈ path parent i)
    (hfirst : ∀ k, p < k → k < i → p ∉ path parent k) : parent i = p := by
  have h0 : 0 < i := by omega
  have hpi := h i h0 hi
  rcases (mem_path_iff h h0 hi).mp hm with e | hm
  · omega
  · have hle := le_of_mem_path h (parent i) (by omega) p hm
    by_contra hne
    exact hfirst (parent i) (by omega) hpi hm

end ParentTree

end Lib
