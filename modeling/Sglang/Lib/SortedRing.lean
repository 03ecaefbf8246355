/-
# Sorted lists read as a ring

A list sorted by a key is read clockwise from a point: first the entries at or after the point, then
those before it.  Reading it this way commutes with `filter`, which is why a walk on a ring that
skips entries is a walk on a smaller ring.
-/
import Mathlib.Data.List.Rotate

namespace Lib

namespace SortedRing

open List

variable {α : Type} (key : α → ℕ) (k : ℕ) {l l' : List α}

/-- The entries clockwise from `k`. -/
def clockwise (l : List α) : List α :=
  l.filter (fun x => k ≤ key x) ++ l.filter (fun x => key x < k)

/-- The index of the first entry at or after `k`. -/
def partitionPoint (l : List α) : ℕ := (l.takeWhile fun x => decide (key x < k)).length

variable {key k}

theorem clockwise_filter (p : α → Bool) (l : List α) :
    clockwise key k (l.filter p) = (clockwise key k l).filter p := by
  simp [clockwise, Bool.and_comm]

theorem mem_clockwise {x : α} : x ∈ clockwise key k l ↔ x ∈ l := by
  simp only [clockwise, mem_append, mem_filter, decide_eq_true_eq]
  constructor
  · rintro (h | h)
    · exact h.1
    · exact h.1
  · intro h
    rcases le_or_gt k (key x) with hk | hk
    · exact .inl ⟨h, hk⟩
    · exact .inr ⟨h, hk⟩

theorem takeWhile_eq_filter (hl : l.Pairwise fun x y => key x ≤ key y) :
    (l.takeWhile fun x => decide (key x < k)) = l.filter fun x => key x < k := by
  induction l with
  | nil => rfl
  | cons x l ih =>
    rw [pairwise_cons] at hl
    by_cases hx : key x < k
    · rw [takeWhile_cons_of_pos (by simpa using hx), filter_cons_of_pos (by simpa using hx),
        ih hl.2]
    · rw [takeWhile_cons_of_neg (by simpa using hx), filter_cons_of_neg (by simpa using hx)]
      -- everything behind is at least `key x`
      refine (filter_eq_nil_iff.mpr fun y hy => ?_).symm
      have := hl.1 y hy
      simp only [decide_eq_true_eq]
      omega

theorem dropWhile_eq_filter (hl : l.Pairwise fun x y => key x ≤ key y) :
    (l.dropWhile fun x => decide (key x < k)) = l.filter fun x => k ≤ key x := by
  induction l with
  | nil => rfl
  | cons x l ih =>
    rw [pairwise_cons] at hl
    by_cases hx : key x < k
    · rw [dropWhile_cons_of_pos (by simpa using hx), filter_cons_of_neg (by simpa using hx),
        ih hl.2]
    · rw [dropWhile_cons_of_neg (by simpa using hx)]
      refine (filter_eq_self.mpr fun y hy => ?_).symm
      rcases mem_cons.mp hy with rfl | hy
      · simpa using hx
      · have := hl.1 y hy
        simp only [decide_eq_true_eq]
        omega

/-- **Reading from the partition point** with wrap-around is reading clockwise. -/
theorem rotate_partitionPoint (hl : l.Pairwise fun x y => key x ≤ key y) :
    l.rotate (partitionPoint key k l) = clockwise key k l := by
  have hsplit : (l.takeWhile fun x => decide (key x < k)) ++
      (l.dropWhile fun x => decide (key x < k)) = l := takeWhile_append_dropWhile
  calc l.rotate (l.takeWhile fun x => decide (key x < k)).length
      = ((l.takeWhile fun x => decide (key x < k)) ++
          (l.dropWhile fun x => decide (key x < k))).rotate
            (l.takeWhile fun x => decide (key x < k)).length := by rw [hsplit]
    _ = (l.dropWhile fun x => decide (key x < k)) ++
          (l.takeWhile fun x => decide (key x < k)) := rotate_append_length_eq _ _
    _ = clockwise key k l := by rw [takeWhile_eq_filter hl, dropWhile_eq_filter hl]; rfl

/-- Two sorted arrangements of the same entries agree if equal keys mean equal entries. -/
theorem eq_of_perm (hperm : l.Perm l') (hl : l.Pairwise fun x y => key x ≤ key y)
    (hl' : l'.Pairwise fun x y => key x ≤ key y)
    (hinj : ∀ x ∈ l, ∀ y ∈ l, key x = key y → x = y) : l = l' :=
  hperm.eq_of_pairwise
    (fun x y hx hy h₁ h₂ => hinj x hx y (hperm.mem_iff.mpr hy) (le_antisymm h₁ h₂)) hl hl'

end SortedRing

end Lib
