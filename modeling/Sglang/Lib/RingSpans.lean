/-
# Spans on a ring with a tail

Spans are handed out behind one another along a counter that is taken modulo the length of a ring.  A span
that begins in front of the end is not folded back: it runs on into a tail behind the ring.  So spans have no
cell in common as long as no more cells were handed out than the ring has (`spans_apart`), and what is written
to the slice of one of them stays there (`getElem?_setSlice`).
-/
import Mathlib.Algebra.Order.BigOperators.Group.List
import Mathlib.Algebra.Order.Ring.Nat
import Mathlib.Data.Nat.ModEq

namespace Lib

open List

/-! ## 1. Places -/

/-- **Places less than a ring apart** are different cells, though only the beginnings of their spans are
taken modulo the ring. -/
theorem mod_add_ne {limit x y i j : ℕ} (hlt : x + i < y + j) (hring : y + j < x + i + limit) :
    x % limit + i ≠ y % limit + j := by
  intro h
  have hmod : (x + i) % limit = (y + j) % limit := by
    rw [← Nat.mod_add_mod, h, Nat.mod_add_mod]
  have hdvd : limit ∣ (y + j) - (x + i) := (Nat.modEq_iff_dvd' hlt.le).mp hmod
  have hle : limit ≤ (y + j) - (x + i) := Nat.le_of_dvd (by omega) hdvd
  omega

/-- **Spans of one ring have no cell in common**: the sizes of the spans from the first of the two to the
second sum to at most the length of the ring. -/
theorem spans_apart {sizes : List ℕ} {limit k l m n i j : ℕ} (hkl : k < l) (hk : sizes[k]? = some m)
    (hl : sizes[l]? = some n) (hi : i < m) (hj : j < n)
    (hring : (sizes.take (l + 1)).sum ≤ (sizes.take k).sum + limit) :
    (sizes.take k).sum % limit + i ≠ (sizes.take l).sum % limit + j := by
  have hbegin : (sizes.take k).sum + m ≤ (sizes.take l).sum := by
    have hmono := monotone_sum_take sizes (Nat.succ_le_of_lt hkl)
    simpa [take_add_one, hk] using hmono
  have hend : (sizes.take (l + 1)).sum = (sizes.take l).sum + n := by
    simp [take_add_one, hl]
  refine mod_add_ne ?_ ?_ <;> omega

/-! ## 2. Slices -/

section slices

variable {α : Type*} {buf values : List α} {start i : ℕ}

/-- A slice of a buffer is overwritten. -/
def setSlice (buf : List α) (start : ℕ) (values : List α) : List α :=
  buf.take start ++ values ++ buf.drop (start + values.length)

theorem length_setSlice (h : start + values.length ≤ buf.length) :
    (setSlice buf start values).length = buf.length := by
  simp only [setSlice, length_append, length_take, length_drop]
  omega

/-- **What stands in a buffer** after a slice of it was overwritten. -/
theorem getElem?_setSlice (h : start + values.length ≤ buf.length) (i : ℕ) :
    (setSlice buf start values)[i]? =
      if start ≤ i ∧ i < start + values.length then values[i - start]? else buf[i]? := by
  have htake : (buf.take start).length = start := by
    rw [length_take]
    omega
  rw [setSlice, append_assoc]
  rcases Nat.lt_or_ge i start with hlt | hge
  · rw [getElem?_append_left (by omega), getElem?_take_of_lt hlt, if_neg (by omega)]
  rw [getElem?_append_right (by omega), htake]
  rcases Nat.lt_or_ge i (start + values.length) with hin | hbehind
  · rw [getElem?_append_left (by omega), if_pos ⟨hge, hin⟩]
  · rw [getElem?_append_right (by omega), getElem?_drop, if_neg (by omega)]
    congr 1
    omega

end slices

end Lib
