/-
# Windows one behind the other

Lists made of rows of different lengths, and programs that each fill a window of one memory, the windows
lying one behind the other in the order of the programs' numbers, whatever the order they run in.  Together
the programs leave the concatenation of what each has written (`map_foldl_packed`).
-/
import Sglang.Lib.Footprint
import Sglang.Lib.Lanes
import Sglang.Lib.Writes

namespace Lib

open Finset

variable {α : Type*} {n i j a : ℕ} {order : List ℕ}

/-! ## 1. Rows of different lengths -/

section Rows

variable {β : Type*} {len : ℕ → ℕ}

/-- An entry of such a list, by its row. -/
theorem getElem?_flatMap_rows (data : ℕ → ℕ → α) (hi : i < n) (hj : j < len i) :
    ((List.range n).flatMap fun i => (List.range (len i)).map (data i))[∑ r ∈ range i, len r + j]? =
      some (data i j) := by
  have h := getElem?_flatMap_range (fun k => ∑ r ∈ range k, len r)
    (fun i => (List.range (len i)).map (data i)) n
    (fun i _ => by rw [sum_range_succ, List.length_map, List.length_range]) rfl hi (k := j)
    (by rw [List.length_map, List.length_range]; exact hj)
  rw [h, List.getElem?_map, List.getElem?_range hj]
  rfl

theorem length_flatMap_rows (data : ℕ → ℕ → α) (n : ℕ) :
    ((List.range n).flatMap fun i => (List.range (len i)).map (data i)).length = ∑ i ∈ range n, len i := by
  induction n with
  | zero => rfl
  | succ n ih =>
    rw [List.range_succ, List.flatMap_append, List.length_append, ih, List.flatMap_singleton,
      List.length_map, List.length_range, sum_range_succ]

theorem zip_flatMap_rows (data : ℕ → ℕ → α) (data' : ℕ → ℕ → β) (is : List ℕ) :
    (is.flatMap fun i => (List.range (len i)).map (data i)).zip
        (is.flatMap fun i => (List.range (len i)).map (data' i)) =
      is.flatMap fun i => (List.range (len i)).map fun j => (data i j, data' i j) := by
  induction is with
  | nil => rfl
  | cons i is ih =>
    rw [List.flatMap_cons, List.flatMap_cons, List.flatMap_cons,
      List.zip_append (by rw [List.length_map, List.length_map]), ih, List.zip_map']

end Rows

/-! ## 2. Packed windows -/

/-- The window of a program begins behind those of the programs before it. -/
theorem window_unique (len : ℕ → ℕ) (hi : ∑ r ∈ range i, len r ≤ a ∧ a < ∑ r ∈ range i, len r + len i)
    (hj : ∑ r ∈ range j, len r ≤ a ∧ a < ∑ r ∈ range j, len r + len j) : i = j := by
  have hmono : Monotone fun k => ∑ r ∈ range k, len r :=
    monotone_nat_of_le_succ fun k => (Nat.le_add_right _ _).trans_eq (sum_range_succ len k).symm
  rcases lt_trichotomy i j with h | h | h
  · have hle : ∑ r ∈ range (i + 1), len r ≤ ∑ r ∈ range j, len r := hmono h
    rw [sum_range_succ] at hle
    omega
  · exact h
  · have hle : ∑ r ∈ range (j + 1), len r ≤ ∑ r ∈ range i, len r := hmono h
    rw [sum_range_succ] at hle
    omega

/-- **Packed windows**: each program has left its data in its window. -/
theorem foldl_packed (len : ℕ → ℕ) (data : ℕ → ℕ → α) (hnd : order.Nodup) (m : ℕ → α) (hi : i ∈ order)
    {l : ℕ} (hl : l < len i) :
    order.foldl (fun m i => overwrite (∑ r ∈ range i, len r) (len i) (data i) m) m
      (∑ r ∈ range i, len r + l) = data i l := by
  have happart : KeepsApart (fun (m : ℕ → α) a => m a)
      (fun i m => overwrite (∑ r ∈ range i, len r) (len i) (data i) m)
      (fun i a => ∑ r ∈ range i, len r ≤ a ∧ a < ∑ r ∈ range i, len r + len i) order := by
    refine ⟨fun i _ m a ha => ?_, fun i _ m m' _ a ha => ?_, fun i _ j _ a ha hb => window_unique len ha hb⟩
    · exact overwrite_of_outside (by omega)
    · simp [overwrite, if_pos ha]
  have h := happart.foldl_eq_alone hnd m hi (a := ∑ r ∈ range i, len r + l) (by omega)
  exact h.trans (overwrite_apply_add hl)

/-- **The memory behind packed windows** is the concatenation of the data. -/
theorem map_foldl_packed (len : ℕ → ℕ) (data : ℕ → ℕ → α) (horder : order.Perm (List.range n))
    (m : ℕ → α) :
    (List.range (∑ i ∈ range n, len i)).map
      (order.foldl (fun m i => overwrite (∑ r ∈ range i, len r) (len i) (data i) m) m) =
      (List.range n).flatMap fun i => (List.range (len i)).map (data i) := by
  refine map_range_sum _ len (fun k => ∑ r ∈ range k, len r) data n rfl
    (fun r _ => sum_range_succ len r) fun r hr l hl => ?_
  exact foldl_packed len data (horder.nodup_iff.mpr List.nodup_range) m
    (horder.mem_iff.mpr (List.mem_range.mpr hr)) hl

end Lib
