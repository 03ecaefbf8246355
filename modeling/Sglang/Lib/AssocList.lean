/-
# Lists of entries as maps

A map kept as the list of its entries, with `List.lookup` to read it: what setting and erasing one
entry does to every lookup, to the keys, and to a sum over the values.
-/
import Mathlib.Algebra.BigOperators.Group.List.Basic
import Mathlib.Algebra.Ring.Nat

namespace Lib

namespace AssocList

open List

variable {α β : Type} [DecidableEq α]

/-- The value under a key is set. -/
def setEntry (c : α) (m : β) : List (α × β) → List (α × β)
  | [] => [(c, m)]
  | e :: l => if e.1 = c then (c, m) :: l else e :: setEntry c m l

/-- The entries of a key are erased. -/
def eraseEntry (c : α) (l : List (α × β)) : List (α × β) := l.filter (·.1 ≠ c)

/-! ## 1. Lookups -/

theorem lookup_cons_eq (e : α × β) (l : List (α × β)) (d : α) :
    (e :: l).lookup d = if d = e.1 then some e.2 else l.lookup d := by
  rw [lookup_cons]
  by_cases h : d = e.1
  · simp [h]
  · simp [h, beq_eq_false_iff_ne.mpr h]

theorem lookup_setEntry (c d : α) (m : β) (l : List (α × β)) :
    (setEntry c m l).lookup d = if d = c then some m else l.lookup d := by
  induction l with
  | nil => rw [setEntry, lookup_cons_eq]
  | cons e l ih =>
    rw [setEntry]
    split
    · rename_i h
      subst h
      rw [lookup_cons_eq, lookup_cons_eq]
      split <;> rfl
    · rename_i h
      rw [lookup_cons_eq, lookup_cons_eq, ih]
      by_cases hd : d = c
      · rw [if_pos hd, if_neg (fun e' => h (e'.symm.trans hd)), if_pos hd]
      · rw [if_neg hd, if_neg hd]

theorem eraseEntry_setEntry (c : α) (m : β) (l : List (α × β)) :
    eraseEntry c (setEntry c m l) = eraseEntry c l := by
  induction l with
  | nil => simp [setEntry, eraseEntry]
  | cons e l ih =>
    rw [eraseEntry] at ih ⊢
    rw [setEntry, eraseEntry]
    split
    · rename_i h
      simp [h]
    · rename_i h
      rw [filter_cons, filter_cons, ih, eraseEntry]

theorem lookup_eraseEntry (c d : α) (l : List (α × β)) :
    (eraseEntry c l).lookup d = if d = c then none else l.lookup d := by
  induction l with
  | nil => simp [eraseEntry]
  | cons e l ih =>
    rw [eraseEntry] at ih ⊢
    rw [filter_cons, lookup_cons_eq]
    by_cases h : e.1 = c
    · rw [if_neg (by simp [h]), ih]
      split
      · rfl
      · rename_i hd
        rw [if_neg (fun e' => hd (e'.trans h))]
    · rw [if_pos (by simp [h]), lookup_cons_eq, ih]
      by_cases hd : d = e.1
      · rw [if_pos hd, if_pos hd, if_neg (fun e' => h (hd.symm.trans e'))]
      · rw [if_neg hd, if_neg hd]

variable {c : α} {m : β} {l : List (α × β)}

theorem mem_of_lookup (h : l.lookup c = some m) : (c, m) ∈ l := by
  induction l with
  | nil => cases h
  | cons e l ih =>
    rw [lookup_cons_eq] at h
    split at h
    · rename_i hc
      cases h
      rw [hc]
      exact mem_cons_self
    · exact mem_cons_of_mem _ (ih h)

theorem lookup_of_mem (hnd : (l.map Prod.fst).Nodup) (h : (c, m) ∈ l) : l.lookup c = some m := by
  induction l with
  | nil => cases h
  | cons e l ih =>
    rw [map_cons, nodup_cons] at hnd
    rw [lookup_cons_eq]
    rcases mem_cons.mp h with h | h
    · rw [← h, if_pos rfl]
    · have hne : c ≠ e.1 := by
        rintro rfl
        exact hnd.1 (mem_map.mpr ⟨_, h, rfl⟩)
      rw [if_neg hne, ih hnd.2 h]

/-! ## 2. Keys -/

theorem mem_keys_setEntry {d : α} :
    d ∈ (setEntry c m l).map Prod.fst ↔ d = c ∨ d ∈ l.map Prod.fst := by
  induction l with
  | nil => simp [setEntry]
  | cons e l ih =>
    rw [setEntry]
    split
    · rename_i h
      subst h
      simp
    · rw [map_cons, mem_cons, map_cons, mem_cons]
      tauto

theorem nodup_setEntry (hnd : (l.map Prod.fst).Nodup) : ((setEntry c m l).map Prod.fst).Nodup := by
  induction l with
  | nil => simp [setEntry]
  | cons e l ih =>
    rw [map_cons, nodup_cons] at hnd
    rw [setEntry]
    split
    · rename_i h
      subst h
      exact nodup_cons.mpr hnd
    · rename_i h
      rw [map_cons, nodup_cons, mem_keys_setEntry]
      exact ⟨fun h' => h'.elim h hnd.1, ih hnd.2⟩

theorem nodup_eraseEntry (hnd : (l.map Prod.fst).Nodup) : ((eraseEntry c l).map Prod.fst).Nodup :=
  hnd.sublist (filter_sublist.map _)

/-! ## 3. Entries up to order -/

theorem lookup_eq_none_iff : l.lookup c = none ↔ c ∉ l.map Prod.fst := by
  induction l with
  | nil => simp
  | cons e l ih =>
    rw [lookup_cons_eq, map_cons, mem_cons, not_or, ← ih]
    split
    · rename_i h
      simp [h]
    · rename_i h
      simp [h]

theorem eraseEntry_of_notMem (h : c ∉ l.map Prod.fst) : eraseEntry c l = l := by
  rw [eraseEntry, filter_eq_self]
  intro e he
  have hne : e.1 ≠ c := fun e' => h (e' ▸ mem_map_of_mem he)
  simp [hne]

theorem setEntry_perm (hnd : (l.map Prod.fst).Nodup) :
    (setEntry c m l).Perm ((c, m) :: eraseEntry c l) := by
  induction l with
  | nil => simp [setEntry, eraseEntry]
  | cons e l ih =>
    rw [map_cons, nodup_cons] at hnd
    rw [setEntry, eraseEntry, filter_cons]
    split
    · rename_i h
      have hrest := eraseEntry_of_notMem (h ▸ hnd.1)
      rw [eraseEntry] at hrest
      rw [if_neg (by simp [h]), hrest]
    · rename_i h
      rw [if_pos (by simp [h])]
      exact ((ih hnd.2).cons e).trans (List.Perm.swap _ _ _)

theorem perm_of_lookup (hnd : (l.map Prod.fst).Nodup)
    (h : l.lookup c = some m) : l.Perm ((c, m) :: eraseEntry c l) := by
  induction l with
  | nil => cases h
  | cons e l ih =>
    rw [map_cons, nodup_cons] at hnd
    rw [lookup_cons_eq] at h
    rw [eraseEntry, filter_cons]
    by_cases hc : c = e.1
    · rw [if_pos hc] at h
      cases h
      have hrest := eraseEntry_of_notMem (hc ▸ hnd.1)
      rw [eraseEntry] at hrest
      rw [if_neg (by simp [hc]), hrest, hc]
    · rw [if_neg hc] at h
      rw [if_pos (by simpa using fun e' => hc e'.symm)]
      exact ((ih hnd.2 h).cons e).trans (List.Perm.swap _ _ _)

/-! ## 4. Sums -/

theorem sum_setEntry_of_lookup (f : β → ℕ) {m' : β} (h : l.lookup c = some m) :
    ((setEntry c m' l).map (f ·.2)).sum + f m = (l.map (f ·.2)).sum + f m' := by
  induction l with
  | nil => cases h
  | cons e l ih =>
    rw [lookup_cons_eq] at h
    rw [setEntry]
    by_cases hc : e.1 = c
    · rw [if_pos hc.symm] at h
      cases h
      rw [if_pos hc]
      simp only [map_cons, sum_cons]
      omega
    · rw [if_neg (fun e' => hc e'.symm)] at h
      have ih := ih h
      rw [if_neg hc]
      simp only [map_cons, sum_cons]
      omega

theorem sum_setEntry_of_lookup_none (f : β → ℕ) (h : l.lookup c = none) :
    ((setEntry c m l).map (f ·.2)).sum = (l.map (f ·.2)).sum + f m := by
  induction l with
  | nil => simp [setEntry]
  | cons e l ih =>
    rw [lookup_cons_eq] at h
    by_cases hc : e.1 = c
    · rw [if_pos hc.symm] at h
      cases h
    · rw [if_neg (fun e' => hc e'.symm)] at h
      have ih := ih h
      rw [setEntry, if_neg hc]
      simp only [map_cons, sum_cons]
      omega

theorem sum_eraseEntry_le (f : β → ℕ) (c : α) (l : List (α × β)) :
    ((eraseEntry c l).map (f ·.2)).sum ≤ (l.map (f ·.2)).sum := by
  induction l with
  | nil => exact Nat.le_refl _
  | cons e l ih =>
    rw [eraseEntry] at ih ⊢
    rw [filter_cons]
    split
    all_goals
      simp only [map_cons, sum_cons]
      omega

theorem sum_eraseEntry (f : β → ℕ) (hnd : (l.map Prod.fst).Nodup) (h : l.lookup c = some m) :
    ((eraseEntry c l).map (f ·.2)).sum + f m = (l.map (f ·.2)).sum := by
  have hsum := ((perm_of_lookup hnd h).map (f ·.2)).sum_eq
  rw [map_cons, sum_cons] at hsum
  rw [hsum, Nat.add_comm]

end AssocList

end Lib
