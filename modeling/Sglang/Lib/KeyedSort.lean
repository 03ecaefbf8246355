/-
# Entries sorted by a key

Parties that sort what they have by a key handle the keys they share in the same order, whatever else
they have and in whatever order they came by it: what the sorted entries are good for (`f`) is a matter of
the set of keys (`flatMap_sortByKey`).
-/
import Mathlib.Tactic

namespace Lib

open List

variable {κ β γ : Type*} [LinearOrder κ]

/-- `sorted(l, key=lambda x: x[0])`. -/
def sortByKey (l : List (κ × β)) : List (κ × β) := l.mergeSort fun a b => decide (a.1 ≤ b.1)

theorem sortByKey_perm (l : List (κ × β)) : (sortByKey l).Perm l := mergeSort_perm l _

theorem pairwise_sortByKey (l : List (κ × β)) : (sortByKey l).Pairwise fun a b => a.1 ≤ b.1 := by
  refine (pairwise_mergeSort ?_ ?_ l).imp fun h => of_decide_eq_true h
  · intro a b c h h'
    exact decide_eq_true ((of_decide_eq_true h).trans (of_decide_eq_true h'))
  · intro a b
    rw [Bool.or_eq_true, decide_eq_true_iff, decide_eq_true_iff]
    exact le_total a.1 b.1

theorem flatMap_filter_isEmpty {δ : Type*} (l : List δ) (f : δ → List γ) :
    (l.filter fun x => !(f x).isEmpty).flatMap f = l.flatMap f := by
  induction l with
  | nil => rfl
  | cons x l ih =>
    rw [filter_cons, flatMap_cons]
    split
    · rw [flatMap_cons, ih]
    · rename_i h
      have hnil : f x = [] := by simpa using h
      rw [hnil, nil_append, ih]

/-- **Sorted entries**, of which those that contribute have different keys, contribute by their keys. -/
theorem flatMap_sortByKey {l : List (κ × β)} {f : κ × β → List γ} {g : κ → List γ} {S : Finset κ}
    (hdist : ((l.filter fun x => !(f x).isEmpty).map Prod.fst).Nodup)
    (hmem : ∀ x ∈ l, f x ≠ [] → x.1 ∈ S ∧ f x = g x.1)
    (hall : ∀ k ∈ S, g k ≠ [] → ∃ x ∈ l, x.1 = k ∧ f x ≠ []) :
    (sortByKey l).flatMap f = (S.sort (· ≤ ·)).flatMap g := by
  rw [← flatMap_filter_isEmpty (sortByKey l) f, ← flatMap_filter_isEmpty (S.sort (· ≤ ·)) g]
  generalize hl' : (sortByKey l).filter (fun x => !(f x).isEmpty) = l'
  have hp : l'.Perm (l.filter fun x => !(f x).isEmpty) := hl' ▸ (sortByKey_perm l).filter _
  have hin : ∀ {x}, x ∈ l' ↔ x ∈ l ∧ f x ≠ [] := by
    intro x
    rw [hp.mem_iff]
    simp
  have hkeys : l'.map Prod.fst = (S.sort (· ≤ ·)).filter fun k => !(g k).isEmpty := by
    have hsorted : (l'.map Prod.fst).Pairwise (· ≤ ·) := by
      rw [pairwise_map, ← hl']
      exact (pairwise_sortByKey l).sublist filter_sublist
    have hnodup : (l'.map Prod.fst).Nodup := (hp.map _).nodup_iff.mpr hdist
    have hperm : (l'.map Prod.fst).Perm ((S.sort (· ≤ ·)).filter fun k => !(g k).isEmpty) := by
      refine (perm_ext_iff_of_nodup hnodup ((Finset.sort_nodup S _).filter _)).mpr fun k => ?_
      rw [mem_map, mem_filter, Finset.mem_sort]
      constructor
      · rintro ⟨x, hx, rfl⟩
        obtain ⟨hxl, hne⟩ := hin.mp hx
        obtain ⟨hS, hfg⟩ := hmem x hxl hne
        rw [hfg] at hne
        exact ⟨hS, by simpa using hne⟩
      · rintro ⟨hk, hne⟩
        obtain ⟨x, hxl, hxk, hne'⟩ := hall k hk (by simpa using hne)
        exact ⟨x, hin.mpr ⟨hxl, hne'⟩, hxk⟩
    exact hperm.eq_of_pairwise' hsorted ((Finset.pairwise_sort S _).sublist filter_sublist)
  rw [← hkeys, flatMap_map]
  exact flatMap_congr fun x hx => (hmem x (hin.mp hx).1 (hin.mp hx).2).2

end Lib
