/-
# Ledgers

Finitely many accounts hold items, with multiplicity.  If all accounts together are a set, then
each of its items lies in exactly one account, and there once.  `sum_replace` is the step of a ledger:
one account changes.
-/
import Mathlib.Algebra.Order.BigOperators.Group.Finset

namespace Lib

open Finset

variable {ι α : Type*} {s : Finset ι} {f : ι → Multiset α} {i j : ι} {a : α}

variable [DecidableEq ι]

/-- Two accounts of a ledger without repetitions have nothing in common. -/
theorem account_unique (h : (∑ x ∈ s, f x).Nodup) (hi : i ∈ s) (hj : j ∈ s) (hai : a ∈ f i)
    (haj : a ∈ f j) : i = j := by
  by_contra hne
  rw [← add_sum_erase s f hi, Multiset.nodup_add] at h
  have hj' : f j ≤ ∑ x ∈ s.erase i, f x :=
    single_le_sum_of_canonicallyOrdered (mem_erase.mpr ⟨fun e => hne e.symm, hj⟩)
  exact Multiset.disjoint_left.mp h.2.2 hai (Multiset.mem_of_le hj' haj)

theorem sum_replace {M : Type*} [AddCommMonoid M] {g g' : ι → M} (hi : i ∈ s)
    (he : ∀ x ∈ s, x ≠ i → g' x = g x) : ∑ x ∈ s, g' x + g i = ∑ x ∈ s, g x + g' i := by
  have hrest : ∑ x ∈ s.erase i, g' x = ∑ x ∈ s.erase i, g x :=
    sum_congr rfl fun x hx => he x (mem_of_mem_erase hx) (ne_of_mem_erase hx)
  rw [← add_sum_erase s g hi, ← add_sum_erase s g' hi, hrest]
  ac_rfl

variable {u : Finset α}

/-- **Every item lies in exactly one account.** -/
theorem existsUnique_account (h : ∑ x ∈ s, f x = u.val) (ha : a ∈ u) :
    ∃! i, i ∈ s ∧ a ∈ f i := by
  have hmem : a ∈ ∑ x ∈ s, f x := by rw [h]; exact ha
  have hnd : (∑ x ∈ s, f x).Nodup := by rw [h]; exact u.nodup
  obtain ⟨i, hi, hai⟩ := Multiset.mem_sum.mp hmem
  exact ⟨i, ⟨hi, hai⟩, fun j hj => account_unique hnd hj.1 hi hj.2 hai⟩

omit [DecidableEq ι] in
theorem account_nodup (h : ∑ x ∈ s, f x = u.val) (hi : i ∈ s) : (f i).Nodup := by
  have hnd : (∑ x ∈ s, f x).Nodup := by rw [h]; exact u.nodup
  exact Multiset.nodup_of_le (single_le_sum_of_canonicallyOrdered hi) hnd

omit [DecidableEq ι] in
theorem mem_of_account (h : ∑ x ∈ s, f x = u.val) (hi : i ∈ s) (ha : a ∈ f i) : a ∈ u := by
  have hmem : a ∈ ∑ x ∈ s, f x := Multiset.mem_of_le (single_le_sum_of_canonicallyOrdered hi) ha
  rw [h] at hmem
  exact hmem

end Lib
