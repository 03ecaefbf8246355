/-
# Counted uses of named objects

Objects are found under a name and then used.  A use is looked up first and counted later; an object that is
no longer listed is dropped when its count is zero.  The count of an object is the number of its counted
uses (`Sound`), so dropping one breaks nothing exactly if no use of it stands between the look-up and the
count (`Sound.drop_iff`).
-/
import Mathlib.Data.Multiset.AddSub
import Mathlib.Data.Set.Insert

namespace Lib

namespace UseCount

open Function

/-- The objects that can be found, those with a counter, those that have been dropped, the counters, and the
uses that are not over. -/
structure Book (α : Type*) where
  listed : Set α
  counters : Set α
  dropped : Set α
  count : α → ℤ
  looked : Multiset α
  counted : Multiset α

variable {α : Type*} [DecidableEq α] {b : Book α} {a : α}

/-- Every use is of an object that has a counter, and the counters are right. -/
structure Sound (b : Book α) : Prop where
  count_eq : ∀ a ∈ b.counters, b.count a = b.counted.count a
  looked : ∀ a ∈ b.looked, a ∈ b.counters
  counted : ∀ a ∈ b.counted, a ∈ b.counters
  listed : ∀ a ∈ b.listed, a ∈ b.counters
  dropped : ∀ a ∈ b.dropped, a ∉ b.counters

def Book.create (b : Book α) (a : α) : Book α :=
  { b with listed := insert a b.listed, counters := insert a b.counters }

def Book.find (b : Book α) (l : Multiset α) : Book α := { b with looked := l + b.looked }

def Book.add (b : Book α) (a : α) : Book α :=
  { b with
    looked := b.looked.erase a
    counted := a ::ₘ b.counted
    count := Function.update b.count a (b.count a + 1) }

def Book.sub (b : Book α) (a : α) : Book α :=
  { b with counted := b.counted.erase a, count := Function.update b.count a (b.count a - 1) }

def Book.drop (b : Book α) (a : α) : Book α :=
  { b with counters := b.counters \ {a}, dropped := insert a b.dropped }

/-- An object that is new gets a counter that is zero. -/
theorem Sound.create (h : Sound b) (hnew : a ∉ b.counters) (hnever : a ∉ b.dropped) (hzero : b.count a = 0) :
    Sound (b.create a) where
  count_eq := fun c hc => by
    rcases Set.mem_insert_iff.mp hc with rfl | hc
    · have hnone : c ∉ b.counted := fun hmem => hnew (h.counted c hmem)
      exact hzero.trans (by rw [Book.create, Multiset.count_eq_zero_of_notMem hnone]; rfl)
    · exact h.count_eq c hc
  looked := fun c hc => Set.mem_insert_of_mem _ (h.looked c hc)
  counted := fun c hc => Set.mem_insert_of_mem _ (h.counted c hc)
  listed := fun c hc => (Set.mem_insert_iff.mp hc).elim (fun h => h ▸ Set.mem_insert _ _)
    fun hc => Set.mem_insert_of_mem _ (h.listed c hc)
  dropped := fun c hc hmem => by
    rcases Set.mem_insert_iff.mp hmem with rfl | hmem
    · exact hnever hc
    · exact h.dropped c hc hmem

theorem Sound.find (h : Sound b) {l : Multiset α} (hl : ∀ a ∈ l, a ∈ b.listed) : Sound (b.find l) where
  count_eq := h.count_eq
  looked := fun c hc => (Multiset.mem_add.mp hc).elim (fun hc => h.listed c (hl c hc)) (h.looked c)
  counted := h.counted
  listed := h.listed
  dropped := h.dropped

theorem Sound.add (h : Sound b) (ha : a ∈ b.looked) : Sound (b.add a) where
  count_eq := fun c hc => by
    rw [Book.add]
    dsimp only
    by_cases hca : c = a
    · rw [hca, update_self, Multiset.count_cons_self, h.count_eq a (h.looked a ha)]
      rfl
    · rw [update_of_ne hca, Multiset.count_cons_of_ne hca]
      exact h.count_eq c hc
  looked := fun c hc => h.looked c (Multiset.mem_of_mem_erase hc)
  counted := fun c hc => (Multiset.mem_cons.mp hc).elim (fun hca => hca ▸ h.looked a ha) (h.counted c)
  listed := h.listed
  dropped := h.dropped

theorem Sound.sub (h : Sound b) (ha : a ∈ b.counted) : Sound (b.sub a) where
  count_eq := fun c hc => by
    rw [Book.sub]
    dsimp only
    by_cases hca : c = a
    · have hpos := Multiset.count_pos.mpr ha
      rw [hca, update_self, Multiset.count_erase_self, h.count_eq a (h.counted a ha)]
      omega
    · rw [update_of_ne hca, Multiset.count_erase_of_ne hca]
      exact h.count_eq c hc
  looked := h.looked
  counted := fun c hc => h.counted c (Multiset.mem_of_mem_erase hc)
  listed := h.listed
  dropped := h.dropped

/-- **An object without a count can be dropped if and only if no use of it waits to be counted.** -/
theorem Sound.drop_iff (h : Sound b) (hunlisted : a ∉ b.listed) (hzero : b.count a = 0) : Sound (b.drop a) ↔ a ∉ b.looked := by
  refine ⟨fun hs hmem => (hs.looked a hmem).2 rfl, fun hnone => ?_⟩
  have huncounted : a ∉ b.counted := fun hmem => by
    have hpos := Multiset.count_pos.mpr hmem
    have heq := h.count_eq a (h.counted a hmem)
    omega
  exact
    { count_eq := fun c hc => h.count_eq c hc.1
      looked := fun c hc => ⟨h.looked c hc, fun hca => hnone (hca ▸ hc)⟩
      counted := fun c hc => ⟨h.counted c hc, fun hca => huncounted (hca ▸ hc)⟩
      listed := fun c hc => ⟨h.listed c hc, fun hca => hunlisted (hca ▸ hc)⟩
      dropped := fun c hc hmem => (Set.mem_insert_iff.mp hc).elim (fun hca => hmem.2 hca)
        fun hc => h.dropped c hc hmem.1 }

end UseCount

end Lib
