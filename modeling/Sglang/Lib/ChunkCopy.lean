/-
# Copies within one memory

A copy reads its sources and writes its targets in the same memory.  One that reads everything before it
writes anything (`copyAll`) does what it says as long as no target is written twice.  One that goes chunk
by chunk (`copyChunks`) may read what an earlier chunk has written; it does not where no source is a target
of an earlier pair (`Forward`), as when cells move towards the front.
-/
import Mathlib.Tactic

namespace Lib

open List

variable {α β : Type*} [DecidableEq α] {pairs : List (α × α)} {chunks : List (List (α × α))} {m : α → β}
  {a b : α}

/-- Copies of cells, from the second of each pair to the first; everything is read at the start. -/
def copyAll (pairs : List (α × α)) (m : α → β) : α → β :=
  pairs.foldl (fun m' p => Function.update m' p.1 (m p.2)) m

/-- Chunk after chunk. -/
def copyChunks (chunks : List (List (α × α))) (m : α → β) : α → β :=
  chunks.foldl (fun m chunk => copyAll chunk m) m

/-- No cell is written twice, and none is read when it has been written. -/
def Forward (pairs : List (α × α)) : Prop := pairs.Pairwise fun p q => p.1 ≠ q.1 ∧ p.1 ≠ q.2

theorem foldl_update_of_ne (f : α → β) (m' : α → β) (h : ∀ p ∈ pairs, p.1 ≠ a) :
    pairs.foldl (fun m' p => Function.update m' p.1 (f p.2)) m' a = m' a := by
  induction pairs generalizing m' with
  | nil => rfl
  | cons p pairs ih =>
    rw [foldl_cons, ih _ fun q hq => h q (mem_cons_of_mem _ hq),
      Function.update_of_ne (h p mem_cons_self).symm]

theorem copyAll_of_ne (h : ∀ p ∈ pairs, p.1 ≠ a) : copyAll pairs m a = m a :=
  foldl_update_of_ne m m h

theorem copyAll_of_mem (hne : pairs.Pairwise fun p q => p.1 ≠ q.1) (h : (a, b) ∈ pairs) :
    copyAll pairs m a = m b := by
  suffices ∀ m' : α → β, pairs.foldl (fun m' p => Function.update m' p.1 (m p.2)) m' a = m b from this m
  induction pairs with
  | nil => exact absurd h not_mem_nil
  | cons p pairs ih =>
    intro m'
    rw [pairwise_cons] at hne
    rw [foldl_cons]
    rcases mem_cons.mp h with rfl | h
    · rw [foldl_update_of_ne m _ fun q hq => (hne.1 q hq).symm, Function.update_self]
    · exact ih hne.2 h _

theorem copyChunks_of_ne (h : ∀ p ∈ chunks.flatten, p.1 ≠ a) : copyChunks chunks m a = m a := by
  induction chunks generalizing m with
  | nil => rfl
  | cons chunk chunks ih =>
    exact (ih fun p hp => h p (mem_append_right _ hp)).trans
      (copyAll_of_ne fun p hp => h p (mem_append_left _ hp))

/-- **Chunks do not disturb one another** when the copy goes forward. -/
theorem copyChunks_of_mem (hforward : Forward chunks.flatten) (h : (a, b) ∈ chunks.flatten) :
    copyChunks chunks m a = m b := by
  induction chunks generalizing m with
  | nil => exact absurd h not_mem_nil
  | cons chunk chunks ih =>
    obtain ⟨hchunk, hrest, hcross⟩ := pairwise_append.mp hforward
    rcases mem_append.mp h with h | h
    · exact (copyChunks_of_ne fun p hp => (hcross _ h p hp).1.symm).trans
        (copyAll_of_mem (hchunk.imp fun h => h.1) h)
    · exact (ih hrest h).trans (copyAll_of_ne fun p hp => (hcross p hp _ h).2)

end Lib
