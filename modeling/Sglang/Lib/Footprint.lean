/-
# Threads with cells of their own

Threads that run one after the other in some order, each of which writes only cells of its own and reads
no cell of another.  Then every thread leaves in its cells what it would have left had it run alone
(`foldl_eq_alone`), and cells of nobody stay.
-/
import Mathlib.Tactic

namespace Lib

open List

variable {σ α β ι : Type*} (read : σ → α → β) (step : ι → σ → σ) (owns : ι → α → Prop)

/-- The threads keep to their cells. -/
structure KeepsApart (threads : List ι) : Prop where
  frame : ∀ i ∈ threads, ∀ s a, ¬ owns i a → read (step i s) a = read s a
  own : ∀ i ∈ threads, ∀ s s', (∀ a, owns i a → read s a = read s' a) →
    ∀ a, owns i a → read (step i s) a = read (step i s') a
  disjoint : ∀ i ∈ threads, ∀ j ∈ threads, ∀ a, owns i a → owns j a → i = j

variable {read step owns} {threads : List ι}

theorem KeepsApart.tail {i : ι} (h : KeepsApart read step owns (i :: threads)) :
    KeepsApart read step owns threads :=
  ⟨fun j hj => h.frame j (mem_cons_of_mem _ hj), fun j hj => h.own j (mem_cons_of_mem _ hj),
    fun j hj k hk => h.disjoint j (mem_cons_of_mem _ hj) k (mem_cons_of_mem _ hk)⟩

/-- Cells that no thread owns stay. -/
theorem KeepsApart.foldl_frame (h : KeepsApart read step owns threads) (s : σ) {a : α}
    (ha : ∀ i ∈ threads, ¬ owns i a) : read (threads.foldl (fun s i => step i s) s) a = read s a := by
  induction threads generalizing s with
  | nil => rfl
  | cons i threads ih =>
    rw [foldl_cons, ih h.tail _ fun j hj => ha j (mem_cons_of_mem _ hj)]
    exact h.frame i mem_cons_self s a (ha i mem_cons_self)

/-- **In its cells every thread leaves what it leaves alone**, in whatever order they run. -/
theorem KeepsApart.foldl_eq_alone (h : KeepsApart read step owns threads) (hnd : threads.Nodup) (s : σ)
    {i : ι} (hi : i ∈ threads) {a : α} (ha : owns i a) :
    read (threads.foldl (fun s i => step i s) s) a = read (step i s) a := by
  induction threads generalizing s with
  | nil => exact absurd hi not_mem_nil
  | cons j threads ih =>
    rw [nodup_cons] at hnd
    rw [foldl_cons]
    rcases mem_cons.mp hi with rfl | hi
    · refine h.tail.foldl_frame _ fun k hk hown => hnd.1 ?_
      rwa [h.disjoint i mem_cons_self k (mem_cons_of_mem _ hk) a ha hown]
    · rw [ih h.tail hnd.2 _ hi]
      refine h.own i (mem_cons_of_mem _ hi) _ _ (fun b hb => ?_) a ha
      refine h.frame j mem_cons_self s b fun hown => hnd.1 ?_
      rwa [← h.disjoint i (mem_cons_of_mem _ hi) j mem_cons_self b hb hown]

end Lib
