/-
# Sending a list in increments

A sender that has sent `n` elements of a list and may now send `k` sends the elements from `n` to `k`,
and goes on from `k`.  The increments give the list up to the last number exactly if the numbers never go
down: where they do, elements are sent twice (`take_append_increments_eq_iff`).
-/
import Mathlib.Tactic

namespace Lib

open List

variable {α : Type*} {l e : List α} {n : ℕ} {ks : List ℕ}

/-- What is sent after the first `n` elements. -/
def increments (l : List α) : ℕ → List ℕ → List α
  | _, [] => []
  | n, k :: ks => (l.take k).drop n ++ increments l k ks

theorem take_append_increments (h : (n :: ks).IsChain (· ≤ ·)) :
    l.take n ++ increments l n ks = l.take (ks.getLastD n) := by
  induction ks generalizing n with
  | nil => simp [increments]
  | cons k ks ih =>
    rw [isChain_cons_cons] at h
    have htake : l.take n = (l.take k).take n := by rw [take_take, Nat.min_eq_left h.1]
    rw [increments, ← append_assoc, htake, take_append_drop, ih h.2, getLastD_cons]

/-- At least so much is sent, and no more only if the numbers never go down. -/
theorem getLastD_le_length_increments (hks : ∀ k ∈ ks, k ≤ l.length) :
    ks.getLastD n ≤ n + (increments l n ks).length ∧
      (n + (increments l n ks).length ≤ ks.getLastD n → (n :: ks).IsChain (· ≤ ·)) := by
  induction ks generalizing n with
  | nil => simp [increments]
  | cons k ks ih =>
    rw [forall_mem_cons] at hks
    obtain ⟨h1, h2⟩ := @ih k hks.2
    have hlen : (increments l n (k :: ks)).length = (k - n) + (increments l k ks).length := by
      rw [increments, length_append, length_drop, length_take, Nat.min_eq_left hks.1]
    rw [getLastD_cons]
    refine ⟨by omega, fun h => isChain_cons_cons.mpr ⟨by omega, h2 (by omega)⟩⟩

/-- **When the increments are right.** -/
theorem take_append_increments_eq_iff (hn : n ≤ l.length) (hks : ∀ k ∈ ks, k ≤ l.length)
    (he : e.length ≤ ks.getLastD n) :
    l.take n ++ increments l n ks = e ↔ (n :: ks).IsChain (· ≤ ·) ∧ e = l.take (ks.getLastD n) := by
  constructor
  · intro h
    have hlen : e.length = n + (increments l n ks).length := by
      rw [← h, length_append, length_take, Nat.min_eq_left hn]
    have hchain := (getLastD_le_length_increments hks).2 (hlen ▸ he)
    exact ⟨hchain, h ▸ take_append_increments hchain⟩
  · rintro ⟨hchain, rfl⟩
    exact take_append_increments hchain

end Lib
