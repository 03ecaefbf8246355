/-
# Regions on a ring

Regions of a ring of bytes are given out one behind another, and a region that does not fit in front of the
end begins a new round at the front.  Regions of one round are disjoint; one of the round before lies out
of the way if it begins behind the other one's end.  So a mark that no region in use lies in front of
(`Ring.apart_of_ready`) is enough to know that a region of the next round can be written.
-/
import Mathlib.Data.Prod.Lex

namespace Lib

namespace Ring

/-- A region: its round, its first byte and its length. -/
structure Region where
  round : ℕ
  offset : ℕ
  size : ℕ
deriving DecidableEq

/-- The first byte behind a region. -/
def Region.stop (r : Region) : ℕ := r.offset + r.size

/-- Rounds come first, then bytes. -/
def Region.start (r : Region) : ℕ ×ₗ ℕ := toLex (r.round, r.offset)

/-- A region that is given out behind another one. -/
def Region.Behind (a b : Region) : Prop :=
  b.round < a.round ∨ a.round = b.round ∧ b.stop ≤ a.offset

/-- Regions without a byte in common. -/
def Region.Apart (a b : Region) : Prop := ∀ i, ¬ (a.offset ≤ i ∧ i < a.stop ∧ b.offset ≤ i ∧ i < b.stop)

/-- A region is ready if the mark has passed the same place of the round before. -/
def Ready (mark : ℕ × ℕ) (a : Region) : Prop :=
  a.round ≤ 0 ∨ a.round - 1 < mark.1 ∨ a.round - 1 = mark.1 ∧ a.stop ≤ mark.2

theorem Region.Behind.start_le {a b : Region} (h : a.Behind b) : b.start ≤ a.start := by
  rw [Region.start, Region.start, Prod.Lex.toLex_le_toLex]
  rcases h with h | ⟨h, hle⟩
  · exact Or.inl h
  · exact Or.inr ⟨h.symm, (Nat.le_add_right _ _).trans hle⟩

theorem Region.apart_of_behind {a b : Region} (h : a.Behind b) (hround : a.round = b.round) :
    a.Apart b := by
  rintro i ⟨ha, -, -, hb⟩
  rcases h with h | ⟨-, hle⟩
  · omega
  · omega

/-- **A ready region is apart from every region in front of it that the mark has not passed.** -/
theorem apart_of_ready {mark : ℕ × ℕ} {a b : Region} (h : a.Behind b) (hmark : toLex mark ≤ b.start)
    (hready : Ready mark a) : a.Apart b := by
  by_cases hround : a.round = b.round
  · exact Region.apart_of_behind h hround
  have hlt : b.round < a.round := h.resolve_right fun h => hround h.1
  rw [Region.start, Prod.Lex.toLex_le_toLex] at hmark
  rcases hready with hzero | hpassed | ⟨hsame, hstop⟩
  · omega
  · rcases hmark with hmark | ⟨hmark, -⟩
    · dsimp only at hmark
      omega
    · dsimp only at hmark
      omega
  · rcases hmark with hmark | ⟨-, hmark⟩
    · dsimp only at hmark
      omega
    · rintro i ⟨-, ha, hb, -⟩
      omega

/-- A mark in a round is enough for the regions of that round. -/
theorem ready_of_mark (a : Region) : Ready (a.round, a.offset) a := by
  rw [Ready]
  omega

end Ring

end Lib
