/-
# Prefixes and runs of live items

A walk that asks a question at every item remembers the last place where the answer was yes: `deepest`.
A question that counts the units since the last dead item asks for a run: `runLen`, which reaches `n`
exactly if the last `n` units stand on live items.
-/
import Mathlib.Data.ENat.Basic
import Mathlib.Data.List.Infix

namespace Lib

open List

/-! ## 1. The last prefix with a property -/

section deepest

variable {α : Type} {p : List α → Bool}

/-- The longest nonempty prefix of which `p` holds; the empty one where there is none. -/
def deepest (p : List α → Bool) (l : List α) : List α :=
  (l.inits.filter fun pre => !pre.isEmpty && p pre).getLastD []

@[simp] theorem deepest_nil : deepest p [] = [] := rfl

theorem deepest_concat (l : List α) (a : α) :
    deepest p (l ++ [a]) = if p (l ++ [a]) then l ++ [a] else deepest p l := by
  have hinits : (l ++ [a]).inits = l.inits ++ [l ++ [a]] := by simp [inits_append]
  have hne : (l ++ [a]).isEmpty = false := by simp
  rw [deepest, hinits, filter_append, filter_singleton, hne]
  cases hp : p (l ++ [a])
  · simp [deepest]
  · simp

theorem deepest_spec (l : List α) : deepest p l <+: l ∧ (deepest p l = [] ∨ p (deepest p l)) := by
  induction l using List.reverseRecOn with
  | nil => exact ⟨prefix_rfl, .inl rfl⟩
  | append_singleton l a ih =>
    rw [deepest_concat]
    split
    · rename_i h
      exact ⟨prefix_rfl, .inr h⟩
    · exact ⟨ih.1.trans (prefix_append l [a]), ih.2⟩

end deepest

/-! ## 2. Runs -/

section runs

variable {α : Type} (live : α → Bool) (weight : α → ℕ)

/-- The units since the last dead item; no bound while there was none. -/
def runLen (l : List α) : ℕ∞ := l.foldl (fun len a => if live a then len + weight a else 0) ⊤

/-- The last `n` units, or all where there are fewer, stand on live items. -/
def Covered (n : ℕ) (l : List α) : Prop :=
  ∃ front back, l = front ++ back ∧ (∀ a ∈ back, live a) ∧ (front = [] ∨ n ≤ (back.map weight).sum)

@[simp] theorem runLen_nil : runLen live weight [] = ⊤ := rfl

theorem runLen_concat (l : List α) (a : α) : runLen live weight (l ++ [a])
    = if live a then runLen live weight l + weight a else 0 := by
  rw [runLen, foldl_append]
  rfl

/-- **A run reaches `n`** exactly if the last `n` units are covered. -/
theorem le_runLen_iff (l : List α) :
    ∀ n : ℕ, (n : ℕ∞) ≤ runLen live weight l ↔ Covered live weight n l := by
  induction l using List.reverseRecOn with
  | nil =>
    intro n
    exact iff_of_true le_top ⟨[], [], rfl, fun a ha => absurd ha not_mem_nil, .inl rfl⟩
  | append_singleton l a ih =>
    intro n
    rw [runLen_concat]
    cases ha : live a
    · rw [if_neg Bool.false_ne_true]
      constructor
      · intro h
        obtain rfl : n = 0 := by simpa using h
        exact ⟨l ++ [a], [], by simp, fun a ha => absurd ha not_mem_nil, .inr (Nat.zero_le _)⟩
      · rintro ⟨front, back, heq, hlive, h⟩
        obtain rfl | ⟨back, b, rfl⟩ := back.eq_nil_or_concat
        · have hne : front ≠ [] := by
            rintro rfl
            simp at heq
          simpa using h.resolve_left hne
        · rw [concat_eq_append, ← append_assoc] at heq
          obtain ⟨-, hb⟩ := append_inj' heq rfl
          cases hb
          have := hlive a (by simp)
          rw [ha] at this
          cases this
    · rw [if_pos rfl]
      have hsub : (n : ℕ∞) ≤ runLen live weight l + weight a
          ↔ ((n - weight a : ℕ) : ℕ∞) ≤ runLen live weight l := by
        rw [ENat.natCast_sub, tsub_le_iff_right]
      rw [hsub, ih]
      constructor
      · rintro ⟨front, back, rfl, hlive, h⟩
        refine ⟨front, back ++ [a], by simp, fun b hb => ?_, h.imp_right fun h => ?_⟩
        · rcases mem_append.mp hb with hb | hb
          · exact hlive b hb
          · exact mem_singleton.mp hb ▸ ha
        · rw [map_append, sum_append, map_singleton, sum_singleton]
          omega
      · rintro ⟨front, back, heq, hlive, h⟩
        obtain rfl | ⟨back, b, rfl⟩ := back.eq_nil_or_concat
        · have hne : front ≠ [] := by
            rintro rfl
            simp at heq
          have hn : n = 0 := by simpa using h.resolve_left hne
          exact ⟨l, [], by simp, fun a ha => absurd ha not_mem_nil, .inr (by simp [hn])⟩
        · rw [concat_eq_append, ← append_assoc] at heq
          obtain ⟨hl, hb⟩ := append_inj' heq rfl
          cases hb
          refine ⟨front, back, hl, fun b hb => hlive b (by simp [hb]), h.imp_right fun h => ?_⟩
          rw [concat_eq_append, map_append, sum_append, map_singleton, sum_singleton] at h
          omega

end runs

end Lib
