/-
# The first place of a list in another

`find sub l` is the number of elements of `l` in front of the first place where `sub` stands, if there
is one.  A list that is cut into pieces may be searched piece by piece if the first place lies within a
piece (`Inside`).
-/
import Mathlib.Data.List.Infix

namespace Lib

open List Option

variable {α : Type} [DecidableEq α] {sub l l' : List α} {i : ℕ}

/-- The first place of `sub` in a list. -/
def find (sub : List α) : List α → Option ℕ
  | [] => if sub = [] then some 0 else none
  | a :: l => if sub <+: a :: l then some 0 else (find sub l).map (· + 1)

theorem exists_of_find : ∀ {l : List α} {i : ℕ}, find sub l = some i →
    ∃ u v, l = u ++ sub ++ v ∧ u.length = i
  | [], i, h => by
    rw [find] at h
    split at h
    · rename_i hsub
      cases h
      exact ⟨[], [], by simp [hsub], rfl⟩
    · cases h
  | a :: l, i, h => by
    rw [find] at h
    split at h
    · rename_i hpre
      cases h
      obtain ⟨v, hv⟩ := hpre
      exact ⟨[], v, by simpa using hv.symm, rfl⟩
    · obtain ⟨j, hj, rfl⟩ := map_eq_some_iff.mp h
      obtain ⟨u, v, rfl, rfl⟩ := exists_of_find hj
      exact ⟨a :: u, v, rfl, rfl⟩

theorem find_add_le (h : find sub l = some i) : i + sub.length ≤ l.length := by
  obtain ⟨u, v, rfl, rfl⟩ := exists_of_find h
  simp only [length_append]
  omega

theorem find_le : ∀ {u v : List α} {i : ℕ}, find sub (u ++ sub ++ v) = some i → i ≤ u.length
  | [], v, i, h => by
    have hpre : sub <+: [] ++ sub ++ v := ⟨v, rfl⟩
    cases hl : [] ++ sub ++ v with
    | nil =>
      rw [hl, find] at h
      split at h
      · cases h
        exact Nat.le_refl _
      · cases h
    | cons a l =>
      rw [hl] at h hpre
      rw [find, if_pos hpre] at h
      cases h
      exact Nat.le_refl _
  | a :: u, v, i, h => by
    rw [cons_append, cons_append, find] at h
    split at h
    · cases h
      exact Nat.zero_le _
    · obtain ⟨j, hj, rfl⟩ := map_eq_some_iff.mp h
      exact Nat.succ_le_succ (find_le hj)

theorem find_eq_none_iff : ∀ {l : List α}, find sub l = none ↔ ¬ sub <:+: l
  | [] => by
    rw [find]
    split
    · simp [*]
    · simp [*]
  | a :: l => by
    rw [find, infix_cons_iff, not_or, ← find_eq_none_iff]
    split
    · simp [*]
    · simp [*]

theorem find_eq_none_of_isInfix (h : find sub l = none) (hl : l' <:+: l) : find sub l' = none :=
  find_eq_none_iff.mpr fun hs => find_eq_none_iff.mp h (hs.trans hl)

/-- **The first place does not depend on what follows it.** -/
theorem find_append : ∀ {l : List α} {i : ℕ}, find sub l = some i → ∀ m, find sub (l ++ m) = some i
  | [], i, h, m => by
    rw [find] at h
    split at h
    · rename_i hsub
      cases h
      subst hsub
      rcases m with _ | ⟨a, m⟩
      · rfl
      · exact if_pos nil_prefix
    · cases h
  | a :: l, i, h, m => by
    rw [find] at h
    rw [cons_append, find]
    split at h
    · rename_i hpre
      have hlong : sub <+: a :: (l ++ m) := hpre.trans (prefix_append (a :: l) m)
      rw [if_pos hlong, h]
    · rename_i hpre
      obtain ⟨j, hj, rfl⟩ := map_eq_some_iff.mp h
      have hlen := find_add_le hj
      have hlong : ¬ sub <+: a :: (l ++ m) := fun hp => hpre (prefix_of_prefix_length_le hp
        (prefix_append (a :: l) m) (by rw [length_cons]; omega))
      rw [if_neg hlong, find_append hj m]
      rfl

variable {a : α}

theorem find_singleton_append : ∀ {u : List α}, a ∉ u → ∀ v,
    find [a] (u ++ v) = (find [a] v).map (· + u.length)
  | [], _, v => by cases h : find [a] v <;> simp [h]
  | b :: u, h, v => by
    have hne : ¬ [a] <+: b :: (u ++ v) := fun hp => h (by
      rw [(cons_prefix_cons.mp hp).1]
      exact mem_cons_self)
    rw [cons_append, find, if_neg hne,
      find_singleton_append (fun hu => h (mem_cons_of_mem _ hu)) v, Option.map_map]
    rfl

theorem find_singleton_self (a : α) (v : List α) : find [a] (a :: v) = some 0 :=
  if_pos (prefix_append [a] v)

theorem not_mem_take_of_find {l : List α} {i : ℕ} (h : find [a] l = some i) : a ∉ l.take i := by
  obtain ⟨u, v, rfl, rfl⟩ := exists_of_find h
  rw [append_assoc, take_left]
  intro hu
  obtain ⟨u₁, u₂, rfl⟩ := append_of_mem hu
  have hfind : find [a] (u₁ ++ [a] ++ (u₂ ++ a :: v)) = some (u₁ ++ a :: u₂).length := by
    rw [← h]
    congr 1
    simp
  have hle := find_le hfind
  rw [length_append, length_cons] at hle
  omega

theorem find_singleton_eq_none_iff {l : List α} : find [a] l = none ↔ a ∉ l := by
  rw [find_eq_none_iff, singleton_infix_iff]

/-- The piece behind `front` holds the first place of the whole list. -/
structure Inside (f : List α → Option ℕ) (pieces front : List (List α)) (piece : List α)
    (rest : List (List α)) : Prop where
  split : pieces = front ++ piece :: rest
  found : ∃ i, f piece = some i ∧ f pieces.flatten = some (front.flatten.length + i)

end Lib
