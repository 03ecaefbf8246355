/-
# The first distinct items of a stream

A bounded collection takes from a stream every item that it does not have yet, until it is full
(`firstDistinct`).  It ends up with all items of the stream if there are few enough, and is full otherwise; what
it has taken from the front of a stream it keeps.
-/
import Mathlib.Data.Finset.Card

namespace Lib

open List

variable {α : Type*} [DecidableEq α] {n : ℕ} {seen l m : List α} {a : α}

/-- A new item is taken while there is room. -/
def takeNew (n : ℕ) (seen : List α) (a : α) : List α :=
  if a ∈ seen ∨ n ≤ seen.length then seen else seen ++ [a]

/-- The first `n` distinct items of a stream. -/
def firstDistinct (n : ℕ) (l : List α) : List α := l.foldl (takeNew n) []

theorem takeNew_of_mem (h : a ∈ seen) : takeNew n seen a = seen := if_pos (Or.inl h)

theorem takeNew_of_full (h : n ≤ seen.length) : takeNew n seen a = seen := if_pos (Or.inr h)

theorem foldl_takeNew_of_full (h : n ≤ seen.length) (l : List α) : l.foldl (takeNew n) seen = seen := by
  induction l with
  | nil => rfl
  | cons a l ih => rw [foldl_cons, takeNew_of_full h, ih]

theorem takeNew_of_new (h : a ∉ seen) (hn : seen.length < n) : takeNew n seen a = seen ++ [a] :=
  if_neg (not_or_intro h (Nat.not_le_of_lt hn))

/-- The three things that can happen to an item. -/
theorem takeNew_cases (n : ℕ) (seen : List α) (a : α) :
    (a ∈ seen ∧ takeNew n seen a = seen) ∨ (a ∉ seen ∧ n ≤ seen.length ∧ takeNew n seen a = seen) ∨
      (a ∉ seen ∧ seen.length < n ∧ takeNew n seen a = seen ++ [a]) := by
  by_cases ha : a ∈ seen
  · exact Or.inl ⟨ha, takeNew_of_mem ha⟩
  · rcases Nat.lt_or_ge seen.length n with hn | hn
    · exact Or.inr (Or.inr ⟨ha, hn, takeNew_of_new ha hn⟩)
    · exact Or.inr (Or.inl ⟨ha, hn, takeNew_of_full hn⟩)

@[simp]
theorem firstDistinct_nil : firstDistinct n ([] : List α) = [] := rfl

@[simp]
theorem firstDistinct_concat : firstDistinct n (l ++ [a]) = takeNew n (firstDistinct n l) a := by
  simp [firstDistinct]

/-- **What holds of the collection**: its items are distinct and come from the stream, there are at most `n` of
them, and it has an item of the stream unless it is full. -/
theorem firstDistinct_spec (n : ℕ) (l : List α) :
    (firstDistinct n l).Nodup ∧ (∀ a ∈ firstDistinct n l, a ∈ l) ∧ (firstDistinct n l).length ≤ n ∧
      ∀ a ∈ l, a ∈ firstDistinct n l ∨ (firstDistinct n l).length = n := by
  induction l using List.reverseRecOn with
  | nil => simp
  | append_singleton l a ih =>
    obtain ⟨hnodup, hsub, hle, hall⟩ := ih
    rw [firstDistinct_concat]
    rcases takeNew_cases n (firstDistinct n l) a with ⟨ha, heq⟩ | ⟨ha, hn, heq⟩ | ⟨ha, hn, heq⟩
    · rw [heq]
      refine ⟨hnodup, fun b hb => mem_append_left _ (hsub b hb), hle, fun b hb => ?_⟩
      rcases mem_append.mp hb with hb | hb
      · exact hall b hb
      · rw [mem_singleton.mp hb]
        exact Or.inl ha
    · rw [heq]
      exact ⟨hnodup, fun b hb => mem_append_left _ (hsub b hb), hle, fun b _ =>
        Or.inr (le_antisymm hle hn)⟩
    · rw [heq]
      refine ⟨?_, fun b hb => ?_, by simpa using Nat.succ_le_of_lt hn, fun b hb => ?_⟩
      · rw [nodup_append]
        exact ⟨hnodup, nodup_singleton a, fun b hb c hc hbc => ha (mem_singleton.mp hc ▸ hbc ▸ hb)⟩
      · rcases mem_append.mp hb with hb | hb
        · exact mem_append_left _ (hsub b hb)
        · exact mem_append_right _ hb
      · rcases mem_append.mp hb with hb | hb
        · rcases hall b hb with hb | hfull
          · exact Or.inl (mem_append_left _ hb)
          · exact absurd hfull hn.ne
        · exact Or.inl (mem_append_right _ hb)

theorem nodup_firstDistinct (n : ℕ) (l : List α) : (firstDistinct n l).Nodup := (firstDistinct_spec n l).1

theorem mem_of_mem_firstDistinct (h : a ∈ firstDistinct n l) : a ∈ l := (firstDistinct_spec n l).2.1 a h

theorem length_firstDistinct_le (n : ℕ) (l : List α) : (firstDistinct n l).length ≤ n :=
  (firstDistinct_spec n l).2.2.1

/-- **All items are taken** if there are at most `n`. -/
theorem mem_firstDistinct_iff (h : l.toFinset.card ≤ n) : a ∈ firstDistinct n l ↔ a ∈ l := by
  refine ⟨mem_of_mem_firstDistinct, fun ha => ?_⟩
  obtain ⟨hnodup, hsub, -, hall⟩ := firstDistinct_spec n l
  by_contra hnot
  have hfull := (hall a ha).resolve_left hnot
  -- a full collection without the item leaves room for none of them
  have hlt : (firstDistinct n l).toFinset ⊂ l.toFinset := by
    refine Finset.ssubset_iff_subset_ne.mpr ⟨fun b hb => ?_, fun heq => hnot ?_⟩
    · exact mem_toFinset.mpr (hsub b (mem_toFinset.mp hb))
    · rw [← mem_toFinset, heq]
      exact mem_toFinset.mpr ha
  have hcard := Finset.card_lt_card hlt
  rw [toFinset_card_of_nodup hnodup] at hcard
  omega

theorem length_firstDistinct (n : ℕ) (l : List α) :
    (firstDistinct n l).length = min n l.toFinset.card := by
  rcases Nat.le_total l.toFinset.card n with h | h
  · have heq : (firstDistinct n l).toFinset = l.toFinset := by
      ext a
      simp [mem_firstDistinct_iff h]
    rw [← toFinset_card_of_nodup (nodup_firstDistinct n l), heq]
    omega
  · obtain ⟨hnodup, hsub, hle, hall⟩ := firstDistinct_spec n l
    refine le_antisymm (by omega) ?_
    by_contra hlt
    have heq : l.toFinset ⊆ (firstDistinct n l).toFinset := fun a ha =>
      mem_toFinset.mpr ((hall a (mem_toFinset.mp ha)).resolve_right (by omega))
    have hcard := Finset.card_le_card heq
    rw [toFinset_card_of_nodup hnodup] at hcard
    omega

theorem mem_firstDistinct_append (h : a ∈ firstDistinct n l) (m : List α) : a ∈ firstDistinct n (l ++ m) := by
  induction m using List.reverseRecOn with
  | nil => simpa using h
  | append_singleton m b ih =>
    rw [← append_assoc, firstDistinct_concat]
    rcases takeNew_cases n (firstDistinct n (l ++ m)) b with ⟨-, heq⟩ | ⟨-, -, heq⟩ | ⟨-, -, heq⟩
    · rw [heq]
      exact ih
    · rw [heq]
      exact ih
    · rw [heq]
      exact mem_append_left _ ih

theorem mem_firstDistinct_left (h : l.toFinset.card ≤ n) (ha : a ∈ l) (m : List α) :
    a ∈ firstDistinct n (l ++ m) := mem_firstDistinct_append ((mem_firstDistinct_iff h).mpr ha) m

/-- **An item that comes for the first time** is taken if there is room when it comes. -/
theorem mem_firstDistinct_cons_iff (ha : a ∉ l) (m : List α) :
    a ∈ firstDistinct n (l ++ a :: m) ↔ l.toFinset.card < n := by
  have hnot : a ∉ firstDistinct n l := fun h => ha (mem_of_mem_firstDistinct h)
  constructor
  · intro h
    by_contra hfull
    have hlen : n ≤ (firstDistinct n l).length := by
      rw [length_firstDistinct]
      omega
    -- nothing is taken any more
    have hstays : firstDistinct n (l ++ a :: m) = firstDistinct n l := by
      rw [firstDistinct, foldl_append]
      exact foldl_takeNew_of_full hlen (a :: m)
    exact hnot (hstays ▸ h)
  · intro h
    have hsplit : l ++ a :: m = (l ++ [a]) ++ m := by simp
    rw [hsplit]
    refine mem_firstDistinct_append ?_ m
    rw [firstDistinct_concat, takeNew_of_new hnot (by rw [length_firstDistinct]; omega)]
    exact mem_append_right _ (mem_singleton_self a)

end Lib
