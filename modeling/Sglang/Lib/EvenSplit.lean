/-
# Splitting a sequence into chunks of nearly equal size

`n` things are split into `m` consecutive chunks; the first `n % m` of them get one more than the
others.  Where a chunk starts has a closed form (`splitStart`), and so has the chunk of a thing
(`splitIndex`).  The two are inverse to each other (`splitIndex_eq_iff`), so a party that computes its
own chunk and a party that looks up the chunk of one thing agree (`mem_slice_iff`).
-/
import Mathlib.Tactic

namespace Lib

open List

/-! ## 1. Starts and indices -/

/-- Where chunk `c` starts. -/
def splitStart (n m c : ℕ) : ℕ := c * (n / m) + min c (n % m)

/-- The chunk that thing `i` is in. -/
def splitIndex (n m i : ℕ) : ℕ :=
  if i < n % m * (n / m + 1) then i / (n / m + 1)
  else n % m + (i - n % m * (n / m + 1)) / (n / m)

section

variable {n m c c' i : ℕ}

theorem splitStart_succ (n m c : ℕ) :
    splitStart n m (c + 1) = splitStart n m c + n / m + if c < n % m then 1 else 0 := by
  unfold splitStart
  generalize n / m = q
  generalize n % m = r
  rw [Nat.succ_mul]
  split_ifs <;> omega

theorem splitStart_mono (n m : ℕ) : Monotone (splitStart n m) := by
  refine monotone_nat_of_le_succ fun c => ?_
  rw [splitStart_succ, add_assoc]
  exact Nat.le_add_right _ _

theorem splitStart_self (hm : 0 < m) : splitStart n m m = n := by
  have hlt : n % m < m := Nat.mod_lt n hm
  rw [splitStart, min_eq_right hlt.le]
  exact Nat.div_add_mod n m

/-- **The chunk of a thing** starts at it or before, and ends after it. -/
theorem splitIndex_spec (hi : i < n) :
    splitStart n m (splitIndex n m i) ≤ i ∧ i < splitStart n m (splitIndex n m i + 1) := by
  have hdiv : m * (n / m) + n % m = n := Nat.div_add_mod n m
  unfold splitIndex splitStart
  generalize n / m = q at *
  generalize n % m = r at *
  split
  · -- one of the long chunks, all of which have `q + 1` things
    rename_i hlong
    have hc : i / (q + 1) < r := Nat.div_lt_of_lt_mul (by rwa [Nat.mul_comm] at hlong)
    have hle : i / (q + 1) * (q + 1) ≤ i := Nat.div_mul_le_self i _
    have hlt : i < i / (q + 1) * (q + 1) + (q + 1) := Nat.lt_div_mul_add q.succ_pos
    rw [Nat.mul_succ] at hle hlt
    rw [Nat.succ_mul]
    omega
  · rename_i hshort
    rw [not_lt, Nat.mul_succ] at hshort
    have hq : 0 < q := by
      rcases q.eq_zero_or_pos with rfl | hq
      · omega
      · exact hq
    rw [Nat.mul_succ]
    obtain ⟨j, rfl⟩ := Nat.exists_eq_add_of_le hshort
    rw [Nat.add_sub_cancel_left]
    have hle : j / q * q ≤ j := Nat.div_mul_le_self j q
    have hlt : j < j / q * q + q := Nat.lt_div_mul_add hq
    rw [Nat.succ_mul, Nat.add_mul]
    generalize j / q = k at *
    omega

theorem splitStart_unique (hc : splitStart n m c ≤ i ∧ i < splitStart n m (c + 1))
    (hc' : splitStart n m c' ≤ i ∧ i < splitStart n m (c' + 1)) : c = c' := by
  by_contra hne
  rcases Nat.lt_or_gt_of_ne hne with hlt | hlt
  · have hle : splitStart n m (c + 1) ≤ splitStart n m c' := splitStart_mono n m hlt
    omega
  · have hle : splitStart n m (c' + 1) ≤ splitStart n m c := splitStart_mono n m hlt
    omega

theorem splitIndex_eq_iff (hi : i < n) :
    splitIndex n m i = c ↔ splitStart n m c ≤ i ∧ i < splitStart n m (c + 1) :=
  ⟨fun h => h ▸ splitIndex_spec hi, splitStart_unique (splitIndex_spec hi)⟩

theorem splitIndex_lt (hm : 0 < m) (hi : i < n) : splitIndex n m i < m := by
  by_contra hge
  have hmono := splitStart_mono n m (not_lt.mp hge)
  rw [splitStart_self hm] at hmono
  have := (splitIndex_spec (m := m) hi).1
  omega

end

/-! ## 2. Slices of a list -/

section

variable {α : Type*} [DecidableEq α] {l : List α} {a : α} {s e m c : ℕ}

theorem mem_slice (hl : l.Nodup) :
    a ∈ (l.take e).drop s ↔ a ∈ l ∧ s ≤ l.idxOf a ∧ l.idxOf a < e := by
  rw [mem_drop_iff_getElem]
  constructor
  · rintro ⟨j, hj, rfl⟩
    rw [length_take] at hj
    have hlt : s + j < l.length := by omega
    have hidx : l.idxOf l[s + j] = s + j := hl.idxOf_getElem _ hlt
    rw [getElem_take, hidx]
    exact ⟨getElem_mem hlt, Nat.le_add_right _ _, by omega⟩
  · rintro ⟨ha, hs, he⟩
    have hlt : l.idxOf a < l.length := idxOf_lt_length_iff.mpr ha
    refine ⟨l.idxOf a - s, ?_, ?_⟩
    · rw [length_take]
      omega
    · rw [getElem_take]
      simp [Nat.add_sub_cancel' hs]

/-- **A thing is in a chunk** when its index says so. -/
theorem mem_slice_iff (hl : l.Nodup) (ha : a ∈ l) :
    a ∈ (l.take (splitStart l.length m (c + 1))).drop (splitStart l.length m c) ↔
      splitIndex l.length m (l.idxOf a) = c := by
  rw [mem_slice hl, splitIndex_eq_iff (idxOf_lt_length_iff.mpr ha)]
  exact and_iff_right ha

end

end Lib
