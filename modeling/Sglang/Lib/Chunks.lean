/-
# Lists cut into pages

`chunks p l` is the list of the full pages of length `p` at the front of `l`; a last partial page
is left out.  On lists whose length is a multiple of `p` nothing is left out (`flatten_chunks`),
and taking or dropping whole pages commutes with the cut.  `commonPrefixLength` is the loop that
walks two lists in step and stops at the first difference; on pages it counts the equal pages, and
`commonPrefixLength_chunks` says how the two counts are related.
-/
import Mathlib.Tactic

namespace Lib

open List

variable {α β : Type}

/-! ## 1. Full pages -/

/-- The full pages of length `p` at the front of a list. -/
def chunks (p : ℕ) (l : List α) : List (List α) :=
  (List.range (l.length / p)).map fun i => (l.drop (i * p)).take p

@[simp] theorem length_chunks (p : ℕ) (l : List α) : (chunks p l).length = l.length / p := by
  simp [chunks]

theorem getElem?_chunks (p : ℕ) (l : List α) (i : ℕ) :
    (chunks p l)[i]? = if i < l.length / p then some ((l.drop (i * p)).take p) else none := by
  by_cases h : i < l.length / p
  · simp [chunks, h]
  · simp [chunks, h]

variable {p : ℕ} {l : List α}

theorem mem_of_mem_chunks {c : List α} {a : α} (hc : c ∈ chunks p l) (ha : a ∈ c) : a ∈ l := by
  simp only [chunks, mem_map] at hc
  obtain ⟨i, -, rfl⟩ := hc
  exact mem_of_mem_drop (mem_of_mem_take ha)

theorem chunks_drop (p : ℕ) (l : List α) (j : ℕ) :
    chunks p (l.drop (p * j)) = (chunks p l).drop j := by
  apply ext_getElem?
  intro i
  rw [getElem?_drop, getElem?_chunks, getElem?_chunks, length_drop, Nat.sub_mul_div]
  have h1 : (i < l.length / p - j) ↔ (j + i < l.length / p) := by omega
  have h2 : p * j + i * p = (j + i) * p := by ring
  simp [h1, h2]

theorem chunks_take (hp : 0 < p) (l : List α) (j : ℕ) :
    chunks p (l.take (p * j)) = (chunks p l).take j := by
  apply ext_getElem?
  intro i
  rw [getElem?_take, getElem?_chunks, getElem?_chunks, length_take]
  have hdiv : min (p * j) l.length / p = min j (l.length / p) := by
    rcases Nat.le_total (p * j) l.length with h | h
    · have hj : j ≤ l.length / p := (Nat.le_div_iff_mul_le hp).mpr (by linarith [Nat.mul_comm p j])
      rw [min_eq_left h, min_eq_left hj, Nat.mul_div_cancel_left _ hp]
    · have hj : l.length / p ≤ j := Nat.div_le_of_le_mul h
      rw [min_eq_right h, min_eq_right hj]
  rw [hdiv]
  by_cases hij : i < j
  · by_cases hil : i < l.length / p
    · have hlt : i < min j (l.length / p) := lt_min hij hil
      rw [if_pos hlt, if_pos hij, if_pos hil, drop_take, take_take]
      have h2 : (i + 1) * p ≤ p * j := by
        rw [Nat.mul_comm p j]
        exact Nat.mul_le_mul_right _ hij
      have h3 : (i + 1) * p = i * p + p := by ring
      rw [min_eq_left (by omega)]
    · have hlt : ¬ i < min j (l.length / p) := fun h => hil (lt_min_iff.mp h).2
      rw [if_neg hlt, if_pos hij, if_neg hil]
  · have hlt : ¬ i < min j (l.length / p) := fun h => hij (lt_min_iff.mp h).1
    rw [if_neg hlt, if_neg hij]

theorem chunks_append (hp : 0 < p) (hl : p ∣ l.length) (m : List α) :
    chunks p (l ++ m) = chunks p l ++ chunks p m := by
  obtain ⟨j, hj⟩ := hl
  have h1 : (chunks p (l ++ m)).take j = chunks p l := by
    rw [← chunks_take hp, ← hj, take_left]
  have h2 : (chunks p (l ++ m)).drop j = chunks p m := by
    rw [← chunks_drop, ← hj, drop_left]
  rw [← h1, ← h2, take_append_drop]

variable {m : List α}

theorem chunks_prefix_mono (p : ℕ) (h : l <+: m) : chunks p l <+: chunks p m := by
  rw [prefix_iff_eq_take, length_chunks]
  obtain ⟨a, rfl⟩ := h
  apply ext_getElem?
  intro i
  rw [getElem?_take, getElem?_chunks, getElem?_chunks]
  by_cases hi : i < l.length / p
  · have hle : l.length / p ≤ (l ++ a).length / p := Nat.div_le_div_right (by simp)
    have hp : (i + 1) * p ≤ l.length :=
      (Nat.mul_le_mul_right _ hi).trans (Nat.div_mul_le_self _ _)
    have hip : (i + 1) * p = i * p + p := by ring
    rw [if_pos hi, if_pos hi, if_pos (by omega), drop_append_of_le_length (by omega),
      take_append_of_le_length (by rw [length_drop]; omega)]
  · rw [if_neg hi, if_neg hi]

theorem chunks_cons (hp : 0 < p) (hl : p ≤ l.length) :
    chunks p l = l.take p :: chunks p (l.drop p) := by
  have hlen : (l.take p).length = p := by simp [hl]
  have h1 : chunks p (l.take p) = [l.take p] := by
    simp [chunks, hlen, Nat.div_self hp]
  calc chunks p l = chunks p (l.take p ++ l.drop p) := by rw [take_append_drop]
    _ = chunks p (l.take p) ++ chunks p (l.drop p) := chunks_append hp (by rw [hlen]) _
    _ = l.take p :: chunks p (l.drop p) := by rw [h1]; rfl

theorem head?_chunks (hp : 0 < p) (hl : p ≤ l.length) : (chunks p l).head? = some (l.take p) := by
  rw [chunks_cons hp hl]
  rfl

theorem flatten_chunks (hp : 0 < p) : ∀ {l : List α}, p ∣ l.length → (chunks p l).flatten = l := by
  have key : ∀ (j : ℕ) (l : List α), l.length = p * j → (chunks p l).flatten = l := by
    intro j
    induction j with
    | zero =>
      intro l hl
      have : l = [] := eq_nil_of_length_eq_zero (by simpa using hl)
      simp [this, chunks]
    | succ j ih =>
      intro l hl
      have hmul : p * (j + 1) = p * j + p := by ring
      rw [chunks_cons hp (by omega), flatten_cons, ih (l.drop p) (by simp [hl]; omega),
        take_append_drop]
  rintro l ⟨j, hj⟩
  exact key j l hj

/-- Pieces of length `p` and a shorter last one: nothing is left out of any list. -/
theorem flatten_pieces (hp : 0 < p) : ∀ l : List α,
    ((List.range ((l.length + p - 1) / p)).map fun i => (l.drop (i * p)).take p).flatten = l := by
  have key : ∀ (n : ℕ) (l : List α), (l.length + p - 1) / p = n →
      ((List.range n).map fun i => (l.drop (i * p)).take p).flatten = l := by
    intro n
    induction n with
    | zero =>
      intro l hl
      have := (Nat.div_eq_zero_iff_lt hp).mp hl
      simp [eq_nil_of_length_eq_zero (by omega : l.length = 0)]
    | succ n ih =>
      intro l hl
      have hrest : ((l.drop p).length + p - 1) / p = n := by
        rw [length_drop]
        have hle : 1 ≤ (l.length + p - 1) / p := by omega
        have hpl := (Nat.le_div_iff_mul_le hp).mp hle
        rcases Nat.lt_or_ge l.length p with h | h
        · rw [Nat.div_eq_of_lt (by omega)]
          have : (l.length + p - 1) / p = 1 :=
            Nat.div_eq_of_lt_le (by omega) (by omega)
          omega
        · have : l.length + p - 1 = (l.length - p + p - 1) + p := by omega
          rw [this, Nat.add_div_right _ hp] at hl
          omega
      rw [range_succ_eq_map, map_cons, flatten_cons, map_map, Nat.zero_mul, drop_zero]
      have hmap : (List.range n).map ((fun i => (l.drop (i * p)).take p) ∘ Nat.succ)
          = (List.range n).map fun i => ((l.drop p).drop (i * p)).take p := by
        refine map_congr_left fun i _ => ?_
        rw [Function.comp_apply, drop_drop, Nat.succ_mul, Nat.add_comm (i * p)]
      rw [hmap, ih _ hrest, take_append_drop]
  exact fun l => key _ l rfl

theorem chunks_injective (hp : 0 < p) (hl : p ∣ l.length)
    (hm : p ∣ m.length) (h : chunks p l = chunks p m) : l = m := by
  rw [← flatten_chunks hp hl, ← flatten_chunks hp hm, h]

/-! ## 2. Common prefixes -/

/-- A prefix of a concatenation ends in the first part or goes on into the second. -/
theorem prefix_append_iff {u a b : List α} :
    u <+: a ++ b ↔ u <+: a ∨ ∃ v, u = a ++ v ∧ v <+: b := by
  constructor
  · intro h
    rcases Nat.le_total u.length a.length with hle | hle
    · exact .inl (prefix_of_prefix_length_le h (prefix_append a b) hle)
    · obtain ⟨v, rfl⟩ := prefix_of_prefix_length_le (prefix_append a b) h hle
      exact .inr ⟨v, rfl, (prefix_append_right_inj a).mp h⟩
  · rintro (h | ⟨v, rfl, hv⟩)
    · exact h.trans (prefix_append a b)
    · exact (prefix_append_right_inj a).mpr hv

section CommonPrefix

variable [DecidableEq α]

/-- How many leading elements two lists share. -/
def commonPrefixLength : List α → List α → ℕ
  | a :: l, b :: m => if a = b then commonPrefixLength l m + 1 else 0
  | _, _ => 0

theorem le_commonPrefixLength_iff : ∀ (l m : List α) (n : ℕ),
    n ≤ commonPrefixLength l m ↔ n ≤ l.length ∧ n ≤ m.length ∧ l.take n = m.take n
  | [], m, n => by
    simp only [commonPrefixLength, length_nil, take_nil]
    constructor
    · intro h
      have : n = 0 := by omega
      simp [this]
    · exact fun h => h.1
  | a :: l, [], n => by
    simp only [commonPrefixLength, length_nil, take_nil]
    constructor
    · intro h
      have : n = 0 := by omega
      simp [this]
    · exact fun h => h.2.1
  | a :: l, b :: m, 0 => by simp
  | a :: l, b :: m, n + 1 => by
    have ih := le_commonPrefixLength_iff l m n
    by_cases h : a = b
    · simp [commonPrefixLength, h, ih]
    · simp [commonPrefixLength, h]

theorem commonPrefixLength_le_left (l m : List α) : commonPrefixLength l m ≤ l.length :=
  ((le_commonPrefixLength_iff l m _).mp le_rfl).1

theorem commonPrefixLength_le_right (l m : List α) : commonPrefixLength l m ≤ m.length :=
  ((le_commonPrefixLength_iff l m _).mp le_rfl).2.1

theorem take_commonPrefixLength (l m : List α) :
    l.take (commonPrefixLength l m) = m.take (commonPrefixLength l m) :=
  ((le_commonPrefixLength_iff l m _).mp le_rfl).2.2

theorem head?_drop_commonPrefixLength_ne (hl : commonPrefixLength l m < l.length) :
    (l.drop (commonPrefixLength l m)).head? ≠ (m.drop (commonPrefixLength l m)).head? := by
  intro h
  have hnot : ¬ commonPrefixLength l m + 1 ≤ commonPrefixLength l m := by omega
  rw [le_commonPrefixLength_iff] at hnot
  set n := commonPrefixLength l m with hn
  rw [head?_drop, head?_drop, getElem?_eq_getElem hl] at h
  have hm : n < m.length := by
    by_contra hc
    rw [getElem?_eq_none (by omega)] at h
    cases h
  rw [getElem?_eq_getElem hm] at h
  refine hnot ⟨hl, hm, ?_⟩
  rw [take_add_one, take_add_one, take_commonPrefixLength, getElem?_eq_getElem hl,
    getElem?_eq_getElem hm, h]

/-- On pages the walk counts the equal leading pages. -/
theorem commonPrefixLength_chunks (hp : 0 < p) (l m : List α) :
    commonPrefixLength (chunks p l) (chunks p m) = commonPrefixLength l m / p := by
  have key : ∀ j, j ≤ commonPrefixLength (chunks p l) (chunks p m) ↔
      j ≤ commonPrefixLength l m / p := by
    intro j
    rw [le_commonPrefixLength_iff, Nat.le_div_iff_mul_le hp, le_commonPrefixLength_iff,
      length_chunks, length_chunks, Nat.le_div_iff_mul_le hp, Nat.le_div_iff_mul_le hp,
      Nat.mul_comm j p, ← chunks_take hp, ← chunks_take hp]
    constructor
    · rintro ⟨h1, h2, h3⟩
      refine ⟨h1, h2, chunks_injective hp ?_ ?_ h3⟩
      · rw [length_take, min_eq_left h1]; exact Dvd.intro _ rfl
      · rw [length_take, min_eq_left h2]; exact Dvd.intro _ rfl
    · rintro ⟨h1, h2, h3⟩
      exact ⟨h1, h2, by rw [h3]⟩
  exact le_antisymm ((key _).mp le_rfl) ((key _).mpr le_rfl)

theorem commonPrefixLength_map [DecidableEq β] {f : α → β} (hf : Function.Injective f) :
    ∀ l m : List α, commonPrefixLength (l.map f) (m.map f) = commonPrefixLength l m
  | [], _ => by simp [commonPrefixLength]
  | a :: l, [] => by simp [commonPrefixLength]
  | a :: l, b :: m => by
    have ih := commonPrefixLength_map hf l m
    by_cases h : a = b
    · simp [commonPrefixLength, h, ih]
    · simp [commonPrefixLength, h, hf.ne h]

theorem commonPrefixLength_comm : ∀ l m : List α, commonPrefixLength l m = commonPrefixLength m l
  | [], [] => rfl
  | [], _ :: _ => rfl
  | _ :: _, [] => rfl
  | a :: l, b :: m => by
    rw [commonPrefixLength, commonPrefixLength, commonPrefixLength_comm l m]
    simp [eq_comm]

theorem commonPrefixLength_drop : ∀ {n : ℕ} {l m : List α}, n ≤ commonPrefixLength l m →
    commonPrefixLength l m = n + commonPrefixLength (l.drop n) (m.drop n)
  | 0, l, m, _ => by rw [drop_zero, drop_zero, Nat.zero_add]
  | n + 1, [], m, h => by simp [commonPrefixLength] at h
  | n + 1, a :: l, [], h => by simp [commonPrefixLength] at h
  | n + 1, a :: l, b :: m, h => by
    by_cases hab : a = b
    · rw [commonPrefixLength, if_pos hab] at h ⊢
      have ih := commonPrefixLength_drop (Nat.le_of_succ_le_succ h)
      rw [drop_succ_cons, drop_succ_cons]
      omega
    · rw [commonPrefixLength, if_neg hab] at h
      omega

/-- Equal for `n` elements and different behind them, or at the end of one list. -/
theorem commonPrefixLength_eq {n : ℕ} (hl : n ≤ l.length) (hm : n ≤ m.length)
    (htake : l.take n = m.take n)
    (hstop : l.length = n ∨ (l.drop n).head? ≠ (m.drop n).head?) :
    commonPrefixLength l m = n := by
  have hle := (le_commonPrefixLength_iff l m n).mpr ⟨hl, hm, htake⟩
  have hdrop := commonPrefixLength_drop hle
  suffices h0 : commonPrefixLength (l.drop n) (m.drop n) = 0 by omega
  rcases hstop with hlen | hhead
  · rw [← hlen, drop_length]
    rfl
  · rcases hl' : l.drop n with _ | ⟨a, l'⟩
    · rfl
    · rcases hm' : m.drop n with _ | ⟨b, m'⟩
      · rfl
      · rw [hl', hm', head?_cons, head?_cons, Ne, Option.some.injEq] at hhead
        rw [commonPrefixLength, if_neg hhead]

end CommonPrefix

end Lib
