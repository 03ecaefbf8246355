/-
# Slots laid out in pages

A pool hands out its slots a page at a time: page `q` of a pool with pages of `p` slots is the
run `q * p, .., q * p + p - 1`.  A list of slots is `Paged` when it reads off whole pages one
after the other, up to a last page that may be cut short; its `heads` are the pages it reads, in
order and with repetitions.  All bookkeeping about who owns which page is done with `heads`,
because it turns cutting and joining lists of slots into cutting and joining lists of pages.
-/
import Mathlib.Data.List.GetD
import Mathlib.Tactic

namespace Lib

open List

variable {p : ℕ} {vs ws : List ℕ}

/-! ## 1. Counting pages -/

/-- The number of pages that `n` slots from the start of a page on lie in. -/
def pageCount (p n : ℕ) : ℕ := (n + p - 1) / p

@[simp] theorem pageCount_zero (hp : 0 < p) : pageCount p 0 = 0 := by
  exact Nat.div_eq_of_lt (by omega)

theorem pageCount_mul_add (hp : 0 < p) (j n : ℕ) : pageCount p (p * j + n) = j + pageCount p n := by
  have h : p * j + n + p - 1 = n + p - 1 + p * j := by omega
  rw [pageCount, pageCount, h, Nat.add_mul_div_left _ _ hp, Nat.add_comm]

@[simp] theorem pageCount_mul (hp : 0 < p) (j : ℕ) : pageCount p (p * j) = j := by
  have := pageCount_mul_add hp j 0
  rwa [pageCount_zero hp] at this

variable {n : ℕ}

theorem lt_pageCount_iff (hp : 0 < p) {k : ℕ} : k < pageCount p n ↔ k * p < n := by
  rw [pageCount, Nat.lt_iff_add_one_le, Nat.le_div_iff_mul_le hp, Nat.add_mul]
  omega

variable {m : ℕ}

theorem pageCount_mono (p : ℕ) (h : m ≤ n) : pageCount p m ≤ pageCount p n :=
  Nat.div_le_div_right (by omega)

theorem pageCount_one (n : ℕ) : pageCount 1 n = n := by simp [pageCount]

variable {j : ℕ}

theorem pageCount_le_iff (hp : 0 < p) : pageCount p n ≤ j ↔ n ≤ p * j := by
  rw [← not_lt, lt_pageCount_iff hp, not_lt, Nat.mul_comm]

/-! ## 2. The pages a list of slots reads -/

/-- The pages of a list of slots, one for every `p` positions. -/
def heads (p : ℕ) (vs : List ℕ) : List ℕ :=
  (List.range (pageCount p vs.length)).map fun k => vs.getD (k * p) 0 / p

/-- The list reads its pages from their first slot on. -/
def Paged (p : ℕ) (vs : List ℕ) : Prop :=
  ∀ i < vs.length, vs.getD i 0 = vs.getD (i / p * p) 0 / p * p + i % p

@[simp] theorem length_heads (p : ℕ) (vs : List ℕ) :
    (heads p vs).length = pageCount p vs.length := by
  simp [heads]

theorem getElem?_heads (p : ℕ) (vs : List ℕ) (k : ℕ) :
    (heads p vs)[k]? = if k < pageCount p vs.length then some (vs.getD (k * p) 0 / p) else none := by
  by_cases h : k < pageCount p vs.length
  · simp [heads, h]
  · simp [heads, h]

@[simp] theorem heads_nil (hp : 0 < p) : heads p [] = [] := by simp [heads, hp]

variable {i : ℕ}

theorem getD_append_right : (vs ++ ws).getD (vs.length + i) 0 = ws.getD i 0 := by
  rw [getD_eq_getElem?_getD, getD_eq_getElem?_getD,
    getElem?_append_right (Nat.le_add_right _ _), Nat.add_sub_cancel_left]

/-- **Joining behind whole pages joins the page lists.** -/
theorem heads_append (hp : 0 < p) (hd : p ∣ vs.length) :
    heads p (vs ++ ws) = heads p vs ++ heads p ws := by
  obtain ⟨j, hj⟩ := hd
  apply ext_getElem?
  intro k
  have hcount : pageCount p (vs ++ ws).length = j + pageCount p ws.length := by
    rw [length_append, hj, pageCount_mul_add hp]
  have hj' : pageCount p vs.length = j := by rw [hj, pageCount_mul hp]
  rw [getElem?_heads, hcount]
  rcases Nat.lt_or_ge k j with hk | hk
  · have hlt : k * p < vs.length := by
      rw [hj, Nat.mul_comm p j]
      exact Nat.mul_lt_mul_of_pos_right hk hp
    rw [getElem?_append_left (by rw [length_heads, hj']; exact hk), getElem?_heads, hj',
      if_pos hk, if_pos (by omega), getD_append _ _ _ _ hlt]
  · obtain ⟨i, rfl⟩ := Nat.exists_eq_add_of_le hk
    have hpos : (j + i) * p = vs.length + i * p := by rw [hj]; ring
    rw [getElem?_append_right (by rw [length_heads, hj']; exact hk), length_heads, hj',
      getElem?_heads, hpos, getD_append_right]
    simp

theorem Paged.append (hp : 0 < p) (hd : p ∣ vs.length) (hv : Paged p vs) (hw : Paged p ws) :
    Paged p (vs ++ ws) := by
  intro i hi
  rcases Nat.lt_or_ge i vs.length with h | h
  · have h' : i / p * p < vs.length := lt_of_le_of_lt (Nat.div_mul_le_self _ _) h
    rw [getD_append _ _ _ _ h, getD_append _ _ _ _ h', hv i h]
  · obtain ⟨j, hj⟩ := hd
    obtain ⟨k, rfl⟩ := Nat.exists_eq_add_of_le h
    have hk : k < ws.length := by rw [length_append] at hi; omega
    have hdiv : (vs.length + k) / p * p = vs.length + k / p * p := by
      rw [hj, Nat.mul_add_div hp, Nat.add_mul, Nat.mul_comm j p]
    rw [hdiv, getD_append_right, getD_append_right, hw k hk, hj, Nat.mul_add_mod]

theorem Paged.of_append (hp : 0 < p) (hd : p ∣ vs.length) (h : Paged p (vs ++ ws)) :
    Paged p vs ∧ Paged p ws := by
  constructor
  · intro i hi
    have := h i (by rw [length_append]; omega)
    rwa [getD_append _ _ _ _ hi,
      getD_append _ _ _ _ (lt_of_le_of_lt (Nat.div_mul_le_self _ _) hi)] at this
  · obtain ⟨j, hj⟩ := hd
    intro k hk
    have := h (vs.length + k) (by rw [length_append]; omega)
    have hdiv : (vs.length + k) / p * p = vs.length + k / p * p := by
      rw [hj, Nat.mul_add_div hp, Nat.add_mul, Nat.mul_comm j p]
    rwa [hdiv, getD_append_right, getD_append_right, hj, Nat.mul_add_mod] at this

theorem Paged.take (h : Paged p vs) (n : ℕ) : Paged p (vs.take n) := by
  intro i hi
  rw [length_take, lt_min_iff] at hi
  have hlt : i / p * p < n := lt_of_le_of_lt (Nat.div_mul_le_self _ _) hi.1
  have := h i hi.2
  rw [getD_eq_getElem?_getD, getD_eq_getElem?_getD] at this ⊢
  rwa [getElem?_take_of_lt hi.1, getElem?_take_of_lt hlt]

theorem Paged.drop (hp : 0 < p) (h : Paged p vs) (j : ℕ) : Paged p (vs.drop (p * j)) := by
  rcases Nat.le_total (p * j) vs.length with hle | hle
  · have h' : Paged p (vs.take (p * j) ++ vs.drop (p * j)) := by rwa [take_append_drop]
    refine (h'.of_append hp ?_).2
    rw [length_take, min_eq_left hle]
    exact Dvd.intro _ rfl
  · rw [drop_eq_nil_of_le hle]
    intro i hi
    cases hi

@[simp] theorem paged_nil (p : ℕ) : Paged p [] := fun _ hi => nomatch hi

theorem heads_take (hp : 0 < p) (hn : n ≤ vs.length) :
    heads p (vs.take n) = (heads p vs).take (pageCount p n) := by
  apply ext_getElem?
  intro k
  rw [getElem?_heads, length_take, min_eq_left hn, getElem?_take, getElem?_heads]
  by_cases hk : k < pageCount p n
  · have hlt := (lt_pageCount_iff hp).mp hk
    rw [if_pos hk, if_pos hk, if_pos (lt_of_lt_of_le hk (pageCount_mono p hn)),
      getD_eq_getElem?_getD, getD_eq_getElem?_getD, getElem?_take_of_lt hlt]
  · rw [if_neg hk, if_neg hk]

theorem heads_drop (hp : 0 < p) (vs : List ℕ) (j : ℕ) :
    heads p (vs.drop (p * j)) = (heads p vs).drop j := by
  rcases Nat.le_total (p * j) vs.length with hle | hle
  · have hlen : (vs.take (p * j)).length = p * j := by rw [length_take, min_eq_left hle]
    have happ : heads p (vs.take (p * j) ++ vs.drop (p * j)) = _ :=
      heads_append hp (Dvd.intro j hlen.symm)
    rw [take_append_drop] at happ
    have hj : (heads p (vs.take (p * j))).length = j := by
      rw [length_heads, hlen, pageCount_mul hp]
    rw [happ, drop_left' hj]
  · have h : pageCount p vs.length ≤ j := (pageCount_le_iff hp).mpr hle
    rw [drop_eq_nil_of_le hle, heads_nil hp, drop_eq_nil_of_le]
    rw [length_heads]
    exact h

theorem heads_slice (hp : 0 < p) (hn : n ≤ vs.length) :
    heads p ((vs.take n).drop (p * j)) = ((heads p vs).take (pageCount p n)).drop j := by
  rw [heads_drop hp, heads_take hp hn]

/-! ## 3. The set of pages -/

/-- The pages the slots of a list lie in. -/
def pagesOf (p : ℕ) (vs : List ℕ) : Finset ℕ := (vs.map (· / p)).toFinset

theorem mem_pagesOf {q : ℕ} : q ∈ pagesOf p vs ↔ ∃ s ∈ vs, s / p = q := by
  simp [pagesOf]

/-- **A paged list reads the pages its slots lie in.** -/
theorem Paged.toFinset_heads (hp : 0 < p) (h : Paged p vs) :
    (heads p vs).toFinset = pagesOf p vs := by
  ext q
  rw [mem_toFinset, mem_pagesOf, mem_iff_getElem?]
  constructor
  · rintro ⟨k, hk⟩
    rw [getElem?_heads] at hk
    split at hk
    · rename_i hlt
      have hlt' := (lt_pageCount_iff hp).mp hlt
      refine ⟨vs.getD (k * p) 0, ?_, Option.some.inj hk⟩
      rw [getD_eq_getElem _ _ hlt']
      exact getElem_mem hlt'
    · cases hk
  · rintro ⟨s, hs, rfl⟩
    obtain ⟨i, hi, rfl⟩ := mem_iff_getElem.mp hs
    refine ⟨i / p, ?_⟩
    have hlt : i / p < pageCount p vs.length :=
      (lt_pageCount_iff hp).mpr (lt_of_le_of_lt (Nat.div_mul_le_self _ _) hi)
    have heq := h i hi
    rw [getD_eq_getElem _ _ hi] at heq
    rw [getElem?_heads, if_pos hlt, heq, Nat.add_comm,
      Nat.add_mul_div_right _ _ hp, Nat.div_eq_of_lt (Nat.mod_lt i hp), Nat.zero_add]

theorem heads_one (vs : List ℕ) : heads 1 vs = vs := by
  apply ext_getElem?
  intro k
  rw [getElem?_heads, pageCount_one]
  by_cases h : k < vs.length
  · rw [if_pos h, Nat.mul_one, Nat.div_one, getD_eq_getElem _ _ h, getElem?_eq_getElem h]
  · rw [if_neg h, getElem?_eq_none (by omega)]

/-! ## 4. Whole pages -/

/-- Slots that read their pages from the first slot on, and each page once. -/
structure Whole (p : ℕ) (vs : List ℕ) : Prop where
  paged : Paged p vs
  nodup : (heads p vs).Nodup

theorem Whole.take (hp : 0 < p) (h : Whole p vs) (n : ℕ) : Whole p (vs.take n) := by
  refine ⟨h.paged.take n, ?_⟩
  rcases Nat.le_total n vs.length with hn | hn
  · rw [heads_take hp hn]
    exact h.nodup.sublist (take_sublist _ _)
  · rw [take_of_length_le hn]
    exact h.nodup

theorem Whole.drop (hp : 0 < p) (h : Whole p vs) (j : ℕ) : Whole p (vs.drop (p * j)) := by
  refine ⟨h.paged.drop hp j, ?_⟩
  rw [heads_drop hp]
  exact h.nodup.sublist (drop_sublist _ _)

/-! ## 5. Laying out fresh pages -/

/-- The slots of a list of pages. -/
def expand (p : ℕ) (pgs : List ℕ) : List ℕ := pgs.flatMap fun q => List.range' (q * p) p

@[simp] theorem length_expand (p : ℕ) (pgs : List ℕ) : (expand p pgs).length = p * pgs.length := by
  induction pgs with
  | nil => simp [expand]
  | cons q pgs ih =>
    rw [expand, flatMap_cons, length_append, length_range', ← expand, ih, length_cons]
    ring

theorem paged_range' (hp : 0 < p) (q : ℕ) (hn : n ≤ p) :
    Paged p (List.range' (q * p) n) ∧ heads p (List.range' (q * p) n) = [q].take n := by
  have hget : ∀ i < n, (List.range' (q * p) n).getD i 0 = q * p + i := by
    intro i hi
    rw [getD_eq_getElem _ _ (by rw [length_range']; exact hi), getElem_range', Nat.one_mul]
  constructor
  · intro i hi
    rw [length_range'] at hi
    have hip : i < p := by omega
    rw [hget i hi, Nat.div_eq_of_lt hip, Nat.zero_mul, hget 0 (by omega), Nat.add_zero,
      Nat.mul_div_cancel _ hp, Nat.mod_eq_of_lt hip]
  · cases n with
    | zero => simp [hp]
    | succ n =>
      have hc : pageCount p (n + 1) = 1 := by
        apply Nat.le_antisymm
        · rw [pageCount_le_iff hp]; omega
        · exact (lt_pageCount_iff hp).mpr (by omega)
      rw [heads, length_range', hc]
      simp [hp]

theorem paged_expand (hp : 0 < p) : ∀ pgs : List ℕ,
    Paged p (expand p pgs) ∧ heads p (expand p pgs) = pgs
  | [] => by simp [expand, hp]
  | q :: pgs => by
    obtain ⟨h1, h2⟩ := paged_range' hp q le_rfl
    obtain ⟨h3, h4⟩ := paged_expand hp pgs
    have hd : p ∣ (List.range' (q * p) p).length := by simp
    rw [expand, flatMap_cons, ← expand]
    refine ⟨h1.append hp hd h3, ?_⟩
    rw [heads_append hp hd, h2, h4, take_of_length_le (Nat.succ_le_of_lt hp)]
    rfl

theorem getD_expand (hp : 0 < p) : ∀ (pgs : List ℕ) {k : ℕ}, k < p * pgs.length →
    (expand p pgs).getD k 0 = pgs.getD (k / p) 0 * p + k % p
  | [], k, hk => by simp at hk
  | q :: pgs, k, hk => by
    rw [expand, flatMap_cons, ← expand]
    rcases Nat.lt_or_ge k p with h | h
    · rw [getD_append _ _ _ _ (by rw [length_range']; exact h), Nat.div_eq_of_lt h,
        Nat.mod_eq_of_lt h, getD_eq_getElem _ _ (by rw [length_range']; exact h),
        getElem_range', Nat.one_mul]
      rfl
    · obtain ⟨i, rfl⟩ := Nat.exists_eq_add_of_le h
      have hi : i < p * pgs.length := by
        rw [length_cons, Nat.mul_add] at hk
        omega
      have hlen : (List.range' (q * p) p).length + i = p + i := by rw [length_range']
      rw [← hlen, getD_append_right, getD_expand hp pgs hi, hlen, Nat.add_div_left _ hp,
        Nat.add_mod_left, getD_cons_succ]

/-- The first slots of a list of pages, one by one. -/
theorem take_expand (hp : 0 < p) {pgs : List ℕ} (hm : m ≤ p * pgs.length) :
    (expand p pgs).take m = (List.range m).map fun k => pgs.getD (k / p) 0 * p + k % p := by
  apply ext_getElem?
  intro k
  rw [getElem?_take]
  by_cases hk : k < m
  · have hlt : k < (expand p pgs).length := by rw [length_expand]; omega
    rw [getElem?_eq_getElem hlt, ← getD_eq_getElem _ 0 hlt, getD_expand hp pgs (by omega)]
    simp [hk]
  · rw [if_neg hk]
    simp [hk]

/-- **Filling up a cut page** from the slot after its last one keeps the pages as they are. -/
theorem Paged.fill (hp : 0 < p) (h : Paged p vs) (hlast : vs ≠ [])
    (hn : vs.length + n ≤ p * pageCount p vs.length) :
    Paged p (vs ++ List.range' (vs.getLastD 0 + 1) n) ∧
      heads p (vs ++ List.range' (vs.getLastD 0 + 1) n) = heads p vs := by
  obtain ⟨j, hj⟩ : ∃ j, pageCount p vs.length = j + 1 := by
    refine Nat.exists_eq_succ_of_ne_zero (Nat.pos_iff_ne_zero.mp ?_)
    have := length_pos_of_ne_nil hlast
    exact (lt_pageCount_iff hp).mpr (by omega)
  rw [hj] at hn
  have hjlt : j * p < vs.length := (lt_pageCount_iff hp).mp (by rw [hj]; exact Nat.lt_succ_self j)
  have hmul : p * (j + 1) = j * p + p := by ring
  have hdivj : ∀ i, j * p ≤ i → i < j * p + p → i / p = j ∧ i % p = i - j * p := by
    intro i h1 h2
    have hd : i / p = j := by
      rw [Nat.div_eq_iff hp]
      omega
    refine ⟨hd, ?_⟩
    have := Nat.div_add_mod i p
    rw [hd, Nat.mul_comm] at this
    omega
  have hlastD : vs.getLastD 0 = vs.getD (vs.length - 1) 0 := by
    rw [getLastD_eq_getLast?, getLast?_eq_getElem?, getD_eq_getElem?_getD]
  have hval : vs.getLastD 0 = vs.getD (j * p) 0 / p * p + (vs.length - 1 - j * p) := by
    obtain ⟨h1, h2⟩ := hdivj (vs.length - 1) (by omega) (by omega)
    rw [hlastD, h (vs.length - 1) (by omega), h1, h2]
  constructor
  · intro i hi
    rw [length_append, length_range'] at hi
    rcases Nat.lt_or_ge i vs.length with hlt | hge
    · rw [getD_append _ _ _ _ hlt, getD_append _ _ _ _ (lt_of_le_of_lt (Nat.div_mul_le_self _ _) hlt)]
      exact h i hlt
    · obtain ⟨h1, h2⟩ := hdivj i (by omega) (by omega)
      obtain ⟨k, rfl⟩ := Nat.exists_eq_add_of_le hge
      have hk : k < n := by omega
      rw [getD_append_right, h1, getD_append _ _ _ _ hjlt,
        getD_eq_getElem _ _ (by rw [length_range']; exact hk), getElem_range']
      omega
  · apply ext_getElem?
    intro k
    have hcount : pageCount p (vs ++ List.range' (vs.getLastD 0 + 1) n).length
        = pageCount p vs.length := by
      apply Nat.le_antisymm
      · rw [pageCount_le_iff hp, hj, length_append, length_range']
        exact hn
      · exact pageCount_mono p (by rw [length_append]; omega)
    rw [getElem?_heads, getElem?_heads, hcount]
    by_cases hk : k < pageCount p vs.length
    · rw [if_pos hk, if_pos hk, getD_append _ _ _ _ ((lt_pageCount_iff hp).mp hk)]
    · rw [if_neg hk, if_neg hk]

end Lib
