/-
# Vector stores

A vector program stores a block of lanes at once: lane `l` goes to its own address, and the lanes that
the mask leaves out are not stored.  Each store here fills a window of consecutive addresses
(`storeLanes_eq_overwrite`), and so do loops of stores: blocks of a fixed width with the last one cut
short (`storeBlocks_eq_overwrite`), and windows of equal length side by side (`foldl_overwrite_tiles`).
-/
import Mathlib.Tactic

namespace Lib

open List

variable {α : Type*} {width base len off : ℕ} {addr : ℕ → ℕ} {mask : ℕ → Bool} {data : ℕ → α}
  {m : ℕ → α} {a b l : ℕ}

/-! ## 1. Windows -/

/-- The memory `m` with `data` in the `len` addresses from `base` on. -/
def overwrite (base len : ℕ) (data : ℕ → α) (m : ℕ → α) (a : ℕ) : α :=
  if base ≤ a ∧ a < base + len then data (a - base) else m a

@[simp]
theorem overwrite_zero : overwrite base 0 data m = m := by
  funext a
  simp [overwrite]

theorem overwrite_apply_add (h : l < len) : overwrite base len data m (base + l) = data l := by
  have h' : base ≤ base + l ∧ base + l < base + len := by omega
  simp only [overwrite, if_pos h', Nat.add_sub_cancel_left]

theorem overwrite_of_outside (h : a < base ∨ base + len ≤ a) : overwrite base len data m a = m a := by
  have h' : ¬ (base ≤ a ∧ a < base + len) := by omega
  simp [overwrite, if_neg h']

/-- Two windows side by side. -/
theorem overwrite_append (len' : ℕ) (data' : ℕ → α) :
    overwrite (base + len) len' data' (overwrite base len data m) =
      overwrite base (len + len') (fun l => if l < len then data l else data' (l - len)) m := by
  funext a
  rcases Nat.lt_or_ge a base with h | h
  · rw [overwrite_of_outside (by omega), overwrite_of_outside (by omega),
      overwrite_of_outside (by omega)]
  obtain ⟨l, rfl⟩ := Nat.exists_eq_add_of_le h
  rcases Nat.lt_or_ge l len with h1 | h1
  · rw [overwrite_of_outside (by omega), overwrite_apply_add h1, overwrite_apply_add (by omega),
      if_pos h1]
  rcases Nat.lt_or_ge l (len + len') with h2 | h2
  · obtain ⟨j, rfl⟩ := Nat.exists_eq_add_of_le h1
    rw [← Nat.add_assoc, overwrite_apply_add (by omega), Nat.add_assoc, overwrite_apply_add h2,
      if_neg (by omega), Nat.add_sub_cancel_left]
  · rw [overwrite_of_outside (by omega), overwrite_of_outside (by omega),
      overwrite_of_outside (by omega)]

theorem overwrite_congr {data' : ℕ → α} (h : ∀ l < len, data l = data' l) :
    overwrite base len data m = overwrite base len data' m := by
  funext a
  by_cases ha : base ≤ a ∧ a < base + len
  · simp [overwrite, h (a - base) (by omega)]
  · simp [overwrite, if_neg ha]

theorem tile_div (b : ℕ) (h : l < len) : (b * len + l) / len = b := by
  rw [Nat.mul_comm, Nat.mul_add_div (by omega), Nat.div_eq_of_lt h, Nat.add_zero]

/-- Rows of blocks that lie one behind the other, of a width that is the block's, share no address. -/
theorem rows_apart {start width : ℕ → ℕ} {n b b' t t' a : ℕ}
    (hstep : ∀ b, start b + width b * n ≤ start (b + 1)) (ht : t < n) (ht' : t' < n)
    (h : start b + width b * t ≤ a ∧ a < start b + width b * t + width b)
    (h' : start b' + width b' * t' ≤ a ∧ a < start b' + width b' * t' + width b') :
    b = b' ∧ t = t' := by
  have hmono : Monotone start := monotone_nat_of_le_succ fun b =>
    (Nat.le_add_right _ _).trans (hstep b)
  have hend : ∀ b t, t < n → start b + width b * t + width b ≤ start (b + 1) := by
    intro b t ht
    have hmul : width b * (t + 1) ≤ width b * n := Nat.mul_le_mul_left _ ht
    have := hstep b
    rw [Nat.mul_succ] at hmul
    omega
  have hblock : ∀ {b b' t t'}, t < n → b < b' → a < start b + width b * t + width b →
      start b' + width b' * t' ≤ a → False := by
    intro b b' t t' ht hlt hright hleft
    have hnext : start (b + 1) ≤ start b' := hmono hlt
    have := hend b t ht
    omega
  have hrow : ∀ {t t'}, t < t' → a < start b + width b * t + width b →
      start b + width b * t' ≤ a → False := by
    intro t t' hlt hright hleft
    have hmul : width b * (t + 1) ≤ width b * t' := Nat.mul_le_mul_left _ hlt
    rw [Nat.mul_succ] at hmul
    omega
  rcases lt_trichotomy b b' with hlt | rfl | hgt
  · exact (hblock ht hlt h.2 h'.1).elim
  · rcases lt_trichotomy t t' with hlt | rfl | hgt
    · exact (hrow hlt h.2 h'.1).elim
    · exact ⟨rfl, rfl⟩
    · exact (hrow hgt h'.2 h.1).elim
  · exact (hblock ht' hgt h'.2 h.1).elim

theorem foldl_overwrite_tiles (count : ℕ) (data : ℕ → ℕ → α) :
    (List.range count).foldl (fun m b => overwrite (base + b * len) len (data b) m) m =
      overwrite base (count * len) (fun l => data (l / len) (l % len)) m := by
  induction count with
  | zero => simp
  | succ count ih =>
    rw [range_succ, foldl_append, ih, foldl_cons, overwrite_append, Nat.succ_mul]
    refine overwrite_congr fun l hl => ?_
    split
    · rfl
    next hge =>
      obtain ⟨o, rfl⟩ := Nat.exists_eq_add_of_le (Nat.le_of_not_lt hge)
      have ho : o < len := by omega
      rw [tile_div count ho, Nat.mul_add_mod_of_lt ho, Nat.add_sub_cancel_left]

/-- Reading consecutive windows one after another. -/
theorem map_range_sum {β : Type*} (f : ℕ → β) (len start : ℕ → ℕ) (g : ℕ → ℕ → β) (count : ℕ)
    (h0 : start 0 = 0) (hsucc : ∀ r < count, start (r + 1) = start r + len r)
    (hg : ∀ r < count, ∀ i < len r, f (start r + i) = g r i) :
    (List.range (start count)).map f =
      (List.range count).flatMap fun r => (List.range (len r)).map (g r) := by
  induction count with
  | zero => simp [h0]
  | succ count ih =>
    rw [hsucc count (by omega), range_add, map_append, range_succ, flatMap_append,
      ih (fun r hr => hsucc r (by omega)) fun r hr => hg r (by omega)]
    congr 1
    rw [flatMap_singleton, map_map]
    exact map_congr_left fun i hi => hg count (by omega) i (mem_range.mp hi)

/-! ## 2. Stores -/

/-- A store of `width` lanes, under a mask. -/
def storeLanes (width : ℕ) (addr : ℕ → ℕ) (mask : ℕ → Bool) (data : ℕ → α) (m : ℕ → α) : ℕ → α :=
  (List.range width).foldl (fun m l => if mask l then Function.update m (addr l) (data l) else m) m

theorem storeLanes_succ :
    storeLanes (width + 1) addr mask data m =
      if mask width then Function.update (storeLanes width addr mask data m) (addr width) (data width)
      else storeLanes width addr mask data m := by
  rw [storeLanes, range_succ, foldl_append]
  rfl

/-- **A store whose lanes from `off` on go to consecutive addresses fills a window.** -/
theorem storeLanes_eq_overwrite (off base len : ℕ)
    (hmask : ∀ l < width, mask l = true ↔ off ≤ l ∧ l < off + len)
    (haddr : ∀ l, off ≤ l → l < off + len → addr l = base + (l - off)) :
    storeLanes width addr mask data m =
      overwrite base (min len (width - off)) (fun l => data (off + l)) m := by
  induction width with
  | zero => simp [storeLanes]
  | succ width ih =>
    rw [storeLanes_succ, ih fun l hl => hmask l (by omega)]
    by_cases h : off ≤ width ∧ width < off + len
    · have hlen : min len (width + 1 - off) = min len (width - off) + 1 := by omega
      rw [if_pos ((hmask width (by omega)).mpr h), haddr width h.1 h.2]
      funext a
      by_cases ha : a = base + (width - off)
      · rw [ha, Function.update_self, overwrite_apply_add (by omega), Nat.add_sub_cancel' h.1]
      · rw [Function.update_of_ne ha]
        by_cases hin : base ≤ a ∧ a < base + min len (width - off)
        · obtain ⟨l, rfl⟩ := Nat.exists_eq_add_of_le hin.1
          rw [overwrite_apply_add (by omega), overwrite_apply_add (by omega)]
        · rw [overwrite_of_outside (by omega), overwrite_of_outside (by omega)]
    · have hlen : min len (width + 1 - off) = min len (width - off) := by omega
      rw [if_neg fun hm => h ((hmask width (by omega)).mp hm), hlen]

theorem storeLanes_front (h : len ≤ width) :
    storeLanes width (fun l => base + l) (fun l => decide (l < len)) data m =
      overwrite base len data m := by
  rw [storeLanes_eq_overwrite 0 base len (fun l _ => by simp) fun l _ _ => by rw [Nat.sub_zero],
    Nat.min_eq_left (by omega)]
  simp

/-- A copy in blocks of `block` lanes, the last one masked. -/
def storeBlocks (block len base : ℕ) (data : ℕ → α) (m : ℕ → α) : ℕ → α :=
  (List.range ((len + block - 1) / block)).foldl
    (fun m i => storeLanes block (fun l => base + (l + i * block)) (fun l => l + i * block < len)
      (fun l => data (l + i * block)) m) m

theorem foldl_storeBlocks (block len base count : ℕ) (data : ℕ → α) (m : ℕ → α) :
    (List.range count).foldl
      (fun m i => storeLanes block (fun l => base + (l + i * block)) (fun l => l + i * block < len)
        (fun l => data (l + i * block)) m) m =
      overwrite base (min len (count * block)) data m := by
  induction count with
  | zero => simp
  | succ count ih =>
    have hstore : ∀ m : ℕ → α, storeLanes block (fun l => base + (l + count * block))
        (fun l => l + count * block < len) (fun l => data (l + count * block)) m =
        overwrite (base + count * block) (min (len - count * block) (block - 0))
          (fun l => data (0 + l + count * block)) m := by
      intro m
      refine storeLanes_eq_overwrite 0 _ _ (fun l _ => ?_) fun l _ _ => ?_
      · simp only [decide_eq_true_eq]
        omega
      · omega
    rw [range_succ, foldl_append, ih, foldl_cons, foldl_nil, hstore, Nat.succ_mul]
    rcases Nat.lt_or_ge (count * block) len with h | h
    · rw [Nat.min_eq_right h.le, overwrite_append]
      have hlen : count * block + min (len - count * block) (block - 0) =
          min len (count * block + block) := by omega
      rw [hlen]
      refine overwrite_congr fun l hl => ?_
      split
      · rfl
      · congr 1
        omega
    · have h1 : min (len - count * block) (block - 0) = 0 := by omega
      have h2 : min len (count * block) = min len (count * block + block) := by omega
      rw [h1, overwrite_zero, h2]

theorem storeBlocks_eq_overwrite {block : ℕ} (hb : 0 < block) :
    storeBlocks block len base data m = overwrite base len data m := by
  have h : len ≤ (len + block - 1) / block * block := by
    have hmod := Nat.mod_lt (len + block - 1) hb
    have hdiv := Nat.div_add_mod (len + block - 1) block
    rw [Nat.mul_comm] at hdiv
    omega
  rw [storeBlocks, foldl_storeBlocks, Nat.min_eq_left h]

end Lib
