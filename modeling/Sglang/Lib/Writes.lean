/-
# Writes to a buffer

Programs of a grid write to one buffer in an order that nobody fixes.  `applyWrites` carries out a list
of writes.  When no cell is written twice, the order does not matter (`applyWrites_perm`), and writes to
consecutive cells from several programs, each beginning where the one before it ends, are the writes of
one long list (`flatMap_consecutive`).
-/
import Mathlib.Data.List.Nodup

namespace Lib

open List

variable {α : Type*} {b n i k : ℕ} {vs ws : List α}

/-- The writes of the values to the cells from `b` on. -/
def consecutive (b : ℕ) (vs : List α) : List (ℕ × α) := (vs.zipIdx b).map Prod.swap

/-- The buffer after the writes. -/
def applyWrites (m : List α) (writes : List (ℕ × α)) : List α :=
  writes.foldl (fun m w => m.set w.1 w.2) m

/-! ## 1. Consecutive cells -/

@[simp]
theorem consecutive_nil : consecutive b ([] : List α) = [] := rfl

theorem consecutive_append :
    consecutive b (vs ++ ws) = consecutive b vs ++ consecutive (b + vs.length) ws := by
  rw [consecutive, zipIdx_append, map_append]
  rfl

theorem map_fst_consecutive (b : ℕ) (vs : List α) :
    (consecutive b vs).map Prod.fst = List.range' b vs.length := by
  rw [consecutive, map_map]
  exact zipIdx_map_snd b vs

theorem consecutive_map_range (b n : ℕ) (f : ℕ → α) :
    consecutive b ((List.range n).map f) = (List.range n).map fun k => (b + k, f k) := by
  induction n with
  | zero => rfl
  | succ n ih =>
    rw [range_succ, map_append, consecutive_append, ih, map_append, length_map, length_range]
    rfl

theorem flatMap_consecutive (start : ℕ → ℕ) (vals : ℕ → List α) (n : ℕ)
    (h : ∀ i < n, start (i + 1) = start i + (vals i).length) :
    (List.range n).flatMap (fun i => consecutive (start i) (vals i))
      = consecutive (start 0) ((List.range n).flatMap vals) ∧
    start n = start 0 + ((List.range n).flatMap vals).length := by
  induction n with
  | zero => simp
  | succ n ih =>
    obtain ⟨ih1, ih2⟩ := ih fun i hi => h i (Nat.lt_succ_of_lt hi)
    rw [range_succ, flatMap_append, flatMap_append, ih1, flatMap_singleton, flatMap_singleton,
      consecutive_append, length_append, ← Nat.add_assoc, ← ih2]
    exact ⟨rfl, h n (Nat.lt_succ_self n)⟩

theorem getElem?_flatMap_range (start : ℕ → ℕ) (vals : ℕ → List α) (n : ℕ)
    (h : ∀ i < n, start (i + 1) = start i + (vals i).length) (h0 : start 0 = 0) (hi : i < n)
    (hk : k < (vals i).length) : ((List.range n).flatMap vals)[start i + k]? = (vals i)[k]? := by
  have hsplit : List.range n = List.range i ++ i :: List.range' (i + 1) (n - (i + 1)) := by
    have hn : n = i + (1 + (n - (i + 1))) := by omega
    rw [range_eq_range', range_eq_range']
    conv_lhs => rw [hn, ← range'_append_1, ← range'_append_1]
    simp
  have hlen := (flatMap_consecutive start vals i fun j hj => h j (by omega)).2
  rw [h0, Nat.zero_add] at hlen
  rw [hsplit, flatMap_append, flatMap_cons, hlen,
    getElem?_append_right (Nat.le_add_right _ _), Nat.add_sub_cancel_left,
    getElem?_append_left hk]

theorem exists_piece (start : ℕ → ℕ) (h0 : start 0 = 0) : ∀ (n : ℕ) {m : ℕ}, m < start n →
    ∃ i < n, start i ≤ m ∧ m < start (i + 1)
  | 0, m, h => by omega
  | n + 1, m, h => by
    rcases Nat.lt_or_ge m (start n) with hlt | hge
    · obtain ⟨i, hi, hm⟩ := exists_piece start h0 n hlt
      exact ⟨i, Nat.lt_succ_of_lt hi, hm⟩
    · exact ⟨n, Nat.lt_succ_self n, hge, h⟩

/-! ## 2. The buffer -/

variable {writes : List (ℕ × α)}

/-- **The order of writes to different cells does not matter.** -/
theorem applyWrites_perm (m : List α) {writes' : List (ℕ × α)} (h : writes'.Perm writes)
    (hnd : (writes.map Prod.fst).Nodup) : applyWrites m writes' = applyWrites m writes := by
  refine h.foldl_eq' (fun x hx y hy m => ?_) m
  rcases eq_or_ne x y with rfl | hne
  · rfl
  · refine set_comm _ _ fun heq => hne ?_
    exact inj_on_of_nodup_map hnd (h.mem_iff.mp hx) (h.mem_iff.mp hy) heq

theorem applyWrites_consecutive (pre old vs post : List α) (h : vs.length = old.length) :
    applyWrites (pre ++ old ++ post) (consecutive pre.length vs) = pre ++ vs ++ post := by
  induction vs generalizing pre old with
  | nil =>
    rw [eq_nil_of_length_eq_zero h.symm]
    rfl
  | cons v vs ih =>
    cases old with
    | nil => simp at h
    | cons o old =>
      have hrest := ih (pre ++ [v]) old (by simpa using h)
      rw [length_append] at hrest
      have hset : (pre ++ (o :: old) ++ post).set pre.length v = pre ++ [v] ++ old ++ post := by
        simp
      rw [consecutive, zipIdx_cons, map_cons, applyWrites, foldl_cons]
      simp only [Prod.swap_prod_mk, hset]
      rw [show pre ++ v :: vs ++ post = pre ++ [v] ++ vs ++ post by simp, ← hrest]
      rfl

end Lib
