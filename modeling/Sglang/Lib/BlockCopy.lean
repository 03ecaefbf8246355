/-
# Copies of byte ranges

A store has buffers, each with an unbounded row of cells.  A write fills one range of one
buffer.  Several parties write into the same store and nothing fixes the order of what they
write, so the store after a batch of writes is described by two facts that no order changes:
which cells some write covers, and the one value that every write puts into a cell it covers.
-/
import Mathlib.Data.List.SplitBy

namespace Lib

open List

/-- Buffers of cells. -/
abbrev Store (κ β : Type) := κ → Nat → β

/-- `length` cells of `buffer` from `start` on, and what is put into each of them. -/
structure Write (κ β : Type) where
  buffer : κ
  start : Nat
  length : Nat
  cell : Nat → β

namespace Write

variable {κ β : Type}

/-- The write fills cell `a` of buffer `k`. -/
def Covers (w : Write κ β) (k : κ) (a : Nat) : Prop :=
  k = w.buffer ∧ w.start ≤ a ∧ a < w.start + w.length

instance [DecidableEq κ] (w : Write κ β) (k : κ) (a : Nat) : Decidable (w.Covers k a) :=
  inferInstanceAs (Decidable (_ ∧ _ ∧ _))

/-- What the write puts down is what `v` has there. -/
def Of (v : Store κ β) (w : Write κ β) : Prop :=
  ∀ x < w.length, w.cell x = v w.buffer (w.start + x)

variable [DecidableEq κ]

def apply (w : Write κ β) (m : Store κ β) : Store κ β := fun k a =>
  if w.Covers k a then w.cell (a - w.start) else m k a

theorem apply_covered {w : Write κ β} {v m : Store κ β} {k : κ} {a : Nat} (h : w.Of v)
    (hc : w.Covers k a) : w.apply m k a = v k a := by
  obtain ⟨rfl, hle, hlt⟩ := hc
  rw [apply, if_pos ⟨rfl, hle, hlt⟩, h _ (by omega)]
  congr 1
  omega

theorem apply_other {w : Write κ β} {m : Store κ β} {k : κ} {a : Nat} (hc : ¬ w.Covers k a) :
    w.apply m k a = m k a := if_neg hc

end Write

section Batch

variable {κ β : Type} [DecidableEq κ]

/-- A batch of writes, one after the other. -/
def writeAll (m : Store κ β) (ws : List (Write κ β)) : Store κ β :=
  ws.foldl (fun m w => w.apply m) m

@[simp] theorem writeAll_cons (m : Store κ β) (w : Write κ β) (ws : List (Write κ β)) :
    writeAll m (w :: ws) = writeAll (w.apply m) ws := rfl

theorem writeAll_other {ws : List (Write κ β)} {m : Store κ β} {k : κ} {a : Nat}
    (h : ∀ w ∈ ws, ¬ w.Covers k a) : writeAll m ws k a = m k a := by
  induction ws generalizing m with
  | nil => rfl
  | cons w ws ih =>
    rw [writeAll_cons, ih (fun w' hw' => h w' (mem_cons_of_mem _ hw')),
      Write.apply_other (h w mem_cons_self)]

theorem writeAll_covered {ws : List (Write κ β)} {v m : Store κ β} {k : κ} {a : Nat}
    (hv : ∀ w ∈ ws, w.Of v) (hc : ∃ w ∈ ws, w.Covers k a) : writeAll m ws k a = v k a := by
  induction ws generalizing m with
  | nil =>
    obtain ⟨w, hw, _⟩ := hc
    exact absurd hw not_mem_nil
  | cons w ws ih =>
    rw [writeAll_cons]
    have hv' : ∀ w' ∈ ws, w'.Of v := fun w' hw' => hv w' (mem_cons_of_mem _ hw')
    by_cases hlater : ∃ w' ∈ ws, w'.Covers k a
    · exact ih hv' hlater
    · have hnone : ∀ w' ∈ ws, ¬ w'.Covers k a := fun w' hw' hcov => hlater ⟨w', hw', hcov⟩
      obtain ⟨w', hw', hcov⟩ := hc
      rcases mem_cons.1 hw' with rfl | hw'
      · rw [writeAll_other hnone, Write.apply_covered (hv _ mem_cons_self) hcov]
      · exact absurd hcov (hnone w' hw')

/-- **The order of a batch does not matter**: writes of one value that fill the cells `C` leave
that value in `C` and everything else as it was. -/
theorem writeAll_eq {ws : List (Write κ β)} {v : Store κ β} {C : κ → Nat → Prop}
    [∀ k a, Decidable (C k a)] (hv : ∀ w ∈ ws, w.Of v)
    (hC : ∀ k a, C k a ↔ ∃ w ∈ ws, w.Covers k a) (m : Store κ β) (k : κ) (a : Nat) :
    writeAll m ws k a = if C k a then v k a else m k a := by
  split
  · next hc => exact writeAll_covered hv ((hC k a).1 hc)
  · next hc => exact writeAll_other fun w hw hcov => hc ((hC k a).2 ⟨w, hw, hcov⟩)

end Batch

/-! ## Rows of equal length -/

theorem radix_div {w p x : Nat} (hx : x < w) : (p * w + x) / w = p := by
  rw [Nat.mul_comm, Nat.mul_add_div (by omega), Nat.div_eq_of_lt hx, Nat.add_zero]

theorem radix_lt {w p q x : Nat} (hp : p < q) (hx : x < w) : p * w + x < q * w := by
  calc p * w + x < p * w + w := by omega
    _ = (p + 1) * w := by rw [Nat.succ_mul]
    _ ≤ q * w := Nat.mul_le_mul_right _ hp

/-- The row-major list of a table of `rows` rows and `cols` columns. -/
def rowMajor {α : Type} (rows cols : Nat) (f : Nat → Nat → α) : List α :=
  (List.range (rows * cols)).map fun x => f (x / cols) (x % cols)

theorem mem_rowMajor {α : Type} {rows cols : Nat} {f : Nat → Nat → α} {y : α} :
    y ∈ rowMajor rows cols f ↔ ∃ p < rows, ∃ q < cols, y = f p q := by
  simp only [rowMajor, mem_map, mem_range]
  constructor
  · rintro ⟨x, hx, rfl⟩
    have hcols : 0 < cols := Nat.pos_of_ne_zero fun h => by simp [h] at hx
    exact ⟨x / cols, Nat.div_lt_of_lt_mul (by rwa [Nat.mul_comm]), x % cols, Nat.mod_lt _ hcols, rfl⟩
  · rintro ⟨p, hp, q, hq, rfl⟩
    exact ⟨p * cols + q, radix_lt hp hq, by rw [radix_div hq, Nat.mul_add_mod_of_lt hq]⟩

end Lib
