/-
# Decoding UTF-8 with replacement

Bytes are decoded one at a time.  Between characters the decoder has no state; inside a character it keeps
the bits read so far, how many bytes are missing and which bytes may come next.  A byte that does not fit
gives the replacement character for what was read, and is read again as the first byte of a character; so
does the end of the bytes inside a character.  The decoded text of a part is therefore final up to the
last, unfinished character (`closed_isPrefix`), and all of it if the part is `Complete`.
-/
import Mathlib.Tactic

namespace Lib

namespace Utf8

open List

/-! ## 1. The decoder -/

/-- U+FFFD. -/
def replacementChar : Char := Char.ofNat 0xFFFD

/-- An unfinished character: its bits so far, the bytes missing after the next one, and the range of the
next one. -/
structure Unfinished where
  bits : ℕ
  missing : ℕ
  low : UInt8
  high : UInt8
deriving DecidableEq

/-- A byte between characters. -/
def first (b : UInt8) : List Char × Option Unfinished :=
  if b < 0x80 then ([Char.ofNat b.toNat], none)
  else if b < 0xC2 then ([replacementChar], none)
  else if b < 0xE0 then ([], some ⟨b.toNat - 0xC0, 0, 0x80, 0xBF⟩)
  else if b < 0xF0 then
    ([], some ⟨b.toNat - 0xE0, 1, if b = 0xE0 then 0xA0 else 0x80, if b = 0xED then 0x9F else 0xBF⟩)
  else if b < 0xF5 then
    ([], some ⟨b.toNat - 0xF0, 2, if b = 0xF0 then 0x90 else 0x80, if b = 0xF4 then 0x8F else 0xBF⟩)
  else ([replacementChar], none)

/-- A byte inside a character. -/
def next (u : Unfinished) (b : UInt8) : List Char × Option Unfinished :=
  if u.low ≤ b ∧ b ≤ u.high then
    let bits := u.bits * 64 + (b.toNat - 0x80)
    match u.missing with
    | 0 => ([Char.ofNat bits], none)
    | missing + 1 => ([], some ⟨bits, missing, 0x80, 0xBF⟩)
  else (replacementChar :: (first b).1, (first b).2)

def step : Option Unfinished → UInt8 → List Char × Option Unfinished
  | none, b => first b
  | some u, b => next u b

/-- The characters of the bytes, and the unfinished one. -/
def feed : Option Unfinished → List UInt8 → List Char × Option Unfinished
  | s, [] => ([], s)
  | s, b :: bs => ((step s b).1 ++ (feed (step s b).2 bs).1, (feed (step s b).2 bs).2)

/-- What stands for an unfinished character at the end. -/
def flush : Option Unfinished → List Char
  | none => []
  | some _ => [replacementChar]

/-- The text of the bytes. -/
def decode (bs : List UInt8) : List Char := (feed none bs).1 ++ flush (feed none bs).2

/-- The bytes end between characters. -/
def Complete (bs : List UInt8) : Prop := (feed none bs).2 = none

instance (bs : List UInt8) : Decidable (Complete bs) := inferInstanceAs (Decidable (_ = _))

/-- The text before the unfinished character. -/
def closed (bs : List UInt8) : List Char := (feed none bs).1

/-! ## 2. Parts -/

variable {a b : List UInt8} {s : Option Unfinished}

theorem feed_append (s : Option Unfinished) (a b : List UInt8) :
    feed s (a ++ b) = ((feed s a).1 ++ (feed (feed s a).2 b).1, (feed (feed s a).2 b).2) := by
  induction a generalizing s with
  | nil => rfl
  | cons x a ih =>
    rw [cons_append, feed, ih]
    simp [feed]

@[simp]
theorem complete_nil : Complete [] := rfl

/-- **A part that ends between characters is decoded by itself.** -/
theorem decode_append (ha : Complete a) (b : List UInt8) : decode (a ++ b) = decode a ++ decode b := by
  rw [Complete] at ha
  simp [decode, feed_append, ha, flush]

theorem closed_isPrefix (a b : List UInt8) : closed a <+: decode (a ++ b) := by
  rw [decode, feed_append, append_assoc]
  exact prefix_append _ _

theorem decode_eq_closed (a : List UInt8) :
    (Complete a ∧ decode a = closed a) ∨ decode a = closed a ++ [replacementChar] := by
  rw [Complete, decode, closed]
  cases h : (feed none a).2 with
  | none => exact .inl ⟨rfl, by rw [flush, append_nil]⟩
  | some u => exact .inr rfl

theorem dropLast_prefix (a b : List UInt8) : (decode a).dropLast <+: decode (a ++ b) := by
  rcases decode_eq_closed a with ⟨-, h⟩ | h
  · rw [h]
    exact (List.dropLast_prefix _).trans (closed_isPrefix a b)
  · rw [h, dropLast_concat]
    exact closed_isPrefix a b

/-- A text that does not end in a replacement character ends between characters. -/
theorem complete_of_getLast (h : (decode a).getLast? ≠ some replacementChar) : Complete a := by
  rcases decode_eq_closed a with ⟨hc, -⟩ | hr
  · exact hc
  · rw [hr, getLast?_concat] at h
    exact absurd rfl h

theorem next_length (u : Unfinished) (b : UInt8) : (next u b).1 ≠ [] ∨ (next u b).2 ≠ none := by
  unfold next
  split_ifs
  · dsimp only
    split <;> simp
  · simp

theorem flush_length_le (s : Option Unfinished) (b : List UInt8) :
    (flush s).length ≤ ((feed s b).1 ++ flush (feed s b).2).length := by
  induction b generalizing s with
  | nil => simp [feed]
  | cons x b ih =>
    cases s with
    | none => exact Nat.zero_le _
    | some u =>
      have h := ih (step (some u) x).2
      simp only [feed, append_assoc, length_append, flush, length_singleton] at h ⊢
      rcases next_length u x with hne | hne
      · have hpos := length_pos_of_ne_nil hne
        simp only [step]
        omega
      · obtain ⟨v, hv⟩ := Option.ne_none_iff_exists'.mp hne
        simp only [step, hv, length_singleton] at h ⊢
        omega

theorem decode_length_le (a b : List UInt8) : (decode a).length ≤ (decode (a ++ b)).length := by
  have h := flush_length_le (feed none a).2 b
  simp only [decode, feed_append, append_assoc, length_append] at h ⊢
  omega

end Utf8

end Lib
