/-
# Texts in characters and in bytes

The helpers of `tree.rs` that count characters: `shared_prefix_count`, `advance_by_chars`,
`take_chars` and `NodeText`.  A text is its list of characters.  The first two have a fast path on
the UTF-8 bytes for texts that begin with ASCII; it gives the same as going through the characters,
because a character outside of ASCII begins with a byte from 128 on.
-/
import Sglang.Lib.Chunks

namespace Sglang

namespace CharText

open Lib List

/-! ## 1. Bytes -/

/-- The UTF-8 bytes of a text. -/
def asBytes (s : List Char) : List UInt8 := s.flatMap String.utf8EncodeChar

/-- `[u8]::is_ascii`. -/
def isAscii (bytes : List UInt8) : Bool := bytes.all (· < 128)

/-- `&s[n..]`, at the boundary of a character. -/
def sliceFrom : ℕ → List Char → List Char
  | 0, s => s
  | _ + 1, [] => []
  | n + 1, c :: s => sliceFrom (n + 1 - c.utf8Size) s

/-- `shared_prefix_count`. -/
def sharedPrefixCount (a b : List Char) : ℕ :=
  let commonByteLen := commonPrefixLength (asBytes a) (asBytes b)
  if isAscii ((asBytes a).take commonByteLen) then commonByteLen else commonPrefixLength a b

/-- `advance_by_chars`. -/
def advanceByChars (s : List Char) (n : ℕ) : List Char :=
  if n = 0 then s
  else if n ≥ (asBytes s).length then []
  else if isAscii ((asBytes s).take n) then sliceFrom n s
  else s.drop n

/-- `take_chars`. -/
def takeChars (s : List Char) (n : ℕ) : List Char := if n = 0 then [] else s.take n

/-! ## 2. The fast paths -/

theorem asBytes_cons (c : Char) (s : List Char) :
    asBytes (c :: s) = String.utf8EncodeChar c ++ asBytes s := by
  simp [asBytes]

/-- A character of ASCII is one byte, and any other begins with a byte from 128 on. -/
theorem utf8EncodeChar_cases (c : Char) :
    (c.val.toNat < 128 ∧ c.utf8Size = 1 ∧ String.utf8EncodeChar c = [UInt8.ofNat c.val.toNat]) ∨
      ∃ b l, String.utf8EncodeChar c = b :: l ∧ ¬ b < 128 := by
  have hbyte : ∀ n, n < 256 → 128 ≤ n → ¬ UInt8.ofNat n < 128 := by
    intro n h₁ h₂
    change ¬ n % 2 ^ 8 < 128
    omega
  have hsize := String.length_utf8EncodeChar c
  unfold String.utf8EncodeChar at hsize ⊢
  simp only at hsize ⊢
  split
  · rename_i h
    rw [if_pos h] at hsize
    exact .inl ⟨by omega, hsize.symm, rfl⟩
  · right
    split
    · exact ⟨_, _, rfl, hbyte _ (by omega) (by omega)⟩
    split
    · exact ⟨_, _, rfl, hbyte _ (by omega) (by omega)⟩
    · exact ⟨_, _, rfl, hbyte _ (by omega) (by omega)⟩

theorem ofNat_inj {c d : Char} (hc : c.val.toNat < 128) (hd : d.val.toNat < 128)
    (h : UInt8.ofNat c.val.toNat = UInt8.ofNat d.val.toNat) : c = d := by
  have h := congrArg UInt8.toNat h
  rw [UInt8.toNat_ofNat', UInt8.toNat_ofNat'] at h
  exact Char.ext (UInt32.toNat_inj.mp (by omega))

theorem not_isAscii_cons {b : UInt8} {l : List UInt8} (hb : ¬ b < 128) : isAscii (b :: l) = false := by
  simp [isAscii, hb]

/-- **Counting bytes is counting characters** while the common bytes are ASCII. -/
theorem commonPrefixLength_asBytes : ∀ a b : List Char,
    isAscii ((asBytes a).take (commonPrefixLength (asBytes a) (asBytes b))) = true →
    commonPrefixLength (asBytes a) (asBytes b) = commonPrefixLength a b
  | [], b, _ => by simp [asBytes, commonPrefixLength]
  | c :: a, [], _ => by
    cases hbytes : asBytes (c :: a) with
    | nil => simp [commonPrefixLength]
    | cons x l => simp [asBytes, commonPrefixLength]
  | c :: a, d :: b, h => by
    rw [asBytes_cons, asBytes_cons] at h ⊢
    rcases utf8EncodeChar_cases c with ⟨hc, -, hce⟩ | ⟨x, l, hce, hx⟩
    · rw [hce] at h ⊢
      rcases utf8EncodeChar_cases d with ⟨hd, -, hde⟩ | ⟨y, m, hde, hy⟩
      · rw [hde] at h ⊢
        simp only [singleton_append, commonPrefixLength] at h ⊢
        by_cases hcd : c = d
        · subst hcd
          simp only [if_true, take_succ_cons] at h ⊢
          have htail : isAscii ((asBytes a).take (commonPrefixLength (asBytes a) (asBytes b)))
              = true := by
            simp only [isAscii, all_cons, Bool.and_eq_true] at h
            exact h.2
          rw [commonPrefixLength_asBytes a b htail]
        · have hne : UInt8.ofNat c.val.toNat ≠ UInt8.ofNat d.val.toNat := fun e =>
            hcd (ofNat_inj hc hd e)
          simp only [if_neg hne, if_neg hcd]
      · rw [hde]
        have hlt : UInt8.ofNat c.val.toNat < 128 := by
          change c.val.toNat % 2 ^ 8 < 128
          omega
        have hne : UInt8.ofNat c.val.toNat ≠ y := fun e => hy (e ▸ hlt)
        have hcd : c ≠ d := by
          rintro rfl
          rw [hce] at hde
          exact hne (List.cons.inj hde).1
        simp only [cons_append, commonPrefixLength, if_neg hne, if_neg hcd]
    · -- the first byte is not ASCII, so the bytes have nothing in common
      have hzero : commonPrefixLength (String.utf8EncodeChar c ++ asBytes a)
          (String.utf8EncodeChar d ++ asBytes b) = 0 := by
        by_contra hpos
        obtain ⟨n, hn⟩ := Nat.exists_eq_succ_of_ne_zero hpos
        rw [hn, hce, cons_append, take_succ_cons, not_isAscii_cons hx] at h
        cases h
      have hcd : c ≠ d := by
        rintro rfl
        rw [hce, cons_append, cons_append, commonPrefixLength, if_pos rfl] at hzero
        cases hzero
      rw [hzero, commonPrefixLength, if_neg hcd]

theorem sharedPrefixCount_eq (a b : List Char) : sharedPrefixCount a b = commonPrefixLength a b := by
  unfold sharedPrefixCount
  simp only
  split
  · rename_i h
    exact commonPrefixLength_asBytes a b h
  · rfl

theorem length_le_asBytes : ∀ s : List Char, s.length ≤ (asBytes s).length
  | [] => Nat.zero_le _
  | c :: s => by
    have ih := length_le_asBytes s
    have hpos : 0 < c.utf8Size := Char.utf8Size_pos c
    rw [asBytes_cons, length_append, String.length_utf8EncodeChar, length_cons]
    omega

theorem sliceFrom_eq : ∀ (n : ℕ) (s : List Char), isAscii ((asBytes s).take n) = true →
    sliceFrom n s = s.drop n
  | 0, s, _ => by simp [sliceFrom]
  | n + 1, [], _ => by simp [sliceFrom]
  | n + 1, c :: s, h => by
    rw [asBytes_cons] at h
    rcases utf8EncodeChar_cases c with ⟨-, hsize, hce⟩ | ⟨x, l, hce, hx⟩
    · rw [hce, singleton_append, take_succ_cons] at h
      have htail : isAscii ((asBytes s).take n) = true := by
        simp only [isAscii, all_cons, Bool.and_eq_true] at h
        exact h.2
      rw [sliceFrom, hsize, Nat.add_sub_cancel, drop_succ_cons, sliceFrom_eq n s htail]
    · rw [hce, cons_append, take_succ_cons, not_isAscii_cons hx] at h
      cases h

theorem advanceByChars_eq (s : List Char) (n : ℕ) : advanceByChars s n = s.drop n := by
  unfold advanceByChars
  split
  · rename_i h
    rw [h, drop_zero]
  split
  · rename_i h
    exact (drop_eq_nil_of_le (le_trans (length_le_asBytes s) h)).symm
  split
  · rename_i h
    exact sliceFrom_eq n s h
  · rfl

theorem takeChars_eq (s : List Char) (n : ℕ) : takeChars s n = s.take n := by
  unfold takeChars
  split
  · rename_i h
    rw [h, take_zero]
  · rfl

/-! ## 3. The text of a node -/

/-- `NodeText`: a text with its cached number of characters. -/
structure NodeText where
  text : List Char
  charCount : ℕ
deriving DecidableEq

namespace NodeText

/-- `NodeText::new`. -/
def new (text : List Char) : NodeText := ⟨text, text.length⟩

/-- `NodeText::empty`. -/
def empty : NodeText := ⟨[], 0⟩

/-- `first_char`. -/
def firstChar (t : NodeText) : Option Char := t.text.head?

/-- `split_at_char`. -/
def splitAtChar (t : NodeText) (charIdx : ℕ) : NodeText × NodeText :=
  if charIdx = 0 then (empty, t)
  else if charIdx ≥ t.charCount then (t, empty)
  else (⟨t.text.take charIdx, charIdx⟩, ⟨t.text.drop charIdx, t.charCount - charIdx⟩)

theorem splitAtChar_eq {t : NodeText} {n : ℕ} (hpos : 0 < n) (hlt : n < t.charCount) :
    t.splitAtChar n = (⟨t.text.take n, n⟩, ⟨t.text.drop n, t.charCount - n⟩) := by
  rw [splitAtChar, if_neg (by omega), if_neg (by omega)]

end NodeText

end CharText

end Sglang
