/-
# `RadixKey`: the key of a cached sequence, in token and in bigram mode

`radix_cache.py` keys its tree with `RadixKey`, a list of raw token ids with an optional
namespace `extra_key` and a flag `is_bigram`.  With the flag on, the logical units of the key are
the overlapping pairs of neighbouring tokens, so `N + 1` raw tokens hold `N` units and two slices
of one key share a boundary token.  Slicing, matching and the dictionary key of the first page
are each written twice in the source, once for each mode, and matching a third time for pages.

Everything the tree does with a key depends on the key only through its LABEL: the list of its
full pages, each tagged with the namespace.  This module transcribes the class (section 1) and
proves that claim (sections 2 and 3): on keys that fit the cache -- right mode, whole pages --

* `len` is the page size times the length of the label,
* slicing at a page boundary takes or drops pages of the label,
* `match` is the page size times the number of equal leading pages, and
* `child_key` is the same for two keys exactly when their first tagged pages are.
-/
import Sglang.Lib.Chunks

namespace Sglang

open Lib

/-! ## 1. The class -/

/-- A token id. -/
abbrev Token := ℕ

/-- `RadixKey`: raw token ids, the namespace they live in, and the bigram flag. -/
structure RadixKey where
  tokenIds : List Token
  extraKey : Option String
  isBigram : Bool
deriving DecidableEq, Repr

/-- One logical unit of a key: a token, or a pair of neighbouring tokens in bigram mode. -/
inductive Atom where
  | tok (t : Token)
  | bigram (t t' : Token)
deriving DecidableEq, Repr

/-- The part of a dictionary key that comes from the tokens.  The source builds a bare int, a
tuple of ints, a pair, or a tuple of pairs, depending on the mode and the page size. -/
inductive PlainKey where
  | tok (t : Token)
  | toks (ts : List Token)
  | bigram (t t' : Token)
  | bigrams (ps : List (Token × Token))
deriving DecidableEq, Repr

/-- A key of `TreeNode.children`: the plain key, or the pair of the namespace and the plain
key. -/
inductive ChildKey where
  | plain (p : PlainKey)
  | named (extraKey : String) (p : PlainKey)
deriving DecidableEq, Repr

namespace RadixKey

/-- `__len__`: the number of logical units. -/
def len (k : RadixKey) : ℕ :=
  if k.isBigram then k.tokenIds.length - 1 else k.tokenIds.length

/-- `__iter__`: the logical units. -/
def iter (k : RadixKey) : List Atom :=
  if k.isBigram then List.zipWith Atom.bigram k.tokenIds k.tokenIds.tail
  else k.tokenIds.map Atom.tok

/-- `__getitem__` on `start:stop`; both bounds are clamped to the length, as `slice.indices`
does.  In bigram mode the slice keeps one boundary token, and an empty slice keeps none. -/
def slice (k : RadixKey) (start stop : ℕ) : RadixKey :=
  let start := min start k.len
  let stop := min stop k.len
  if k.isBigram then
    ⟨if stop > start then (k.tokenIds.take (stop + 1)).drop start else [], k.extraKey, true⟩
  else ⟨(k.tokenIds.take stop).drop start, k.extraKey, false⟩

/-- `key[:n]`. -/
def takeTo (k : RadixKey) (n : ℕ) : RadixKey := k.slice 0 n

/-- `key[n:]`. -/
def dropTo (k : RadixKey) (n : ℕ) : RadixKey := k.slice n k.len

/-- `page_aligned`: the longest prefix of whole pages. -/
def pageAligned (k : RadixKey) (pageSize : ℕ) : RadixKey :=
  if pageSize = 1 then k else k.takeTo (k.len / pageSize * pageSize)

/-- `maybe_to_bigram_view`: flips the flag, and cuts the paired values to the bigram count. -/
def maybeToBigramView {σ : Type} (k : RadixKey) (isEagle : Bool) (value : Option (List σ)) :
    RadixKey × Option (List σ) :=
  if isEagle && !k.isBigram then
    let k' := { k with isBigram := true }
    (k', value.map fun v => v.take k'.len)
  else (k, value)

/-- The paged matching loop: `while i < min_len`, compare one page, `i += page_size`. -/
def matchPages (pageSize : ℕ) (t₀ t₁ : List Token) (minLen : ℕ) : ℕ → ℕ → ℕ
  | 0, i => i
  | fuel + 1, i =>
    if i < minLen then
      if (t₀.drop i).take pageSize ≠ (t₁.drop i).take pageSize then i
      else matchPages pageSize t₀ t₁ minLen fuel (i + pageSize)
    else i

/-- `match`: the number of logical units shared with `other`, rounded down to whole pages;
`none` is the `ValueError` of `_check_compatible`.  The paged loop advances by at least one unit
a round, so `minLen` rounds are enough. -/
def matchLen (k other : RadixKey) (pageSize : ℕ) : Option ℕ :=
  if k.extraKey ≠ other.extraKey then none
  else if k.isBigram then
    let i := commonPrefixLength k.tokenIds other.tokenIds
    let matched := min (i - 1) (min k.len other.len)
    some (if pageSize > 1 then matched / pageSize * pageSize else matched)
  else if pageSize = 1 then some (commonPrefixLength k.tokenIds other.tokenIds)
  else
    let minLen := min k.len other.len
    some (matchPages pageSize k.tokenIds other.tokenIds minLen minLen 0)

/-- The plain part of `child_key`; `none` is the `IndexError` on a key that is too short. -/
def plainKey (k : RadixKey) (pageSize : ℕ) : Option PlainKey :=
  if k.isBigram then
    if pageSize = 1 then
      match k.tokenIds with
      | a :: b :: _ => some (.bigram a b)
      | _ => none
    else if pageSize < k.tokenIds.length then
      some (.bigrams ((k.tokenIds.zip k.tokenIds.tail).take pageSize))
    else none
  else if pageSize = 1 then k.tokenIds.head?.map .tok
  else some (.toks (k.tokenIds.take pageSize))

/-- `child_key`: the dictionary key of the first page, namespaced by `extra_key`. -/
def childKey (k : RadixKey) (pageSize : ℕ) : Option ChildKey :=
  (k.plainKey pageSize).map fun p =>
    match k.extraKey with
    | none => .plain p
    | some e => .named e p

/-! ## 2. The units of a key -/

/-- The key of `n` tokens or of the pairs of `n + 1` tokens has `n` units. -/
@[simp] theorem length_iter (k : RadixKey) : k.iter.length = k.len := by
  unfold iter len
  split <;> simp

@[simp] theorem slice_extraKey (k : RadixKey) (a b : ℕ) :
    (k.slice a b).extraKey = k.extraKey := by
  unfold slice
  split <;> rfl

@[simp] theorem slice_isBigram (k : RadixKey) (a b : ℕ) :
    (k.slice a b).isBigram = k.isBigram := by
  unfold slice
  split <;> simp_all

theorem zipWith_tail_take (l : List Token) (n : ℕ) :
    List.zipWith Atom.bigram (l.take (n + 1)) (l.take (n + 1)).tail
      = (List.zipWith Atom.bigram l l.tail).take n := by
  induction l generalizing n with
  | nil => simp
  | cons a l ih =>
    cases n with
    | zero => simp
    | succ n =>
      cases l with
      | nil => simp
      | cons b l =>
        have := ih n
        simpa using this

theorem zipWith_tail_drop (l : List Token) (n : ℕ) :
    List.zipWith Atom.bigram (l.drop n) (l.drop n).tail
      = (List.zipWith Atom.bigram l l.tail).drop n := by
  rw [List.drop_zipWith, ← List.drop_one, ← List.drop_one, List.drop_drop, List.drop_drop,
    Nat.add_comm]

/-- **Slices cut the units**, in both modes. -/
theorem iter_slice (k : RadixKey) (a b : ℕ) : (k.slice a b).iter = (k.iter.take b).drop a := by
  have hclamp : (k.iter.take b).drop a = (k.iter.take (min b k.len)).drop (min a k.len) := by
    have h1 : k.iter.take b = k.iter.take (min b k.len) := by
      simp
    rw [h1]
    rcases Nat.le_total a k.len with h | h
    · rw [min_eq_left h]
    · rw [min_eq_right h, List.drop_eq_nil_of_le]
      · simp
      · simp only [List.length_take, length_iter]; omega
  rw [hclamp]
  unfold slice
  cases hb : k.isBigram with
  | false => simp [iter, hb, List.map_drop, List.map_take]
  | true =>
    simp only [if_true, iter, hb]
    split
    · rw [zipWith_tail_drop, zipWith_tail_take]
    · rw [List.drop_eq_nil_of_le]
      · simp
      · simp only [List.length_take]; omega

theorem iter_takeTo (k : RadixKey) (n : ℕ) : (k.takeTo n).iter = k.iter.take n := by
  rw [takeTo, iter_slice, List.drop_zero]

theorem iter_dropTo (k : RadixKey) (n : ℕ) : (k.dropTo n).iter = k.iter.drop n := by
  rw [dropTo, iter_slice, ← length_iter, List.take_length]

@[simp] theorem takeTo_extraKey (k : RadixKey) (n : ℕ) : (k.takeTo n).extraKey = k.extraKey :=
  slice_extraKey ..

@[simp] theorem dropTo_extraKey (k : RadixKey) (n : ℕ) : (k.dropTo n).extraKey = k.extraKey :=
  slice_extraKey ..

@[simp] theorem takeTo_isBigram (k : RadixKey) (n : ℕ) : (k.takeTo n).isBigram = k.isBigram :=
  slice_isBigram ..

@[simp] theorem dropTo_isBigram (k : RadixKey) (n : ℕ) : (k.dropTo n).isBigram = k.isBigram :=
  slice_isBigram ..

theorem len_takeTo (k : RadixKey) (n : ℕ) : (k.takeTo n).len = min n k.len := by
  rw [← length_iter, iter_takeTo, List.length_take, length_iter]

theorem len_dropTo (k : RadixKey) (n : ℕ) : (k.dropTo n).len = k.len - n := by
  rw [← length_iter, iter_dropTo, List.length_drop, length_iter]

@[simp] theorem pageAligned_extraKey (k : RadixKey) (p : ℕ) :
    (k.pageAligned p).extraKey = k.extraKey := by
  unfold pageAligned
  split <;> simp

@[simp] theorem pageAligned_isBigram (k : RadixKey) (p : ℕ) :
    (k.pageAligned p).isBigram = k.isBigram := by
  unfold pageAligned
  split <;> simp

theorem iter_pageAligned (k : RadixKey) (p : ℕ) :
    (k.pageAligned p).iter = k.iter.take (k.len / p * p) := by
  unfold pageAligned
  split
  · rename_i h
    rw [h, Nat.div_one, Nat.mul_one, ← length_iter, List.take_length]
  · rw [iter_takeTo]

theorem len_pageAligned (k : RadixKey) (p : ℕ) : (k.pageAligned p).len = k.len / p * p := by
  rw [← length_iter, iter_pageAligned, List.length_take, length_iter]
  exact min_eq_left (Nat.div_mul_le_self _ _)

/-! ## 3. Keys that fit the cache, and their labels -/

/-- A page of logical units with the namespace it belongs to. -/
abbrev TaggedPage := Option String × List Atom

/-- The label of a key: its full pages, each with the key's namespace. -/
def label (pageSize : ℕ) (k : RadixKey) : List TaggedPage :=
  (chunks pageSize k.iter).map fun pg => (k.extraKey, pg)

/-- A key as the tree stores it: in the cache's mode and cut to whole pages. -/
structure Fits (isEagle : Bool) (pageSize : ℕ) (k : RadixKey) : Prop where
  mode : k.isBigram = isEagle
  aligned : pageSize ∣ k.len

section Fits

variable {isEagle : Bool} {p : ℕ} {k k' : RadixKey}

theorem fits_pageAligned (hm : k.isBigram = isEagle) (p : ℕ) :
    Fits isEagle p (k.pageAligned p) :=
  ⟨by simpa using hm, by rw [len_pageAligned]; exact Dvd.intro_left _ rfl⟩

@[simp] theorem length_label (p : ℕ) (k : RadixKey) : (k.label p).length = k.len / p := by
  simp [label]

theorem label_pageAligned (hp : 0 < p) (k : RadixKey) : (k.pageAligned p).label p = k.label p := by
  rw [label, label, iter_pageAligned, pageAligned_extraKey, Nat.mul_comm, chunks_take hp,
    List.take_of_length_le (by simp)]

theorem Fits.len_eq (h : Fits isEagle p k) : k.len = p * (k.label p).length := by
  rw [length_label, Nat.mul_div_cancel' h.aligned]

theorem Fits.label_eq_nil (h : Fits isEagle p k) : k.label p = [] ↔ k.len = 0 := by
  rw [h.len_eq, ← List.length_eq_zero_iff]
  constructor
  · intro e; simp [e]
  · intro e
    rcases Nat.mul_eq_zero.mp e with h0 | h0
    · simp [h0]
    · exact h0

theorem label_takeTo (hp : 0 < p) (k : RadixKey) (j : ℕ) :
    (k.takeTo (p * j)).label p = (k.label p).take j := by
  simp [label, iter_takeTo, chunks_take hp]

theorem label_dropTo (k : RadixKey) (j : ℕ) :
    (k.dropTo (p * j)).label p = (k.label p).drop j := by
  simp [label, iter_dropTo, chunks_drop]

theorem Fits.takeTo (h : Fits isEagle p k) (j : ℕ) : Fits isEagle p (k.takeTo (p * j)) := by
  refine ⟨by simpa using h.mode, ?_⟩
  rw [len_takeTo]
  rcases Nat.le_total (p * j) k.len with hl | hl
  · rw [min_eq_left hl]; exact Dvd.intro _ rfl
  · rw [min_eq_right hl]; exact h.aligned

theorem Fits.dropTo (h : Fits isEagle p k) (j : ℕ) : Fits isEagle p (k.dropTo (p * j)) := by
  refine ⟨by simpa using h.mode, ?_⟩
  rw [len_dropTo]
  exact Nat.dvd_sub h.aligned (Dvd.intro _ rfl)

/-- Two token lists share one pair less than they share tokens. -/
theorem commonPrefixLength_zipWith_tail (t s : List Token) :
    commonPrefixLength (List.zipWith Atom.bigram t t.tail) (List.zipWith Atom.bigram s s.tail)
      = commonPrefixLength t s - 1 := by
  induction t generalizing s with
  | nil => simp [commonPrefixLength]
  | cons a t ih =>
    cases s with
    | nil => simp [commonPrefixLength]
    | cons c s =>
      by_cases hac : a = c
      · subst hac
        cases t with
        | nil => simp [commonPrefixLength]
        | cons b t =>
          cases s with
          | nil => simp [commonPrefixLength]
          | cons d s =>
            have h := ih (d :: s)
            by_cases hbd : b = d
            · subst hbd
              simp only [List.tail_cons, List.zipWith_cons_cons, commonPrefixLength, if_true] at h ⊢
              omega
            · simp [commonPrefixLength, hbd]
      · have h0 : commonPrefixLength (a :: t) (c :: s) = 0 := by simp [commonPrefixLength, hac]
        rw [h0]
        cases t with
        | nil => simp [commonPrefixLength]
        | cons b t =>
          cases s with
          | nil => simp [commonPrefixLength]
          | cons d s => simp [commonPrefixLength, hac]

/-- The paged loop, started at page `j`, stops after the equal pages that follow. -/
theorem matchPages_eq (hp : 0 < p) {t s : List Token} (ht : p ∣ t.length) (hs : p ∣ s.length) :
    ∀ (fuel j : ℕ), min t.length s.length ≤ p * j + fuel →
      matchPages p t s (min t.length s.length) fuel (p * j) =
        p * (j + commonPrefixLength ((chunks p t).drop j) ((chunks p s).drop j)) := by
  have hend : ∀ j, min t.length s.length ≤ p * j →
      commonPrefixLength ((chunks p t).drop j) ((chunks p s).drop j) = 0 := by
    intro j hj
    rcases min_le_iff.mp hj with h | h
    · rw [List.drop_eq_nil_of_le (by rw [length_chunks]; exact Nat.div_le_of_le_mul h)]
      simp [commonPrefixLength]
    · have he : (chunks p s).drop j = [] :=
        List.drop_eq_nil_of_le (by rw [length_chunks]; exact Nat.div_le_of_le_mul h)
      rw [he]
      exact Nat.le_zero.mp (commonPrefixLength_le_right _ [])
  intro fuel
  induction fuel with
  | zero =>
    intro j hj
    rw [matchPages, hend j (by omega), Nat.add_zero]
  | succ fuel ih =>
    intro j hj
    rw [matchPages]
    by_cases hlt : p * j < min t.length s.length
    · rw [if_pos hlt]
      have hstep : ∀ l : List Token, p ∣ l.length → p * j < l.length →
          (chunks p l).drop j = (l.drop (p * j)).take p :: (chunks p l).drop (j + 1) := by
        intro l hl hjl
        obtain ⟨m, hm⟩ := hl
        have hjm : j + 1 ≤ m := by
          by_contra hc
          have : p * m ≤ p * j := Nat.mul_le_mul_left _ (by omega)
          omega
        have hle : p ≤ (l.drop (p * j)).length := by
          have : p * (j + 1) ≤ p * m := Nat.mul_le_mul_left _ hjm
          rw [List.length_drop]
          rw [Nat.mul_add] at this
          omega
        rw [← chunks_drop, chunks_cons hp hle, List.drop_drop, ← chunks_drop, Nat.mul_add,
          Nat.mul_one]
      rw [hstep t ht (lt_of_lt_of_le hlt (min_le_left _ _)),
        hstep s hs (lt_of_lt_of_le hlt (min_le_right _ _))]
      by_cases heq : (t.drop (p * j)).take p = (s.drop (p * j)).take p
      · have hnext : p * j + p = p * (j + 1) := by ring
        rw [if_neg (by simpa using heq), hnext, ih (j + 1) (by rw [← hnext]; omega),
          commonPrefixLength, if_pos heq]
        ring
      · rw [if_pos heq, commonPrefixLength, if_neg heq, Nat.add_zero]
    · rw [if_neg hlt, hend j (by omega), Nat.add_zero]

/-- **Matching counts equal pages.**  On two keys that fit the cache and share the namespace,
all three loops of `match` return the page size times the number of equal leading pages. -/
theorem Fits.matchLen_eq (hp : 0 < p) (h : Fits isEagle p k) (h' : Fits isEagle p k')
    (he : k.extraKey = k'.extraKey) :
    k.matchLen k' p = some (p * commonPrefixLength (k.label p) (k'.label p)) := by
  have hlab : commonPrefixLength (k.label p) (k'.label p) =
      commonPrefixLength (chunks p k.iter) (chunks p k'.iter) := by
    rw [label, he]
    exact commonPrefixLength_map (Prod.mk_right_injective _) _ _
  have hm' := h'.mode
  rw [hlab]
  unfold matchLen
  rw [if_neg (by simpa using he)]
  cases hb : isEagle with
  | true =>
    rw [h.mode, hb, if_pos rfl, commonPrefixLength_chunks hp]
    have hi : k.iter = List.zipWith Atom.bigram k.tokenIds k.tokenIds.tail := by
      simp [iter, h.mode, hb]
    have hi' : k'.iter = List.zipWith Atom.bigram k'.tokenIds k'.tokenIds.tail := by
      simp [iter, hm', hb]
    have hle := commonPrefixLength_le_left k.iter k'.iter
    have hle' := commonPrefixLength_le_right k.iter k'.iter
    have hcp : commonPrefixLength k.iter k'.iter
        = commonPrefixLength k.tokenIds k'.tokenIds - 1 := by
      rw [hi, hi', commonPrefixLength_zipWith_tail]
    rw [length_iter] at hle hle'
    simp only []
    rw [← hcp, min_eq_left (le_min hle hle')]
    split
    · rw [Nat.mul_comm]
    · have : p = 1 := by omega
      simp [this]
  | false =>
    rw [h.mode, hb, if_neg (by simp)]
    have hi : k.iter = k.tokenIds.map Atom.tok := by simp [iter, h.mode, hb]
    have hi' : k'.iter = k'.tokenIds.map Atom.tok := by simp [iter, hm', hb]
    have hlen : k.len = k.tokenIds.length := by simp [len, h.mode, hb]
    have hlen' : k'.len = k'.tokenIds.length := by simp [len, hm', hb]
    have htok : Function.Injective Atom.tok := fun _ _ e => Atom.tok.inj e
    have hcp : commonPrefixLength (chunks p k.iter) (chunks p k'.iter)
        = commonPrefixLength (chunks p k.tokenIds) (chunks p k'.tokenIds) := by
      rw [commonPrefixLength_chunks hp, commonPrefixLength_chunks hp, hi, hi',
        commonPrefixLength_map htok]
    rw [hcp]
    split
    · rename_i h1
      rw [commonPrefixLength_chunks hp, h1, Nat.div_one, Nat.one_mul]
    · have ha : p ∣ k.tokenIds.length := hlen ▸ h.aligned
      have ha' : p ∣ k'.tokenIds.length := hlen' ▸ h'.aligned
      have := matchPages_eq hp ha ha' (min k.tokenIds.length k'.tokenIds.length) 0 (by omega)
      simp only [Nat.mul_zero, List.drop_zero, Nat.zero_add] at this
      simp [hlen, hlen', this]

/-- The plain key of a first page of units, for each mode. -/
def plainOfPage (isEagle : Bool) (p : ℕ) (pg : List Atom) : PlainKey :=
  if isEagle then
    if p = 1 then
      match pg with
      | .bigram a b :: _ => .bigram a b
      | _ => .bigrams []
    else .bigrams (pg.map fun
      | .bigram a b => (a, b)
      | .tok a => (a, a))
  else if p = 1 then
    match pg with
    | .tok a :: _ => .tok a
    | _ => .toks []
  else .toks (pg.map fun
      | .tok a => a
      | .bigram a _ => a)

/-- The dictionary key reads the first page and nothing else. -/
theorem Fits.plainKey_eq (hp : 0 < p) (h : Fits isEagle p k) (hlen : p ≤ k.len) :
    k.plainKey p = some (plainOfPage isEagle p (k.iter.take p)) := by
  obtain ⟨t, e, b⟩ := k
  have hb : b = isEagle := h.mode
  subst hb
  cases b with
  | true =>
    have hl : p ≤ t.length - 1 := by simpa [len] using hlen
    simp only [plainKey, if_true, plainOfPage, iter]
    split
    · rename_i h1
      subst h1
      match t, hl with
      | a :: c :: t, _ => simp
    · rw [if_pos (by omega), List.map_take]
      simp [List.zip]
  | false =>
    have hl : p ≤ t.length := by simpa [len] using hlen
    simp only [plainKey, Bool.false_eq_true, if_false, plainOfPage, iter]
    split
    · rename_i h1
      subst h1
      match t, hl with
      | a :: t, _ => simp
    · rw [← List.map_take, List.map_map]
      have hid : ((fun
          | Atom.tok a => a
          | Atom.bigram a _ => a) ∘ Atom.tok) = (id : Token → Token) := rfl
      rw [hid, List.map_id]

theorem plainOfPage_inj (hp : 0 < p) (h : Fits isEagle p k) (h' : Fits isEagle p k')
    (hlen : p ≤ k.len) (hlen' : p ≤ k'.len)
    (heq : plainOfPage isEagle p (k.iter.take p) = plainOfPage isEagle p (k'.iter.take p)) :
    k.iter.take p = k'.iter.take p := by
  obtain ⟨t, e, b⟩ := k
  obtain ⟨t', e', b'⟩ := k'
  have hb : b = isEagle := h.mode
  have hb' : b' = isEagle := h'.mode
  subst hb hb'
  cases b' with
  | true =>
    have hl : p ≤ t.length - 1 := by simpa [len] using hlen
    have hl' : p ≤ t'.length - 1 := by simpa [len] using hlen'
    simp only [plainOfPage, if_true, iter] at heq ⊢
    split at heq
    · rename_i h1
      subst h1
      match t, t', hl, hl' with
      | a :: c :: t, a' :: c' :: t', _, _ => simpa using heq
    · rw [List.map_take, List.map_take] at heq
      have hz : List.take p (t.zip t.tail) = List.take p (t'.zip t'.tail) := by
        simpa [List.zip] using heq
      have := congrArg (List.map fun q : Token × Token => Atom.bigram q.1 q.2) hz
      simpa [List.map_take, List.zip, List.map_zipWith] using this
  | false =>
    have hl : p ≤ t.length := by simpa [len] using hlen
    have hl' : p ≤ t'.length := by simpa [len] using hlen'
    simp only [plainOfPage, Bool.false_eq_true, if_false, iter] at heq ⊢
    split at heq
    · rename_i h1
      subst h1
      match t, t', hl, hl' with
      | a :: t, a' :: t', _, _ => simpa using heq
    · rw [← List.map_take, ← List.map_take, List.map_map, List.map_map] at heq
      have hid : ((fun
          | Atom.tok a => a
          | Atom.bigram a _ => a) ∘ Atom.tok) = (id : Token → Token) := rfl
      rw [hid, List.map_id, List.map_id] at heq
      rw [← List.map_take, ← List.map_take, PlainKey.toks.inj heq]

theorem Fits.le_len (h : Fits isEagle p k) (hne : k.label p ≠ []) : p ≤ k.len := by
  have hl : 0 < (k.label p).length := List.length_pos_iff.mpr hne
  rw [h.len_eq]
  exact Nat.le_mul_of_pos_right p hl

theorem Fits.head?_label (hp : 0 < p) (h : Fits isEagle p k) (hne : k.label p ≠ []) :
    (k.label p).head? = some (k.extraKey, k.iter.take p) := by
  rw [label, List.head?_map, head?_chunks hp (by rw [length_iter]; exact h.le_len hne)]
  rfl

theorem Fits.exists_childKey (hp : 0 < p) (h : Fits isEagle p k) (hne : k.label p ≠ []) :
    ∃ ck, k.childKey p = some ck := by
  rw [childKey, h.plainKey_eq hp (h.le_len hne)]
  exact ⟨_, rfl⟩

/-- **The dictionary key is the first tagged page**: two keys that fit the cache have the same
`child_key` exactly when their labels start with the same page in the same namespace. -/
theorem Fits.childKey_eq_iff (hp : 0 < p) (h : Fits isEagle p k) (h' : Fits isEagle p k')
    (hne : k.label p ≠ []) (hne' : k'.label p ≠ []) :
    k.childKey p = k'.childKey p ↔ (k.label p).head? = (k'.label p).head? := by
  rw [h.head?_label hp hne, h'.head?_label hp hne', childKey, childKey,
    h.plainKey_eq hp (h.le_len hne), h'.plainKey_eq hp (h'.le_len hne')]
  simp only [Option.map_some, Option.some.injEq, Prod.mk.injEq]
  constructor
  · intro heq
    have hboth : k.extraKey = k'.extraKey ∧
        plainOfPage isEagle p (k.iter.take p) = plainOfPage isEagle p (k'.iter.take p) := by
      rcases he : k.extraKey with _ | e <;> rcases he' : k'.extraKey with _ | e' <;>
        rw [he, he'] at heq
      · exact ⟨rfl, ChildKey.plain.inj heq⟩
      · cases heq
      · cases heq
      · obtain ⟨h1, h2⟩ := ChildKey.named.inj heq
        exact ⟨congrArg some h1, h2⟩
    exact ⟨hboth.1, plainOfPage_inj hp h h' (h.le_len hne) (h'.le_len hne') hboth.2⟩
  · rintro ⟨h1, h2⟩
    rw [h1, h2]

end Fits

end RadixKey

end Sglang
