/-
# The length of what a stop regex matches

A transcription of `_max_length_from_subpattern` (`sampling_params.py`) over the parsed form of a regular
expression, as `sre_parse` returns it, and the meaning of that form: between which positions of a text it
matches.  Literals, sets and the dot match one character, anchors look at the characters around a
position, the rest is groups, branches and repeats.  Other operations of `sre_parse` count `MAX_LEN` as
`NOT_LITERAL` does, and are left out.

A match is no longer than the computed length, unless that is `MAX_LEN` or more.
-/
import Mathlib.Tactic

namespace Sglang

open List

/-! ## 1. Parsed expressions -/

/-- The zero-width anchors. -/
inductive AtCode where
  | beginning
  | beginningString
  | boundary
  | nonBoundary
  | atEnd
  | endString
deriving DecidableEq

mutual

/-- A token of `sre_parse` with its value.  A set is given by its members, and an unbounded repeat has no
`max`. -/
inductive RegexToken where
  | literal (c : Char)
  | notLiteral (c : Char)
  | inSet (members : Char → Bool)
  | any
  | subpattern (inner : SubPattern)
  | branch (branches : RegexBranches)
  | maxRepeat (min : ℕ) (max : Option ℕ) (inner : SubPattern)
  | minRepeat (min : ℕ) (max : Option ℕ) (inner : SubPattern)
  | anchor (code : AtCode)

/-- `SubPattern`: tokens in a row. -/
inductive SubPattern where
  | nil
  | cons (token : RegexToken) (rest : SubPattern)

/-- The branches of an alternative. -/
inductive RegexBranches where
  | nil
  | cons (branch : SubPattern) (rest : RegexBranches)

end

/-- `MAX_LEN`. -/
def maxLen : ℕ := 2 ^ 30

/-- The summand of a repeat. -/
def repeatLength (maxNumRepeat : Option ℕ) (inner : ℕ) : ℕ :=
  match maxNumRepeat with
  | none => maxLen
  | some maxNumRepeat => maxNumRepeat * inner

mutual

/-- The body of the loop of `_max_length_from_subpattern`. -/
def RegexToken.maxLength : RegexToken → ℕ
  | .literal _ => 1
  | .inSet _ => 1
  | .any => 1
  | .subpattern inner => inner.maxLength
  | .branch branches => branches.maxLength
  | .maxRepeat _ max inner => repeatLength max inner.maxLength
  | .minRepeat _ max inner => repeatLength max inner.maxLength
  | .anchor _ => 0
  | .notLiteral _ => maxLen

/-- `_max_length_from_subpattern`. -/
def SubPattern.maxLength : SubPattern → ℕ
  | .nil => 0
  | .cons token rest => token.maxLength + rest.maxLength

/-- The longest of the branches. -/
def RegexBranches.maxLength : RegexBranches → ℕ
  | .nil => 0
  | .cons branch rest => max branch.maxLength rest.maxLength

end

/-! ## 2. What they match -/

/-- `n` steps of a relation. -/
def Iterates (R : ℕ → ℕ → Prop) : ℕ → ℕ → ℕ → Prop
  | 0, i, j => i = j
  | n + 1, i, j => ∃ k, R i k ∧ Iterates R n k j

/-- The number of rounds is one that a repeat allows. -/
def Allowed (min : ℕ) (max : Option ℕ) (n : ℕ) : Prop := min ≤ n ∧ ∀ m ∈ max, n ≤ m

section

variable (isWord : Char → Bool) (text : List Char)

/-- There is a word character at a position. -/
def wordAt (i : ℕ) : Bool := (text[i]?).any isWord

/-- There is a word character in front of a position. -/
def wordBefore (i : ℕ) : Bool := decide (0 < i) && wordAt isWord text (i - 1)

/-- An anchor holds at a position.  `\B` does not hold in an empty text. -/
def AtCode.Holds (i : ℕ) : AtCode → Prop
  | .beginning => i = 0
  | .beginningString => i = 0
  | .boundary => wordBefore isWord text i ≠ wordAt isWord text i
  | .nonBoundary => text ≠ [] ∧ wordBefore isWord text i = wordAt isWord text i
  | .atEnd => i = text.length ∨ (i + 1 = text.length ∧ text[i]? = some '\n')
  | .endString => i = text.length

mutual

/-- A token matches between two positions. -/
def RegexToken.Matches : RegexToken → ℕ → ℕ → Prop
  | .literal c, i, j => text[i]? = some c ∧ j = i + 1
  | .notLiteral c, i, j => (∃ d, text[i]? = some d ∧ d ≠ c) ∧ j = i + 1
  | .inSet members, i, j => (∃ d, text[i]? = some d ∧ members d = true) ∧ j = i + 1
  | .any, i, j => (∃ d, text[i]? = some d ∧ d ≠ '\n') ∧ j = i + 1
  | .subpattern inner, i, j => inner.Matches i j
  | .branch branches, i, j => branches.Matches i j
  | .maxRepeat min max inner, i, j => ∃ n, Allowed min max n ∧ Iterates inner.Matches n i j
  | .minRepeat min max inner, i, j => ∃ n, Allowed min max n ∧ Iterates inner.Matches n i j
  | .anchor code, i, j => code.Holds isWord text i ∧ j = i

/-- The tokens match one after the other. -/
def SubPattern.Matches : SubPattern → ℕ → ℕ → Prop
  | .nil, i, j => i = j
  | .cons token rest, i, j => ∃ k, token.Matches i k ∧ rest.Matches k j

/-- One of the branches matches. -/
def RegexBranches.Matches : RegexBranches → ℕ → ℕ → Prop
  | .nil, _, _ => False
  | .cons branch rest, i, j => branch.Matches i j ∨ rest.Matches i j

end

/-- `re.search`: the expression matches somewhere. -/
def SubPattern.Found (p : SubPattern) : Prop :=
  ∃ i j, i ≤ text.length ∧ p.Matches isWord text i j

end

/-! ## 3. The length of a match -/

/-- A stretch is not longer than a computed length, unless that is as large as can be, and stays in a text
of the given size. -/
def Within (size len i j : ℕ) : Prop := i ≤ j ∧ (j ≤ i + len ∨ maxLen ≤ len) ∧ (i ≤ size → j ≤ size)

variable {isWord : Char → Bool} {text : List Char} {R : ℕ → ℕ → Prop} {size i j k : ℕ}

theorem within_zero (h : i = j) : Within size 0 i j := ⟨h.le, .inl h.ge, fun hi => h ▸ hi⟩

theorem within_char {c : Char} (hc : text[i]? = some c) (h : j = i + 1) : Within text.length 1 i j :=
  ⟨by omega, .inl h.le, fun _ => h ▸ (List.getElem?_eq_some_iff.mp hc).1⟩

theorem Within.trans {a b : ℕ} (h : Within size a i k) (h' : Within size b k j) :
    Within size (a + b) i j := by
  refine ⟨h.1.trans h'.1, ?_, fun hi => h'.2.2 (h.2.2 hi)⟩
  rcases h.2.1 with h1 | h1
  · rcases h'.2.1 with h2 | h2
    · exact .inl (by omega)
    · exact .inr (by omega)
  · exact .inr (by omega)

theorem Within.mono {a b : ℕ} (h : Within size a i j) (hab : a ≤ b) : Within size b i j :=
  ⟨h.1, h.2.1.imp (fun h => by omega) fun h => h.trans hab, h.2.2⟩

/-- What matches in every round of a repeat. -/
theorem within_iterates {len n : ℕ} (hR : ∀ i j, R i j → Within size len i j) (h : Iterates R n i j) :
    Within size (n * len) i j := by
  induction n generalizing i with
  | zero => exact (within_zero h).mono (Nat.zero_le _)
  | succ n ih =>
    obtain ⟨k, hk, hrest⟩ := h
    have := (hR i k hk).trans (ih hrest)
    rwa [Nat.succ_mul, Nat.add_comm]

theorem within_repeat {min len : ℕ} {max : Option ℕ} (hR : ∀ i j, R i j → Within size len i j)
    (h : ∃ n, Allowed min max n ∧ Iterates R n i j) : Within size (repeatLength max len) i j := by
  obtain ⟨n, hn, hit⟩ := h
  have hwithin := within_iterates hR hit
  cases max with
  | none => exact ⟨hwithin.1, .inr le_rfl, hwithin.2.2⟩
  | some m => exact hwithin.mono (Nat.mul_le_mul_right _ (hn.2 m rfl))

mutual

theorem RegexToken.within (t : RegexToken) (i j : ℕ) (h : t.Matches isWord text i j) :
    Within text.length t.maxLength i j := by
  cases t with
  | literal c => exact within_char h.1 h.2
  | notLiteral c =>
    obtain ⟨⟨d, hd, -⟩, hj⟩ := h
    exact (within_char hd hj).mono (Nat.one_le_two_pow : 1 ≤ maxLen)
  | inSet members =>
    obtain ⟨⟨d, hd, -⟩, hj⟩ := h
    exact within_char hd hj
  | any =>
    obtain ⟨⟨d, hd, -⟩, hj⟩ := h
    exact within_char hd hj
  | subpattern inner => exact SubPattern.within inner i j h
  | branch branches => exact RegexBranches.within branches i j h
  | maxRepeat min max inner => exact within_repeat (SubPattern.within inner) h
  | minRepeat min max inner => exact within_repeat (SubPattern.within inner) h
  | anchor code => exact within_zero h.2.symm

/-- **A match is within the computed length**, or that is at least `MAX_LEN`; and within the text. -/
theorem SubPattern.within (p : SubPattern) (i j : ℕ) (h : p.Matches isWord text i j) :
    Within text.length p.maxLength i j := by
  cases p with
  | nil => exact within_zero h
  | cons token rest =>
    obtain ⟨k, hk, hrest⟩ := h
    exact (RegexToken.within token i k hk).trans (SubPattern.within rest k j hrest)

theorem RegexBranches.within (bs : RegexBranches) (i j : ℕ) (h : bs.Matches isWord text i j) :
    Within text.length bs.maxLength i j := by
  cases bs with
  | nil => exact absurd h id
  | cons branch rest =>
    rcases h with h | h
    · exact (SubPattern.within branch i j h).mono (le_max_left _ _)
    · exact (RegexBranches.within rest i j h).mono (le_max_right _ _)

end

/-! ## 4. Texts that agree around a match -/

mutual

/-- The anchors of a token are among some. -/
def RegexToken.Uses (codes : AtCode → Prop) : RegexToken → Prop
  | .literal _ => True
  | .notLiteral _ => True
  | .inSet _ => True
  | .any => True
  | .subpattern inner => inner.Uses codes
  | .branch branches => branches.Uses codes
  | .maxRepeat _ _ inner => inner.Uses codes
  | .minRepeat _ _ inner => inner.Uses codes
  | .anchor code => codes code

/-- The anchors of an expression are among some. -/
def SubPattern.Uses (codes : AtCode → Prop) : SubPattern → Prop
  | .nil => True
  | .cons token rest => token.Uses codes ∧ rest.Uses codes

/-- The anchors of all branches are among some. -/
def RegexBranches.Uses (codes : AtCode → Prop) : RegexBranches → Prop
  | .nil => True
  | .cons branch rest => branch.Uses codes ∧ rest.Uses codes

end

/-- The positions of one text from `a + lo` to `a + hi` look like those of another from `b + lo` to
`b + hi`: the characters between them are the same, and the anchors in use that hold in the one hold in
the other. -/
structure TextsAgree (isWord : Char → Bool) (codes : AtCode → Prop) (text text' : List Char)
    (a b lo hi : ℕ) : Prop where
  chars : ∀ q, lo ≤ q → q < hi → text[a + q]? = text'[b + q]?
  anchors : ∀ code, codes code → ∀ q, lo ≤ q → q ≤ hi → code.Holds isWord text (a + q) →
    code.Holds isWord text' (b + q)

section

variable {codes : AtCode → Prop} {text' : List Char} {a b lo hi : ℕ}

/-- A relation moves from one text to the other, as long as it stays between the positions. -/
def Moves (a b lo hi : ℕ) (R R' : ℕ → ℕ → Prop) : Prop :=
  ∀ q r, lo ≤ q → q ≤ r → r ≤ hi → R (a + q) (a + r) → R' (b + q) (b + r)

theorem moves_char {C C' : ℕ → Prop} (h : ∀ q, lo ≤ q → q < hi → C (a + q) → C' (b + q)) :
    Moves a b lo hi (fun i j => C i ∧ j = i + 1) (fun i j => C' i ∧ j = i + 1) := by
  rintro q r hq - hr ⟨hC, hj⟩
  exact ⟨h q hq (by omega) hC, by omega⟩

theorem moves_then {R R' S S' : ℕ → ℕ → Prop} (hR : Moves a b lo hi R R') (hS : Moves a b lo hi S S')
    (hle : ∀ i j, R i j → i ≤ j) (hle' : ∀ i j, S i j → i ≤ j) :
    Moves a b lo hi (fun i j => ∃ k, R i k ∧ S k j) (fun i j => ∃ k, R' i k ∧ S' k j) := by
  rintro q r hq hqr hr ⟨k, h1, h2⟩
  obtain ⟨m, rfl⟩ : ∃ m, k = a + m := ⟨k - a, by have := hle _ _ h1; omega⟩
  have hqm := hle _ _ h1
  have hmr := hle' _ _ h2
  exact ⟨b + m, hR q m hq (by omega) (by omega) h1, hS m r (by omega) (by omega) hr h2⟩

theorem iterates_le {n : ℕ} (hle : ∀ i j, R i j → i ≤ j) : ∀ i j, Iterates R n i j → i ≤ j := by
  induction n with
  | zero => exact fun i j h => h.le
  | succ n ih =>
    rintro i j ⟨k, hk, hrest⟩
    exact (hle i k hk).trans (ih k j hrest)

theorem moves_iterates {R R' : ℕ → ℕ → Prop} (hR : Moves a b lo hi R R') (hle : ∀ i j, R i j → i ≤ j)
    (n : ℕ) : Moves a b lo hi (Iterates R n) (Iterates R' n) := by
  induction n with
  | zero => exact fun q r _ _ _ h => congrArg (b + ·) (Nat.add_left_cancel h)
  | succ n ih => exact moves_then hR ih hle (iterates_le hle)

theorem moves_repeat {R R' : ℕ → ℕ → Prop} (hR : Moves a b lo hi R R') (hle : ∀ i j, R i j → i ≤ j)
    (min : ℕ) (max : Option ℕ) :
    Moves a b lo hi (fun i j => ∃ n, Allowed min max n ∧ Iterates R n i j)
      (fun i j => ∃ n, Allowed min max n ∧ Iterates R' n i j) := by
  rintro q r hq hqr hr ⟨n, hn, hit⟩
  exact ⟨n, hn, moves_iterates hR hle n q r hq hqr hr hit⟩

mutual

theorem RegexToken.moves (h : TextsAgree isWord codes text text' a b lo hi) (t : RegexToken)
    (hu : t.Uses codes) : Moves a b lo hi (t.Matches isWord text) (t.Matches isWord text') := by
  have hset : ∀ P : Char → Prop, ∀ q, lo ≤ q → q < hi → (∃ d, text[a + q]? = some d ∧ P d) →
      ∃ d, text'[b + q]? = some d ∧ P d := by
    rintro P q hq hlt ⟨d, hd, hP⟩
    exact ⟨d, h.chars q hq hlt ▸ hd, hP⟩
  cases t with
  | literal c => exact moves_char fun q hq hlt hc => h.chars q hq hlt ▸ hc
  | notLiteral c => exact moves_char (hset _)
  | inSet members => exact moves_char (hset _)
  | any => exact moves_char (hset _)
  | subpattern inner => exact SubPattern.moves h inner hu
  | branch branches => exact RegexBranches.moves h branches hu
  | maxRepeat min max inner =>
    exact moves_repeat (SubPattern.moves h inner hu) (fun i j hm => (SubPattern.within inner i j hm).1) _ _
  | minRepeat min max inner =>
    exact moves_repeat (SubPattern.moves h inner hu) (fun i j hm => (SubPattern.within inner i j hm).1) _ _
  | anchor code =>
    rintro q r hq - hr ⟨hc, hj⟩
    exact ⟨h.anchors code hu q hq (by omega) hc, by omega⟩

/-- **A match moves to a text that looks the same around it.** -/
theorem SubPattern.moves (h : TextsAgree isWord codes text text' a b lo hi) (p : SubPattern)
    (hu : p.Uses codes) : Moves a b lo hi (p.Matches isWord text) (p.Matches isWord text') := by
  cases p with
  | nil => exact fun q r _ _ _ h => congrArg (b + ·) (Nat.add_left_cancel h)
  | cons token rest =>
    exact moves_then (RegexToken.moves h token hu.1) (SubPattern.moves h rest hu.2)
      (fun i j hm => (RegexToken.within token i j hm).1) (fun i j hm => (SubPattern.within rest i j hm).1)

theorem RegexBranches.moves (h : TextsAgree isWord codes text text' a b lo hi) (bs : RegexBranches)
    (hu : bs.Uses codes) : Moves a b lo hi (bs.Matches isWord text) (bs.Matches isWord text') := by
  cases bs with
  | nil => exact fun q r _ _ _ h => h
  | cons branch rest =>
    rintro q r hq hqr hr (hm | hm)
    · exact .inl (SubPattern.moves h branch hu.1 q r hq hqr hr hm)
    · exact .inr (RegexBranches.moves h rest hu.2 q r hq hqr hr hm)

end

mutual

theorem RegexToken.uses_all (t : RegexToken) : t.Uses fun _ => True := by
  cases t with
  | literal c => exact trivial
  | notLiteral c => exact trivial
  | inSet members => exact trivial
  | any => exact trivial
  | subpattern inner => exact SubPattern.uses_all inner
  | branch branches => exact RegexBranches.uses_all branches
  | maxRepeat min max inner => exact SubPattern.uses_all inner
  | minRepeat min max inner => exact SubPattern.uses_all inner
  | anchor code => exact trivial

theorem SubPattern.uses_all (p : SubPattern) : p.Uses fun _ => True := by
  cases p with
  | nil => exact trivial
  | cons token rest => exact ⟨RegexToken.uses_all token, SubPattern.uses_all rest⟩

theorem RegexBranches.uses_all (bs : RegexBranches) : bs.Uses fun _ => True := by
  cases bs with
  | nil => exact trivial
  | cons branch rest => exact ⟨SubPattern.uses_all branch, RegexBranches.uses_all rest⟩

end

/-! ## 5. Parts of a text -/

/-- The character in front of a text makes no difference to an anchor. -/
def AtCode.Unseen (isWord : Char → Bool) (front : Char) : AtCode → Prop
  | .beginning => False
  | .beginningString => False
  | .boundary => isWord front = false
  | .nonBoundary => isWord front = false
  | .atEnd => True
  | .endString => True

section

variable (isWord) (X Y C : List Char)

theorem getElem?_behind (q : ℕ) : (X ++ C)[X.length + q]? = (Y ++ C)[Y.length + q]? := by
  rw [getElem?_append_right (Nat.le_add_right _ _), getElem?_append_right (Nat.le_add_right _ _),
    Nat.add_sub_cancel_left, Nat.add_sub_cancel_left]

/-- Two texts with the same end, seen from behind its first position. -/
theorem agrees_inside :
    TextsAgree isWord (fun _ => True) (X ++ C) (Y ++ C) X.length Y.length 1 C.length := by
  refine ⟨fun q _ _ => getElem?_behind X Y C q, fun code _ q hq hqC h => ?_⟩
  have hword : wordAt isWord (X ++ C) (X.length + q) = wordAt isWord (Y ++ C) (Y.length + q) := by
    rw [wordAt, wordAt, getElem?_behind X Y C q]
  have hbefore : wordBefore isWord (X ++ C) (X.length + q) =
      wordBefore isWord (Y ++ C) (Y.length + q) := by
    have hchar := getElem?_behind X Y C (q - 1)
    rw [← Nat.add_sub_assoc hq, ← Nat.add_sub_assoc hq] at hchar
    rw [wordBefore, wordBefore, wordAt, hchar]
    congr 1
    exact decide_eq_decide.mpr (by omega)
  cases code with
  | beginning => exact absurd (show X.length + q = 0 from h) (by omega)
  | beginningString => exact absurd (show X.length + q = 0 from h) (by omega)
  | boundary => exact fun heq => h (by rw [hword, hbefore, heq])
  | nonBoundary =>
    refine ⟨fun hnil => ?_, by rw [← hword, ← hbefore]; exact h.2⟩
    rw [(append_eq_nil_iff.mp hnil).2, length_nil] at hqC
    omega
  | atEnd =>
    have hchar := getElem?_behind X Y C q
    simp only [AtCode.Holds, length_append] at h ⊢
    rcases h with h | ⟨h, hnl⟩
    · exact .inl (by omega)
    · exact .inr ⟨by omega, hchar ▸ hnl⟩
  | endString =>
    simp only [AtCode.Holds, length_append] at h ⊢
    omega

/-- An anchor that does not see the character in front of a text holds with it where it does without. -/
theorem holds_behind_iff {front : Char} (hC : C ≠ []) {code : AtCode} (hcode : code.Unseen isWord front)
    (q : ℕ) : code.Holds isWord (front :: C) (1 + q) ↔ code.Holds isWord C (0 + q) := by
  have hchar : (front :: C)[1 + q]? = C[0 + q]? := by rw [Nat.add_comm 1 q, Nat.zero_add]; rfl
  have hword : wordAt isWord (front :: C) (1 + q) = wordAt isWord C (0 + q) := by
    rw [wordAt, wordAt, hchar]
  have hbefore : isWord front = false →
      wordBefore isWord (front :: C) (1 + q) = wordBefore isWord C (0 + q) := by
    intro hfront
    cases q with
    | zero => simp [wordBefore, wordAt, hfront]
    | succ q =>
      rw [show 1 + (q + 1) = q + 1 + 1 by omega, show 0 + (q + 1) = q + 1 by omega]
      simp [wordBefore, wordAt]
  cases code with
  | beginning => exact hcode.elim
  | beginningString => exact hcode.elim
  | boundary => simp only [AtCode.Holds, hword, hbefore hcode]
  | nonBoundary => simp only [AtCode.Holds, hword, hbefore hcode, ne_eq, reduceCtorEq, not_false_eq_true, hC]
  | atEnd =>
    simp only [AtCode.Holds, length_cons, hchar]
    exact or_congr (by omega) (and_congr_left' (by omega))
  | endString =>
    simp only [AtCode.Holds, length_cons]
    omega

/-- Two texts with the same beginning, before its end, if the first one goes on. -/
theorem agrees_before (hX : X ≠ []) (hC : C ≠ []) :
    TextsAgree isWord (fun _ => True) (X ++ C) (X ++ Y) 0 0 0 (X.length - 1) := by
  have hpos := length_pos_iff.mpr hX
  have hposC := length_pos_iff.mpr hC
  have hget : ∀ q < X.length, (X ++ C)[q]? = (X ++ Y)[q]? := fun q hq => by
    rw [getElem?_append_left hq, getElem?_append_left hq]
  refine ⟨fun q _ hq => by rw [Nat.zero_add, hget q (by omega)], fun code _ q _ hq h => ?_⟩
  rw [Nat.zero_add] at h ⊢
  have hword : wordAt isWord (X ++ C) q = wordAt isWord (X ++ Y) q := by
    rw [wordAt, wordAt, hget q (by omega)]
  have hbefore : wordBefore isWord (X ++ C) q = wordBefore isWord (X ++ Y) q := by
    rw [wordBefore, wordBefore, wordAt, wordAt, hget (q - 1) (by omega)]
  cases code with
  | beginning => exact h
  | beginningString => exact h
  | boundary => exact fun heq => h (by rw [hword, hbefore, heq])
  | nonBoundary => exact ⟨append_ne_nil_of_left_ne_nil hX _, by rw [← hword, ← hbefore]; exact h.2⟩
  | atEnd =>
    simp only [AtCode.Holds, length_append] at h
    omega
  | endString =>
    simp only [AtCode.Holds, length_append] at h
    omega

end

end

end Sglang
