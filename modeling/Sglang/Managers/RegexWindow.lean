/-
# The window for a stop regex

`Req.tail_str` decodes one token more than the longest match has characters, and the regular expression is
searched in this text instead of the whole output.  Where these tokens cut no character in front and those
before the last one have as many characters as a match (`Wide`; tokens of whole characters do), a match that
the last token completes begins in the window.  A match that begins behind the window's first character is
one of both texts; at that character anchors that look back see a start of the text where the output has a
character in front.

So the expression is found at the same time exactly if what it matches from there on does not change with
this character, or it matches further behind as well (`regex_window_iff`).  Only `^`, `\A`, and next to a
word character `\b` and `\B`, see it.
-/
import Sglang.Managers.StopWindow
import Sglang.Sampling.StopRegex

namespace Sglang

open Lib List

/-- `stop_regex_max_len`, as `SamplingParams.normalize` computes it. -/
def stopRegexMaxLen (parse : String → SubPattern) (stopRegexStrs : List String) : ℕ :=
  stopRegexStrs.foldl (fun stopRegexMaxLen stopRegex => max stopRegexMaxLen (parse stopRegex).maxLength) 0

/-! ## 1. The character in front of a text -/

section

variable (isWord : Char → Bool) (p : SubPattern)

/-- A match begins at a position. -/
def MatchesAt (text : List Char) (i : ℕ) : Prop := ∃ j, p.Matches isWord text i j

/-- A match begins behind the first character. -/
def FoundInside (text : List Char) : Prop := ∃ i, 0 < i ∧ i ≤ text.length ∧ MatchesAt isWord p text i

/-- Whether the expression matches from the start of a text on changes with a character in front. -/
def SeesFront (front : Char) (text : List Char) : Prop :=
  ¬ (MatchesAt isWord p text 0 ↔ MatchesAt isWord p (front :: text) 1)

variable {isWord p}

/-- A match moves to a text that looks the same from there to the end of its own. -/
theorem MatchesAt.shift {codes : AtCode → Prop} {text text' : List Char} {a b lo n q : ℕ}
    (h : TextsAgree isWord codes text text' a b lo n) (huses : p.Uses codes) (hend : text.length = a + n)
    (hlo : lo ≤ q) (hq : q ≤ n) (hmatch : MatchesAt isWord p text (a + q)) :
    MatchesAt isWord p text' (b + q) := by
  obtain ⟨j, hm⟩ := hmatch
  obtain ⟨hij, -, hstays⟩ := SubPattern.within p _ j hm
  have hmove := SubPattern.moves h p huses q (j - a) hlo (by omega) (by omega)
  rw [Nat.add_sub_cancel' (by omega)] at hmove
  exact ⟨_, hmove hm⟩

/-- Behind the start of a text a match is one behind anything else in front of it. -/
theorem MatchesAt.move (X Y C : List Char) {q : ℕ} (hq : 1 ≤ q) (hqC : q ≤ C.length)
    (h : MatchesAt isWord p (X ++ C) (X.length + q)) : MatchesAt isWord p (Y ++ C) (Y.length + q) :=
  h.shift (agrees_inside isWord X Y C) (SubPattern.uses_all p) length_append hq hqC

theorem found_iff_inside (text : List Char) :
    p.Found isWord text ↔ FoundInside isWord p text ∨ MatchesAt isWord p text 0 := by
  constructor
  · rintro ⟨i, j, hi, hm⟩
    rcases Nat.eq_zero_or_pos i with rfl | hpos
    · exact .inr ⟨j, hm⟩
    · exact .inl ⟨i, hpos, hi, j, hm⟩
  · rintro (⟨i, -, hi, j, hm⟩ | ⟨j, hm⟩)
    · exact ⟨i, j, hi, hm⟩
    · exact ⟨0, j, Nat.zero_le _, hm⟩

theorem found_behind_iff (X V : List Char) (front : Char)
    (hbegins : ∀ i, MatchesAt isWord p (X ++ front :: V) i → X.length + 1 ≤ i) :
    p.Found isWord (X ++ front :: V) ↔ FoundInside isWord p V ∨ MatchesAt isWord p (front :: V) 1 := by
  constructor
  · rintro ⟨i, j, hi, hm⟩
    obtain ⟨q, rfl⟩ := Nat.exists_eq_add_of_le (hbegins i ⟨j, hm⟩)
    rw [length_append, length_cons] at hi
    have hfront : MatchesAt isWord p (front :: V) (1 + q) := by
      have := MatchesAt.move X [] (front :: V) (q := 1 + q) (by omega) (by rw [length_cons]; omega)
        ⟨j, by rwa [← Nat.add_assoc]⟩
      rwa [nil_append, length_nil, Nat.zero_add] at this
    rcases Nat.eq_zero_or_pos q with rfl | hq
    · exact .inr hfront
    · have := MatchesAt.move [front] [] V hq (by omega) hfront
      rw [nil_append, length_nil, Nat.zero_add] at this
      exact .inl ⟨q, hq, by omega, this⟩
  · have hmove : ∀ q ≤ V.length, MatchesAt isWord p (front :: V) (1 + q) →
        p.Found isWord (X ++ front :: V) := by
      intro q hq h
      have := MatchesAt.move [] X (front :: V) (q := 1 + q) (by omega) (by rw [length_cons]; omega)
        (by rwa [nil_append, length_nil, Nat.zero_add])
      obtain ⟨j, hm⟩ := this
      exact ⟨_, j, by rw [length_append, length_cons]; omega, hm⟩
    rintro (⟨q, hpos, hq, h⟩ | h)
    · exact hmove q hq (MatchesAt.move [] [front] V hpos hq (by rwa [nil_append, length_nil, Nat.zero_add]))
    · exact hmove 0 (Nat.zero_le _) h

/-- Anchors that do not see a character match the same behind it. -/
theorem not_seesFront {front : Char} {V : List Char} (hV : V ≠ [])
    (hunseen : p.Uses (AtCode.Unseen isWord front)) : ¬ SeesFront isWord p front V := by
  have hchars : ∀ q, V[0 + q]? = (front :: V)[1 + q]? := fun q => by
    rw [Nat.add_comm 1 q, Nat.zero_add]
    rfl
  have hanchors : ∀ code : AtCode, code.Unseen isWord front → ∀ q,
      code.Holds isWord (front :: V) (1 + q) ↔ code.Holds isWord V (0 + q) := fun _ hcode =>
    holds_behind_iff isWord V hV hcode
  rw [SeesFront, not_not]
  exact ⟨MatchesAt.shift (a := 0) (b := 1) (q := 0)
      ⟨fun q _ _ => hchars q, fun code hcode q _ _ => (hanchors code hcode q).mpr⟩
      hunseen (Nat.zero_add _).symm le_rfl (Nat.zero_le _),
    MatchesAt.shift (a := 1) (b := 0) (q := 0)
      ⟨fun q _ _ => (hchars q).symm, fun code hcode q _ _ => (hanchors code hcode q).mp⟩
      hunseen (Nat.add_comm _ _) le_rfl (Nat.zero_le _)⟩

end

/-! ## 2. Tokens one at a time -/

namespace OutputReq

variable (isWord : Char → Bool) (parse : String → SubPattern) (r : OutputReq) (stopRegex : String)
  (tokens : List ℤ)

/-- A request with one stop regex and no stop strings. -/
structure WatchesRegex : Prop where
  stopStrs : r.samplingParams.stopStrs = []
  stopStrMaxLen : r.samplingParams.stopStrMaxLen = 0
  stopRegexStrs : r.samplingParams.stopRegexStrs = [stopRegex]
  stopRegexMaxLen : r.samplingParams.stopRegexMaxLen = Sglang.stopRegexMaxLen parse [stopRegex]

/-- The characters of some tokens. -/
def textOf (l : List ℤ) : List Char := (r.decode l).toList

/-- The decoded output after the token number `n`. -/
def outputText (n : ℕ) : List Char := r.textOf (tokens.take (n + 1))

/-- The window after the token number `n`. -/
def windowText (n : ℕ) : List Char :=
  ({ r with outputIds := tokens.take (n + 1) } : OutputReq).tailStr.toList

/-- The expression is found in the window for the first time when it is found in the output for the
first time. -/
def SameTime : Prop :=
  ∀ n < tokens.length,
    IsFirst (fun n => (parse stopRegex).Found isWord (r.windowText tokens n)) n ↔
      IsFirst (fun n => (parse stopRegex).Found isWord (r.outputText tokens n)) n

/-- The text in front of the token number `n` and of as many before it as a match has characters. -/
def frontText (n : ℕ) : List Char := r.textOf (tokens.take (n - (parse stopRegex).maxLength))

/-- What these tokens add to it. -/
def lastText (n : ℕ) : List Char :=
  (r.outputText tokens n).drop (r.frontText parse stopRegex tokens n).length

/-- As long as nothing was found before, what the expression matches from the start of the last tokens'
text on does not change with the character in front of it, or a match begins further behind. -/
def FrontsUnseen : Prop :=
  ∀ n < tokens.length,
    (∀ m < n, ¬ (parse stopRegex).Found isWord (r.outputText tokens m)) →
    ∀ front ∈ (r.frontText parse stopRegex tokens n).getLast?,
      SeesFront isWord (parse stopRegex) front (r.lastText parse stopRegex tokens n) →
        FoundInside isWord (parse stopRegex) (r.lastText parse stopRegex tokens n)

/-- No character is cut in front of the last tokens, and those before the last one have as many
characters as a match, which the last one leaves as they are. -/
structure Wide (n : ℕ) : Prop where
  uncut : r.outputText tokens n = r.frontText parse stopRegex tokens n ++
    r.textOf ((tokens.take (n + 1)).drop (n - (parse stopRegex).maxLength))
  kept : (parse stopRegex).maxLength < n → ∃ kept old new,
    r.textOf (tokens.take n) = kept ++ old ∧ r.outputText tokens n = kept ++ new ∧ new ≠ [] ∧
      (r.frontText parse stopRegex tokens n).length + (parse stopRegex).maxLength ≤ kept.length

/-- As long as nothing was found, the last tokens are wide enough. -/
def StaysWide : Prop :=
  ∀ n < tokens.length, (∀ m < n, ¬ (parse stopRegex).Found isWord (r.outputText tokens m)) →
    r.Wide parse stopRegex tokens n

/-- Every token decodes to whole characters, at least one. -/
structure WholeCharacters : Prop where
  textOf : ∀ l, (∀ t ∈ l, t ∈ tokens) → r.textOf l = l.flatMap fun t => r.textOf [t]
  ne_nil : ∀ t ∈ tokens, r.textOf [t] ≠ []

variable {isWord parse r stopRegex tokens} {n : ℕ}

theorem windowText_eq (h : r.WatchesRegex parse stopRegex) (hn : n < tokens.length) :
    r.windowText tokens n =
      r.textOf ((tokens.take (n + 1)).drop (n - (parse stopRegex).maxLength)) := by
  have hne : ¬ (r.samplingParams.stopStrs = [] ∧ r.samplingParams.stopRegexStrs = []) := by
    rw [h.stopRegexStrs]
    exact fun hc => absurd hc.2 (cons_ne_nil _ _)
  have hlen : max (r.samplingParams.stopStrMaxLen + 1) (r.samplingParams.stopRegexMaxLen + 1) =
      (parse stopRegex).maxLength + 1 := by
    rw [h.stopStrMaxLen, h.stopRegexMaxLen, Sglang.stopRegexMaxLen, foldl_cons, foldl_nil,
      Nat.zero_max, max_eq_right (by omega)]
  have htail := tailStr_eq (r := { r with outputIds := tokens.take (n + 1) }) hne
  rw [windowText, htail]
  simp only [hlen, length_take, min_eq_left (show n + 1 ≤ tokens.length by omega), Nat.add_sub_add_right]
  rfl

theorem Wide.append_lastText (h : r.Wide parse stopRegex tokens n) : r.outputText tokens n =
    r.frontText parse stopRegex tokens n ++ r.lastText parse stopRegex tokens n := by
  rw [lastText, h.uncut, drop_left]

theorem Wide.windowText (h : r.Wide parse stopRegex tokens n) (hw : r.WatchesRegex parse stopRegex)
    (hn : n < tokens.length) : r.windowText tokens n = r.lastText parse stopRegex tokens n := by
  rw [windowText_eq hw hn, lastText, h.uncut, drop_left]

theorem Wide.frontText_eq_nil (h : r.Wide parse stopRegex tokens n)
    (hle : n ≤ (parse stopRegex).maxLength) : r.frontText parse stopRegex tokens n = [] := by
  have hlen := congrArg length h.uncut
  rw [Nat.sub_eq_zero_of_le hle, drop_zero, length_append] at hlen
  exact length_eq_zero_iff.mp (by rw [outputText] at hlen; omega)

theorem Wide.lastText_ne_nil (h : r.Wide parse stopRegex tokens n)
    (hfront : r.frontText parse stopRegex tokens n ≠ []) : r.lastText parse stopRegex tokens n ≠ [] := by
  obtain ⟨kept, old, new, -, hnew, hne, hlen⟩ :=
    h.kept (not_le.mp fun hle => hfront (h.frontText_eq_nil hle))
  have hpos := length_pos_iff.mpr hne
  rw [← length_pos_iff, lastText, length_drop, hnew, length_append]
  omega

/-- **A match that the last token completes begins in a window that is wide enough**: it is no longer than
what the window shows of the tokens before the last one. -/
theorem Wide.begins_in_window (hwide : r.Wide parse stopRegex tokens n) {i j : ℕ}
    (hn : n < tokens.length) (hlen : tokens.length ≤ maxLen + 1)
    (hbefore : ∀ m < n, ¬ (parse stopRegex).Found isWord (r.outputText tokens m))
    (hm : (parse stopRegex).Matches isWord (r.outputText tokens n) i j) :
    (r.frontText parse stopRegex tokens n).length ≤ i := by
  rcases le_or_gt n (parse stopRegex).maxLength with hle | hlt
  · rw [hwide.frontText_eq_nil hle]
    exact Nat.zero_le _
  · have hwithin := SubPattern.within _ i j hm
    obtain ⟨k, rfl⟩ := Nat.exists_eq_add_of_le' (show 1 ≤ n by omega)
    obtain ⟨kept, old, new, hold, hnew, hne, hlong⟩ := hwide.kept hlt
    have hend : kept.length ≤ j := by
      by_contra hshort
      have hkept : kept ≠ [] := fun hnil => by
        rw [hnil, length_nil] at hshort
        omega
      have hmove := SubPattern.moves (agrees_before isWord kept old new hkept hne)
        (parse stopRegex) (SubPattern.uses_all _) i j (Nat.zero_le _) hwithin.1 (by omega)
      rw [Nat.zero_add, Nat.zero_add, ← hnew, ← hold] at hmove
      refine hbefore k (Nat.lt_succ_self k) ⟨i, j, ?_, hmove hm⟩
      have := hwithin.1
      rw [outputText, hold, length_append]
      omega
    rcases hwithin.2.1 with hle | hmax
    · omega
    · omega

/-- **Where nothing was found before, a window that is wide enough has what the output has** exactly if the
character in front of it makes no difference. -/
theorem Wide.found_iff (hwide : r.Wide parse stopRegex tokens n) (hn : n < tokens.length)
    (hlen : tokens.length ≤ maxLen + 1)
    (hbefore : ∀ m < n, ¬ (parse stopRegex).Found isWord (r.outputText tokens m)) :
    ((parse stopRegex).Found isWord (r.lastText parse stopRegex tokens n) ↔
        (parse stopRegex).Found isWord (r.outputText tokens n)) ↔
      ∀ front ∈ (r.frontText parse stopRegex tokens n).getLast?,
        SeesFront isWord (parse stopRegex) front (r.lastText parse stopRegex tokens n) →
          FoundInside isWord (parse stopRegex) (r.lastText parse stopRegex tokens n) := by
  have hbegins := fun i (h : MatchesAt isWord (parse stopRegex) _ i) =>
    hwide.begins_in_window (i := i) hn hlen hbefore h.choose_spec
  rw [hwide.append_lastText] at hbegins ⊢
  generalize r.lastText parse stopRegex tokens n = V at hbegins ⊢
  rcases eq_nil_or_concat (r.frontText parse stopRegex tokens n) with hX | ⟨X, front, hX⟩
  · rw [hX]
    exact iff_of_true Iff.rfl fun front hfront => by cases hfront
  · rw [hX] at hbegins ⊢
    rw [concat_eq_append, append_assoc, singleton_append] at hbegins ⊢
    rw [found_behind_iff X V front fun i hm => by simpa using hbegins i hm, found_iff_inside,
      getLast?_concat]
    simp only [Option.mem_some_iff, forall_eq', SeesFront]
    tauto

theorem StaysWide.sameTime_iff (hwide : r.StaysWide isWord parse stopRegex tokens)
    (h : r.WatchesRegex parse stopRegex) (hlen : tokens.length ≤ maxLen + 1) :
    r.SameTime isWord parse stopRegex tokens ↔ r.FrontsUnseen isWord parse stopRegex tokens := by
  rw [SameTime, isFirst_iff_isFirst]
  refine forall₂_congr fun n hn => forall_congr' fun hbefore => ?_
  have hw := hwide n hn hbefore
  rw [hw.windowText h hn]
  exact hw.found_iff hn hlen hbefore

/-- Anchors that no character of the output is seen by. -/
theorem StaysWide.frontsUnseen (hwide : r.StaysWide isWord parse stopRegex tokens)
    (h : ∀ n, ∀ front ∈ r.textOf (tokens.take n), (parse stopRegex).Uses (AtCode.Unseen isWord front)) :
    r.FrontsUnseen isWord parse stopRegex tokens := by
  intro n hn hbefore front hfront hsees
  have hmem := mem_of_getLast? hfront
  exact absurd hsees
    (not_seesFront ((hwide n hn hbefore).lastText_ne_nil (ne_nil_of_mem hmem)) (h _ front hmem))

theorem WholeCharacters.length_le (h : r.WholeCharacters tokens) {l : List ℤ} (hl : ∀ t ∈ l, t ∈ tokens) :
    l.length ≤ (r.textOf l).length := by
  rw [h.textOf l hl, length_flatMap]
  refine (card_nsmul_le_sum (l.map fun t => (r.textOf [t]).length) 1 ?_).trans' (by simp)
  simp only [mem_map, forall_exists_index, and_imp, forall_apply_eq_imp_iff₂]
  exact fun t ht => length_pos_iff.mpr (h.ne_nil t (hl t ht))

/-- **Tokens of whole characters** are wide enough. -/
theorem WholeCharacters.wide (h : r.WholeCharacters tokens) (hn : n < tokens.length) :
    r.Wide parse stopRegex tokens n := by
  have hmem : ∀ k m, ∀ t ∈ (tokens.take m).drop k, t ∈ tokens := fun _ _ _ ht =>
    mem_of_mem_take (mem_of_mem_drop ht)
  have hcut : ∀ k m, k ≤ m → r.textOf (tokens.take m) =
      r.textOf (tokens.take k) ++ r.textOf ((tokens.take m).drop k) := by
    intro k m hkm
    have htake : tokens.take k = (tokens.take m).take k := by rw [take_take, min_eq_left hkm]
    rw [h.textOf _ fun t => mem_of_mem_take, h.textOf (tokens.take k) fun t => mem_of_mem_take,
      h.textOf _ (hmem k m), ← flatMap_append, htake, take_append_drop]
  have hlast := h.length_le (hmem n (n + 1))
  have hbefore := h.length_le (hmem (n - (parse stopRegex).maxLength) n)
  rw [length_drop, length_take] at hlast hbefore
  refine ⟨hcut _ _ (by omega), fun hlt => ⟨_, [], _, (append_nil _).symm, hcut n _ (Nat.le_succ n),
    length_pos_iff.mp (by omega), ?_⟩⟩
  rw [hcut (n - (parse stopRegex).maxLength) n (Nat.sub_le ..), length_append, frontText]
  omega

/-- **No match is longer than computed, and the window finds what the output has at the same time** if and
only if the character in front of the last tokens' text makes no difference to what is found in it, where
these tokens are wide enough; tokens of whole characters are, and it makes none to an expression whose
anchors do not see the characters of the output. -/
theorem regex_window_iff (isWord : Char → Bool) (tokens : List ℤ)
    (h : r.WatchesRegex parse stopRegex) (hlen : tokens.length ≤ 2 ^ 30 + 1) :
    (∀ text i j, (parse stopRegex).Matches isWord text i j →
        j ≤ i + (parse stopRegex).maxLength ∨ 2 ^ 30 ≤ (parse stopRegex).maxLength) ∧
    (r.StaysWide isWord parse stopRegex tokens → (r.SameTime isWord parse stopRegex tokens ↔
        r.FrontsUnseen isWord parse stopRegex tokens) ∧
      ((∀ n, ∀ front ∈ r.textOf (tokens.take n), (parse stopRegex).Uses (AtCode.Unseen isWord front)) →
        r.FrontsUnseen isWord parse stopRegex tokens)) ∧
    (r.WholeCharacters tokens → r.StaysWide isWord parse stopRegex tokens) :=
  ⟨fun _ i j hm => (SubPattern.within _ i j hm).2.1, fun hwide =>
    ⟨hwide.sameTime_iff h hlen, hwide.frontsUnseen⟩, fun hwhole _ hn _ => hwhole.wide hn⟩

/-- A request that watches for an expression of this many characters. -/
def regexRequest (decode : List ℤ → List Char) (stopRegexMaxLen : ℕ) : OutputReq where
  samplingParams := ⟨100, false, [], [], ["regex"], 0, stopRegexMaxLen⟩
  eosTokenIds := []
  tokenizer := some ⟨none, []⟩
  decode l := String.ofList (decode l)
  vocabSize := 3
  grammar := none
  decodedText := ""
  outputIds := []
  finishedReason := none
  finishedLen := none
  toFinish := none

/-- Tokens that are `a` or `b`. -/
def letters (l : List ℤ) : List Char := l.map fun t => if t = 1 then 'a' else 'b'

/-- Tokens 1 and 2 are the two bytes of a character, and one alone decodes to the replacement character. -/
def halves : List ℤ → List Char
  | [] => []
  | 1 :: 2 :: l => 'é' :: halves l
  | _ :: l => '\uFFFD' :: halves l

/-- `^b`. -/
def caretB : SubPattern := .cons (.anchor .beginning) (.cons (.literal 'b') .nil)

/-- `b$`. -/
def bDollar : SubPattern := .cons (.literal 'b') (.cons (.anchor .atEnd) .nil)

/-- A character with two bytes, twice. -/
def twoAccents : SubPattern := .cons (.literal 'é') (.cons (.literal 'é') .nil)

theorem watches_regexRequest (decode : List ℤ → List Char) (p : SubPattern) :
    (regexRequest decode p.maxLength).WatchesRegex (fun _ => p) "regex" where
  stopStrs := rfl
  stopStrMaxLen := rfl
  stopRegexStrs := rfl
  stopRegexMaxLen := (Nat.zero_max _).symm

theorem wholeCharacters_letters (maxLength : ℕ) (tokens : List ℤ) :
    (regexRequest letters maxLength).WholeCharacters tokens where
  textOf l _ := by simp [textOf, regexRequest, letters, map_eq_flatMap]
  ne_nil t _ := by simp [textOf, regexRequest, letters]

/-- `b$` is found in the last two of the tokens `a`, `a`, `b` as soon as in the output. -/
theorem regex_window_letters :
    (regexRequest letters bDollar.maxLength).SameTime Char.isAlphanum (fun _ => bDollar) "regex"
      [1, 1, 2] ∧
    bDollar.Found Char.isAlphanum ((regexRequest letters bDollar.maxLength).windowText [1, 1, 2] 2) := by
  obtain ⟨-, hiff, hwide⟩ := regex_window_iff Char.isAlphanum [1, 1, 2]
    (watches_regexRequest letters bDollar) (by decide)
  obtain ⟨hsame, hunseen⟩ := hiff (hwide (wholeCharacters_letters _ _))
  exact ⟨hsame.mpr (hunseen fun _ _ _ => ⟨trivial, trivial, trivial⟩),
    1, 2, by decide, 2, ⟨by decide, rfl⟩, 2, ⟨.inl (by decide), rfl⟩, rfl⟩

theorem found_caretB (text : List Char) : caretB.Found Char.isAlphanum text ↔ text[0]? = some 'b' := by
  constructor
  · rintro ⟨i, j, -, k, ⟨h0, rfl⟩, m, ⟨hb, -⟩, -⟩
    rwa [show k = 0 from h0] at hb
  · intro hb
    exact ⟨0, 1, Nat.zero_le _, 0, ⟨rfl, rfl⟩, 1, ⟨hb, rfl⟩, rfl⟩

theorem found_twoAccents (text : List Char) :
    twoAccents.Found Char.isAlphanum text ↔ ∃ i, text[i]? = some 'é' ∧ text[i + 1]? = some 'é' := by
  constructor
  · rintro ⟨i, j, -, k, ⟨h0, rfl⟩, m, ⟨h1, -⟩, -⟩
    exact ⟨i, h0, h1⟩
  · rintro ⟨i, h0, h1⟩
    have hi := (List.getElem?_eq_some_iff.mp h0).1
    exact ⟨i, i + 2, hi.le, i + 1, ⟨h0, rfl⟩, i + 2, ⟨h1, rfl⟩, rfl⟩

/-- `^b` is found in the last two of the tokens `a`, `b`, `a`, and not in the output; two characters of two
bytes each are found in the output, and not in its last three tokens. -/
theorem windows_differ :
    ¬ (regexRequest letters caretB.maxLength).SameTime Char.isAlphanum (fun _ => caretB) "regex"
      [1, 2, 1] ∧
    ¬ (regexRequest halves twoAccents.maxLength).SameTime Char.isAlphanum (fun _ => twoAccents) "regex"
      [1, 2, 1, 2] := by
  constructor
  · intro h
    have hfirst := (h 2 (by decide)).mp ⟨?_, fun m hm => ?_⟩
    · have hout := (found_caretB _).mp hfirst.1
      revert hout
      decide
    · exact (found_caretB _).mpr (by decide)
    · refine fun hfound => absurd ((found_caretB _).mp hfound) ?_
      interval_cases m <;> decide
  · intro h
    have hfirst := (h 3 (by decide)).mpr ⟨?_, fun m hm => ?_⟩
    · obtain ⟨i, h0, h1⟩ := (found_twoAccents _).mp hfirst.1
      have hwindow : (regexRequest halves twoAccents.maxLength).windowText [1, 2, 1, 2] 3 =
          ['\uFFFD', 'é'] := by decide
      rw [hwindow] at h0 h1
      have hi := (List.getElem?_eq_some_iff.mp h1).1
      obtain rfl : i = 0 := by simpa using hi
      revert h0
      decide
    · exact (found_twoAccents _).mpr ⟨0, by decide, by decide⟩
    · intro hfound
      obtain ⟨i, h0, h1⟩ := (found_twoAccents _).mp hfound
      have hlen : ((regexRequest halves twoAccents.maxLength).outputText [1, 2, 1, 2] m).length ≤ 2 := by
        interval_cases m <;> decide
      have hi := (List.getElem?_eq_some_iff.mp h1).1
      obtain rfl : i = 0 := by omega
      revert h1
      interval_cases m <;> decide

end OutputReq

end Sglang
