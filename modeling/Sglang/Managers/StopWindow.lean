/-
# The window for stop strings

`Req.tail_str` decodes the last tokens only, one more than the longest stop string has in the
tokenizer's own encoding (`SamplingParams.normalize`).  A stop string is found if it begins in this
window.  Once found it stops the request, so the request has stopped after a piece exactly if the output
has a stop string, as long as the first one begins in the window at the end of the piece that completes
it: a long piece, or tokens that cut the text otherwise than the encoding does, can push it out.
-/
import Sglang.Lib.FirstTime
import Sglang.Managers.FinishCheck

namespace Sglang

open Lib List

/-- `stop_str_max_len`, as `SamplingParams.normalize` computes it with a tokenizer. -/
def stopStrMaxLen (encode : String → List ℤ) (stopStrs : List String) : ℕ :=
  stopStrs.foldl (fun stopStrMaxLen stopStr => max stopStrMaxLen (encode stopStr).length) 0

namespace OutputReq

/-- A new request with stop strings and nothing else to stop it, and a tokenizer that decodes a
concatenation to the concatenation. -/
structure StopsAtStrings (encode : String → List ℤ) (r : OutputReq) : Prop where
  stopStrMaxLen : r.samplingParams.stopStrMaxLen =
    Sglang.stopStrMaxLen encode r.samplingParams.stopStrs
  stopRegexStrs : r.samplingParams.stopRegexStrs = []
  stopRegexMaxLen : r.samplingParams.stopRegexMaxLen = 0
  grammar : r.grammar = none
  toFinish : r.toFinish = none
  finishedReason : r.finishedReason = none
  decodedText : r.decodedText = ""
  outputIds : r.outputIds = []
  decode : ∀ l l', r.decode (l ++ l') = r.decode l ++ r.decode l'

/-- The request after some pieces. -/
def afterChunks (search : String → String → Bool) (r : OutputReq) (chunks : List (List ℤ)) : OutputReq :=
  chunks.foldl (accept search) r

/-- The decoded text has a stop string. -/
def HasStop (r : OutputReq) (out : List ℤ) : Prop :=
  ∃ s ∈ r.samplingParams.stopStrs, s.toList <:+: (r.decode out).toList

/-- The decoded text has a stop string that begins in the last `len` tokens. -/
def HasStopIn (r : OutputReq) (len : ℕ) (out : List ℤ) : Prop :=
  ∃ s ∈ r.samplingParams.stopStrs, ∃ before after,
    (r.decode out).toList = before ++ s.toList ++ after ∧
      (r.decode (out.take (out.length - len))).toList.length ≤ before.length

variable {search : String → String → Bool} {encode : String → List ℤ} {r : OutputReq}
  {chunk out : List ℤ} {chunks : List (List ℤ)}

theorem infix_iff_of_append {α : Type} (s a b : List α) :
    s <:+: b ↔ ∃ before after, a ++ b = before ++ s ++ after ∧ a.length ≤ before.length := by
  constructor
  · rintro ⟨x, y, rfl⟩
    exact ⟨a ++ x, y, by simp, by simp⟩
  · rintro ⟨before, after, heq, hlen⟩
    obtain ⟨x, rfl⟩ : a <+: before := prefix_of_prefix_length_le (prefix_append a b)
      (by rw [heq, append_assoc]; exact prefix_append _ _) hlen
    rw [append_assoc, append_assoc, append_cancel_left_eq] at heq
    exact ⟨x, after, by rw [heq, append_assoc]⟩

theorem HasStop.mono (hdecode : ∀ l l', r.decode (l ++ l') = r.decode l ++ r.decode l')
    (h : r.HasStop out) (more : List ℤ) : r.HasStop (out ++ more) := by
  obtain ⟨s, hs, hin⟩ := h
  refine ⟨s, hs, hin.trans ?_⟩
  rw [hdecode, String.toList_append]
  exact infix_append_left

theorem HasStopIn.hasStop {len : ℕ} (h : r.HasStopIn len out) : r.HasStop out := by
  obtain ⟨s, hs, before, after, heq, -⟩ := h
  exact ⟨s, hs, before, after, heq.symm⟩

/-- The window decodes to what the last tokens decode to. -/
theorem tailStr_eq (h : ¬ (r.samplingParams.stopStrs = [] ∧ r.samplingParams.stopRegexStrs = [])) :
    r.tailStr = r.decode (r.outputIds.drop (r.outputIds.length -
      max (r.samplingParams.stopStrMaxLen + 1) (r.samplingParams.stopRegexMaxLen + 1))) := by
  rw [tailStr, if_neg h]
  simp only [lastTokens]
  split
  · rename_i hzero
    rw [show r.outputIds.length = 0 by omega, Nat.zero_sub, drop_zero]
  · congr 2
    omega

/-- The test for stop strings finds those that begin in the window. -/
theorem checkStrBasedFinish_isSome_iff (search : String → String → Bool) (hregex : r.samplingParams.stopRegexStrs = [])
    (hlen : r.samplingParams.stopRegexMaxLen = 0) (htext : r.decodedText = "")
    (hdecode : ∀ l l', r.decode (l ++ l') = r.decode l ++ r.decode l') :
    (r.checkStrBasedFinish search).isSome = true ↔
      r.HasStopIn (r.samplingParams.stopStrMaxLen + 1) r.outputIds := by
  have hwindow : (r.checkStrBasedFinish search).isSome = true ↔
      ∃ s ∈ r.samplingParams.stopStrs, s.toList <:+: r.tailStr.toList := by
    have hin : ∀ s, (isSubstring s r.tailStr || isSubstring s r.decodedText) = true ↔
        s.toList <:+: r.tailStr.toList := by
      intro s
      rw [htext, isSubstring, isSubstring, Bool.or_eq_true, decide_eq_true_eq, decide_eq_true_eq]
      refine or_iff_left_of_imp fun hempty => ?_
      rw [infix_nil.mp hempty]
      exact nil_infix
    rw [checkStrBasedFinish, hregex]
    split
    · rename_i s hfind
      have hs := find?_some hfind
      exact iff_of_true rfl ⟨s, mem_of_find?_eq_some hfind, (hin s).mp hs⟩
    · rename_i hnone
      refine iff_of_false (by simp) ?_
      rintro ⟨s, hs, hsub⟩
      exact find?_eq_none.mp hnone s hs ((hin s).mpr hsub)
  rw [hwindow]
  refine exists_congr fun s => and_congr_right fun hs => ?_
  have hsplit : (r.decode r.outputIds).toList =
      (r.decode (r.outputIds.take (r.outputIds.length - (r.samplingParams.stopStrMaxLen + 1)))).toList ++
        r.tailStr.toList := by
    rw [tailStr_eq fun h => ne_nil_of_mem hs h.1, max_eq_left (by omega), ← String.toList_append,
      ← hdecode, take_append_drop]
  rw [hsplit]
  exact infix_iff_of_append _ _ _

/-- A piece that nothing but a stop string stops at. -/
theorem accept_extend (h : r.StopsAtStrings encode)
    (hlen : (out ++ chunk).length < r.samplingParams.maxNewTokens) (hquiet : ∀ t ∈ out ++ chunk, ¬ r.Stops t) :
    (r.extend out).accept search chunk =
      ((r.extend (out ++ chunk)).checkStrBasedFinish search).getD (r.extend (out ++ chunk)) := by
  have hids : (r.extend (out ++ chunk)).outputIds = out ++ chunk := by
    simp [OutputReq.extend, h.outputIds]
  have hlast : ∀ t ∈ lastTokens chunk.length (r.extend (out ++ chunk)).outputIds, ¬ r.Stops t := by
    intro t ht
    refine hquiet t ?_
    rw [lastTokens, hids] at ht
    split at ht
    · exact ht
    · exact mem_of_mem_drop ht
  have htoken := checkTokenBasedFinish_none (out ++ chunk) fun t ht hm => hlast t ht (.inl hm)
  have hvocab := checkVocabBoundaryFinish_none (out ++ chunk) fun t ht ho => hlast t ht (.inr ho)
  rw [← extend_extend] at hids hlast htoken hvocab ⊢
  have hlen' : ¬ ((r.extend out).extend chunk).outputIds.length ≥
      ((r.extend out).extend chunk).samplingParams.maxNewTokens := by
    rw [hids]
    exact not_le.mpr hlen
  change ((r.extend out).extend chunk).checkFinished search chunk.length = _
  unfold checkFinished
  rw [if_neg (by simp [finished, OutputReq.extend, h.finishedReason]),
    if_neg (by simp [OutputReq.extend, h.toFinish]), if_neg hlen',
    if_neg (by simp [OutputReq.extend, h.grammar])]
  simp [htoken, hvocab]

theorem accept_finished (h : r.finished = true) : (r.accept search chunk).finished = true := by
  have h' : ({ r with outputIds := r.outputIds ++ chunk } : OutputReq).finished = true := h
  rw [accept, checkFinished, if_pos h']
  exact h'

theorem finished_of_checkStrBasedFinish {r' : OutputReq} (h : r.checkStrBasedFinish search = some r') :
    r'.finished = true := by
  rw [checkStrBasedFinish] at h
  split at h
  · cases h
    rfl
  · obtain ⟨s, -, rfl⟩ := Option.map_eq_some_iff.mp h
    rfl

/-- **The pieces so far**: the request runs as long as none of them ended with a stop string in the
window, and is stopped from then on. -/
theorem afterChunks_cases (search : String → String → Bool) (h : r.StopsAtStrings encode)
    (hlen : chunks.flatten.length < r.samplingParams.maxNewTokens)
    (hquiet : ∀ t ∈ chunks.flatten, ¬ r.Stops t) :
    (r.afterChunks search chunks = r.extend chunks.flatten ∧ ∀ n < chunks.length,
        ¬ r.HasStopIn (r.samplingParams.stopStrMaxLen + 1) (chunks.take (n + 1)).flatten) ∨
    ((r.afterChunks search chunks).finished = true ∧
      ∃ n < chunks.length, r.HasStopIn (r.samplingParams.stopStrMaxLen + 1) (chunks.take (n + 1)).flatten) := by
  induction chunks using List.reverseRecOn with
  | nil => exact Or.inl ⟨by simp [afterChunks, OutputReq.extend],
    fun n hn => absurd hn (Nat.not_lt_zero n)⟩
  | append_singleton chunks chunk ih =>
    have hflat : (chunks ++ [chunk]).flatten = chunks.flatten ++ chunk := by simp
    have hrun : r.afterChunks search (chunks ++ [chunk]) = (r.afterChunks search chunks).accept search chunk := by
      rw [afterChunks, foldl_append]
      rfl
    have hbefore : ∀ n < chunks.length, (chunks ++ [chunk]).take (n + 1) = chunks.take (n + 1) :=
      fun n hn => take_append_of_le_length hn
    have hall : (chunks ++ [chunk]).take (chunks.length + 1) = chunks ++ [chunk] :=
      take_of_length_le (by simp)
    rw [hflat] at hlen hquiet
    rw [hrun, hflat, length_append]
    rcases ih (by rw [length_append] at hlen; omega)
      fun t ht => hquiet t (mem_append_left _ ht) with ⟨hext, hnone⟩ | ⟨hfin, n, hn, hseen⟩
    · have hsome : (((r.extend (chunks.flatten ++ chunk)).checkStrBasedFinish search).isSome = true) ↔
          r.HasStopIn (r.samplingParams.stopStrMaxLen + 1) (chunks.flatten ++ chunk) := by
        have := @checkStrBasedFinish_isSome_iff (r.extend (chunks.flatten ++ chunk)) search
          h.stopRegexStrs h.stopRegexMaxLen h.decodedText h.decode
        simpa [OutputReq.extend, h.outputIds, HasStopIn] using this
      rw [hext, accept_extend h hlen hquiet]
      cases hcheck : (r.extend (chunks.flatten ++ chunk)).checkStrBasedFinish search with
      | none =>
        rw [hcheck] at hsome
        refine Or.inl ⟨rfl, fun n hn => ?_⟩
        rcases Nat.lt_succ_iff_lt_or_eq.mp hn with hlt | rfl
        · rw [hbefore n hlt]
          exact hnone n hlt
        · rw [hall, hflat]
          exact fun hin => absurd (hsome.mpr hin) (by simp)
      | some r' =>
        rw [hcheck] at hsome
        refine Or.inr ⟨finished_of_checkStrBasedFinish hcheck, chunks.length, Nat.lt_succ_self _, ?_⟩
        rw [hall, hflat]
        exact hsome.mp rfl
    · refine Or.inr ⟨accept_finished hfin, n, Nat.lt_succ_of_lt hn, ?_⟩
      rw [hbefore n hn]
      exact hseen

/-- **A request has stopped after each piece exactly if its output has a stop string**, if and only if,
where a piece first completes a stop string, one begins in the last tokens: one more of them than the
longest stop string is encoded in. -/
theorem stops_at_strings_iff (search : String → String → Bool) (h : r.StopsAtStrings encode)
    (hlen : chunks.flatten.length < r.samplingParams.maxNewTokens)
    (hquiet : ∀ t ∈ chunks.flatten, ¬ r.Stops t) :
    (∀ n < chunks.length, (r.afterChunks search (chunks.take (n + 1))).finished = true ↔
      r.HasStop (chunks.take (n + 1)).flatten) ↔
    ∀ n < chunks.length, IsFirst (fun m => r.HasStop (chunks.take (m + 1)).flatten) n →
      r.HasStopIn (Sglang.stopStrMaxLen encode r.samplingParams.stopStrs + 1)
        (chunks.take (n + 1)).flatten := by
  rw [← h.stopStrMaxLen]
  have hsplit : ∀ n m, n ≤ m → (chunks.take m).flatten =
      (chunks.take n).flatten ++ ((chunks.take m).drop n).flatten := by
    intro n m hnm
    have htake : (chunks.take m).take n = chunks.take n := by rw [take_take, min_eq_left hnm]
    rw [← htake, ← flatten_append, take_append_drop]
  have hstopped : ∀ n < chunks.length, (r.afterChunks search (chunks.take (n + 1))).finished = true ↔
      ∃ m ≤ n, r.HasStopIn (r.samplingParams.stopStrMaxLen + 1) (chunks.take (m + 1)).flatten := by
    intro n hn
    have htake : ∀ m ≤ n, (chunks.take (n + 1)).take (m + 1) = chunks.take (m + 1) := fun m hm => by
      rw [take_take, min_eq_left (by omega)]
    have hlength : (chunks.take (n + 1)).length = n + 1 := by
      rw [length_take]
      omega
    have hfit := congrArg List.length (hsplit (n + 1) chunks.length (by omega))
    rw [take_length, length_append] at hfit
    have hmem : ∀ t ∈ (chunks.take (n + 1)).flatten, ¬ r.Stops t := fun t ht => hquiet t (by
      rw [← take_length (l := chunks), hsplit (n + 1) chunks.length (by omega)]
      exact mem_append_left _ ht)
    rcases afterChunks_cases search h (by omega) hmem with ⟨hext, hnone⟩ | ⟨hfin, m, hm, hseen⟩
    · refine iff_of_false (by simp [hext, finished, OutputReq.extend, h.finishedReason]) ?_
      rintro ⟨m, hm, hseen⟩
      rw [← htake m hm] at hseen
      exact hnone m (by omega) hseen
    · rw [hlength] at hm
      rw [htake m (by omega)] at hseen
      exact iff_of_true hfin ⟨m, by omega, hseen⟩
  rw [← exact_iff fun n _ hseen => HasStopIn.hasStop hseen]
  · exact forall₂_congr fun n hn => iff_congr (hstopped n hn) Iff.rfl
  · intro m n hmn hn hstop
    rw [hsplit (m + 1) (n + 1) (by omega)]
    exact hstop.mono h.decode _

/-- A request that stops at `ab`, which the tokenizer encodes as the tokens 1 and 2. -/
def stopAtAb : OutputReq where
  samplingParams := ⟨100, false, [], ["ab"], [], 2, 0⟩
  eosTokenIds := []
  tokenizer := some ⟨none, []⟩
  decode l := String.ofList (l.map fun t => if t = 1 then 'a' else 'b')
  vocabSize := 3
  grammar := none
  decodedText := ""
  outputIds := []
  finishedReason := none
  finishedLen := none
  toFinish := none

theorem stopsAtStrings_stopAtAb : stopAtAb.StopsAtStrings fun _ => [1, 2] where
  stopStrMaxLen := rfl
  stopRegexStrs := rfl
  stopRegexMaxLen := rfl
  grammar := rfl
  toFinish := rfl
  finishedReason := rfl
  decodedText := rfl
  outputIds := rfl
  decode l l' := by
    simp only [stopAtAb]
    rw [map_append, String.ofList_append]

/-- Two pieces, the second of which completes `ab`. -/
def abPieces : List (List ℤ) := [[1], [2, 2]]

theorem stops_at_ab :
    (∀ n < abPieces.length,
      (stopAtAb.afterChunks (fun _ _ => false) (abPieces.take (n + 1))).finished = true ↔
        stopAtAb.HasStop (abPieces.take (n + 1)).flatten) ↔
    ∀ n < abPieces.length, IsFirst (fun m => stopAtAb.HasStop (abPieces.take (m + 1)).flatten) n →
      stopAtAb.HasStopIn (Sglang.stopStrMaxLen (fun _ => [1, 2]) stopAtAb.samplingParams.stopStrs + 1)
        (abPieces.take (n + 1)).flatten :=
  stops_at_strings_iff (fun _ _ => false) stopsAtStrings_stopAtAb (by decide) (by decide)

/-- One piece with `ab` in front of two more tokens: the window begins behind the `a`. -/
theorem misses_ab : stopAtAb.StopsAtStrings (fun _ => [1, 2]) ∧
    (∀ t ∈ ([1, 2, 2, 2] : List ℤ), ¬ stopAtAb.Stops t) ∧
    stopAtAb.HasStop [1, 2, 2, 2] ∧
    (stopAtAb.afterChunks (fun _ _ => false) [[1, 2, 2, 2]]).finished = false := by
  refine ⟨stopsAtStrings_stopAtAb, by decide, ⟨"ab", mem_singleton_self _, ?_⟩, ?_⟩
  · decide
  · decide

end OutputReq

end Sglang
