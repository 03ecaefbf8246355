/-
# The detokenizer

A transcription of `trim_matched_stop` and `_decode_batch_token_id_output` (`detokenizer_manager.py`) and
of `find_printable_text` (`utils.py`), for the messages of one request.  A token is a byte string, and
token ids are decoded by decoding their bytes.

The ids a request has decoded so far are settled when the text ends between characters; only the ids after
the settled ones are decoded again, with the ids settled last in front of them.  As long as the prompt
ends between characters this gives the text of the output (`Decodes`), so that a message prints all of it,
or, inside a character, the settled text and what `find_printable_text` lets through (`printedTexts`).
-/
import Sglang.Lib.Utf8
import Sglang.Lib.Search
import Sglang.Lib.Increments
import Sglang.Managers.FinishCheck

namespace Sglang

open Lib List Option

/-! ## 1. Printable text -/

/-- `_is_chinese_char`. -/
def isChineseChar (c : Char) : Bool :=
  let cp := c.toNat
  (cp ≥ 0x4E00 && cp ≤ 0x9FFF) || (cp ≥ 0x3400 && cp ≤ 0x4DBF) || (cp ≥ 0x20000 && cp ≤ 0x2A6DF) ||
    (cp ≥ 0x2A700 && cp ≤ 0x2B73F) || (cp ≥ 0x2B740 && cp ≤ 0x2B81F) ||
    (cp ≥ 0x2B820 && cp ≤ 0x2CEAF) || (cp ≥ 0xF900 && cp ≤ 0xFAFF) || (cp ≥ 0x2F800 && cp ≤ 0x2FA1F)

/-- `text[: text.rfind(" ") + 1]`. -/
def throughLastSpace (text : List Char) : List Char := (text.reverse.dropWhile (· ≠ ' ')).reverse

/-- `find_printable_text`. -/
def findPrintableText (text : List Char) : List Char :=
  if text.getLast? = some '\n' then text
  else if text.getLast?.any isChineseChar then text
  else if text.dropLast.getLast?.any isChineseChar then text.dropLast
  else throughLastSpace text

/-- The text ends in the replacement character, as it does inside a character. -/
def endsInside (text : List Char) : Bool := text.getLast? == some Utf8.replacementChar

/-! ## 2. The detokenizer -/

/-- `DetokenizerManager`: the tokenizer and whether the tool call parser is that of gpt-oss. -/
structure Detokenizer where
  tokenBytes : ℤ → List UInt8
  isToolCallParserGptOss : Bool

/-- `DecodeStatus`. -/
structure DecodeStatus where
  decodedText : List Char
  decodeIds : List ℤ
  surrOffset : ℕ
  readOffset : ℕ
  sentOffset : ℕ := 0
deriving DecidableEq

/-- `BatchTokenIDOutput`, the fields of one request that detokenization reads. -/
structure TokenIdOutput where
  finishedReason : Option FinishReason
  decodedText : List Char
  decodeIds : List ℤ
  readOffset : ℕ
  noStopTrim : Bool

namespace Detokenizer

/-- `tokenizer.decode`. -/
def decode (d : Detokenizer) (ids : List ℤ) : List Char := Utf8.decode (ids.flatMap d.tokenBytes)

/-- `trim_matched_stop` for token ids.  `if not matched` holds of the token id 0 too. -/
def trimMatchedToken (d : Detokenizer) (output : List ℤ) (finishedReason : Option FinishReason)
    (noStopTrim : Bool) : List ℤ :=
  if noStopTrim then output
  else match finishedReason with
    | some (.matchedToken matched) =>
      if matched = 0 then output
      else if output.getLast? = some 200012 ∧ d.isToolCallParserGptOss then output
      else output.dropLast
    | _ => output

/-- The text in front of the first place of a string. -/
def cutAt (matched output : List Char) : List Char :=
  match find matched output with
  | some pos => output.take pos
  | none => output

/-- `trim_matched_stop` for text. -/
def trimMatchedStr (output : List Char) (finishedReason : Option FinishReason) (noStopTrim : Bool) :
    List Char :=
  if noStopTrim then output
  else match finishedReason with
    | some (.matchedStr matched) | some (.matchedRegex matched) =>
      if matched = "" then output else cutAt matched.toList output
    | _ => output

/-- The status of a request with the ids of a message. -/
def receive (status : Option DecodeStatus) (out : TokenIdOutput) : DecodeStatus :=
  match status with
  | none => ⟨out.decodedText, out.decodeIds, 0, out.readOffset, 0⟩
  | some s => { s with decodeIds := s.decodeIds ++ out.decodeIds }

/-- `new_text`. -/
def newText (d : Detokenizer) (s : DecodeStatus) (out : TokenIdOutput) : List Char :=
  let readIds := d.trimMatchedToken (s.decodeIds.drop s.surrOffset) out.finishedReason out.noStopTrim
  let surrIds := (s.decodeIds.take s.readOffset).drop s.surrOffset
  (d.decode readIds).drop (d.decode surrIds).length

/-- The status after a message that does not finish the request, and the text that is not settled but
printed. -/
def settle (s : DecodeStatus) (newText : List Char) : DecodeStatus × List Char :=
  if newText ≠ [] ∧ ¬ endsInside newText then
    ({ s with
      decodedText := s.decodedText ++ newText
      surrOffset := s.readOffset
      readOffset := s.decodeIds.length }, [])
  else (s, findPrintableText newText)

/-- `_decode_batch_token_id_output` for one request: the status after a message, which is dropped when
the request is finished, and the text that is sent. -/
def decodeOutput (d : Detokenizer) (status : Option DecodeStatus) (out : TokenIdOutput) :
    Option DecodeStatus × List Char :=
  let s := receive status out
  let newText := d.newText s out
  if out.finishedReason = none then
    let s' := (settle s newText).1
    let outputStr := trimMatchedStr (s'.decodedText ++ (settle s newText).2) out.finishedReason
      out.noStopTrim
    (some { s' with sentOffset := outputStr.length }, outputStr.drop s'.sentOffset)
  else
    let outputStr := trimMatchedStr (s.decodedText ++ newText) out.finishedReason out.noStopTrim
    (none, outputStr.drop s.sentOffset)

/-- The text that is sent for the messages of a request. -/
def decodeOutputs (d : Detokenizer) : Option DecodeStatus → List TokenIdOutput → List Char
  | _, [] => []
  | status, out :: outs =>
    (d.decodeOutput status out).2 ++ d.decodeOutputs (d.decodeOutput status out).1 outs

/-! ## 3. What a message prints -/

variable {d : Detokenizer} {prompt ids more settled : List ℤ} {s : DecodeStatus} {text : List Char}
  {status : Option DecodeStatus} {out : TokenIdOutput}

/-- The ids end between characters. -/
def Whole (d : Detokenizer) (ids : List ℤ) : Prop := Utf8.Complete (ids.flatMap d.tokenBytes)

instance (ids : List ℤ) : Decidable (d.Whole ids) := inferInstanceAs (Decidable (_ = _))

/-- The text a message prints: all of it, or inside a character the settled text and what is printable
of the rest. -/
def printed (settled text : List Char) : List Char :=
  if endsInside text then settled ++ findPrintableText (text.drop settled.length) else text

/-- The text that is settled after a message. -/
def settledAfter (settled text : List Char) : List Char := if endsInside text then settled else text

/-- The texts printed at the messages, of which the texts of the output are given. -/
def printedTexts : List Char → List (List Char) → List (List Char)
  | _, [] => []
  | settled, text :: texts => printed settled text :: printedTexts (settledAfter settled text) texts

theorem whole_of_not_endsInside (h : endsInside (d.decode ids) = false) : d.Whole ids :=
  Utf8.complete_of_getLast fun hl => by simp [endsInside, decode, hl] at h

theorem decode_append (h : d.Whole ids) (more : List ℤ) :
    d.decode (ids ++ more) = d.decode ids ++ d.decode more := by
  rw [decode, flatMap_append, Utf8.decode_append h]
  rfl

theorem decode_append_isPrefix (h : d.Whole ids) (more : List ℤ) :
    d.decode ids <+: d.decode (ids ++ more) := by
  rw [decode_append h]
  exact prefix_append _ _

theorem decode_length_le (h : ids <+: more) : (d.decode ids).length ≤ (d.decode more).length := by
  obtain ⟨rest, rfl⟩ := h
  rw [decode, decode, flatMap_append]
  exact Utf8.decode_length_le _ _

theorem throughLastSpace_isPrefix (text : List Char) (h : text.getLast? ≠ some ' ') :
    throughLastSpace text <+: text.dropLast := by
  rcases eq_nil_or_concat text with rfl | ⟨l, c, rfl⟩
  · exact prefix_refl _
  · rw [concat_eq_append, getLast?_concat] at h
    have hc : decide (c ≠ ' ') = true := decide_eq_true fun hc => h (by rw [hc])
    have hdrop : (c :: l.reverse).dropWhile (· ≠ ' ') = l.reverse.dropWhile (· ≠ ' ') :=
      dropWhile_cons_of_pos hc
    have hsuf := reverse_prefix.mpr (dropWhile_suffix (l := l.reverse) (· ≠ ' '))
    rw [reverse_reverse] at hsuf
    rw [concat_eq_append, dropLast_concat, throughLastSpace, reverse_append,
      reverse_singleton, singleton_append, hdrop]
    exact hsuf

/-- Inside a character nothing of the last character is printable. -/
theorem findPrintableText_isPrefix (h : endsInside text = true) :
    findPrintableText text <+: text.dropLast := by
  have hl : text.getLast? = some Utf8.replacementChar := by simpa [endsInside] using h
  have hspace : text.getLast? ≠ some ' ' := by rw [hl]; decide
  rw [findPrintableText, if_neg (by rw [hl]; decide), if_neg (by rw [hl]; decide)]
  split
  · exact prefix_refl _
  · exact throughLastSpace_isPrefix text hspace

/-- What a message prints is part of every later text. -/
theorem printed_isPrefix (hs : d.Whole settled) (ids more : List ℤ) :
    printed (d.decode settled) (d.decode (settled ++ ids)) <+:
      d.decode (settled ++ ids ++ more) := by
  rw [printed]
  split
  next hin =>
    have hlast := Utf8.dropLast_prefix ((settled ++ ids).flatMap d.tokenBytes)
      (more.flatMap d.tokenBytes)
    rw [← flatMap_append] at hlast
    change (d.decode (settled ++ ids)).dropLast <+: _ at hlast
    rw [decode_append hs] at hlast hin ⊢
    rw [drop_left]
    rcases eq_nil_or_concat (d.decode ids) with h0 | ⟨l, c, hc⟩
    · rw [h0, show findPrintableText [] = [] from rfl, append_nil, append_assoc]
      exact decode_append_isPrefix hs _
    · have hne : d.decode ids ≠ [] := by simp [hc]
      have hin' : endsInside (d.decode ids) = true := by
        rw [endsInside, getLast?_append_of_ne_nil _ hne] at hin
        exact hin
      rw [dropLast_append_of_ne_nil hne] at hlast
      exact ((prefix_append_right_inj _).mpr (findPrintableText_isPrefix hin')).trans hlast
  next hout =>
    exact decode_append_isPrefix (whole_of_not_endsInside (by simpa using hout)) more

/-! ## 4. The status of a request -/

/-- The status of a request whose output so far is `ids`, of which `settled` is settled. -/
structure Decodes (d : Detokenizer) (prompt settled ids : List ℤ) (s : DecodeStatus) : Prop where
  decodeIds : s.decodeIds = prompt ++ ids
  settled_prefix : settled <+: ids
  readOffset : s.readOffset = (prompt ++ settled).length
  surr_le : s.surrOffset ≤ s.readOffset
  decodedText : s.decodedText = d.decode settled
  settled_whole : endsInside (d.decode settled) = false
  surr_whole : d.Whole ((prompt ++ settled).drop s.surrOffset)

theorem trimMatchedToken_append (a : List ℤ) {rest : List ℤ} {reason : Option FinishReason}
    (noStopTrim : Bool) (h : ∀ t, reason = some (.matchedToken t) → rest ≠ []) :
    d.trimMatchedToken (a ++ rest) reason noStopTrim = a ++ d.trimMatchedToken rest reason noStopTrim := by
  unfold trimMatchedToken
  split
  · rfl
  · split
    next t =>
      have hne := h t rfl
      rw [getLast?_append_of_ne_nil _ hne, dropLast_append_of_ne_nil hne]
      split_ifs <;> rfl
    next => rfl

theorem Decodes.newText (h : Decodes d prompt settled ids s) {rest : List ℤ} (hids : ids = settled ++ rest)
    (hrest : ∀ t, out.finishedReason = some (.matchedToken t) → rest ≠ []) :
    d.newText s out = d.decode (d.trimMatchedToken rest out.finishedReason out.noStopTrim) := by
  have hle : s.surrOffset ≤ (prompt ++ settled).length := h.readOffset ▸ h.surr_le
  have hread : s.decodeIds.drop s.surrOffset = (prompt ++ settled).drop s.surrOffset ++ rest := by
    rw [h.decodeIds, hids, ← append_assoc, drop_append_of_le_length hle]
  have hsurr : s.decodeIds.take s.readOffset = prompt ++ settled := by
    rw [h.decodeIds, hids, ← append_assoc, h.readOffset, take_left]
  simp [Detokenizer.newText, hread, hsurr, trimMatchedToken_append _ _ hrest,
    decode_append h.surr_whole]

/-- **A message that does not finish the request.** -/
theorem Decodes.decodeOutput (h : Decodes d prompt settled ids (receive status out))
    (hreason : out.finishedReason = none) :
    ∃ s' settled', Decodes d prompt settled' ids s' ∧
      d.decode settled' = settledAfter (d.decode settled) (d.decode ids) ∧
      s'.sentOffset = (printed (d.decode settled) (d.decode ids)).length ∧
      d.decodeOutput status out = (some s',
        (printed (d.decode settled) (d.decode ids)).drop (receive status out).sentOffset) := by
  obtain ⟨rest, hids⟩ := h.settled_prefix
  have hnew : d.newText (receive status out) out = d.decode rest := by
    rw [h.newText hids.symm (by simp [hreason]), hreason]
    simp [trimMatchedToken]
  have htext : d.decode ids = d.decode settled ++ d.decode rest := by
    rw [← hids, decode_append (whole_of_not_endsInside h.settled_whole)]
  have htrim : ∀ t, trimMatchedStr t none out.noStopTrim = t := fun t => by simp [trimMatchedStr]
  unfold Detokenizer.decodeOutput
  simp only [hnew, hreason, htrim]
  by_cases hsettle : d.decode rest ≠ [] ∧ ¬ endsInside (d.decode rest)
  · have hin : endsInside (d.decode ids) = false := by
      rw [htext, endsInside, getLast?_append_of_ne_nil _ hsettle.1]
      simpa [endsInside] using hsettle.2
    have hwhole : d.Whole rest := whole_of_not_endsInside (by simpa using hsettle.2)
    rw [settle, if_pos hsettle, printed, if_neg (by simp [hin]), settledAfter,
      if_neg (by simp [hin])]
    simp only [append_nil, h.decodedText, ← htext]
    refine ⟨_, ids, ?_, rfl, ?_, rfl⟩
    · refine ⟨h.decodeIds, prefix_refl _, congrArg List.length h.decodeIds, ?_, rfl, hin, ?_⟩
      · simp only [h.decodeIds, h.readOffset, ← hids, length_append]
        omega
      · simp only [h.readOffset]
        rw [← hids, ← append_assoc, drop_left]
        exact hwhole
    · rfl
  · have hprinted : printed (d.decode settled) (d.decode ids) =
        d.decode settled ++ findPrintableText (d.decode rest) := by
      rw [printed, htext, drop_left]
      split
      · rfl
      next hin =>
        have h0 : d.decode rest = [] := by
          by_contra hne
          rw [endsInside, getLast?_append_of_ne_nil _ hne] at hin
          exact hsettle ⟨hne, hin⟩
        rw [h0]
        rfl
    have hafter : settledAfter (d.decode settled) (d.decode ids) = d.decode settled := by
      rw [settledAfter]
      split
      · rfl
      next hin =>
        by_contra hne
        have h0 : d.decode rest ≠ [] := fun h0 => hne (by rw [htext, h0, append_nil])
        rw [htext, endsInside, getLast?_append_of_ne_nil _ h0] at hin
        exact hsettle ⟨h0, hin⟩
    rw [settle, if_neg hsettle, hafter, hprinted]
    simp only [h.decodedText]
    refine ⟨_, settled, ?_, rfl, ?_, rfl⟩
    · exact ⟨h.decodeIds, h.settled_prefix, h.readOffset, h.surr_le, rfl, h.settled_whole, h.surr_whole⟩
    · rfl

/-- **The message that finishes the request.** -/
theorem Decodes.decodeOutput_finish (h : Decodes d prompt settled ids (receive status out))
    {reason : FinishReason} (hreason : out.finishedReason = some reason)
    (hrest : ∀ t, reason = .matchedToken t → settled.length < ids.length) :
    d.decodeOutput status out = (none,
      (trimMatchedStr (d.decode (d.trimMatchedToken ids out.finishedReason out.noStopTrim))
        out.finishedReason out.noStopTrim).drop (receive status out).sentOffset) := by
  obtain ⟨rest, hids⟩ := h.settled_prefix
  have hne : ∀ t, out.finishedReason = some (.matchedToken t) → rest ≠ [] := by
    rintro t ht rfl
    have := hrest t (some_inj.mp (hreason ▸ ht))
    rw [← hids, append_nil] at this
    exact absurd this (Nat.lt_irrefl _)
  unfold Detokenizer.decodeOutput
  rw [if_neg (by simp [hreason])]
  simp only [h.newText hids.symm hne, h.decodedText]
  rw [← decode_append (whole_of_not_endsInside h.settled_whole), ← trimMatchedToken_append _ _ hne, hids]

/-! ## 5. The messages of a request -/

/-- The ids that have been sent, when the output sent so far is given. -/
def sentIds (prompt : List ℤ) : Option (List ℤ) → List ℤ
  | none => []
  | some ids => prompt ++ ids

/-- A message of a request with this prompt. -/
structure IsOutput (prompt : List ℤ) (out : TokenIdOutput) : Prop where
  decodedText : out.decodedText = []
  readOffset : out.readOffset = prompt.length
  noStopTrim : out.noStopTrim = false

/-- The messages carry the output of a request: the part of the prompt first, then the new ids, up to the
message that finishes the request.  `outputs` is the output at the messages before that one. -/
inductive Carries (prompt : List ℤ) :
    Option (List ℤ) → List TokenIdOutput → List (List ℤ) → List ℤ → FinishReason → Prop
  | finish {prev : Option (List ℤ)} {out : TokenIdOutput} {ids : List ℤ} {reason : FinishReason}
      (isOutput : IsOutput prompt out) (decodeIds : sentIds prompt prev ++ out.decodeIds = prompt ++ ids)
      (finishedReason : out.finishedReason = some reason)
      (new : ∀ t, reason = .matchedToken t → (prev.getD []).length < ids.length) :
      Carries prompt prev [out] [] ids reason
  | more {prev : Option (List ℤ)} {out : TokenIdOutput} {outs : List TokenIdOutput}
      {output ids : List ℤ} {outputs : List (List ℤ)} {reason : FinishReason}
      (isOutput : IsOutput prompt out)
      (decodeIds : sentIds prompt prev ++ out.decodeIds = prompt ++ output)
      (finishedReason : out.finishedReason = none)
      (rest : Carries prompt (some output) outs outputs ids reason) :
      Carries prompt prev (out :: outs) (output :: outputs) ids reason

variable {prev : Option (List ℤ)} {outs : List TokenIdOutput} {outputs : List (List ℤ)}
  {reason : FinishReason}

theorem sentIds_isPrefix {new output : List ℤ} (h : sentIds prompt prev ++ new = prompt ++ output) :
    prev.getD [] <+: output := by
  cases prev with
  | none => exact nil_prefix
  | some ids =>
    rw [sentIds, append_assoc, append_cancel_left_eq] at h
    exact ⟨new, h⟩

/-- The output sent before is left when the stop token is trimmed. -/
theorem Carries.prefix (h : Carries prompt prev outs outputs ids reason) :
    ∀ output, output = prev.getD [] ∨ output ∈ outputs →
      output <+: d.trimMatchedToken ids (some reason) false := by
  induction h with
  | @finish prev out ids reason _ hids _ hnew =>
    rintro output (rfl | h)
    · have hpre := sentIds_isPrefix hids
      unfold trimMatchedToken
      rw [if_neg Bool.false_ne_true]
      split
      next t ht =>
        have hlen := hnew t (some_inj.mp ht)
        split_ifs
        · exact hpre
        · exact hpre
        · refine prefix_of_prefix_length_le hpre (List.dropLast_prefix _) ?_
          rw [length_dropLast]
          omega
      next => exact hpre
    · cases h
  | @more prev out outs output ids outputs reason _ hids _ _ ih =>
    rintro output' (rfl | h)
    · exact (sentIds_isPrefix hids).trans (ih output (.inl rfl))
    · rcases mem_cons.mp h with rfl | h
      · exact ih _ (.inl rfl)
      · exact ih _ (.inr h)

/-- The status that goes with the output sent so far. -/
def Agrees (d : Detokenizer) (prompt settled : List ℤ) (prev : Option (List ℤ)) :
    Option DecodeStatus → Prop
  | none => prev = none ∧ settled = []
  | some s => ∃ ids, prev = some ids ∧ Decodes d prompt settled ids s

theorem Agrees.receive (hprompt : d.Whole prompt) (h : Agrees d prompt settled prev status)
    (hout : IsOutput prompt out) {output : List ℤ}
    (hids : sentIds prompt prev ++ out.decodeIds = prompt ++ output) :
    Decodes d prompt settled output (receive status out) := by
  cases status with
  | none =>
    obtain ⟨rfl, rfl⟩ := h
    refine ⟨hids, nil_prefix, ?_, Nat.zero_le _, hout.decodedText, rfl, ?_⟩
    · rw [append_nil]
      exact hout.readOffset
    · rw [append_nil]
      exact hprompt
  | some s =>
    obtain ⟨ids, rfl, hs⟩ := h
    refine ⟨?_, hs.settled_prefix.trans (sentIds_isPrefix hids), hs.readOffset, hs.surr_le,
      hs.decodedText, hs.settled_whole, hs.surr_whole⟩
    rw [Detokenizer.receive, hs.decodeIds]
    exact hids

/-- What has been sent for a status. -/
def sentLength (status : Option DecodeStatus) : ℕ := (status.map DecodeStatus.sentOffset).getD 0

theorem receive_sentOffset : (receive status out).sentOffset = sentLength status := by
  cases status <;> rfl

theorem cutAt_isPrefix (matched output : List Char) : cutAt matched output <+: output := by
  rw [cutAt]
  split
  · exact take_prefix _ _
  · exact prefix_refl _

theorem trimMatchedStr_isPrefix (text : List Char) (reason : Option FinishReason) (noStopTrim : Bool) :
    trimMatchedStr text reason noStopTrim <+: text := by
  unfold trimMatchedStr
  split
  · exact prefix_refl _
  · split
    · split
      · exact prefix_refl _
      · exact cutAt_isPrefix _ _
    · split
      · exact prefix_refl _
      · exact cutAt_isPrefix _ _
    · exact prefix_refl _

/-- **What is sent for the messages of a request.**  Increments of the final text, up to the lengths of
the texts that are printed. -/
theorem Carries.decodeOutputs (h : Carries prompt prev outs outputs ids reason)
    (hprompt : d.Whole prompt) (hstatus : Agrees d prompt settled prev status) :
    d.decodeOutputs status outs =
      increments (d.decode (d.trimMatchedToken ids (some reason) false)) (sentLength status)
        ((printedTexts (d.decode settled) (outputs.map d.decode)).map List.length ++
          [(trimMatchedStr (d.decode (d.trimMatchedToken ids (some reason) false)) (some reason)
            false).length]) := by
  induction h generalizing settled status with
  | @finish prev out ids reason hout hids hreason hnew =>
    have hdec := hstatus.receive hprompt hout hids
    have hset : ∀ t, reason = .matchedToken t → settled.length < ids.length := by
      intro t ht
      refine lt_of_le_of_lt ?_ (hnew t ht)
      cases status with
      | none => simp [hstatus.2]
      | some s =>
        obtain ⟨ids', rfl, hs⟩ := hstatus
        exact hs.settled_prefix.length_le
    rw [Detokenizer.decodeOutputs, hdec.decodeOutput_finish hreason hset, Detokenizer.decodeOutputs,
      hreason, hout.noStopTrim, receive_sentOffset, map_nil, printedTexts, map_nil,
      nil_append, increments, increments,
      ← prefix_iff_eq_take.mp (trimMatchedStr_isPrefix _ _ _)]
  | @more prev out outs output ids outputs reason hout hids hreason hrest ih =>
    have hdec := hstatus.receive hprompt hout hids
    obtain ⟨s', settled', hs', hafter, hsent, heq⟩ := hdec.decodeOutput hreason
    obtain ⟨new, hnew⟩ := hdec.settled_prefix
    obtain ⟨more, hmore⟩ := hrest.prefix (d := d) output (.inl rfl)
    have hpre := printed_isPrefix (whole_of_not_endsInside hdec.settled_whole) new more
    have hagree : Agrees d prompt settled' (some output) (some s') := ⟨output, rfl, hs'⟩
    rw [hnew, hmore] at hpre
    rw [Detokenizer.decodeOutputs, heq, ih hagree, receive_sentOffset, map_cons,
      printedTexts, map_cons, cons_append, increments, ← prefix_iff_eq_take.mp hpre,
      hafter]
    simp [sentLength, hsent]

/-! ## 6. When the text is right -/

/-- The text of an output: without the matched stop token, and cut at the matched stop string. -/
def trimmedText (d : Detokenizer) (ids : List ℤ) : FinishReason → List Char
  | .matchedToken _ => d.decode ids.dropLast
  | .matchedStr matched => cutAt matched.toList (d.decode ids)
  | _ => d.decode ids

/-- The matched stop is one that is trimmed, or one without text. -/
def StopTrimmed (d : Detokenizer) (ids : List ℤ) : FinishReason → Prop
  | .matchedToken matched =>
    matched = 0 ∨ (ids.getLast? = some 200012 ∧ d.isToolCallParserGptOss) →
      d.decode ids = d.decode ids.dropLast
  | .matchedStr matched => matched = "" → d.decode ids = []
  | _ => True

instance (d : Detokenizer) (ids : List ℤ) : (reason : FinishReason) →
    Decidable (d.StopTrimmed ids reason)
  | .matchedToken _ => inferInstanceAs (Decidable (_ → _))
  | .matchedStr _ => inferInstanceAs (Decidable (_ → _))
  | .matchedRegex _ => inferInstanceAs (Decidable True)
  | .length _ => inferInstanceAs (Decidable True)
  | .abort _ => inferInstanceAs (Decidable True)

/-- The printed text does not shrink: where two messages in a row end inside a character, the second
prints no less than the first, and the final text has at least what the last message printed. -/
def Steady (limit : ℕ) : List Char → ℕ → List (List Char) → Prop
  | _, n, [] => n ≤ limit
  | settled, n, text :: texts =>
    if endsInside text then
      n ≤ (printed settled text).length ∧ Steady limit settled (printed settled text).length texts
    else Steady limit text text.length texts

instance Steady.decide (limit : ℕ) : (settled : List Char) → (n : ℕ) → (texts : List (List Char)) →
    Decidable (Steady limit settled n texts)
  | _, n, [] => inferInstanceAs (Decidable (n ≤ limit))
  | settled, _, text :: texts =>
    have := Steady.decide limit settled (printed settled text).length texts
    have := Steady.decide limit text text.length texts
    inferInstanceAs (Decidable (ite _ _ _))

theorem Carries.steady_iff (h : Carries prompt prev outs outputs ids reason) {limit n : ℕ}
    (hset : settled <+: prev.getD []) (hwhole : d.Whole settled)
    (hn : ∀ output, prev.getD [] <+: output → n ≤ (d.decode output).length) :
    Steady limit (d.decode settled) n (outputs.map d.decode) ↔
      (n :: ((printedTexts (d.decode settled) (outputs.map d.decode)).map List.length ++
        [limit])).IsChain (· ≤ ·) := by
  induction h generalizing settled n with
  | finish => simp [Steady, printedTexts]
  | @more prev out outs output ids outputs reason hout hids hreason hrest ih =>
    have hpre := sentIds_isPrefix hids
    obtain ⟨new, hnew⟩ := hset.trans hpre
    rw [map_cons, Steady, printedTexts, map_cons, cons_append, isChain_cons_cons]
    split
    next hin =>
      rw [settledAfter, if_pos hin]
      refine and_congr Iff.rfl (ih ⟨new, hnew⟩ hwhole ?_)
      rintro output' ⟨more, rfl⟩
      have hprinted := printed_isPrefix hwhole new more
      rw [hnew] at hprinted
      exact hprinted.length_le
    next hin =>
      rw [printed, if_neg hin, settledAfter, if_neg hin]
      have hrec := ih (prefix_refl output) (whole_of_not_endsInside (by simpa using hin))
        fun output' h => decode_length_le h
      exact hrec.trans (and_iff_right (hn output hpre)).symm

theorem trimMatched_eq_iff (ids : List ℤ) (reason : FinishReason)
    (hregex : ∀ matched, reason ≠ .matchedRegex matched) :
    let text := trimMatchedStr (d.decode (d.trimMatchedToken ids (some reason) false)) (some reason) false
    (d.trimmedText ids reason = text ↔ d.StopTrimmed ids reason) ∧
      (d.trimmedText ids reason).length ≤ text.length := by
  cases reason with
  | matchedToken matched =>
    have hle : (d.decode ids.dropLast).length ≤ (d.decode ids).length :=
      decode_length_le (List.dropLast_prefix ids)
    have htoken : d.trimMatchedToken ids (some (.matchedToken matched)) false =
        if matched = 0 then ids
        else if ids.getLast? = some 200012 ∧ d.isToolCallParserGptOss then ids else ids.dropLast := rfl
    rw [htoken]
    split_ifs with h1 h2
    · exact ⟨⟨fun h _ => h.symm, fun h => (h (.inl h1)).symm⟩, hle⟩
    · exact ⟨⟨fun h _ => h.symm, fun h => (h (.inr h2)).symm⟩, hle⟩
    · exact ⟨⟨fun _ h => absurd h (by simp [h1, h2]), fun _ => rfl⟩, Nat.le_refl _⟩
  | matchedStr matched =>
    have htext : ∀ text, trimMatchedStr text (some (.matchedStr matched)) false =
        if matched = "" then text else cutAt matched.toList text := fun _ => rfl
    rw [htext, trimmedText]
    split_ifs with h
    · have hcut : cutAt matched.toList (d.decode ids) = [] := by
        rw [h, cutAt]
        cases d.decode ids with
        | nil => rfl
        | cons c l => simp [find]
      rw [hcut]
      exact ⟨⟨fun h0 _ => h0.symm, fun h0 => (h0 h).symm⟩, Nat.zero_le _⟩
    · exact ⟨⟨fun _ h' => absurd h' h, fun _ => rfl⟩, Nat.le_refl _⟩
  | matchedRegex matched => exact absurd rfl (hregex matched)
  | length n => exact ⟨⟨fun _ => trivial, fun _ => rfl⟩, Nat.le_refl _⟩
  | abort message => exact ⟨⟨fun _ => trivial, fun _ => rfl⟩, Nat.le_refl _⟩

/-- No more is printed than the final text. -/
theorem Carries.printed_length_le (h : Carries prompt prev outs outputs ids reason)
    (hset : settled <+: prev.getD []) (hwhole : d.Whole settled) :
    ∀ n ∈ (printedTexts (d.decode settled) (outputs.map d.decode)).map List.length,
      n ≤ (d.decode (d.trimMatchedToken ids (some reason) false)).length := by
  induction h generalizing settled with
  | finish => simp [printedTexts]
  | @more prev out outs output ids outputs reason hout hids hreason hrest ih =>
    obtain ⟨new, hnew⟩ := hset.trans (sentIds_isPrefix hids)
    obtain ⟨more, hmore⟩ := hrest.prefix (d := d) output (.inl rfl)
    have hprinted := printed_isPrefix hwhole new more
    rw [hnew, hmore] at hprinted
    rw [map_cons, printedTexts, map_cons, forall_mem_cons]
    refine ⟨hprinted.length_le, ?_⟩
    rw [settledAfter]
    split
    next => exact ih ⟨new, hnew⟩ hwhole
    next hin => exact ih (prefix_refl output) (whole_of_not_endsInside (by simpa using hin))

/-- **When the text of the messages is right.** -/
theorem Carries.decodeOutputs_eq_iff (h : Carries prompt none outs outputs ids reason)
    (hprompt : d.Whole prompt) (hregex : ∀ matched, reason ≠ .matchedRegex matched) :
    d.decodeOutputs none outs = d.trimmedText ids reason ↔ d.StopTrimmed ids reason ∧
        Steady (d.trimmedText ids reason).length [] 0 (outputs.map d.decode) := by
  have hnil : d.Whole [] := Utf8.complete_nil
  have hagree : Agrees d prompt [] none none := ⟨rfl, rfl⟩
  obtain ⟨htrim, hle⟩ := trimMatched_eq_iff (d := d) ids reason hregex
  have hpre := trimMatchedStr_isPrefix (d.decode (d.trimMatchedToken ids (some reason) false))
    (some reason) false
  rw [h.decodeOutputs hprompt hagree]
  set final := d.decode (d.trimMatchedToken ids (some reason) false)
  set text := trimMatchedStr final (some reason) false
  have hks : ∀ k ∈ (printedTexts (d.decode []) (outputs.map d.decode)).map List.length ++ [text.length],
      k ≤ final.length := by
    intro k hk
    rcases mem_append.mp hk with hk | hk
    · exact h.printed_length_le nil_prefix hnil k hk
    · rw [mem_singleton.mp hk]
      exact hpre.length_le
  have hinc := take_append_increments_eq_iff (e := d.trimmedText ids reason) (Nat.zero_le _) hks
    (by rw [getLastD_concat]; exact hle)
  rw [take_zero, getLastD_concat, ← prefix_iff_eq_take.mp hpre, htrim] at hinc
  refine hinc.trans (and_comm.trans (and_congr_right fun hst => ?_))
  rw [htrim.mpr hst]
  exact (h.steady_iff nil_prefix hnil fun _ _ => Nat.zero_le _).symm

end Detokenizer

end Sglang
