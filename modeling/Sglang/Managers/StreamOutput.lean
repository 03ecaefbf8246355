/-
# The text a client receives

A transcription of what the scheduler does with the tokens of a request after each step: it tests whether
the request is finished (`check_finished`), decides whether to send its output (`stream_output_generation`,
`check_match_stop_str_prefix`), and sends the ids that have not been sent (`init_incremental_detokenize`).
The messages go to the detokenizer, whose increments the client receives.

The increments are cut from the text of the output in the end, so they give this text exactly if the
printed text never shrinks and the matched stop is one the detokenizer trims (`receivedText_eq_iff`).
-/
import Sglang.Managers.Detokenizer

namespace Sglang

open Lib Detokenizer List Option

/-! ## 1. The scheduler -/

/-- `Req`, the fields that streaming uses. -/
structure StreamReq where
  req : OutputReq
  originInputIdsUnpadded : List ℤ
  stream : Bool
  streamInterval : Option ℕ
  noStopTrim : Bool
  surrOffset : Option ℕ := none
  readOffset : Option ℕ := none
  surrAndDecodeIds : List ℤ := []
  curDecodeIdsLen : ℕ := 0
  sendDecodeIdOffset : ℕ := 0
  finishedOutput : Bool := false

/-- The intervals of the server: `stream_interval` and `DEFAULT_FORCE_STREAM_INTERVAL`. -/
structure StreamConfig where
  streamInterval : ℕ
  defaultForceStreamInterval : ℕ

/-- `INIT_INCREMENTAL_DETOKENIZATION_OFFSET`. -/
def initIncrementalDetokenizationOffset : ℕ := 5

/-- `check_match_stop_str_prefix`. -/
def OutputReq.checkMatchStopStrPrefix (r : OutputReq) : Bool :=
  if r.samplingParams.stopStrs = [] then false
  else
    let tailStr := r.tailStr.toList
    if tailStr = [] then false
    else r.samplingParams.stopStrs.any fun stopStr =>
      let stopStr := stopStr.toList
      decide (stopStr ≠ []) &&
        (decide (stopStr <:+: tailStr) ||
          (List.range' 1 (min tailStr.length stopStr.length)).any fun i =>
            decide (tailStr.drop (tailStr.length - i) = stopStr.take i))

namespace StreamReq

/-- `init_incremental_detokenize`: the request, the ids to decode and the read offset. -/
def initIncrementalDetokenize (r : StreamReq) : StreamReq × List ℤ × ℕ :=
  let outputIds := r.req.outputIdsThroughStop
  match r.surrOffset, r.readOffset with
  | some surrOffset, some readOffset =>
    let ids := r.surrAndDecodeIds ++ outputIds.drop r.curDecodeIdsLen
    ({ r with surrAndDecodeIds := ids, curDecodeIdsLen := outputIds.length }, ids,
      readOffset - surrOffset)
  | _, _ =>
    let readOffset := r.originInputIdsUnpadded.length
    let surrOffset := readOffset - initIncrementalDetokenizationOffset
    let ids := r.originInputIdsUnpadded.drop surrOffset ++ outputIds
    ({ r with
      readOffset := some readOffset
      surrOffset := some surrOffset
      surrAndDecodeIds := ids
      curDecodeIdsLen := outputIds.length }, ids, readOffset - surrOffset)

/-- The message for a request. -/
def send (r : StreamReq) : StreamReq × TokenIdOutput :=
  let init := r.initIncrementalDetokenize
  ({ init.1 with sendDecodeIdOffset := init.2.1.length },
    { finishedReason := r.req.finishedReason
      decodedText := r.req.decodedText.toList
      decodeIds := init.2.1.drop r.sendDecodeIdOffset
      readOffset := init.2.2
      noStopTrim := r.noStopTrim })

/-- `should_output` for a request that is not finished. -/
def shouldOutput (c : StreamConfig) (r : StreamReq) : Bool :=
  let n := r.req.outputIds.length
  if r.stream then
    -- `req.sampling_params.stream_interval or self.stream_interval`
    let streamInterval := match r.streamInterval with
      | some (k + 1) => k + 1
      | _ => c.streamInterval
    (if streamInterval > 1 then n % streamInterval == 1 else n % streamInterval == 0) &&
      !r.req.checkMatchStopStrPrefix
  else n % c.defaultForceStreamInterval == 0

/-- `stream_output_generation` for one request. -/
def streamOutput (c : StreamConfig) (r : StreamReq) : StreamReq × Option TokenIdOutput :=
  if r.req.finished then
    if r.finishedOutput then (r, none)
    else
      let r := { r with
        finishedOutput := true
        req := { r.req with
          finishedLen := some (r.req.finishedLen.getD r.req.outputIds.length) } }
      (r.send.1, some r.send.2)
  else if r.shouldOutput c then (r.send.1, some r.send.2)
  else (r, none)

/-- A step of a request: the accepted tokens, and the message for them. -/
def step (search : String → String → Bool) (c : StreamConfig) (r : StreamReq) (chunk : List ℤ) :
    StreamReq × Option TokenIdOutput :=
  streamOutput c { r with req := r.req.accept search chunk }

/-- The messages of a request. -/
def messages (search : String → String → Bool) (c : StreamConfig) :
    StreamReq → List (List ℤ) → List TokenIdOutput
  | _, [] => []
  | r, chunk :: chunks => (r.step search c chunk).2.toList ++ messages search c (r.step search c chunk).1 chunks

/-- The request after its steps. -/
def run (search : String → String → Bool) (c : StreamConfig) (r : StreamReq) (chunks : List (List ℤ)) :
    StreamReq :=
  chunks.foldl (fun r chunk => (r.step search c chunk).1) r

/-- The outputs that are sent before the request is finished. -/
def sentOutputs (search : String → String → Bool) (c : StreamConfig) :
    StreamReq → List (List ℤ) → List (List ℤ)
  | _, [] => []
  | r, chunk :: chunks =>
    let r' := (r.step search c chunk).1
    (if (r.step search c chunk).2.isSome ∧ r'.req.finished = false then [r'.req.outputIds] else []) ++
      sentOutputs search c r' chunks

/-- The text a client receives. -/
def receivedText (d : Detokenizer) (search : String → String → Bool) (c : StreamConfig) (r : StreamReq)
    (chunks : List (List ℤ)) : List Char :=
  d.decodeOutputs none (r.messages search c chunks)

/-- The end of the prompt, which the detokenizer decodes with the output. -/
def promptTail (r : StreamReq) : List ℤ :=
  r.originInputIdsUnpadded.drop
    (r.originInputIdsUnpadded.length - initIncrementalDetokenizationOffset)

end StreamReq

/-! ## 2. What a step does to the output -/

namespace OutputReq

variable {search : String → String → Bool} {r : OutputReq} {chunk : List ℤ}

/-- A request that runs, without grammar and regular expressions to stop at. -/
structure Running (r : OutputReq) : Prop where
  grammar : r.grammar = none
  stopRegexStrs : r.samplingParams.stopRegexStrs = []
  decodedText : r.decodedText = ""
  finishedReason : r.finishedReason = none
  finishedLen : r.finishedLen = none
  toFinish : r.toFinish = none
  length_le : r.outputIds.length ≤ r.samplingParams.maxNewTokens

/-- The request has finished after the output `old`, and keeps it. -/
structure FinishedAfter (old : List ℤ) (r : OutputReq) : Prop where
  decodedText : r.decodedText = ""
  finished : ∃ reason, r.finishedReason = some reason ∧ (∀ s, reason ≠ .matchedRegex s) ∧
    ∀ t, reason = .matchedToken t → old.length < r.outputIdsThroughStop.length
  old_prefix : old <+: r.outputIdsThroughStop
  finishedLen_le : r.finishedLen.getD r.outputIds.length ≤ r.outputIds.length

theorem Running.not_finished (h : r.Running) : r.finished = false := by
  rw [finished, h.finishedReason]
  rfl

theorem Running.extend (h : r.Running)
    (hlen : (r.outputIds ++ chunk).length ≤ r.samplingParams.maxNewTokens) :
    (r.extend chunk).Running :=
  { h with length_le := hlen }

theorem prefix_take_append {old new : List ℤ} {n : ℕ} (h : old.length ≤ n) :
    old <+: (old ++ new).take n := by
  refine prefix_take_iff.mpr ⟨prefix_append _ _, h⟩

theorem zipIdx_find_lt {p : ℤ × ℕ → Bool} {l : List ℤ} {t : ℤ × ℕ} (h : l.zipIdx.find? p = some t) :
    t.2 < l.length := by
  have hmem := mem_of_find?_eq_some h
  simpa using snd_lt_of_mem_zipIdx hmem

variable {y : OutputReq}

theorem checkTokenBasedFinish_finishedAfter (h : r.Running)
    (hy : (r.extend chunk).checkTokenBasedFinish chunk = some y) : FinishedAfter r.outputIds y := by
  unfold checkTokenBasedFinish at hy
  split at hy
  · cases hy
  · obtain ⟨t, ht, rfl⟩ := map_eq_some_iff.mp hy
    have hlt := zipIdx_find_lt ht
    have hlen : (r.outputIds ++ chunk).length - chunk.length + t.2 + 1 = r.outputIds.length + t.2 + 1 := by
      simp
    refine ⟨h.decodedText, ⟨_, rfl, by simp, fun _ _ => ?_⟩, ?_, ?_⟩
    · simp only [outputIdsThroughStop, OutputReq.extend, length_take, length_append]
      omega
    · simp only [outputIdsThroughStop, OutputReq.extend, hlen]
      exact prefix_take_append (by omega)
    · simp only [OutputReq.extend, getD_some, length_append]
      omega

theorem checkVocabBoundaryFinish_finishedAfter (h : r.Running)
    (hy : (r.extend chunk).checkVocabBoundaryFinish chunk = some y) : FinishedAfter r.outputIds y := by
  obtain ⟨t, ht, rfl⟩ := map_eq_some_iff.mp hy
  have hlt := zipIdx_find_lt ht
  have hlen : (r.outputIds ++ chunk).length - chunk.length + t.2 = r.outputIds.length + t.2 := by simp
  refine ⟨h.decodedText, ⟨_, rfl, by simp, by simp⟩, ?_, ?_⟩
  · simp only [outputIdsThroughStop, OutputReq.extend, hlen]
    rw [set_append_right _ _ (by omega)]
    exact prefix_take_append (by omega)
  · simp only [OutputReq.extend, getD_some, length_set, length_append]
    omega

theorem checkStrBasedFinish_finishedAfter (h : r.Running)
    (hy : (r.extend chunk).checkStrBasedFinish search = some y) : FinishedAfter r.outputIds y := by
  have hregex : (r.extend chunk).samplingParams.stopRegexStrs = [] := h.stopRegexStrs
  have hlen : (r.extend chunk).finishedLen = none := h.finishedLen
  unfold checkStrBasedFinish at hy
  split at hy
  · cases hy
    refine ⟨h.decodedText, ⟨_, rfl, by simp, by simp⟩, ?_, ?_⟩
    · simp only [outputIdsThroughStop, hlen]
      exact prefix_append _ _
    · simp only [hlen, getD_none]
      exact Nat.le_refl _
  · rw [hregex] at hy
    cases hy

/-- **The test after a step.**  The request runs on with the new tokens, or has finished. -/
theorem accept_cases (search : String → String → Bool) (h : r.Running) (hne : chunk ≠ []) :
    (r.accept search chunk = r.extend chunk ∧ (r.extend chunk).Running) ∨
      FinishedAfter r.outputIds (r.accept search chunk) := by
  have hlast : lastTokens chunk.length (r.extend chunk).outputIds = chunk :=
    lastTokens_append r.outputIds hne
  change ((r.extend chunk).checkFinished search chunk.length = _ ∧ _) ∨
    FinishedAfter _ ((r.extend chunk).checkFinished search chunk.length)
  unfold checkFinished
  have hfin : (r.extend chunk).finished = false := h.not_finished
  have hto : (r.extend chunk).toFinish = none := h.toFinish
  have hgrammar : (r.extend chunk).grammar = none := h.grammar
  simp only [hfin, Bool.false_eq_true, if_false, hto, isSome_none, hgrammar, any_none, hlast]
  split
  next hlen =>
    exact .inr ⟨h.decodedText, ⟨_, rfl, by simp, by simp⟩, prefix_take_append h.length_le, hlen⟩
  next hlen =>
    cases htoken : (r.extend chunk).checkTokenBasedFinish chunk with
    | some y => exact .inr (checkTokenBasedFinish_finishedAfter h htoken)
    | none =>
      cases hvocab : (r.extend chunk).checkVocabBoundaryFinish chunk with
      | some y => exact .inr (checkVocabBoundaryFinish_finishedAfter h hvocab)
      | none =>
        cases hstr : (r.extend chunk).checkStrBasedFinish search with
        | some y => exact .inr (checkStrBasedFinish_finishedAfter h hstr)
        | none => exact .inl ⟨rfl, h.extend (Nat.le_of_not_le hlen)⟩

end OutputReq

/-! ## 3. What is sent -/

namespace StreamReq

variable {search : String → String → Bool} {c : StreamConfig} {r : StreamReq} {tail : List ℤ}
  {prev : Option (List ℤ)} {chunk : List ℤ} {chunks : List (List ℤ)}

/-- The ids in front of the output are `tail`, and the output `prev` has been sent. -/
structure Sent (tail : List ℤ) (prev : Option (List ℤ)) (r : StreamReq) : Prop where
  promptTail : r.promptTail = tail
  noStopTrim : r.noStopTrim = false
  first : prev = none → r.surrOffset = none ∧ r.sendDecodeIdOffset = 0
  next : ∀ ids, prev = some ids →
    r.readOffset = some r.originInputIdsUnpadded.length ∧
    r.surrOffset =
      some (r.originInputIdsUnpadded.length - initIncrementalDetokenizationOffset) ∧
    r.surrAndDecodeIds = tail ++ ids ∧ r.curDecodeIdsLen = ids.length ∧
    r.sendDecodeIdOffset = (tail ++ ids).length

theorem promptTail_length (r : StreamReq) :
    r.originInputIdsUnpadded.length -
      (r.originInputIdsUnpadded.length - initIncrementalDetokenizationOffset) =
        r.promptTail.length := by
  rw [StreamReq.promptTail, length_drop]

/-- **A message carries the ids that have not been sent.** -/
theorem Sent.send (h : Sent tail prev r) (hpre : prev.getD [] <+: r.req.outputIdsThroughStop)
    (htext : r.req.decodedText = "") :
    IsOutput tail r.send.2 ∧
      sentIds tail prev ++ r.send.2.decodeIds = tail ++ r.req.outputIdsThroughStop ∧
      Sent tail (some r.req.outputIdsThroughStop) r.send.1 := by
  have hlen := h.promptTail ▸ r.promptTail_length
  have htail : r.originInputIdsUnpadded.drop
      (r.originInputIdsUnpadded.length - initIncrementalDetokenizationOffset) = tail := h.promptTail
  cases prev with
  | none =>
    obtain ⟨hsurr, hoff⟩ := h.first rfl
    simp only [StreamReq.send, initIncrementalDetokenize, hsurr, hoff, htail]
    refine ⟨⟨by simp [htext], hlen, h.noStopTrim⟩, rfl, h.promptTail, h.noStopTrim, by simp, ?_⟩
    rintro ids ⟨⟩
    exact ⟨rfl, rfl, rfl, rfl, rfl⟩
  | some ids =>
    obtain ⟨hread, hsurr, hids, hcur, hoff⟩ := h.next ids rfl
    obtain ⟨new, hnew⟩ := hpre
    rw [getD_some] at hnew
    have hall : tail ++ ids ++ r.req.outputIdsThroughStop.drop ids.length =
        tail ++ r.req.outputIdsThroughStop := by
      rw [← hnew, drop_left, append_assoc]
    simp only [StreamReq.send, initIncrementalDetokenize, hsurr, hread, hids, hcur, hoff, hall]
    refine ⟨⟨by simp [htext], hlen, h.noStopTrim⟩, ?_, h.promptTail, h.noStopTrim, by simp, ?_⟩
    · rw [sentIds, ← hnew, ← append_assoc, drop_left]
    · rintro ids' ⟨⟩
      exact ⟨rfl, rfl, rfl, rfl, rfl⟩

theorem send_req (r : StreamReq) : r.send.1.req = r.req ∧ r.send.1.finishedOutput = r.finishedOutput := by
  unfold StreamReq.send initIncrementalDetokenize
  split
  · exact ⟨rfl, rfl⟩
  · exact ⟨rfl, rfl⟩

/-- A request that has finished and told so. -/
structure Done (ids : List ℤ) (reason : FinishReason) (r : StreamReq) : Prop where
  finishedOutput : r.finishedOutput = true
  finishedReason : r.req.finishedReason = some reason
  finishedLen : ∃ n, r.req.finishedLen = some n ∧ n ≤ r.req.outputIds.length
  outputIds : r.req.outputIdsThroughStop = ids

variable {reason : FinishReason}

/-- Nothing is sent after a request has finished, though tokens may still come. -/
theorem Done.step (search : String → String → Bool) (c : StreamConfig) {ids : List ℤ}
    (h : Done ids reason r) (chunk : List ℤ) :
    Done ids reason (r.step search c chunk).1 ∧ (r.step search c chunk).2 = none := by
  have hfin : (r.req.extend chunk).finished = true := congrArg Option.isSome h.finishedReason
  have haccept : r.req.accept search chunk = r.req.extend chunk := by
    change (r.req.extend chunk).checkFinished search chunk.length = _
    unfold OutputReq.checkFinished
    rw [if_pos hfin]
  have hstep : r.step search c chunk = ({ r with req := r.req.extend chunk }, none) := by
    rw [StreamReq.step, haccept]
    unfold streamOutput
    rw [if_pos hfin, if_pos h.finishedOutput]
  obtain ⟨n, hn, hle⟩ := h.finishedLen
  rw [hstep]
  refine ⟨⟨h.finishedOutput, h.finishedReason, ⟨n, hn, ?_⟩, ?_⟩, rfl⟩
  · simp only [OutputReq.extend, length_append]
    omega
  · have hids := h.outputIds
    simp only [OutputReq.outputIdsThroughStop, OutputReq.extend, hn] at hids ⊢
    rw [take_append_of_le_length hle, hids]

theorem Done.run (search : String → String → Bool) (c : StreamConfig) {ids : List ℤ}
    (h : Done ids reason r) (chunks : List (List ℤ)) :
    Done ids reason (r.run search c chunks) ∧ r.messages search c chunks = [] ∧
      r.sentOutputs search c chunks = [] := by
  induction chunks generalizing r with
  | nil => exact ⟨h, rfl, rfl⟩
  | cons chunk chunks ih =>
    obtain ⟨hdone, hnone⟩ := h.step search c chunk
    obtain ⟨h1, h2, h3⟩ := ih hdone
    refine ⟨h1, ?_, ?_⟩
    · rw [messages, hnone, h2]
      rfl
    · rw [sentOutputs, hnone, h3]
      rfl

theorem Sent.step_finish (h : Sent tail prev r) (hpre : prev.getD [] <+: r.req.outputIds)
    (hout : r.finishedOutput = false)
    (hfin : OutputReq.FinishedAfter r.req.outputIds (r.req.accept search chunk)) :
    ∃ ids reason out, (r.step search c chunk).2 = some out ∧ Done ids reason (r.step search c chunk).1 ∧
      Carries tail prev [out] [] ids reason ∧ ∀ s, reason ≠ .matchedRegex s := by
  obtain ⟨reason, hreason, hregex, hnew⟩ := hfin.finished
  have hisfin : (r.req.accept search chunk).finished = true := by
    rw [OutputReq.finished, hreason]
    rfl
  set req := r.req.accept search chunk with hreq
  set r' : StreamReq := { r with
    finishedOutput := true
    req := { req with finishedLen := some (req.finishedLen.getD req.outputIds.length) } } with hr'
  have hthrough : r'.req.outputIdsThroughStop = req.outputIdsThroughStop := by
    simp only [hr', OutputReq.outputIdsThroughStop]
    cases req.finishedLen with
    | none => simp
    | some n => rfl
  have hsent : Sent tail prev r' := ⟨h.promptTail, h.noStopTrim, h.first, h.next⟩
  have hpre' : prev.getD [] <+: r'.req.outputIdsThroughStop := by
    rw [hthrough]
    exact hpre.trans hfin.old_prefix
  obtain ⟨hisout, hids, -⟩ := hsent.send hpre' hfin.decodedText
  have hstep : r.step search c chunk = (r'.send.1, some r'.send.2) := by
    rw [StreamReq.step, streamOutput, if_pos hisfin,
      if_neg (show ¬ r.finishedOutput = true by rw [hout]; exact Bool.false_ne_true)]
  rw [hstep]
  refine ⟨req.outputIdsThroughStop, reason, r'.send.2, rfl, ?_, ?_, hregex⟩
  · refine ⟨(send_req r').2, ?_, ⟨req.finishedLen.getD req.outputIds.length, ?_, ?_⟩, ?_⟩
    · rw [(send_req r').1]
      exact hreason
    · rw [(send_req r').1]
    · rw [(send_req r').1]
      exact hfin.finishedLen_le
    · rw [(send_req r').1, hthrough]
  · refine .finish hisout (hthrough ▸ hids) hreason fun t ht => ?_
    exact lt_of_le_of_lt hpre.length_le (hnew t ht)

theorem Sent.step_more (h : Sent tail prev r) (hpre : prev.getD [] <+: r.req.outputIds)
    (hout : r.finishedOutput = false) (haccept : r.req.accept search chunk = r.req.extend chunk)
    (hrun : (r.req.extend chunk).Running) :
    (r.step search c chunk).1.req = r.req.extend chunk ∧
      (r.step search c chunk).1.finishedOutput = false ∧
      ((∃ out, (r.step search c chunk).2 = some out ∧ IsOutput tail out ∧
          sentIds tail prev ++ out.decodeIds = tail ++ (r.req.extend chunk).outputIds ∧
          out.finishedReason = none ∧
          Sent tail (some (r.req.extend chunk).outputIds) (r.step search c chunk).1) ∨
        (r.step search c chunk).2 = none ∧ Sent tail prev (r.step search c chunk).1) := by
  set r' : StreamReq := { r with req := r.req.extend chunk } with hr'
  have hthrough : r'.req.outputIdsThroughStop = (r.req.extend chunk).outputIds := by
    simp [hr', OutputReq.outputIdsThroughStop, hrun.finishedLen]
  have hsent : Sent tail prev r' := ⟨h.promptTail, h.noStopTrim, h.first, h.next⟩
  have hnot : ¬ r'.req.finished = true := by
    rw [hrun.not_finished]
    exact Bool.false_ne_true
  have hstep : r.step search c chunk = if r'.shouldOutput c then (r'.send.1, some r'.send.2)
      else (r', none) := by
    rw [StreamReq.step, haccept, streamOutput, if_neg hnot]
  rw [hstep]
  split
  · have hpre' : prev.getD [] <+: r'.req.outputIdsThroughStop := by
      rw [hthrough]
      exact hpre.trans (prefix_append _ _)
    obtain ⟨hisout, hids, hnext⟩ := hsent.send hpre' hrun.decodedText
    rw [hthrough] at hids hnext
    exact ⟨(send_req r').1, (send_req r').2.trans hout,
      .inl ⟨_, rfl, hisout, hids, hrun.finishedReason, hnext⟩⟩
  · exact ⟨rfl, hout, .inr ⟨rfl, hsent⟩⟩

/-- **The messages of a request carry its output.** -/
theorem Sent.carries (h : Sent tail prev r) (hrun : r.req.Running)
    (hpre : prev.getD [] <+: r.req.outputIds) (hout : r.finishedOutput = false)
    (hne : ∀ chunk ∈ chunks, chunk ≠ [])
    (hreason : (r.run search c chunks).req.finishedReason = some reason) :
    Carries tail prev (r.messages search c chunks) (r.sentOutputs search c chunks)
        (r.run search c chunks).req.outputIdsThroughStop reason ∧
      ∀ s, reason ≠ .matchedRegex s := by
  induction chunks generalizing r prev with
  | nil => simp [StreamReq.run, hrun.finishedReason] at hreason
  | cons chunk chunks ih =>
    rw [forall_mem_cons] at hne
    rcases OutputReq.accept_cases search hrun hne.1 with ⟨haccept, hrun'⟩ | hfin
    · obtain ⟨hreq, hout', hcase⟩ := h.step_more (c := c) hpre hout haccept hrun'
      have hrun1 : (r.step search c chunk).1.req.Running := hreq ▸ hrun'
      rcases hcase with ⟨out, hsome, hisout, hids, hnone, hsent⟩ | ⟨hnone, hsent⟩
      · obtain ⟨hcar, hregex⟩ := ih hsent hrun1 (by rw [hreq]; exact prefix_refl _) hout' hne.2
          hreason
        have hsentOut : r.sentOutputs search c (chunk :: chunks) =
            (r.req.extend chunk).outputIds :: (r.step search c chunk).1.sentOutputs search c chunks := by
          rw [sentOutputs, hsome, hreq, if_pos ⟨rfl, hrun'.not_finished⟩]
          rfl
        rw [messages, hsome, hsentOut]
        exact ⟨.more hisout hids hnone hcar, hregex⟩
      · obtain ⟨hcar, hregex⟩ := ih hsent hrun1
          (by rw [hreq]; exact hpre.trans (prefix_append _ _)) hout' hne.2 hreason
        rw [messages, sentOutputs, hnone]
        exact ⟨hcar, hregex⟩
    · obtain ⟨ids, reason', out, hsome, hdone, hcar, hregex⟩ := h.step_finish (c := c) hpre hout hfin
      obtain ⟨hdone', hmsgs, houts⟩ := hdone.run search c chunks
      have hrunEq : r.run search c (chunk :: chunks) =
          (r.step search c chunk).1.run search c chunks := rfl
      have hfinished : (r.step search c chunk).1.req.finished = true := by
        rw [OutputReq.finished, hdone.finishedReason]
        rfl
      have hsame : reason' = reason := by
        rw [hrunEq, hdone'.finishedReason] at hreason
        exact some_inj.mp hreason
      have hsentOut : r.sentOutputs search c (chunk :: chunks) = [] := by
        rw [sentOutputs, houts, hfinished]
        simp
      subst hsame
      rw [messages, hsome, hmsgs, hsentOut, hrunEq, hdone'.outputIds]
      exact ⟨hcar, hregex⟩

/-! ## 4. The received text -/

/-- A request that runs and of which nothing has been sent, with its stops trimmed. -/
structure Fresh (r : StreamReq) : Prop where
  running : r.req.Running
  noStopTrim : r.noStopTrim = false
  surrOffset : r.surrOffset = none
  sendDecodeIdOffset : r.sendDecodeIdOffset = 0
  finishedOutput : r.finishedOutput = false

/-- **When a client receives the text of the output.**  For a request that has finished: exactly if its
stop is one that is trimmed, and the text that the messages print never shrinks. -/
theorem receivedText_eq_iff (d : Detokenizer) (hr : r.Fresh) (hprompt : d.Whole r.promptTail)
    (hne : ∀ chunk ∈ chunks, chunk ≠ []) {reason : FinishReason}
    (hreason : (r.run search c chunks).req.finishedReason = some reason) :
    r.receivedText d search c chunks =
        d.trimmedText (r.run search c chunks).req.outputIdsThroughStop reason ↔
      d.StopTrimmed (r.run search c chunks).req.outputIdsThroughStop reason ∧
        Steady (d.trimmedText (r.run search c chunks).req.outputIdsThroughStop reason).length [] 0
          ((r.sentOutputs search c chunks).map d.decode) := by
  have hsent : Sent r.promptTail none r :=
    ⟨rfl, hr.noStopTrim, fun _ => ⟨hr.surrOffset, hr.sendDecodeIdOffset⟩, by simp⟩
  obtain ⟨hcar, hregex⟩ := hsent.carries hr.running nil_prefix hr.finishedOutput hne hreason
  exact hcar.decodeOutputs_eq_iff hprompt hregex

/-- A detokenizer whose tokens are bytes, except that token 0 is an exclamation mark. -/
def byteTokens : Detokenizer where
  tokenBytes t := if t = 0 then [33] else [UInt8.ofNat t.toNat]
  isToolCallParserGptOss := false

/-- A request after the prompt `x` that stops at the given tokens and strings. -/
def byteReq (stopTokenIds : List ℤ) (stopStrs : List String) (stream : Bool) : StreamReq where
  req := {
    samplingParams := ⟨20, false, stopTokenIds, stopStrs, [], 2, 0⟩
    eosTokenIds := []
    tokenizer := none
    decode := fun ids => String.ofList (byteTokens.decode ids)
    vocabSize := 256
    grammar := none
    decodedText := ""
    outputIds := []
    finishedReason := none
    finishedLen := none
    toFinish := none }
  originInputIdsUnpadded := [120]
  stream := stream
  streamInterval := none
  noStopTrim := false

theorem fresh_byteReq (stopTokenIds : List ℤ) (stopStrs : List String) (stream : Bool) :
    (byteReq stopTokenIds stopStrs stream).Fresh :=
  ⟨⟨rfl, rfl, rfl, rfl, rfl, rfl, Nat.zero_le _⟩, rfl, rfl, rfl, rfl⟩

/-- The stop token 98 is trimmed. -/
theorem receivedText_stop :
    ((byteReq [98] [] true).run (fun _ _ => false) ⟨1, 50⟩ [[97], [98]]).req.finishedReason =
        some (.matchedToken 98) ∧
      (byteReq [98] [] true).receivedText byteTokens (fun _ _ => false) ⟨1, 50⟩ [[97], [98]] = ['a'] := by
  have hreason : ((byteReq [98] [] true).run (fun _ _ => false) ⟨1, 50⟩ [[97], [98]]).req.finishedReason =
      some (.matchedToken 98) := by decide +kernel
  refine ⟨hreason, ?_⟩
  have h := (receivedText_eq_iff byteTokens (fresh_byteReq [98] [] true) (by decide +kernel)
    (by decide) hreason).mpr ⟨by decide +kernel, by decide +kernel⟩
  exact h.trans (by decide +kernel)

/-- The stop token 0 is not. -/
theorem receivedText_stop_zero :
    let r := (byteReq [0] [] true).run (fun _ _ => false) ⟨1, 50⟩ [[97], [0]]
    r.req.finishedReason = some (.matchedToken 0) ∧
      (byteReq [0] [] true).receivedText byteTokens (fun _ _ => false) ⟨1, 50⟩ [[97], [0]] ≠
        byteTokens.trimmedText r.req.outputIdsThroughStop (.matchedToken 0) := by
  decide +kernel

/-- A request that does not stream sends the head of its stop string. -/
example : (byteReq [] ["bc"] false).receivedText byteTokens (fun _ _ => false) ⟨1, 2⟩ [[97], [98], [99]] =
    ['a', 'b'] := by
  decide +kernel

end StreamReq

end Sglang
