/-
# When a request stops

A transcription of `Req.check_finished` and of what it calls (`schedule_batch.py`), for a request
to which the accepted tokens of a step are appended in one piece, as speculative decoding does.

The question is whether the pieces matter: is the output, up to where it stops, the same as if the
tokens had been appended one at a time?  A piece is tested as a whole, for the length first and then
for stop tokens, so it is the same exactly if no piece in which the request stops has two reasons to
stop in the wrong order.  `OneStop` says this of a piece, `Uniform` of all of them.

A set of token ids is the list of its elements in the order it is iterated, and the empty list is
`None`.  The search for a regular expression is a parameter.
-/
import Mathlib.Data.List.Infix

namespace Sglang

open List Option

/-- The finish reasons. -/
inductive FinishReason
  | matchedToken (matched : ℤ)
  | matchedStr (matched : String)
  | matchedRegex (matched : String)
  | length (length : ℕ)
  | abort (message : String)
deriving DecidableEq

/-- The class of a finish reason. -/
inductive FinishKind
  | matchedToken
  | matchedStr
  | matchedRegex
  | length
  | abort
deriving DecidableEq

def FinishReason.kind : FinishReason → FinishKind
  | .matchedToken _ => .matchedToken
  | .matchedStr _ => .matchedStr
  | .matchedRegex _ => .matchedRegex
  | .length _ => .length
  | .abort _ => .abort

/-- `SamplingParams`, the fields that stop a request. -/
structure StopParams where
  maxNewTokens : ℕ
  ignoreEos : Bool
  stopTokenIds : List ℤ
  stopStrs : List String
  stopRegexStrs : List String
  stopStrMaxLen : ℕ
  stopRegexMaxLen : ℕ

/-- The stop tokens of a tokenizer. -/
structure TokenizerStops where
  eosTokenId : Option ℤ
  additionalStopTokenIds : List ℤ

/-- `Req`, the fields of its output.  `grammar` tells from the output whether it is terminated. -/
structure OutputReq where
  samplingParams : StopParams
  eosTokenIds : List ℤ
  tokenizer : Option TokenizerStops
  decode : List ℤ → String
  vocabSize : ℤ
  grammar : Option (List ℤ → Bool)
  decodedText : String
  outputIds : List ℤ
  finishedReason : Option FinishReason
  finishedLen : Option ℕ
  toFinish : Option FinishReason

namespace OutputReq

/-! ## 1. The checks -/

/-- `finished`. -/
def finished (r : OutputReq) : Bool := r.finishedReason.isSome

/-- `output_ids_through_stop`. -/
def outputIdsThroughStop (r : OutputReq) : List ℤ :=
  match r.finishedLen with
  | some n => r.outputIds.take n
  | none => r.outputIds

/-- `l[-n:]`. -/
def lastTokens (n : ℕ) (l : List ℤ) : List ℤ := if n = 0 then l else l.drop (l.length - n)

/-- `sub in s`. -/
def isSubstring (sub s : String) : Bool := decide (sub.toList <:+: s.toList)

/-- `tail_str`. -/
def tailStr (r : OutputReq) : String :=
  if r.samplingParams.stopStrs = [] ∧ r.samplingParams.stopRegexStrs = [] then ""
  else
    let maxLenTailStr := max (r.samplingParams.stopStrMaxLen + 1) (r.samplingParams.stopRegexMaxLen + 1)
    r.decode (lastTokens (min maxLenTailStr r.outputIds.length) r.outputIds)

/-- The body of the loop over the new tokens: whether the token is one to stop at. -/
def isStopToken (r : OutputReq) (tokenId : ℤ) : Bool :=
  r.samplingParams.stopTokenIds.contains tokenId || r.eosTokenIds.contains tokenId ||
    r.tokenizer.any fun t => t.eosTokenId == some tokenId || t.additionalStopTokenIds.contains tokenId

/-- `_check_token_based_finish`, with `none` for `False`. -/
def checkTokenBasedFinish (r : OutputReq) (newAcceptedTokens : List ℤ) : Option OutputReq :=
  if r.samplingParams.ignoreEos then none
  else
    (newAcceptedTokens.zipIdx.find? fun t => r.isStopToken t.1).map fun t => { r with
      finishedReason := some (.matchedToken t.1)
      finishedLen := some (r.outputIds.length - newAcceptedTokens.length + t.2 + 1) }

/-- Whether a token is outside of the vocabulary. -/
def outOfVocab (r : OutputReq) (tokenId : ℤ) : Bool := decide (tokenId > r.vocabSize ∨ tokenId < 0)

/-- What stands in the output for a token outside of the vocabulary. -/
def replacement (r : OutputReq) (tokenId : ℤ) : ℤ :=
  (r.eosTokenIds.head?.or r.samplingParams.stopTokenIds.head?).getD tokenId

/-- `_check_vocab_boundary_finish`, with `none` for `False`. -/
def checkVocabBoundaryFinish (r : OutputReq) (newAcceptedTokens : List ℤ) : Option OutputReq :=
  (newAcceptedTokens.zipIdx.find? fun t => r.outOfVocab t.1).map fun t =>
    let offset := r.outputIds.length - newAcceptedTokens.length + t.2
    { r with
      outputIds := r.outputIds.set offset (r.replacement t.1)
      finishedReason := some (.matchedStr "NaN happened")
      finishedLen := some (offset + 1) }

/-- `_check_str_based_finish`, with `none` for `False`. -/
def checkStrBasedFinish (search : String → String → Bool) (r : OutputReq) : Option OutputReq :=
  match r.samplingParams.stopStrs.find? fun s => isSubstring s r.tailStr || isSubstring s r.decodedText with
  | some s => some { r with finishedReason := some (.matchedStr s) }
  | none =>
    (r.samplingParams.stopRegexStrs.find? fun s => search s r.tailStr).map fun s =>
      { r with finishedReason := some (.matchedRegex s) }

/-- `check_finished`. -/
def checkFinished (search : String → String → Bool) (r : OutputReq) (newAcceptedLen : ℕ) : OutputReq :=
  if r.finished then r
  else if r.toFinish.isSome then { r with finishedReason := r.toFinish, toFinish := none }
  else if r.outputIds.length ≥ r.samplingParams.maxNewTokens then
    { r with
      finishedReason := some (.length r.samplingParams.maxNewTokens)
      finishedLen := some r.samplingParams.maxNewTokens }
  else if r.grammar.any fun isTerminated => isTerminated r.outputIds then
    { r with finishedReason := some (.matchedToken (r.outputIds.getLast?.getD 0)) }
  else
    let newAcceptedTokens := lastTokens newAcceptedLen r.outputIds
    (((r.checkTokenBasedFinish newAcceptedTokens).or
      (r.checkVocabBoundaryFinish newAcceptedTokens)).or (r.checkStrBasedFinish search)).getD r

/-- The tokens of a step are appended and the request is tested. -/
def accept (search : String → String → Bool) (r : OutputReq) (chunk : List ℤ) : OutputReq :=
  checkFinished search { r with outputIds := r.outputIds ++ chunk } chunk.length

/-- The steps of a request, until it has finished. -/
def run (search : String → String → Bool) : OutputReq → List (List ℤ) → OutputReq
  | r, [] => r
  | r, chunk :: chunks => if r.finished then r else run search (r.accept search chunk) chunks

/-- What a client sees: the output through the stop, and the kind of stop. -/
def outcome (r : OutputReq) : List ℤ × Option FinishKind :=
  (r.outputIdsThroughStop, r.finishedReason.map FinishReason.kind)

/-! ## 2. Pieces with one reason to stop -/

/-- The token is a stop token that the request does not ignore. -/
def Matches (r : OutputReq) (t : ℤ) : Prop :=
  r.samplingParams.ignoreEos = false ∧ r.isStopToken t = true

/-- The token stops the request. -/
def Stops (r : OutputReq) (t : ℤ) : Prop := r.Matches t ∨ r.outOfVocab t = true

instance (r : OutputReq) (t : ℤ) : Decidable (r.Matches t) := by unfold Matches; infer_instance

instance (r : OutputReq) (t : ℤ) : Decidable (r.Stops t) := by unfold Stops; infer_instance

/-- A piece after `n` tokens has one reason to stop: none of its tokens stops the request before
the limit that it reaches, and no token outside of the vocabulary comes before its stop token. -/
def OneStop (r : OutputReq) (n : ℕ) (chunk : List ℤ) : Prop :=
  if r.samplingParams.maxNewTokens ≤ n + chunk.length then
    ∀ t ∈ chunk.take (r.samplingParams.maxNewTokens - n - 1), ¬ r.Stops t
  else
    (∃ t ∈ chunk, r.Matches t) →
      ∀ t ∈ chunk.takeWhile (fun t => ¬ r.Matches t), r.outOfVocab t = false

/-- The request does not stop in the piece. -/
def Quiet (r : OutputReq) (n : ℕ) (chunk : List ℤ) : Prop :=
  n + chunk.length < r.samplingParams.maxNewTokens ∧ ∀ t ∈ chunk, ¬ r.Stops t

/-- The piece in which the request stops has one reason to stop. -/
def Uniform (r : OutputReq) : ℕ → List (List ℤ) → Prop
  | _, [] => True
  | n, chunk :: chunks => r.OneStop n chunk ∧ (r.Quiet n chunk → Uniform r (n + chunk.length) chunks)

/-! ## 3. What a step does -/

/-- A request that runs, without grammar and stop strings. -/
structure Plain (r : OutputReq) : Prop where
  grammar : r.grammar = none
  stopStrs : r.samplingParams.stopStrs = []
  stopRegexStrs : r.samplingParams.stopRegexStrs = []
  finishedReason : r.finishedReason = none
  finishedLen : r.finishedLen = none
  toFinish : r.toFinish = none

variable {search : String → String → Bool} {r : OutputReq} {pre post chunk : List ℤ} {t : ℤ}

/-- More output. -/
def extend (r : OutputReq) (l : List ℤ) : OutputReq := { r with outputIds := r.outputIds ++ l }

theorem Plain.extend (h : r.Plain) (l : List ℤ) : (r.extend l).Plain := { h with }

theorem extend_extend (r : OutputReq) (l l' : List ℤ) :
    (r.extend l).extend l' = r.extend (l ++ l') := by
  simp [OutputReq.extend]

theorem find_zipIdx (p : ℤ → Bool) (post : List ℤ) (hpre : ∀ x ∈ pre, p x = false) (ht : p t = true) :
    (pre ++ t :: post).zipIdx.find? (fun x => p x.1) = some (t, pre.length) := by
  rw [zipIdx_append, find?_append, find?_eq_none.mpr]
  · simp [ht]
  · rintro ⟨x, i⟩ hx
    simp [hpre x (fst_mem_of_mem_zipIdx hx)]

theorem find_zipIdx_none (p : ℤ → Bool) (h : ∀ x ∈ chunk, p x = false) :
    chunk.zipIdx.find? (fun x => p x.1) = none := by
  refine find?_eq_none.mpr ?_
  rintro ⟨x, i⟩ hx
  simp [h x (fst_mem_of_mem_zipIdx hx)]

theorem lastTokens_append (l : List ℤ) (hne : chunk ≠ []) :
    lastTokens chunk.length (l ++ chunk) = chunk := by
  rw [lastTokens, if_neg (by simpa using hne)]
  simp

/-- The test of a piece that does not reach the limit. -/
theorem accept_short (h : r.Plain) (hne : chunk ≠ [])
    (hlen : r.outputIds.length + chunk.length < r.samplingParams.maxNewTokens) :
    r.accept search chunk = (((r.extend chunk).checkTokenBasedFinish chunk).or
      ((r.extend chunk).checkVocabBoundaryFinish chunk)).getD (r.extend chunk) := by
  have hstr : (r.extend chunk).checkStrBasedFinish search = none := by
    simp [checkStrBasedFinish, OutputReq.extend, h.stopStrs, h.stopRegexStrs]
  have hlast : lastTokens chunk.length (r.extend chunk).outputIds = chunk :=
    lastTokens_append r.outputIds hne
  have hx := h.extend chunk
  have hlen' : ¬ (r.extend chunk).outputIds.length ≥ (r.extend chunk).samplingParams.maxNewTokens := by
    simpa [OutputReq.extend] using hlen
  change (r.extend chunk).checkFinished search chunk.length = _
  unfold checkFinished
  rw [if_neg (by simp [finished, hx.finishedReason]), if_neg (by simp [hx.toFinish]), if_neg hlen',
    if_neg (by simp [hx.grammar])]
  simp [hlast, hstr]

theorem accept_length (h : r.Plain)
    (hlen : r.samplingParams.maxNewTokens ≤ r.outputIds.length + chunk.length) :
    r.accept search chunk = { r.extend chunk with
      finishedReason := some (.length r.samplingParams.maxNewTokens)
      finishedLen := some r.samplingParams.maxNewTokens } := by
  have hx := h.extend chunk
  have hlen' : (r.extend chunk).outputIds.length ≥ (r.extend chunk).samplingParams.maxNewTokens := by
    simpa [OutputReq.extend] using hlen
  change (r.extend chunk).checkFinished search chunk.length = _
  unfold checkFinished
  rw [if_neg (by simp [finished, hx.finishedReason]), if_neg (by simp [hx.toFinish]), if_pos hlen']
  rfl

theorem isStopToken_of_not_matches (hig : r.samplingParams.ignoreEos = false)
    (h : ¬ r.Matches t) : r.isStopToken t = false := by
  by_contra hs
  exact h ⟨hig, by simpa using hs⟩

theorem checkTokenBasedFinish_none (out : List ℤ) (h : ∀ x ∈ chunk, ¬ r.Matches x) :
    (r.extend out).checkTokenBasedFinish chunk = none := by
  unfold checkTokenBasedFinish
  split
  · rfl
  · rename_i hig
    have hig : r.samplingParams.ignoreEos = false := by simpa [OutputReq.extend] using hig
    have hf := find_zipIdx_none r.isStopToken fun x hx => isStopToken_of_not_matches hig (h x hx)
    exact map_eq_none_iff.mpr hf

theorem checkVocabBoundaryFinish_none (out : List ℤ) (h : ∀ x ∈ chunk, ¬ r.outOfVocab x = true) :
    (r.extend out).checkVocabBoundaryFinish chunk = none :=
  map_eq_none_iff.mpr (find_zipIdx_none r.outOfVocab fun x hx => Bool.eq_false_iff.mpr (h x hx))

/-- A stop token ends the output. -/
theorem accept_matches (h : r.Plain) (hc : chunk = pre ++ t :: post)
    (hlen : r.outputIds.length + chunk.length < r.samplingParams.maxNewTokens)
    (hpre : ∀ x ∈ pre, ¬ r.Matches x) (ht : r.Matches t) :
    r.accept search chunk = { r.extend chunk with
      finishedReason := some (.matchedToken t)
      finishedLen := some (r.outputIds.length + pre.length + 1) } := by
  subst hc
  have hf := find_zipIdx r.isStopToken post
    (fun x hx => isStopToken_of_not_matches ht.1 (hpre x hx)) ht.2
  have hcheck : (r.extend (pre ++ t :: post)).checkTokenBasedFinish (pre ++ t :: post)
      = some { r.extend (pre ++ t :: post) with
        finishedReason := some (.matchedToken t)
        finishedLen := some ((r.outputIds ++ (pre ++ t :: post)).length
          - (pre ++ t :: post).length + pre.length + 1) } := by
    unfold checkTokenBasedFinish
    rw [if_neg (by simpa [OutputReq.extend] using ht.1)]
    exact congrArg (Option.map _) hf
  rw [accept_short h (by simp) hlen, hcheck, some_or]
  simp

/-- A token outside of the vocabulary is replaced and ends the output. -/
theorem accept_outOfVocab (h : r.Plain) (hc : chunk = pre ++ t :: post)
    (hlen : r.outputIds.length + chunk.length < r.samplingParams.maxNewTokens)
    (hmatch : ∀ x ∈ chunk, ¬ r.Matches x) (hpre : ∀ x ∈ pre, r.outOfVocab x = false)
    (ht : r.outOfVocab t = true) :
    r.accept search chunk = { r with
      outputIds := r.outputIds ++ pre ++ r.replacement t :: post
      finishedReason := some (.matchedStr "NaN happened")
      finishedLen := some (r.outputIds.length + pre.length + 1) } := by
  have htoken := checkTokenBasedFinish_none chunk hmatch
  subst hc
  have hf := find_zipIdx r.outOfVocab post hpre ht
  have hcheck : (r.extend (pre ++ t :: post)).checkVocabBoundaryFinish (pre ++ t :: post)
      = some { r with
        outputIds := (r.outputIds ++ (pre ++ t :: post)).set
          ((r.outputIds ++ (pre ++ t :: post)).length - (pre ++ t :: post).length + pre.length)
          (r.replacement t)
        finishedReason := some (.matchedStr "NaN happened")
        finishedLen := some ((r.outputIds ++ (pre ++ t :: post)).length
          - (pre ++ t :: post).length + pre.length + 1) } :=
    congrArg (Option.map _) hf
  rw [accept_short h (by simp) hlen, htoken, hcheck, none_or]
  simp

theorem accept_quiet (h : r.Plain) (hne : chunk ≠ []) (hq : r.Quiet r.outputIds.length chunk) :
    r.accept search chunk = r.extend chunk := by
  have htoken := checkTokenBasedFinish_none chunk fun x hx hm => hq.2 x hx (.inl hm)
  have hvocab := checkVocabBoundaryFinish_none chunk fun x hx ho => hq.2 x hx (.inr ho)
  rw [accept_short h hne hq.1, htoken, hvocab]
  rfl

/-! ## 4. Pieces and single tokens -/

/-- The tokens one at a time. -/
def singles (l : List ℤ) : List (List ℤ) := l.map ([·])

theorem run_of_finished (h : r.finished = true) (chunks : List (List ℤ)) : r.run search chunks = r := by
  cases chunks with
  | nil => rfl
  | cons chunk chunks => rw [run, if_pos h]

theorem run_cons (h : r.Plain) (chunks : List (List ℤ)) :
    r.run search (chunk :: chunks) = (r.accept search chunk).run search chunks := by
  rw [run, if_neg (by simp [finished, h.finishedReason])]

/-- Single tokens that do not stop the request. -/
theorem run_singles_quiet (rest : List (List ℤ)) : ∀ (pre : List ℤ) (r : OutputReq), r.Plain →
    (pre = [] ∨ r.outputIds.length + pre.length < r.samplingParams.maxNewTokens) →
    (∀ x ∈ pre, ¬ r.Stops x) →
    r.run search (singles pre ++ rest) = (r.extend pre).run search rest
  | [], r, _, _, _ => by simp [singles, OutputReq.extend]
  | x :: pre, r, h, hlen, hpre => by
    have hlen : r.outputIds.length + (x :: pre).length < r.samplingParams.maxNewTokens :=
      hlen.resolve_left (by simp)
    rw [length_cons] at hlen
    have hq : r.Quiet r.outputIds.length [x] :=
      ⟨by simp only [length_singleton]; omega, by simpa using hpre x mem_cons_self⟩
    have ih := run_singles_quiet rest pre (r.extend [x]) (h.extend [x])
      (.inr (by simp only [OutputReq.extend, length_append, length_singleton]; omega))
      (fun y hy => hpre y (mem_cons_of_mem _ hy))
    calc r.run search (singles (x :: pre) ++ rest)
        = (r.accept search [x]).run search (singles pre ++ rest) := run_cons h _
      _ = (r.extend [x]).run search (singles pre ++ rest) := by rw [accept_quiet h (by simp) hq]
      _ = (r.extend (x :: pre)).run search rest := by rw [ih, extend_extend]; rfl

/-- A piece that is not quiet has a first token at which the request stops. -/
theorem exists_first_stop (n : ℕ) : ∀ chunk : List ℤ, chunk ≠ [] → ¬ r.Quiet n chunk →
    ∃ pre t post, chunk = pre ++ t :: post ∧
      (pre = [] ∨ n + pre.length < r.samplingParams.maxNewTokens) ∧ (∀ x ∈ pre, ¬ r.Stops x) ∧
      (r.samplingParams.maxNewTokens ≤ n + pre.length + 1 ∨ r.Stops t) := by
  intro chunk
  induction chunk using List.reverseRecOn with
  | nil => exact fun h => absurd rfl h
  | append_singleton l x ih =>
    intro _ hq
    by_cases hl : l = []
    · subst hl
      refine ⟨[], x, [], rfl, .inl rfl, by simp, ?_⟩
      by_contra hcon
      rw [not_or] at hcon
      exact hq ⟨by simpa using hcon.1, by simpa using hcon.2⟩
    · by_cases hql : r.Quiet n l
      · refine ⟨l, x, [], rfl, .inr hql.1, hql.2, ?_⟩
        by_contra hcon
        rw [not_or] at hcon
        refine hq ⟨by simp only [length_append, length_singleton]; omega, ?_⟩
        intro y hy
        rcases mem_append.mp hy with hy | hy
        · exact hql.2 y hy
        · rw [mem_singleton.mp hy]
          exact hcon.2
      · obtain ⟨pre, t, post, rfl, h₁, h₂, h₃⟩ := ih hl hql
        exact ⟨pre, t, post ++ [x], by simp, h₁, h₂, h₃⟩

theorem take_through (l pre post : List ℤ) (t : ℤ) :
    (l ++ pre ++ t :: post).take (l.length + pre.length + 1) = l ++ pre ++ [t] := by
  have hlen : l.length + pre.length + 1 = (l ++ pre ++ [t]).length := by
    simp only [length_append, length_singleton]
  rw [append_cons _ t post, hlen, take_left]

/-- The reasons to stop at a token after `n` others, in the order they are tested. -/
theorem outcome_singles (h : r.Plain) (hpre : ∀ x ∈ pre, ¬ r.Stops x)
    (hlen : pre = [] ∨ r.outputIds.length + pre.length < r.samplingParams.maxNewTokens)
    (hstop : r.samplingParams.maxNewTokens ≤ r.outputIds.length + pre.length + 1 ∨ r.Stops t)
    (post : List ℤ) (rest : List (List ℤ)) :
    (r.run search (singles (pre ++ t :: post) ++ rest)).outcome =
      if r.samplingParams.maxNewTokens ≤ r.outputIds.length + pre.length + 1 then
        ((r.outputIds ++ pre ++ [t]).take r.samplingParams.maxNewTokens, some .length)
      else if r.Matches t then (r.outputIds ++ pre ++ [t], some .matchedToken)
      else (r.outputIds ++ pre ++ [r.replacement t], some .matchedStr) := by
  have hplain := h.extend pre
  have hrun : r.run search (singles (pre ++ t :: post) ++ rest)
      = ((r.extend pre).accept search [t]).run search (singles post ++ rest) := by
    have hsplit : singles (pre ++ t :: post) ++ rest = singles pre ++ ([t] :: (singles post ++ rest)) := by
      simp [singles]
    rw [hsplit, run_singles_quiet _ pre r h hlen hpre, run_cons hplain]
  have hlength : (r.extend pre).outputIds.length = r.outputIds.length + pre.length := by
    simp [OutputReq.extend]
  have hfin : ∀ r' : OutputReq, r'.finished = true → (r.extend pre).accept search [t] = r' →
      (r.run search (singles (pre ++ t :: post) ++ rest)).outcome = r'.outcome := by
    intro r' hr' heq
    rw [hrun, heq, run_of_finished hr']
  split
  · rename_i hmax
    refine (hfin _ ?_ (accept_length hplain (by rw [hlength]; exact hmax))).trans ?_
    · rfl
    · simp [outcome, outputIdsThroughStop, OutputReq.extend, FinishReason.kind]
  · rename_i hmax
    have hst := hstop.resolve_left hmax
    have hlt : (r.extend pre).outputIds.length + [t].length
        < (r.extend pre).samplingParams.maxNewTokens := by
      rw [hlength]
      exact not_le.mp hmax
    split
    · rename_i hm
      refine (hfin _ ?_ (accept_matches hplain (nil_append _).symm hlt (by simp) hm)).trans ?_
      · rfl
      · simp only [outcome, outputIdsThroughStop, OutputReq.extend, FinishReason.kind,
          length_append, length_nil, Nat.add_zero, take_through, map_some]
    · rename_i hm
      have hm' : ¬ (r.extend pre).Matches t := hm
      have ho : (r.extend pre).outOfVocab t = true := hst.resolve_left hm
      refine (hfin _ ?_ (accept_outOfVocab hplain (nil_append _).symm hlt ?_ (by simp) ho)).trans ?_
      · rfl
      · simpa using hm'
      · simp only [outcome, outputIdsThroughStop, OutputReq.extend, FinishReason.kind, replacement,
          length_append, length_nil, Nat.add_zero, append_nil, take_through,
          map_some]

/-- A piece in which the request stops is as good as its tokens if it has one reason to stop. -/
theorem outcome_chunk_iff (h : r.Plain) (hne : chunk ≠ [])
    (hq : ¬ r.Quiet r.outputIds.length chunk) (chunks rest : List (List ℤ)) :
    (r.run search (chunk :: chunks)).outcome = (r.run search (singles chunk ++ rest)).outcome ↔
      r.OneStop r.outputIds.length chunk := by
  obtain ⟨pre, t, post, hc, hlen, hpre, hstop⟩ := exists_first_stop r.outputIds.length chunk hne hq
  have hsingles := @outcome_singles search r pre t h hpre hlen hstop post rest
  rw [← hc] at hsingles
  rw [hsingles, run_cons h]
  have hmatch : ∀ x ∈ pre, ¬ r.Matches x := fun x hx hm => hpre x hx (.inl hm)
  have hvocab : ∀ x ∈ pre, r.outOfVocab x = false := fun x hx => by
    by_contra ho
    exact hpre x hx (.inr (by simpa using ho))
  have hcl : chunk.length = pre.length + (post.length + 1) := by simp [hc]
  by_cases hmax : r.samplingParams.maxNewTokens ≤ r.outputIds.length + chunk.length
  · rw [accept_length h hmax, run_of_finished rfl, OneStop, if_pos hmax]
    by_cases hfirst : r.samplingParams.maxNewTokens ≤ r.outputIds.length + pre.length + 1
    · -- both reach the limit at the same token
      rw [if_pos hfirst]
      refine iff_of_true ?_ ?_
      · have htake : (r.outputIds ++ chunk).take r.samplingParams.maxNewTokens
            = (r.outputIds ++ pre ++ [t]).take r.samplingParams.maxNewTokens := by
          have hsplit : r.outputIds ++ chunk = (r.outputIds ++ pre ++ [t]) ++ post := by simp [hc]
          rw [hsplit, take_append_of_le_length]
          simp only [length_append, length_singleton]
          exact hfirst
        simp [outcome, outputIdsThroughStop, OutputReq.extend, FinishReason.kind, htake]
      · intro x hx
        rw [hc, take_append_of_le_length (by omega)] at hx
        exact hpre x (mem_of_mem_take hx)
    · -- the tokens stop before the limit
      rw [if_neg hfirst]
      refine iff_of_false ?_ ?_
      · split
        · simp [outcome, FinishReason.kind]
        · simp [outcome, FinishReason.kind]
      · intro hall
        refine hall t ?_ (hstop.resolve_left hfirst)
        rw [hc, take_append, take_cons (by omega)]
        simp
  · have hst := hstop.resolve_left (by omega)
    rw [if_neg (by omega), OneStop, if_neg hmax]
    have hlt := not_le.mp hmax
    by_cases hm : r.Matches t
    · rw [if_pos hm, accept_matches h hc hlt hmatch hm, run_of_finished rfl]
      refine iff_of_true ?_ ?_
      · simp [outcome, outputIdsThroughStop, OutputReq.extend, FinishReason.kind, hc,
          ← append_assoc, take_through]
      · intro _ x hx
        rw [hc, takeWhile_append_of_pos (by simpa using hmatch)] at hx
        simp only [hm, not_true_eq_false, decide_false, takeWhile_cons, Bool.false_eq_true,
          if_false, append_nil] at hx
        exact hvocab x hx
    · have ho : r.outOfVocab t = true := hst.resolve_left hm
      rw [if_neg hm]
      by_cases hex : ∃ x ∈ chunk, r.Matches x
      · -- the piece stops at a later stop token
        obtain ⟨x, hfind⟩ := isSome_iff_exists.mp (find?_isSome.mpr
          (show ∃ x ∈ chunk, decide (r.Matches x) = true by simpa using hex))
        obtain ⟨hx, pre', post', hc', hpre'⟩ := find?_eq_some_iff_append.mp hfind
        rw [accept_matches h hc' hlt (by simpa using hpre') (by simpa using hx), run_of_finished rfl]
        refine iff_of_false ?_ ?_
        · simp [outcome, FinishReason.kind]
        · intro hall
          have := hall hex t ?_
          · rw [ho] at this
            cases this
          · rw [hc, takeWhile_append_of_pos (by simpa using hmatch)]
            simp [hm]
      · have hnone : ∀ x ∈ chunk, ¬ r.Matches x := fun x hx hm => hex ⟨x, hx, hm⟩
        rw [accept_outOfVocab h hc hlt hnone hvocab ho, run_of_finished rfl]
        refine iff_of_true ?_ fun hex' => absurd hex' hex
        simp only [outcome, outputIdsThroughStop, FinishReason.kind, take_through, map_some]

/-- **Stopping depends on the pieces exactly if the piece in which the request stops has two
reasons to stop in the wrong order.** -/
theorem run_chunks_outcome_iff (h : r.Plain) {chunks : List (List ℤ)} (hne : ∀ c ∈ chunks, c ≠ []) :
    (r.run search chunks).outcome = (r.run search (singles chunks.flatten)).outcome ↔
      r.Uniform r.outputIds.length chunks := by
  induction chunks generalizing r with
  | nil => simp [singles, run, Uniform]
  | cons chunk chunks ih =>
    have hchunk := hne chunk mem_cons_self
    have hsplit : singles (chunk :: chunks).flatten = singles chunk ++ singles chunks.flatten := by
      simp [singles]
    rw [hsplit]
    by_cases hq : r.Quiet r.outputIds.length chunk
    · have hone : r.OneStop r.outputIds.length chunk := by
        rw [OneStop, if_neg (not_le.mpr hq.1)]
        rintro ⟨t, ht, hm⟩
        exact absurd (.inl hm) (hq.2 t ht)
      have hlen : (r.extend chunk).outputIds.length = r.outputIds.length + chunk.length := by
        simp [OutputReq.extend]
      have huniform : ∀ (n : ℕ) (l : List (List ℤ)), (r.extend chunk).Uniform n l ↔ r.Uniform n l := by
        intro n l
        induction l generalizing n with
        | nil => exact Iff.rfl
        | cons c l ih => exact and_congr Iff.rfl (imp_congr Iff.rfl (ih _))
      rw [run_cons h, accept_quiet h hchunk hq,
        run_singles_quiet _ chunk r h (.inr hq.1) hq.2,
        ih (h.extend chunk) (fun c hc => hne c (mem_cons_of_mem _ hc)), hlen, huniform]
      exact ⟨fun hu => ⟨hone, fun _ => hu⟩, fun hu => hu.2 hq⟩
    · rw [outcome_chunk_iff h hchunk hq]
      exact ⟨fun hone => ⟨hone, fun hq' => absurd hq' hq⟩, fun hu => hu.1⟩

/-- A request with five tokens to go that stops at token 2. -/
def fiveTokens : OutputReq where
  samplingParams := ⟨5, false, [2], [], [], 0, 0⟩
  eosTokenIds := []
  tokenizer := none
  decode := fun _ => ""
  vocabSize := 100
  grammar := none
  decodedText := ""
  outputIds := []
  finishedReason := none
  finishedLen := none
  toFinish := none

theorem plain_fiveTokens : fiveTokens.Plain := ⟨rfl, rfl, rfl, rfl, rfl, rfl⟩

/-- Pieces that do not reach the limit. -/
theorem run_chunks_outcome_four : (∀ c ∈ [[7], [8, 2, 9]], c ≠ ([] : List ℤ)) ∧
    ((fiveTokens.run (fun _ _ => false) [[7], [8, 2, 9]]).outcome
        = (fiveTokens.run (fun _ _ => false) (singles [7, 8, 2, 9])).outcome ↔
      fiveTokens.Uniform 0 [[7], [8, 2, 9]]) ∧
    (fiveTokens.run (fun _ _ => false) [[7], [8, 2, 9]]).outcome
      = ([7, 8, 2], some .matchedToken) :=
  ⟨by decide, run_chunks_outcome_iff plain_fiveTokens (by decide), by decide⟩

/-- A stop token and the limit in one piece: the output goes on after the stop token. -/
theorem run_chunks_outcome_five :
    (fiveTokens.run (fun _ _ => false) [[7], [8, 2, 9, 9]]).outcome
      ≠ (fiveTokens.run (fun _ _ => false) (singles [7, 8, 2, 9, 9])).outcome ∧
    (fiveTokens.run (fun _ _ => false) [[7], [8, 2, 9, 9]]).outcome
      = ([7, 8, 2, 9, 9], some .length) ∧
    (fiveTokens.run (fun _ _ => false) (singles [7, 8, 2, 9, 9])).outcome
      = ([7, 8, 2], some .matchedToken) := by
  decide

end OutputReq

end Sglang
