/-
# Reasoning text in a stream

A transcription of `BaseReasoningFormatDetector.parse_streaming_increment` (`reasoning_parser.py`).  The
detector holds back its buffer only while the whole of it begins a tag; otherwise it decides on the buffer
at once and empties it.  The chunks of a stream therefore act through the pieces in which the buffer is
released (`pieces`), and a tag that is cut between two pieces is not seen.

The stream gives the text of one chunk if no tag that matters is cut and nothing is held at the end
(`Uncut`).  A string is the list of its characters.
-/
import Sglang.Lib.Search
import Mathlib.Data.List.DropRight

namespace Sglang

open Lib List

/-! ## 1. The detector -/

/-- A string. -/
abbrev Text := List Char

/-- The white space that `str.rstrip` strips. -/
def isSpace (c : Char) : Bool :=
  let n := c.toNat
  (9 ≤ n && n ≤ 13) || (28 ≤ n && n ≤ 32) || n == 133 || n == 160 || n == 5760 ||
    (8192 ≤ n && n ≤ 8202) || n == 8232 || n == 8233 || n == 8239 || n == 8287 || n == 12288

/-- `str.rstrip`. -/
def rstrip (text : Text) : Text := text.rdropWhile isSpace

/-- `BaseReasoningFormatDetector`, the fields that parsing does not change. -/
structure ReasoningDetector where
  thinkStartToken : Text
  thinkEndToken : Text
  thinkStartSelfLabel : Text
  toolStartToken : Option Text
  streamReasoning : Bool

/-- Its other fields. -/
structure DetectorState where
  buffer : Text
  strippedThinkStart : Bool
  inReasoning : Bool
deriving DecidableEq

/-- `StreamingParseResult`. -/
structure StreamingParseResult where
  normalText : Text := []
  reasoningText : Text := []
deriving DecidableEq

namespace ReasoningDetector

/-- `think_start_text`. -/
def thinkStartText (d : ReasoningDetector) : Text := d.thinkStartToken ++ d.thinkStartSelfLabel

/-- The place of `tool_start_token`, if there is such a token. -/
def findTool (d : ReasoningDetector) (text : Text) : Option ℕ :=
  match d.toolStartToken with
  | none => none
  | some token => if token = [] then none else find token text

/-- `tokens_to_check`. -/
def tokensToCheck (d : ReasoningDetector) : List Text :=
  [d.thinkStartText, d.thinkEndToken] ++
    (match d.toolStartToken with
    | none => []
    | some token => if token = [] then [] else [token])

/-- Whether the text begins a tag, and is not the whole of it. -/
def held (d : ReasoningDetector) (text : Text) : Bool :=
  d.tokensToCheck.any fun token => text.isPrefixOf token && token != text

/-- `current_text` with the first `think_start_text` removed. -/
def removeStart (d : ReasoningDetector) (text : Text) (i : ℕ) : Text :=
  text.take i ++ text.drop (i + d.thinkStartText.length)

/-- `parse_streaming_increment` behind the removal of the start tag. -/
def release (d : ReasoningDetector) (s : DetectorState) (currentText : Text) :
    DetectorState × StreamingParseResult :=
  if s.inReasoning then
    match find d.thinkEndToken currentText with
    | some endIdx =>
      ({ s with buffer := [], inReasoning := false },
        { normalText := currentText.drop (endIdx + d.thinkEndToken.length)
          reasoningText := rstrip (currentText.take endIdx) })
    | none =>
      match d.findTool currentText with
      | some toolIdx =>
        ({ s with buffer := [], inReasoning := false },
          { normalText := currentText.drop toolIdx
            reasoningText := currentText.take toolIdx })
      | none =>
        if d.streamReasoning then ({ s with buffer := [] }, { reasoningText := currentText })
        else (s, {})
  else ({ s with buffer := [] }, { normalText := currentText })

/-- `parse_streaming_increment`, once the buffer is not held back. -/
def decide (d : ReasoningDetector) (s : DetectorState) (currentText : Text) :
    DetectorState × StreamingParseResult :=
  if s.strippedThinkStart then d.release s currentText
  else match find d.thinkStartText currentText with
    | some i => d.release { s with strippedThinkStart := true, inReasoning := true }
        (d.removeStart currentText i)
    | none => d.release s currentText

/-- `parse_streaming_increment`. -/
def parseStreamingIncrement (d : ReasoningDetector) (s : DetectorState) (newText : Text) :
    DetectorState × StreamingParseResult :=
  let currentText := s.buffer ++ newText
  let s := { s with buffer := currentText }
  if d.held currentText then (s, {}) else d.decide s currentText

/-- All chunks of a stream, and the texts they return together. -/
def parseStream (d : ReasoningDetector) (s : DetectorState) : List Text → StreamingParseResult
  | [] => {}
  | chunk :: chunks =>
    let (s, result) := d.parseStreamingIncrement s chunk
    let rest := d.parseStream s chunks
    { normalText := result.normalText ++ rest.normalText
      reasoningText := result.reasoningText ++ rest.reasoningText }

/-! ## 2. Pieces -/

/-- The texts on which the detector decides, one after the other, and what is still held at the end. -/
def pieces (d : ReasoningDetector) (buffer : Text) : List Text → List Text × Text
  | [] => ([], buffer)
  | chunk :: chunks =>
    let currentText := buffer ++ chunk
    if d.held currentText then d.pieces currentText chunks
    else (currentText :: (d.pieces [] chunks).1, (d.pieces [] chunks).2)

/-- The pieces one after the other. -/
def parsePieces (d : ReasoningDetector) (s : DetectorState) : List Text → StreamingParseResult
  | [] => {}
  | piece :: rest =>
    let (s, result) := d.decide s piece
    let rest := d.parsePieces s rest
    { normalText := result.normalText ++ rest.normalText
      reasoningText := result.reasoningText ++ rest.reasoningText }

variable {d : ReasoningDetector} {s : DetectorState} {text buffer piece : Text} {chunks ps : List Text}
  {i : ℕ}

theorem pieces_flatten : ∀ (chunks : List Text) (buffer : Text),
    (d.pieces buffer chunks).1.flatten ++ (d.pieces buffer chunks).2 = buffer ++ chunks.flatten
  | [], buffer => by simp [pieces]
  | chunk :: chunks, buffer => by
    rw [pieces]
    split
    · rw [pieces_flatten chunks, flatten_cons, append_assoc]
    · rw [flatten_cons, append_assoc, pieces_flatten chunks, flatten_cons, nil_append, append_assoc]

theorem held_iff : d.held text = true ↔ ∃ token ∈ d.tokensToCheck, text <+: token ∧ token ≠ text := by
  simp [held]

theorem held_of_isPrefix (h : d.held text = true) {text' : Text} (hp : text' <+: text) :
    d.held text' = true := by
  obtain ⟨token, hmem, hpre, hne⟩ := held_iff.mp h
  refine held_iff.mpr ⟨token, hmem, hp.trans hpre, ?_⟩
  rintro rfl
  exact hne (hp.eq_of_length_le hpre.length_le)

theorem pieces_of_held : ∀ (chunks : List Text) (buffer : Text),
    d.held (buffer ++ chunks.flatten) = true →
    d.pieces buffer chunks = ([], buffer ++ chunks.flatten)
  | [], buffer, _ => by simp [pieces]
  | chunk :: chunks, buffer, h => by
    rw [flatten_cons, ← append_assoc] at h ⊢
    rw [pieces, if_pos (held_of_isPrefix h (prefix_append _ _)), pieces_of_held chunks _ h]

theorem held_of_pieces_nil : ∀ (chunks : List Text) (buffer : Text), chunks ≠ [] →
    (d.pieces buffer chunks).1 = [] → d.held (buffer ++ chunks.flatten) = true
  | [], _, h, _ => absurd rfl h
  | chunk :: chunks, buffer, _, h => by
    rw [pieces] at h
    split at h
    · rename_i hheld
      by_cases hc : chunks = []
      · simpa [hc] using hheld
      · rw [flatten_cons, ← append_assoc]
        exact held_of_pieces_nil chunks _ hc h
    · cases h

theorem decide_buffer (hd : d.streamReasoning = true) (s : DetectorState) (text : Text) :
    (d.decide s text).1.buffer = [] := by
  have hr : ∀ (s : DetectorState) (text : Text), (d.release s text).1.buffer = [] := by
    intro s text
    simp only [release, hd, if_true]
    split
    · split
      · rfl
      · split <;> rfl
    · rfl
  unfold decide
  split
  · exact hr _ _
  · split <;> exact hr _ _

/-- The buffer from which a piece came plays no part. -/
theorem decide_congr (hd : d.streamReasoning = true) {s s' : DetectorState}
    (h1 : s.strippedThinkStart = s'.strippedThinkStart) (h2 : s.inReasoning = s'.inReasoning)
    (text : Text) : d.decide s text = d.decide s' text := by
  have hr : ∀ (b b' : Text) (x y : Bool) (text : Text), d.release ⟨b, x, y⟩ text
      = d.release ⟨b', x, y⟩ text := by
    intro b b' x y text
    simp [release, hd]
  obtain ⟨b, x, y⟩ := s
  obtain ⟨b', x', y'⟩ := s'
  cases h1
  cases h2
  simp [decide, hr b b']

theorem parsePieces_congr (hd : d.streamReasoning = true) {s s' : DetectorState}
    (h1 : s.strippedThinkStart = s'.strippedThinkStart) (h2 : s.inReasoning = s'.inReasoning)
    (ps : List Text) : d.parsePieces s ps = d.parsePieces s' ps := by
  cases ps with
  | nil => rfl
  | cons piece ps => rw [parsePieces, parsePieces, decide_congr hd h1 h2]

/-- **A stream is parsed by its pieces.** -/
theorem parseStream_eq (hd : d.streamReasoning = true) : ∀ (chunks : List Text) (s : DetectorState),
    d.parseStream s chunks = d.parsePieces s (d.pieces s.buffer chunks).1
  | [], s => rfl
  | chunk :: chunks, s => by
    have hcongr : ∀ ps, d.parsePieces { s with buffer := s.buffer ++ chunk } ps = d.parsePieces s ps :=
      fun ps => parsePieces_congr hd (by rfl) (by rfl) ps
    have hdecide : d.decide { s with buffer := s.buffer ++ chunk } (s.buffer ++ chunk)
        = d.decide s (s.buffer ++ chunk) := decide_congr hd (by rfl) (by rfl) _
    rw [parseStream, pieces, parseStreamingIncrement]
    by_cases hh : d.held (s.buffer ++ chunk) = true
    · simp [hh, parseStream_eq hd chunks, hcongr]
    · simp only [hh, hdecide, parseStream_eq hd chunks]
      rw [if_neg (by simp), if_neg (by simp), parsePieces]
      simp [decide_buffer hd]

/-! ## 3. Tags that are not cut -/

/-- In a reasoning block, the tag that ends it lies within a piece, and so does every tag before it: the
first end tag, or the first tool tag if there is no end tag. -/
def EndUncut (d : ReasoningDetector) (ps : List Text) : Prop :=
  (find d.thinkEndToken ps.flatten = none ∧ d.findTool ps.flatten = none) ∨
  (∃ front piece rest, Inside (find d.thinkEndToken) ps front piece rest ∧
    ∀ x ∈ front, find d.thinkEndToken x = none ∧ d.findTool x = none) ∨
  (find d.thinkEndToken ps.flatten = none ∧ ∃ front piece rest, Inside d.findTool ps front piece rest ∧
    ∀ x ∈ front, d.findTool x = none)

/-- No tag that matters is cut.  Nothing is held at the end, unless all of it is; the first start tag
lies within a piece, with nothing before it that is taken for normal text; and without this tag the
reasoning ends within a piece. -/
def Uncut (d : ReasoningDetector) (inReasoning : Bool) (chunks : List Text) : Prop :=
  (d.pieces [] chunks).1 = [] ∨ (d.pieces [] chunks).2 = [] ∧
    ((find d.thinkStartText (d.pieces [] chunks).1.flatten = none ∧
        (inReasoning = true → d.EndUncut (d.pieces [] chunks).1)) ∨
      ∃ front piece rest i, (d.pieces [] chunks).1 = front ++ piece :: rest ∧
        find d.thinkStartText piece = some i ∧
        find d.thinkStartText (d.pieces [] chunks).1.flatten = some (front.flatten.length + i) ∧
        (inReasoning = false → front = []) ∧
        (∀ x ∈ front, find d.thinkStartText x = none ∧ find d.thinkEndToken x = none ∧
          d.findTool x = none) ∧
        d.EndUncut (front ++ d.removeStart piece i :: rest))

/-- A text without its first start tag. -/
def startRemoved (d : ReasoningDetector) (text : Text) : Text :=
  match find d.thinkStartText text with
  | some i => d.removeStart text i
  | none => text

/-- Two results agree up to the white space that is stripped in front of the end tag of the text. -/
structure Agree (d : ReasoningDetector) (text : Text) (r r' : StreamingParseResult) : Prop where
  normalText : r.normalText = r'.normalText
  reasoningText : rstrip r.reasoningText = rstrip r'.reasoningText
  unended : find d.thinkEndToken (d.startRemoved text) = none → r.reasoningText = r'.reasoningText

/-! ## 4. One piece -/

theorem decide_eq_release (h : s.strippedThinkStart = true ∨ find d.thinkStartText text = none) :
    d.decide s text = d.release s text := by
  unfold decide
  rcases h with h | h
  · rw [if_pos h]
  · simp [h]

theorem decide_of_find (hs : s.strippedThinkStart = false) (hi : find d.thinkStartText text = some i) :
    d.decide s text = d.decide { s with strippedThinkStart := true, inReasoning := true }
      (d.removeStart text i) := by
  simp [decide, hs, hi]

theorem release_normal (hs : s.inReasoning = false) :
    d.release s text = ({ s with buffer := [] }, { normalText := text }) := by
  rw [release, hs]
  rfl

theorem release_quiet (hd : d.streamReasoning = true) (hs : s.inReasoning = true)
    (he : find d.thinkEndToken text = none) (ht : d.findTool text = none) :
    d.release s text = ({ s with buffer := [] }, { reasoningText := text }) := by
  simp [release, hs, he, ht, hd]

theorem release_end (hs : s.inReasoning = true) (he : find d.thinkEndToken text = some i) :
    d.release s text = ({ s with buffer := [], inReasoning := false },
      { normalText := text.drop (i + d.thinkEndToken.length), reasoningText := rstrip (text.take i) }) := by
  simp [release, hs, he]

theorem release_tool (hs : s.inReasoning = true) (he : find d.thinkEndToken text = none)
    (ht : d.findTool text = some i) : d.release s text = ({ s with buffer := [], inReasoning := false },
      { normalText := text.drop i, reasoningText := text.take i }) := by
  simp [release, hs, he, ht]

theorem findTool_le (h : d.findTool text = some i) : i ≤ text.length := by
  unfold findTool at h
  split at h
  · cases h
  · split at h
    · cases h
    · have := find_add_le h
      omega

theorem findTool_eq_none_of_infix (h : d.findTool text = none) {text' : Text}
    (ht : text' <:+: text) : d.findTool text' = none := by
  unfold findTool at h ⊢
  split at h
  · rfl
  · split at h
    · rename_i hnil
      exact if_pos hnil
    · rename_i hnil
      rw [if_neg hnil]
      exact find_eq_none_of_isInfix h ht

theorem rstrip_append_rstrip (a b : Text) : rstrip (a ++ rstrip b) = rstrip (a ++ b) := by
  simp [rstrip, List.rdropWhile, dropWhile_append, dropWhile_idempotent]

theorem rstrip_rstrip (a : Text) : rstrip (rstrip a) = rstrip a := by
  have := rstrip_append_rstrip [] a
  simpa using this

/-! ## 5. The pieces one after the other -/

/-- Outside of a reasoning block everything is normal text. -/
theorem parsePieces_normal : ∀ (ps : List Text) (s : DetectorState), s.inReasoning = false →
    (s.strippedThinkStart = true ∨ find d.thinkStartText ps.flatten = none) →
    d.parsePieces s ps = { normalText := ps.flatten }
  | [], _, _, _ => rfl
  | piece :: ps, s, hs, h => by
    have hpiece := h.imp_right fun h => find_eq_none_of_isInfix h
      (infix_append' [] piece ps.flatten)
    have hrest := h.imp_right fun h => find_eq_none_of_isInfix h
      (suffix_append piece ps.flatten).isInfix
    have ih := parsePieces_normal ps { s with buffer := [] } hs hrest
    rw [parsePieces, decide_eq_release hpiece, release_normal hs]
    simp [ih]

/-- Pieces without tags in a reasoning block are reasoning text. -/
theorem parsePieces_front (hd : d.streamReasoning = true) (hs : s.inReasoning = true) :
    ∀ (front rest : List Text),
    (∀ x ∈ front, (s.strippedThinkStart = true ∨ find d.thinkStartText x = none) ∧
      find d.thinkEndToken x = none ∧ d.findTool x = none) →
    d.parsePieces s (front ++ rest) = { d.parsePieces s rest with
      reasoningText := front.flatten ++ (d.parsePieces s rest).reasoningText }
  | [], rest, _ => rfl
  | piece :: front, rest, h => by
    obtain ⟨h1, h2, h3⟩ := h piece mem_cons_self
    have ih := parsePieces_front hd hs front rest fun x hx => h x (mem_cons_of_mem _ hx)
    have hcongr : ∀ ps, d.parsePieces { s with buffer := [] } ps = d.parsePieces s ps :=
      fun ps => parsePieces_congr hd (by rfl) (by rfl) ps
    rw [cons_append, parsePieces, decide_eq_release h1, release_quiet hd hs h2 h3]
    simp [hcongr, ih]

theorem parsePieces_singleton (d : ReasoningDetector) (s : DetectorState) (text : Text) :
    d.parsePieces s [text] = (d.decide s text).2 := by
  simp [parsePieces]

theorem drop_piece (a b c : Text) {k : ℕ} (h : k ≤ b.length) :
    (a ++ (b ++ c)).drop (a.length + k) = b.drop k ++ c := by
  simp [drop_append, Nat.sub_eq_zero_of_le h]

theorem take_piece (a b c : Text) {k : ℕ} (h : k ≤ b.length) :
    (a ++ (b ++ c)).take (a.length + k) = a ++ b.take k := by
  simp [take_append, Nat.sub_eq_zero_of_le h]

/-- **In a reasoning block**, pieces with an uncut end give the text of the whole. -/
theorem parsePieces_reasoning (hd : d.streamReasoning = true) (hs : s.inReasoning = true)
    (hstart : s.strippedThinkStart = true ∨ find d.thinkStartText ps.flatten = none)
    (h : d.EndUncut ps) :
    (d.parsePieces s ps).normalText = (d.parsePieces s [ps.flatten]).normalText ∧
    rstrip (d.parsePieces s ps).reasoningText = rstrip (d.parsePieces s [ps.flatten]).reasoningText ∧
    (find d.thinkEndToken ps.flatten = none →
      (d.parsePieces s ps).reasoningText = (d.parsePieces s [ps.flatten]).reasoningText) := by
  have hpiece : ∀ x, x <:+: ps.flatten → s.strippedThinkStart = true ∨ find d.thinkStartText x = none :=
    fun x hx => hstart.imp_right fun h => find_eq_none_of_isInfix h hx
  have hmem : ∀ x ∈ ps, x <:+: ps.flatten := fun x hx => infix_of_mem_flatten hx
  rw [parsePieces_singleton, decide_eq_release hstart]
  rcases h with ⟨he, ht⟩ | ⟨front, piece, rest, ⟨rfl, j, hj, hfind⟩, hfront⟩ |
    ⟨he, front, piece, rest, ⟨rfl, j, hj, hfind⟩, hfront⟩
  · -- nothing ends the reasoning
    have := parsePieces_front hd hs ps [] fun x hx => ⟨hpiece x (hmem x hx),
      find_eq_none_of_isInfix he (hmem x hx), findTool_eq_none_of_infix ht (hmem x hx)⟩
    rw [append_nil] at this
    rw [this, release_quiet hd hs he ht]
    simp [parsePieces]
  · -- the end tag does
    have hrest := parsePieces_normal (d := d) rest { s with buffer := [], inReasoning := false } rfl
      (hpiece _ (by
        exact ⟨front.flatten ++ piece, [], by simp⟩))
    have hle := find_add_le hj
    rw [parsePieces_front hd hs front (piece :: rest) fun x hx =>
      ⟨hpiece x (hmem x (mem_append_left _ hx)), hfront x hx⟩, parsePieces,
      decide_eq_release (hpiece piece (hmem piece (by simp))), release_end hs hj,
      release_end hs hfind]
    simp only [hrest, flatten_append, flatten_cons, append_nil]
    rw [Nat.add_assoc, drop_piece _ _ _ hle, take_piece _ _ _ (by omega)]
    refine ⟨rfl, (rstrip_append_rstrip _ _).trans (rstrip_rstrip _).symm, fun hnone => ?_⟩
    rw [flatten_append, flatten_cons] at hfind
    rw [hfind] at hnone
    cases hnone
  · -- the tool tag does
    have hrest := parsePieces_normal (d := d) rest { s with buffer := [], inReasoning := false } rfl
      (hpiece _ (by
        exact ⟨front.flatten ++ piece, [], by simp⟩))
    have hle := findTool_le hj
    rw [parsePieces_front hd hs front (piece :: rest) fun x hx =>
      ⟨hpiece x (hmem x (mem_append_left _ hx)),
        find_eq_none_of_isInfix he (hmem x (mem_append_left _ hx)), hfront x hx⟩, parsePieces,
      decide_eq_release (hpiece piece (hmem piece (by simp))),
      release_tool hs (find_eq_none_of_isInfix he (hmem piece (by simp))) hj, release_tool hs he hfind]
    simp only [hrest, flatten_append, flatten_cons, append_nil]
    rw [drop_piece _ _ _ hle, take_piece _ _ _ hle]
    exact ⟨rfl, rfl, fun _ => rfl⟩

/-! ## 6. The stream -/

theorem decide_nil (d : ReasoningDetector) (s : DetectorState) : (d.decide s []).2 = {} := by
  have hr : ∀ s : DetectorState, (d.release s []).2 = {} := by
    intro s
    unfold release
    split
    · split
      · simp [rstrip]
      · split
        · simp
        · split <;> rfl
    · rfl
  unfold decide
  split
  · exact hr _
  · split
    · simp only [removeStart, take_nil, drop_nil, append_nil]
      exact hr _
    · exact hr _

/-- A text that is not held is one piece. -/
theorem parseStream_singleton (hd : d.streamReasoning = true) (hs : s.buffer = [])
    (hheld : d.held text = false) : d.parseStream s [text] = d.parsePieces s [text] := by
  rw [parseStream_eq hd, hs]
  simp only [nil_append, hheld, pieces]
  rw [if_neg Bool.false_ne_true]

/-- A text that is held is not parsed, in one chunk or in several. -/
theorem parseStream_of_no_piece (hd : d.streamReasoning = true) (hs : s.buffer = [])
    (h : (d.pieces [] chunks).1 = []) :
    d.parseStream s chunks = {} ∧ d.parseStream s [chunks.flatten] = {} := by
  refine ⟨by rw [parseStream_eq hd, hs, h, parsePieces], ?_⟩
  cases hheld : d.held chunks.flatten with
  | true =>
    rw [parseStream_eq hd, hs, pieces_of_held [chunks.flatten] [] (by simpa using hheld), parsePieces]
  | false =>
    have hc : chunks = [] := by
      by_contra hc
      have := held_of_pieces_nil chunks [] hc h
      rw [nil_append, hheld] at this
      cases this
    rw [parseStream_singleton hd hs hheld, parsePieces_singleton, hc, flatten_nil, decide_nil]

/-- Uncut tags give the texts of one chunk. -/
theorem agree_of_uncut (hd : d.streamReasoning = true) (inReasoning : Bool) (chunks : List Text)
    (h : d.Uncut inReasoning chunks) : d.Agree chunks.flatten
      (d.parseStream ⟨[], false, inReasoning⟩ chunks)
      (d.parseStream ⟨[], false, inReasoning⟩ [chunks.flatten]) := by
  by_cases hps : (d.pieces [] chunks).1 = []
  · obtain ⟨h1, h2⟩ := parseStream_of_no_piece (s := ⟨[], false, inReasoning⟩) hd rfl hps
    rw [h1, h2]
    exact ⟨rfl, rfl, fun _ => rfl⟩
  · obtain ⟨hrest, h⟩ := h.resolve_left hps
    have hflat := pieces_flatten (d := d) chunks []
    rw [hrest, append_nil, nil_append] at hflat
    have hheld : d.held chunks.flatten = false := by
      by_contra hh
      exact hps (congrArg Prod.fst (pieces_of_held chunks [] (by simpa using hh)))
    rw [parseStream_singleton hd rfl hheld, parseStream_eq hd, ← hflat]
    generalize (d.pieces [] chunks).1 = ps at h
    rcases h with ⟨hnone, hend⟩ | ⟨front, piece, rest, i, rfl, hi, hfind, hfirst, hfront, hend⟩
    · have hremoved : d.startRemoved ps.flatten = ps.flatten := by rw [startRemoved, hnone]
      cases inReasoning with
      | true =>
        obtain ⟨h1, h2, h3⟩ := parsePieces_reasoning (s := ⟨[], false, true⟩) hd rfl (Or.inr hnone)
          (hend rfl)
        exact ⟨h1, h2, fun hno => h3 (hremoved ▸ hno)⟩
      | false =>
        have hone : [ps.flatten].flatten = ps.flatten := by simp
        have hall := parsePieces_normal (d := d) ps ⟨[], false, false⟩ rfl (Or.inr hnone)
        have hone' := parsePieces_normal (d := d) [ps.flatten] ⟨[], false, false⟩ rfl
          (Or.inr (hone.symm ▸ hnone))
        rw [hall, hone', hone]
        exact ⟨rfl, rfl, fun _ => rfl⟩
    · -- behind the start tag the pieces are parsed as if it had not been there
      have hle := find_add_le hi
      have hremoved : d.startRemoved (front ++ piece :: rest).flatten
          = (front ++ d.removeStart piece i :: rest).flatten := by
        rw [startRemoved, hfind]
        simp only [removeStart, flatten_append, flatten_cons]
        rw [Nat.add_assoc, drop_piece _ _ _ hle, take_piece _ _ _ (by omega)]
        simp
      have hstep : ∀ ps : List Text, d.parsePieces ⟨[], false, inReasoning⟩ (piece :: ps)
          = d.parsePieces ⟨[], true, true⟩ (d.removeStart piece i :: ps) := fun ps => by
        rw [parsePieces, parsePieces, decide_of_find rfl hi]
      have hwhole : d.parsePieces ⟨[], false, inReasoning⟩ [(front ++ piece :: rest).flatten]
          = d.parsePieces ⟨[], true, true⟩ [(front ++ d.removeStart piece i :: rest).flatten] := by
        rw [parsePieces_singleton, parsePieces_singleton, decide_of_find rfl hfind, ← hremoved,
          startRemoved, hfind]
      have hpieces : d.parsePieces ⟨[], false, inReasoning⟩ (front ++ piece :: rest)
          = d.parsePieces ⟨[], true, true⟩ (front ++ d.removeStart piece i :: rest) := by
        cases inReasoning with
        | false =>
          rw [hfirst rfl]
          exact hstep rest
        | true =>
          rw [parsePieces_front hd rfl front _ fun x hx => ⟨Or.inr (hfront x hx).1, (hfront x hx).2⟩,
            parsePieces_front hd rfl front _ fun x hx => ⟨Or.inl rfl, (hfront x hx).2⟩, hstep]
      obtain ⟨h1, h2, h3⟩ := parsePieces_reasoning (s := ⟨[], true, true⟩) hd rfl (Or.inl rfl) hend
      rw [hwhole, hpieces]
      exact ⟨h1, h2, fun hno => h3 (hremoved ▸ hno)⟩

/-! ## 7. Cut tags -/

/-- The text has no start tag, and the end tag is the only other: it does not begin with white space,
and does not stand in the start tag. -/
structure Plain (d : ReasoningDetector) (text : Text) : Prop where
  noStart : find d.thinkStartText text = none
  noTool : d.toolStartToken = none
  notSpace : ∃ c tail, d.thinkEndToken = c :: tail ∧ isSpace c = false
  apart : ¬ d.thinkEndToken <:+: d.thinkStartText

theorem held_of_pieces_snd : ∀ (chunks : List Text) (buffer : Text),
    buffer = [] ∨ d.held buffer = true →
    (d.pieces buffer chunks).2 = [] ∨ d.held (d.pieces buffer chunks).2 = true
  | [], _, h => h
  | chunk :: chunks, buffer, _ => by
    rw [pieces]
    split
    · rename_i hheld
      exact held_of_pieces_snd chunks _ (Or.inr hheld)
    · exact held_of_pieces_snd chunks [] (Or.inl rfl)

theorem Plain.not_held (h : d.Plain text) {l : Text} (he : d.thinkEndToken <:+: l) :
    d.held l = false := by
  by_contra hh
  rw [Bool.not_eq_false, held_iff] at hh
  obtain ⟨token, hmem, hpre, hne⟩ := hh
  simp only [tokensToCheck, h.noTool, append_nil, mem_cons, not_mem_nil, or_false] at hmem
  rcases hmem with rfl | rfl
  · exact h.apart (he.trans hpre.isInfix)
  · exact hne (hpre.eq_of_length_le (he.length_le)).symm

theorem length_rstrip_append (a : Text) {c : Char} (hc : isSpace c = false) (b : Text) :
    a.length + 1 ≤ (rstrip (a ++ c :: b)).length := by
  have hpre : a ++ [c] <+: rstrip (a ++ c :: b) := by
    have hsplit : a ++ c :: b = (a ++ [c]) ++ b := by simp
    rw [hsplit, rstrip, List.rdropWhile, reverse_append, dropWhile_append]
    split
    · rw [reverse_append, reverse_singleton, singleton_append, dropWhile_cons_of_neg (by simp [hc])]
      simp
    · simp
  simpa using hpre.length_le

theorem length_rstrip_le (a : Text) : (rstrip a).length ≤ a.length :=
  (List.rdropWhile_prefix isSpace (l := a)).length_le

/-- **Without a start tag** the texts agree only if nothing is cut. -/
theorem uncut_of_agree (hd : d.streamReasoning = true) (inReasoning : Bool) (chunks : List Text)
    (hplain : d.Plain chunks.flatten) (h : d.Agree chunks.flatten
      (d.parseStream ⟨[], false, inReasoning⟩ chunks)
      (d.parseStream ⟨[], false, inReasoning⟩ [chunks.flatten])) : d.Uncut inReasoning chunks := by
  refine or_iff_not_imp_left.mpr fun hps => ?_
  have hflat := pieces_flatten (d := d) chunks []
  have hsnd := held_of_pieces_snd (d := d) chunks [] (Or.inl rfl)
  rw [nil_append] at hflat
  have hheld : d.held chunks.flatten = false := by
    by_contra hh
    exact hps (congrArg Prod.fst (pieces_of_held chunks [] (by simpa using hh)))
  have htool : ∀ x, d.findTool x = none := fun x => by rw [findTool, hplain.noTool]
  have hremoved : d.startRemoved chunks.flatten = chunks.flatten := by
    rw [startRemoved, hplain.noStart]
  rw [parseStream_singleton hd rfl hheld, parsePieces_singleton,
    decide_eq_release (Or.inr hplain.noStart), parseStream_eq hd] at h
  generalize (d.pieces [] chunks).1 = ps at *
  generalize (d.pieces [] chunks).2 = rest at *
  have hnoStart : ∀ x, x <:+: ps.flatten → find d.thinkStartText x = none := fun x hx =>
    find_eq_none_of_isInfix hplain.noStart (hx.trans ⟨[], rest, by simpa using hflat⟩)
  have hrest : ∀ {n : Text}, n ++ rest = n → rest = [] := fun hn => by simpa using hn
  cases inReasoning with
  | false =>
    have hn := h.normalText
    rw [parsePieces_normal ps _ rfl (Or.inr (hnoStart _ (infix_refl _)))] at hn
    exact ⟨hrest (hflat.trans hn.symm), Or.inl ⟨hnoStart _ (infix_refl _), fun e => by cases e⟩⟩
  | true =>
    have hfront : ∀ front back : List Text, ps = front ++ back →
        (∀ x ∈ front, find d.thinkEndToken x = none) →
        d.parsePieces ⟨[], false, true⟩ ps = { d.parsePieces ⟨[], false, true⟩ back with
          reasoningText := front.flatten ++ (d.parsePieces ⟨[], false, true⟩ back).reasoningText } := by
      rintro front back rfl hx
      refine parsePieces_front hd rfl front back fun x hmem => ⟨Or.inr (hnoStart x ?_), hx x hmem, htool x⟩
      exact infix_of_mem_flatten (mem_append_left _ hmem)
    suffices hmain : rest = [] ∧ d.EndUncut ps from
      ⟨hmain.1, Or.inl ⟨hnoStart _ (infix_refl _), fun _ => hmain.2⟩⟩
    cases hfind : find d.thinkEndToken chunks.flatten with
    | none =>
      -- no end tag: everything is reasoning text
      have hno : ∀ x, x <:+: ps.flatten → find d.thinkEndToken x = none := fun x hx =>
        find_eq_none_of_isInfix hfind (hx.trans ⟨[], rest, by simpa using hflat⟩)
      have hr := h.unended (hremoved.symm ▸ hfind)
      rw [hfront ps [] (by simp) fun x hx => hno x (infix_of_mem_flatten hx),
        release_quiet hd rfl hfind (htool _)] at hr
      simp only [parsePieces, append_nil] at hr
      exact ⟨hrest (hflat.trans hr.symm), Or.inl ⟨hno _ (infix_refl _), htool _⟩⟩
    | some i =>
      rw [release_end rfl hfind] at h
      have hlen := congrArg List.length hflat
      rw [length_append] at hlen
      cases hpiece : ps.find? (fun x => (find d.thinkEndToken x).isSome) with
      | some piece =>
        -- the first piece with the end tag ends the reasoning; an earlier end leaves more normal text
        obtain ⟨hsome, front, back, rfl, hbefore⟩ := find?_eq_some_iff_append.mp hpiece
        obtain ⟨j, hj⟩ := Option.isSome_iff_exists.mp hsome
        have hquiet : ∀ x ∈ front, find d.thinkEndToken x = none := fun x hx => by
          simpa using hbefore x hx
        have hpre : piece <:+: (front ++ piece :: back).flatten := infix_of_mem_flatten (by simp)
        have hback := parsePieces_normal (d := d) back ⟨[], false, false⟩ rfl (Or.inr (hnoStart _ (by
          exact ⟨front.flatten ++ piece, [], by simp⟩)))
        have hn := h.normalText
        rw [hfront front (piece :: back) rfl hquiet, parsePieces,
          decide_eq_release (Or.inr (hnoStart piece hpre)), release_end rfl hj] at hn
        simp only [hback] at hn
        have hn := congrArg List.length hn
        have hle := find_add_le hj
        obtain ⟨u, v, hsplit, rfl⟩ := exists_of_find hj
        have hi : i ≤ front.flatten.length + u.length := by
          have hwhole : chunks.flatten
              = (front.flatten ++ u) ++ d.thinkEndToken ++ (v ++ back.flatten ++ rest) := by
            rw [← hflat, flatten_append, hsplit]
            simp
          rw [hwhole] at hfind
          have := find_le hfind
          rwa [length_append] at this
        simp only [flatten_append, flatten_cons, length_append, length_drop] at hn hlen
        have hnil : rest = [] := length_eq_zero_iff.mp (by omega)
        subst hnil
        rw [append_nil] at hflat
        refine ⟨rfl, Or.inr (Or.inl ⟨front, piece, back, ⟨rfl, u.length, hj, ?_⟩, fun x hx =>
          ⟨hquiet x hx, htool x⟩⟩)⟩
        rw [hflat, hfind]
        congr 1
        omega
      | none =>
        -- the end tag is cut: its first character is reasoning text, or all of it is held
        have hquiet : ∀ x ∈ ps, find d.thinkEndToken x = none := fun x hx => by
          simpa using find?_eq_none.mp hpiece x hx
        have hn := h.normalText
        have hr := h.reasoningText
        rw [hfront ps [] (by simp) hquiet] at hn hr
        simp only [parsePieces, append_nil] at hn hr
        obtain ⟨c, tail, hend, hc⟩ := hplain.notSpace
        obtain ⟨u, v, hsplit, rfl⟩ := exists_of_find hfind
        have hv : v = [] := by
          rw [hsplit, ← length_append, drop_left] at hn
          exact hn.symm
        rw [hv, append_nil] at hsplit
        have htake : chunks.flatten.take u.length = u := by rw [hsplit, take_left]
        rw [htake, rstrip_rstrip] at hr
        rcases Nat.lt_or_ge u.length ps.flatten.length with hlt | hge
        · have hpre : u ++ [c] <+: ps.flatten := by
            have hhead : u ++ [c] <+: chunks.flatten := ⟨tail, by rw [hsplit, hend]; simp⟩
            exact prefix_of_prefix_length_le hhead ⟨rest, hflat⟩ (by rw [length_append]; exact hlt)
          obtain ⟨b, hb⟩ := hpre
          have h1 := length_rstrip_append u hc b
          have h2 := length_rstrip_le u
          rw [← hb, append_assoc, singleton_append] at hr
          have h3 := congrArg List.length hr
          omega
        · have hsuffix : d.thinkEndToken <:+ rest := by
            have htail : d.thinkEndToken <:+ chunks.flatten := ⟨u, hsplit.symm⟩
            refine suffix_of_suffix_length_le htail ⟨ps.flatten, hflat⟩ ?_
            rw [hsplit, length_append] at hlen
            omega
          rcases hsnd with hnil | hheld'
          · rw [hnil, hend] at hsuffix
            exact absurd hsuffix.length_le (by simp)
          · rw [hplain.not_held hsuffix.isInfix] at hheld'
            cases hheld'

/-- **Reasoning text does not depend on how the stream is cut**, as long as no tag that matters is: the
chunks give the texts of one chunk, up to the white space stripped in front of the end tag.  For texts
without a start tag this is exact. -/
theorem parseStream_agree (hd : d.streamReasoning = true) (inReasoning : Bool) (chunks : List Text) :
    (d.Uncut inReasoning chunks → d.Agree chunks.flatten
      (d.parseStream ⟨[], false, inReasoning⟩ chunks)
      (d.parseStream ⟨[], false, inReasoning⟩ [chunks.flatten])) ∧
    (d.Plain chunks.flatten → d.Agree chunks.flatten
      (d.parseStream ⟨[], false, inReasoning⟩ chunks)
      (d.parseStream ⟨[], false, inReasoning⟩ [chunks.flatten]) → d.Uncut inReasoning chunks) :=
  ⟨agree_of_uncut hd inReasoning chunks, uncut_of_agree hd inReasoning chunks⟩

/-- The tags of most detectors. -/
def thinkDetector : ReasoningDetector where
  thinkStartToken := "<think>".toList
  thinkEndToken := "</think>".toList
  thinkStartSelfLabel := []
  toolStartToken := none
  streamReasoning := true

/-- Both tags whole, the end tag in the second chunk. -/
theorem parseStream_agree_small : thinkDetector.Agree "<think>ab</think>c".toList
    (thinkDetector.parseStream ⟨[], false, false⟩ ["<think>a".toList, "b</think>c".toList])
    (thinkDetector.parseStream ⟨[], false, false⟩ ["<think>ab</think>c".toList]) := by
  refine (parseStream_agree rfl false ["<think>a".toList, "b</think>c".toList]).1 ?_
  refine Or.inr ⟨by decide, Or.inr ⟨[], "<think>a".toList, ["b</think>c".toList], 0, by decide,
    by decide, by decide, fun _ => rfl, by simp, Or.inr (Or.inl ?_)⟩⟩
  exact ⟨["a".toList], "b</think>c".toList, [], ⟨by decide, 1, by decide, by decide⟩, by decide⟩

/-- An end tag that is cut behind other text is not seen. -/
theorem parseStream_misses_end :
    ¬ thinkDetector.Agree "a</think>b".toList
      (thinkDetector.parseStream ⟨[], false, true⟩ ["a</th".toList, "ink>b".toList])
      (thinkDetector.parseStream ⟨[], false, true⟩ ["a</think>b".toList]) := by
  intro h
  exact absurd h.normalText (by decide)

end ReasoningDetector

end Sglang
