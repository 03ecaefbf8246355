/-
# The machine of the GLM-4 MoE stream

What the machine writes for the arguments of a tool call (`feed_arguments`): a brace or a comma, the key,
and the text of the value (`valueText`), which is the raw text unless its type is that of a string.  The
machine holds back the beginning of a closing tag, and lets it go together with the character that does
not continue it (`held`); a value that ends in such a beginning therefore hides its own closing tag.
-/
import Sglang.Lib.Tags
import Sglang.FunctionCall.Glm4Moe

namespace Sglang

open Lib List

namespace FunctionCall

namespace Glm4Moe

/-! ## 1. Tags -/

def allTags : List Text :=
  [botToken, eotToken, argKeyToken, argKeyEnd, argValueToken, argValueEnd]

theorem glmTags : Tags '<' allTags where
  head := by
    have h : ∀ tag ∈ allTags, tag = '<' :: tag.tail ∧ '<' ∉ tag.tail ∧ tag.tail ≠ [] := by decide
    exact fun tag ht => ⟨tag.tail, h tag ht⟩
  incomparable := by decide

/-- A text in which no tag stands. -/
abbrev PlainText (text : Text) : Prop := TagFree allTags text

variable {tag u : Text}

/-- A tag does not end before its last character. -/
theorem not_infix_dropLast (ht : tag ∈ allTags) (hu : ¬ tag <:+: u) :
    ¬ tag <:+: u ++ tag.dropLast := by
  rintro ⟨s, t, hst⟩
  have hlast : tag.dropLast ++ [tag.getLast (glmTags.ne_nil ht)] = tag := dropLast_append_getLast _
  have hlen := congrArg List.length hst
  have hpos : 0 < tag.length := length_pos_iff.mpr (glmTags.ne_nil ht)
  have hfind := glmTags.find_append ht hu []
  have hsplit : u ++ (tag ++ []) = s ++ tag ++ (t ++ [tag.getLast (glmTags.ne_nil ht)]) := by
    rw [append_nil, ← append_assoc, hst, append_assoc, hlast]
  rw [hsplit] at hfind
  have hle := find_le hfind
  simp only [length_append, length_dropLast] at hlen
  omega

/-! ## 2. Feeding -/

section

variable {py : Python} {funcName : Text} {tools : List Tool}

/-- Feeding the text leads from one machine to the other and writes the output. -/
def Writes (py : Python) (funcName : Text) (tools : List Tool) (m : Machine) (text : Text)
    (m' : Machine) (output : Text) : Prop :=
  m.feed py funcName tools text = (m', some output)

theorem feed_append (m : Machine) (u v : Text) : m.feed py funcName tools (u ++ v) =
    match m.feed py funcName tools u with
    | (m', none) => (m', none)
    | (m', some output) =>
      ((m'.feed py funcName tools v).1, (m'.feed py funcName tools v).2.map (output ++ ·)) := by
  induction u generalizing m with
  | nil =>
    rw [Machine.feed]
    simp
  | cons c u ih =>
    rw [cons_append, Machine.feed, Machine.feed]
    rcases m.step py funcName tools c with ⟨m₁, _ | o⟩
    · rfl
    · dsimp only
      rw [ih]
      rcases m₁.feed py funcName tools u with ⟨m₂, _ | o₂⟩
      · rfl
      · dsimp only [Option.map_some]
        simp [Function.comp_def]

variable {m m' m'' : Machine} {v o : Text}

theorem Writes.append {o' : Text} (h : Writes py funcName tools m u m' o)
    (h' : Writes py funcName tools m' v m'' o') :
    Writes py funcName tools m (u ++ v) m'' (o ++ o') := by
  rw [Writes, feed_append, h]
  dsimp only
  rw [h']
  rfl

/-- The first part of a text that is read. -/
theorem Writes.split (h : Writes py funcName tools m (u ++ v) m'' o) :
    ∃ m' o₁ o₂, Writes py funcName tools m u m' o₁ ∧ Writes py funcName tools m' v m'' o₂ ∧
      o = o₁ ++ o₂ := by
  rw [Writes, feed_append] at h
  rcases hu : m.feed py funcName tools u with ⟨m', _ | o₁⟩
  · rw [hu] at h
    cases h
  · rw [hu] at h
    dsimp only at h
    rcases hv : m'.feed py funcName tools v with ⟨m₂, _ | o₂⟩
    · rw [hv] at h
      cases h
    · rw [hv] at h
      cases h
      exact ⟨m', o₁, o₂, hu, hv, rfl⟩

/-- The tag that the machine waits for, outside of a value. -/
def Machine.awaits (m : Machine) : Option Text :=
  match m.streamState with
  | .init | .between => some argKeyToken
  | .inKey => some argKeyEnd
  | .waitingValue => some argValueToken
  | .inValue => none

theorem Machine.feed_awaits (py : Python) (funcName : Text) (tools : List Tool) : ∀ {u : Text}
    {m : Machine}, m.awaits = some tag →
    ¬ tag <:+: m.xmlTagBuffer ++ u →
    Writes py funcName tools m u { m with xmlTagBuffer := m.xmlTagBuffer ++ u } []
  | [], m, _, _ => by
    rw [append_nil]
    rfl
  | c :: u, m, hm, hu => by
    have hsplit : m.xmlTagBuffer ++ c :: u = m.xmlTagBuffer ++ [c] ++ u := by simp
    have hno : ¬ tag <:+ m.xmlTagBuffer ++ [c] := fun h => hu (by
      rw [hsplit]
      exact h.isInfix.trans (prefix_append _ u).isInfix)
    have hstep : m.step py funcName tools c
        = ({ m with xmlTagBuffer := m.xmlTagBuffer ++ [c] }, some []) := by
      rw [Machine.awaits] at hm
      rw [Machine.step]
      rcases hs : m.streamState with _ | _ | _ | _ | _
      all_goals
        rw [hs] at hm
        cases hm
      all_goals exact if_neg hno
    have hrest : Writes py funcName tools { m with xmlTagBuffer := m.xmlTagBuffer ++ [c] } u
        { m with xmlTagBuffer := m.xmlTagBuffer ++ [c] ++ u } [] :=
      Machine.feed_awaits py funcName tools hm (by rwa [hsplit] at hu)
    rw [Writes] at hrest ⊢
    rw [Machine.feed, hstep]
    dsimp only
    rw [hrest, hsplit]
    rfl

theorem Machine.feed_tag (ht : tag ∈ allTags)
    (hm : m.awaits = some tag) (hbuffer : m.xmlTagBuffer = []) (hu : ¬ tag <:+: u)
    (hstep : ∀ c, tag = tag.dropLast ++ [c] →
      ({ m with xmlTagBuffer := u ++ tag.dropLast } : Machine).step py funcName tools c
        = (m', some o)) :
    Writes py funcName tools m (u ++ tag) m' o := by
  have hlast : tag.dropLast ++ [tag.getLast (glmTags.ne_nil ht)] = tag := dropLast_append_getLast _
  have hread : Writes py funcName tools m (u ++ tag.dropLast)
      { m with xmlTagBuffer := m.xmlTagBuffer ++ (u ++ tag.dropLast) } [] :=
    Machine.feed_awaits py funcName tools hm (by rw [hbuffer]; exact not_infix_dropLast ht hu)
  rw [hbuffer] at hread
  have hend : Writes py funcName tools { m with xmlTagBuffer := u ++ tag.dropLast }
      [tag.getLast (glmTags.ne_nil ht)] m' o := by
    rw [Writes, Machine.feed, hstep _ hlast.symm]
    simp [Machine.feed]
  have h := hread.append hend
  rwa [append_assoc, hlast] at h

/-! ## 3. Values -/

/-- The next character goes on with the beginning of a closing tag, or lets it go. -/
def hold (b : Text) (c : Char) : Text := if b ++ [c] <+: argValueEnd then b ++ [c] else []

/-- What the machine holds back of a value. -/
def held (value : Text) : Text := value.foldl hold []

theorem held_append_singleton (value : Text) (c : Char) :
    held (value ++ [c]) = hold (held value) c := by
  rw [held, foldl_append]
  rfl

/-- What has been sent of a value that goes on. -/
def shown (valueType : Json) (sent : Text) : Text :=
  if sent = [] then []
  else if isStr "string" valueType then "\"".toList ++ escaped sent else sent

/-- The text of a value. -/
def valueText (py : Python) (valueType : Json) (value : Text) : Text :=
  if value = [] then formatValueComplete py [] valueType
  else if isStr "string" valueType then Json.dumpsStr false value else value

theorem escaped_append (u v : Text) : escaped (u ++ v) = escaped u ++ escaped v :=
  flatMap_append

theorem shown_append (valueType : Json) (sent : Text) {content : Text} (h : content ≠ []) :
    shown valueType (sent ++ content) = shown valueType sent ++ (if isStr "string" valueType then
        (if decide (sent ≠ []) then [] else "\"".toList) ++ escaped content
      else content) := by
  have hne : sent ++ content ≠ [] := fun hnil => h (append_eq_nil_iff.mp hnil).2
  rw [shown, if_neg hne, shown]
  by_cases hs : sent = []
  · simp [hs]
  · rw [if_neg hs]
    split
    · simp [escaped_append, hs]
    · rfl

/-- The machine behind `<arg_value>`. -/
structure Machine.AtValue (m : Machine) : Prop where
  state : m.streamState = .inValue
  buffer : m.xmlTagBuffer = []
  value : m.currentValue = []
  started : m.valueStarted = false

/-- **A value is sent as far as it is not held back.** -/
theorem Machine.feed_value (hm : m.AtValue) {value : Text}
    (hvalue : ¬ argValueEnd <:+: value) : ∃ sent, value = sent ++ held value ∧
      Writes py funcName tools m value
        { m with
          xmlTagBuffer := held value
          valueStarted := decide (sent ≠ [])
          currentValue := sent } (shown m.valueType sent) := by
  induction value using List.reverseRecOn with
  | nil =>
    refine ⟨[], rfl, ?_⟩
    obtain ⟨streamState, currentKey, currentValue, xmlTagBuffer, isFirstParam, valueStarted, cached⟩ := m
    obtain ⟨rfl, rfl, rfl, rfl⟩ := hm
    rfl
  | append_singleton value c ih =>
    obtain ⟨sent, hsplit, hread⟩ := ih fun h => hvalue (h.trans (prefix_append _ _).isInfix)
    have hno : ¬ argValueEnd <:+ held value ++ [c] := fun h => hvalue (by
      rw [hsplit, append_assoc]
      exact (h.trans (suffix_append sent _)).isInfix)
    rw [held_append_singleton, hold]
    by_cases hp : held value ++ [c] <+: argValueEnd
    · have hlen := hp.length_le
      rw [if_pos hp]
      refine ⟨sent, by rw [← append_assoc, ← hsplit], ?_⟩
      have hstep : Writes py funcName tools
          { m with
            xmlTagBuffer := held value
            valueStarted := decide (sent ≠ [])
            currentValue := sent } [c]
          { m with
            xmlTagBuffer := held value ++ [c]
            valueStarted := decide (sent ≠ [])
            currentValue := sent } [] := by
        rw [Writes, Machine.feed, Machine.step]
        simp only [hm.state]
        rw [if_neg hno, if_pos ⟨hlen, hp⟩]
        rfl
      have h := hread.append hstep
      rwa [append_nil] at h
    · rw [if_neg hp]
      refine ⟨value ++ [c], (append_nil _).symm, ?_⟩
      have hwhole : sent ++ (held value ++ [c]) = value ++ [c] := by
        rw [← append_assoc, ← hsplit]
      have hne : held value ++ [c] ≠ [] := by simp
      have hstep : Writes py funcName tools
          { m with
            xmlTagBuffer := held value
            valueStarted := decide (sent ≠ [])
            currentValue := sent } [c]
          { m with
            xmlTagBuffer := []
            valueStarted := true
            currentValue := sent ++ (held value ++ [c]) }
          (if isStr "string" m.valueType then
            (if decide (sent ≠ []) then [] else "\"".toList) ++ escaped (held value ++ [c])
          else held value ++ [c]) := by
        rw [Writes, Machine.feed, Machine.step]
        simp only [hm.state]
        rw [if_neg hno, if_neg fun h => hp h.2]
        simp [Machine.feed, Machine.content, Machine.valueType]
      have h := hread.append hstep
      rw [← shown_append m.valueType sent hne, hwhole] at h
      simpa using h

/-- The closing tag of a value that has been sent. -/
theorem Machine.closeValue_nil (py : Python) (m : Machine) : m.closeValue py [] = ({ m with
        xmlTagBuffer := []
        streamState := .between
        currentValue := []
        valueStarted := false
        cachedValueType := none },
      if m.valueStarted then (if isStr "string" m.valueType then "\"".toList else [])
      else formatValueComplete py m.currentValue m.valueType) := by
  rw [Machine.closeValue, if_pos rfl, nil_append, append_nil]

/-- **A value and its closing tag**, if nothing of the value is held back. -/
theorem Machine.feed_closeValue (py : Python) (funcName : Text) (tools : List Tool) (hm : m.AtValue)
    {value : Text}
    (hvalue : ¬ argValueEnd <:+: value) (hheld : held value = []) :
    Writes py funcName tools m (value ++ argValueEnd)
      { m with
        streamState := .between
        currentValue := []
        xmlTagBuffer := []
        valueStarted := false
        cachedValueType := none } (valueText py m.valueType value) := by
  have hmem : argValueEnd ∈ allTags := by decide
  have hbegin : held (value ++ argValueEnd.dropLast) = argValueEnd.dropLast := by
    rw [held, foldl_append]
    rw [held] at hheld
    rw [hheld]
    decide
  obtain ⟨sent, hsplit, hread⟩ : ∃ sent, value ++ argValueEnd.dropLast
        = sent ++ held (value ++ argValueEnd.dropLast) ∧
      Writes py funcName tools m (value ++ argValueEnd.dropLast)
        { m with
          xmlTagBuffer := held (value ++ argValueEnd.dropLast)
          valueStarted := decide (sent ≠ [])
          currentValue := sent } (shown m.valueType sent) :=
    Machine.feed_value hm (not_infix_dropLast hmem hvalue)
  rw [hbegin] at hsplit hread
  obtain rfl : value = sent := append_cancel_right hsplit
  have hlast : argValueEnd.dropLast ++ ['>'] = argValueEnd := by decide
  have htake : argValueEnd.take (argValueEnd.length - argValueEnd.length) = [] := rfl
  have hclose : Writes py funcName tools
      { m with
        xmlTagBuffer := argValueEnd.dropLast
        valueStarted := decide (value ≠ [])
        currentValue := value } ['>']
      { m with
        streamState := .between
        currentValue := []
        xmlTagBuffer := []
        valueStarted := false
        cachedValueType := none }
      (if decide (value ≠ []) then (if isStr "string" m.valueType then "\"".toList else [])
        else formatValueComplete py value m.valueType) := by
    rw [Writes, Machine.feed, Machine.step]
    simp only [hm.state, hlast, suffix_rfl, if_true, htake]
    rw [Machine.closeValue_nil]
    exact congrArg (Prod.mk _) (congrArg some (append_nil _))
  have h := hread.append hclose
  rw [append_assoc] at h
  have htext : shown m.valueType value ++
      (if decide (value ≠ []) then (if isStr "string" m.valueType then "\"".toList else [])
        else formatValueComplete py value m.valueType) = valueText py m.valueType value := by
    rw [shown, valueText]
    by_cases hnil : value = []
    · simp [hnil]
    · by_cases hs : isStr "string" m.valueType = true
      · simp [hnil, hs, Json.dumpsStr, escaped]
      · simp [hnil, hs]
  rwa [htext] at h

/-! ## 4. Arguments -/

/-- A complete argument, with the text in front of it. -/
structure PairText where
  lead : Text
  key : Text
  gap : Text
  value : Text
  lead_free : PlainText lead
  key_free : PlainText key
  gap_skipped : skipGap gap = []
  value_free : PlainText value

namespace PairText

def render (p : PairText) : Text :=
  p.lead ++ argKeyToken ++ (p.key ++ argKeyEnd ++ (p.gap ++ argValueToken ++ (p.value ++ argValueEnd)))

/-- `arg_key.strip()`. -/
def name (p : PairText) : Text := strip p.key

/-- The type that the stream gives to the value. -/
def valueType (funcName : Text) (tools : List Tool) (p : PairText) : Option Json :=
  getValueType funcName p.name tools

/-- What the stream sends for the value. -/
def text (py : Python) (funcName : Text) (tools : List Tool) (p : PairText) : Text :=
  valueText py ((p.valueType funcName tools).getD (.str "string".toList)) p.value

end PairText

/-- The text that stands in a gap opens nothing. -/
theorem notMem_of_skipGap : ∀ {gap : Text}, skipGap gap = [] → '<' ∉ gap
  | [], _ => not_mem_nil
  | c :: gap, h => by
    rw [skipGap.eq_def] at h
    dsimp only at h
    split at h
    · rename_i hc
      split at h
      · rename_i gap
        have := notMem_of_skipGap h
        subst hc
        simpa using this
      · cases h
    · split at h
      · rename_i hspace
        have hc : '<' ≠ c := fun heq => by
          subst heq
          cases hspace
        exact fun hmem => (mem_cons.mp hmem).elim hc (notMem_of_skipGap h)
      · cases h

/-- The machine between two arguments. -/
structure Machine.Between (m : Machine) : Prop where
  awaits : m.awaits = some argKeyToken
  buffer : m.xmlTagBuffer = []

/-- **An argument writes its member**, if nothing of its value is held back. -/
theorem Machine.feed_pair (py : Python) (hm : m.Between) {p : PairText} {valueType : Json}
    (htype : p.valueType funcName tools = some valueType) (hheld : held p.value = []) :
    ∃ m' : Machine, Writes py funcName tools m p.render m'
        ((if m.isFirstParam then "\x7b".toList else ", ".toList) ++
          ((Json.dumpsStr false p.name ++ ": ".toList) ++ p.text py funcName tools)) ∧
      m'.Between ∧ m'.isFirstParam = false := by
  have hopen : Writes py funcName tools m (p.lead ++ argKeyToken)
      { m with
        streamState := .inKey
        currentKey := []
        xmlTagBuffer := []
        isFirstParam := false } (if m.isFirstParam then "\x7b".toList else ", ".toList) := by
    refine Machine.feed_tag (by decide) hm.awaits hm.buffer (p.lead_free _ (by decide)) fun c hc => ?_
    have hend : argKeyToken <:+ p.lead ++ argKeyToken.dropLast ++ [c] := by
      rw [append_assoc, ← hc]
      exact suffix_append _ _
    have hm := hm.awaits
    rw [Machine.awaits] at hm
    rw [Machine.step]
    split
    · exact if_pos hend
    · exact if_pos hend
    all_goals
      rename_i hstate
      rw [hstate] at hm
      cases hm
  have hkey : Writes py funcName tools
      { m with
        streamState := .inKey
        currentKey := []
        xmlTagBuffer := []
        isFirstParam := false } (p.key ++ argKeyEnd)
      { m with
        streamState := .waitingValue
        currentKey := p.name
        xmlTagBuffer := []
        isFirstParam := false } (Json.dumpsStr false p.name ++ ": ".toList) := by
    refine Machine.feed_tag (by decide) rfl rfl (p.key_free _ (by decide)) fun c hc => ?_
    have hbuffer : p.key ++ argKeyEnd.dropLast ++ [c] = p.key ++ argKeyEnd := by
      rw [append_assoc, ← hc]
    rw [Machine.step]
    rw [hbuffer, if_pos (suffix_append _ _), length_append, Nat.add_sub_cancel, take_left]
    rfl
  have hgap : Writes py funcName tools
      { m with
        streamState := .waitingValue
        currentKey := p.name
        xmlTagBuffer := []
        isFirstParam := false } (p.gap ++ argValueToken)
      { m with
        streamState := .inValue
        currentKey := p.name
        currentValue := []
        xmlTagBuffer := []
        isFirstParam := false
        valueStarted := false
        cachedValueType := some valueType } [] := by
    refine Machine.feed_tag (by decide) rfl rfl (fun h => ?_) fun c hc => ?_
    · exact notMem_of_skipGap p.gap_skipped (h.subset (by decide))
    · have hend : argValueToken <:+ p.gap ++ argValueToken.dropLast ++ [c] := by
        rw [append_assoc, ← hc]
        exact suffix_append _ _
      rw [PairText.valueType] at htype
      rw [Machine.step]
      dsimp only
      rw [if_pos hend, htype]
  have hvalue := Machine.feed_closeValue py funcName tools (m := { m with
      streamState := .inValue
      currentKey := p.name
      currentValue := []
      xmlTagBuffer := []
      isFirstParam := false
      valueStarted := false
      cachedValueType := some valueType }) ⟨rfl, rfl, rfl, rfl⟩ (p.value_free _ (by decide)) hheld
  have htext : p.text py funcName tools = valueText py valueType p.value := by
    rw [PairText.text, htype]
    rfl
  have hall := hopen.append (hkey.append (hgap.append hvalue))
  rw [htext]
  exact ⟨{ m with
      streamState := .between
      currentKey := p.name
      currentValue := []
      xmlTagBuffer := []
      isFirstParam := false
      valueStarted := false
      cachedValueType := none }, hall, ⟨rfl, rfl⟩, rfl⟩

/-- The members of arguments, with what stands in front of them. -/
def membersText (py : Python) (funcName : Text) (tools : List Tool) (isFirstParam : Bool)
    (ps : List PairText) : Text :=
  if ps = [] then []
  else (if isFirstParam then "\x7b".toList else ", ".toList) ++
    Json.assemble false (ps.map fun p => (p.name, p.text py funcName tools))

/-- **Arguments write their members.** -/
theorem Machine.feed_pairs (py : Python) : ∀ {ps : List PairText} {m : Machine}, m.Between →
    (∀ p ∈ ps, (p.valueType funcName tools).isSome ∧ held p.value = []) →
    ∃ m' : Machine, Writes py funcName tools m (ps.flatMap (·.render)) m'
        (membersText py funcName tools m.isFirstParam ps) ∧
      m'.Between ∧ m'.isFirstParam = (m.isFirstParam && ps.isEmpty)
  | [], m, hm, _ => ⟨m, rfl, hm, (Bool.and_true _).symm⟩
  | p :: ps, m, hm, h => by
    obtain ⟨hsome, hheld⟩ := h p mem_cons_self
    obtain ⟨valueType, htype⟩ := Option.isSome_iff_exists.mp hsome
    obtain ⟨m₁, h₁, hm₁, hfirst₁⟩ := Machine.feed_pair py hm htype hheld
    obtain ⟨m₂, h₂, hm₂, hfirst₂⟩ :=
      Machine.feed_pairs py hm₁ fun q hq => h q (mem_cons_of_mem _ hq)
    refine ⟨m₂, ?_, hm₂, ?_⟩
    · have htext : membersText py funcName tools m.isFirstParam (p :: ps)
          = (if m.isFirstParam then "\x7b".toList else ", ".toList) ++
            ((Json.dumpsStr false p.name ++ ": ".toList) ++ p.text py funcName tools) ++
            membersText py funcName tools m₁.isFirstParam ps := by
        rw [hfirst₁, membersText, membersText, map_cons, Json.assemble]
        by_cases hnil : ps = []
        · simp [hnil]
        · simp [hnil]
      rw [htext]
      exact h₁.append h₂
    · rw [hfirst₂, hfirst₁]
      simp

end

end Glm4Moe

end FunctionCall

end Sglang
