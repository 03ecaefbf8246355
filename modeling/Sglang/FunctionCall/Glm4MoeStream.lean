/-
# The stream of GLM-4 MoE

What the stream sends for the tool calls of a well-formed text (`parseStream_streamed`).  Each increment
looks at the whole buffer again: the first one that shows the line of a tool call sends its name, each
later one feeds the machine with what is new of the stripped arguments, and the one that shows the end
token sends the closing brace.  An increment does only one of the two things, so a tool call takes at
least two of them (`keepsUp`).
-/
import Sglang.FunctionCall.Glm4MoeText

namespace Sglang

open Lib List Option

namespace FunctionCall

namespace Glm4Moe

/-! ## 1. Stripped texts -/

variable {α : Type}

theorem dropWhile_isPrefix (p : α → Bool) : ∀ {u v : List α}, u <+: v →
    u.dropWhile p <+: v.dropWhile p
  | [], _, _ => nil_prefix
  | c :: u, v, h => by
    obtain ⟨w, rfl⟩ := h
    rw [cons_append, dropWhile_cons, dropWhile_cons]
    split
    · exact dropWhile_isPrefix p (prefix_append u w)
    · exact prefix_append (c :: u) w

theorem dropWhile_append_cons {p : α → Bool} {c : α} (hc : p c = false) :
    ∀ u v : List α, (u ++ c :: v).dropWhile p = u.dropWhile p ++ c :: v
  | [], v => dropWhile_cons_of_neg (by simp [hc])
  | d :: u, v => by
    rw [cons_append, dropWhile_cons, dropWhile_cons]
    split
    · exact dropWhile_append_cons hc u v
    · rfl

variable {v : Text}

theorem strip_isPrefix {u : Text} (h : u <+: v) : strip u <+: v.dropWhile isSpace :=
  (List.rdropWhile_prefix isSpace _).trans (dropWhile_isPrefix isSpace h)

theorem strip_dropLast {u : Text} (h : u.getLast? = some '\n') : strip u.dropLast = strip u := by
  obtain ⟨v, rfl⟩ := getLast?_eq_some_iff.mp h
  rw [dropLast_concat, strip, strip, dropWhile_append]
  split
  · rename_i hall
    rw [List.isEmpty_iff.mp hall]
    rfl
  · rw [rstrip, rstrip, rdropWhile_concat_pos]
    rfl

/-! ## 2. What is fed for a tool call -/

/-- An argument without white space in front of it. -/
def PairText.lstrip (p : PairText) : PairText :=
  { p with
    lead := p.lead.dropWhile isSpace
    lead_free := fun tag ht hi =>
      p.lead_free tag ht (hi.trans (dropWhile_suffix isSpace).isInfix) }

def lstripFirst : List PairText → List PairText
  | [] => []
  | p :: ps => p.lstrip :: ps

theorem membersText_lstripFirst (py : Python) (funcName : Text) (tools : List Tool) (first : Bool)
    (ps : List PairText) :
    membersText py funcName tools first (lstripFirst ps) = membersText py funcName tools first ps := by
  cases ps with
  | nil => rfl
  | cons p ps => rfl

theorem dropWhile_flatMap_render {ps : List PairText} (hps : ps ≠ []) (u : Text) :
    (ps.flatMap (·.render) ++ u).dropWhile isSpace = (lstripFirst ps).flatMap (·.render) ++ u := by
  obtain ⟨p, ps, rfl⟩ := exists_cons_of_ne_nil hps
  have hopen : ∀ l : Text, (p.lead ++ (argKeyToken ++ l)).dropWhile isSpace
      = p.lead.dropWhile isSpace ++ (argKeyToken ++ l) := fun l => dropWhile_append_cons rfl p.lead _
  rw [lstripFirst, flatMap_cons, flatMap_cons, PairText.render, PairText.render]
  simp only [append_assoc]
  exact hopen _

namespace CallText

/-- All that the machine may be fed with. -/
def fed (t : CallText) : Text := (t.arguments ++ eotToken).dropWhile isSpace

/-- What the machine writes for the arguments. -/
def written (py : Python) (tools : List Tool) (t : CallText) : Text :=
  membersText py t.name tools true t.pairs

/-- Every value has a type, and nothing of it is held back. -/
def Typed (tools : List Tool) (t : CallText) : Prop :=
  ∀ p ∈ t.pairs, (p.valueType t.name tools).isSome ∧ held p.value = []

/-- The arguments, and what stands behind the last of them. -/
theorem fed_eq (t : CallText) : ∃ tail, ¬ argKeyToken <:+: tail ∧
    t.fed = (lstripFirst t.pairs).flatMap (·.render) ++ tail ∧
    (lstripFirst t.pairs).flatMap (·.render) <+: strip t.arguments := by
  have hbehind : ¬ argKeyToken <:+: t.behind ++ eotToken := by
    refine glmTags.not_infix_append (by decide) (t.behind_free _ (by decide)) (by decide) ?_
    simpa using glmTags.opens (show eotToken ∈ allTags by decide) []
  rw [fed, arguments, append_assoc]
  by_cases hps : t.pairs = []
  · rw [hps]
    exact ⟨(t.behind ++ eotToken).dropWhile isSpace,
      fun h => hbehind (h.trans (dropWhile_suffix isSpace).isInfix), rfl, nil_prefix⟩
  · refine ⟨t.behind ++ eotToken, hbehind, dropWhile_flatMap_render hps _, ?_⟩
    rw [strip, dropWhile_flatMap_render hps]
    -- the last tag ends in a character that is not stripped
    obtain ⟨u, hu⟩ : ∃ u, (lstripFirst t.pairs).flatMap (·.render) = u ++ ['>'] := by
      obtain ⟨qs, q, hq⟩ : ∃ qs q, lstripFirst t.pairs = qs ++ [q] := by
        obtain ⟨p, ps, hcons⟩ := exists_cons_of_ne_nil hps
        rw [hcons]
        exact (eq_nil_or_concat' (p.lstrip :: ps)).resolve_left (cons_ne_nil _ _)
      rw [hq, flatMap_append, flatMap_singleton, PairText.render,
        show argValueEnd = argValueEnd.dropLast ++ ['>'] by decide]
      simp only [← append_assoc]
      exact ⟨_, rfl⟩
    rw [hu, append_assoc]
    have hfront : u ++ ['>'] <+: u ++ '>' :: t.behind := ⟨t.behind, by simp⟩
    refine prefix_of_prefix_length_le hfront (List.rdropWhile_prefix isSpace _) ?_
    rw [length_append]
    exact ReasoningDetector.length_rstrip_append u (by decide) t.behind

/-- **What a beginning of the fed text writes.** -/
theorem feeds (py : Python) {tools : List Tool} {t : CallText} (ht : t.Typed tools) {w : Text}
    (hw : w <+: t.fed) : ∃ m out, Writes py t.name tools {} w m out ∧ out <+: t.written py tools ∧
      (strip t.arguments <+: w → out = t.written py tools ∧ m.isFirstParam = t.pairs.isEmpty) := by
  obtain ⟨tail, htail, hfed, hstrip⟩ := t.fed_eq
  have htyped : ∀ p ∈ lstripFirst t.pairs, (p.valueType t.name tools).isSome ∧ held p.value = [] := by
    rw [Typed] at ht
    revert ht
    cases t.pairs with
    | nil => exact fun _ p hp => absurd hp not_mem_nil
    | cons p ps =>
      intro ht q hq
      rcases mem_cons.mp hq with rfl | hq
      · exact ht p mem_cons_self
      · exact ht q (mem_cons_of_mem _ hq)
  obtain ⟨m₁, h₁, hbetween, hfirst⟩ := Machine.feed_pairs py (m := {}) ⟨rfl, rfl⟩ htyped
  rw [membersText_lstripFirst] at h₁
  by_cases hlong : (lstripFirst t.pairs).flatMap (·.render) <+: w
  · obtain ⟨v, rfl⟩ := hlong
    have hv : ¬ argKeyToken <:+: v := by
      rw [hfed] at hw
      exact fun h => htail (h.trans ((prefix_append_right_inj _).mp hw).isInfix)
    have h₂ := Machine.feed_awaits py t.name tools hbetween.awaits
      (show ¬ argKeyToken <:+: m₁.xmlTagBuffer ++ v by rw [hbetween.buffer]; exact hv)
    have h := h₁.append h₂
    rw [append_nil] at h
    refine ⟨_, _, h, prefix_rfl, fun _ => ⟨rfl, ?_⟩⟩
    rw [← show (lstripFirst t.pairs).isEmpty = t.pairs.isEmpty by cases t.pairs <;> rfl]
    exact hfirst
  · have hfront : (lstripFirst t.pairs).flatMap (·.render) <+: t.fed := by
      rw [hfed]
      exact prefix_append _ tail
    obtain ⟨v, hv⟩ := (List.prefix_or_prefix_of_prefix hw hfront).resolve_right hlong
    rw [← hv] at h₁
    obtain ⟨m, out, out', hm, -, hout⟩ := h₁.split
    exact ⟨m, out, hm, ⟨out', hout.symm⟩, fun hall => absurd (hstrip.trans hall) hlong⟩

end CallText

/-! ## 3. What an increment finds -/

variable {f l : Text}

section

variable {u : Text} {t : CallText}

/-- A tool call whose line is not complete. -/
theorem partialMatch_line (hu : PlainText u) (hv : v <+: t.header)
    (hlt : v.length < t.header.length) : partialMatch (u ++ (botToken ++ v)) = none := by
  obtain ⟨hfind, -, hdrop⟩ := glmTags.split (show botToken ∈ allTags by decide) (hu _ (by decide)) v
  rw [partialMatch, hfind, bind_some, hdrop, CallText.splitLine_none hv hlt]
  rfl

/-- A tool call whose end token is not complete. -/
theorem partialMatch_open (hu : PlainText u) (hv : ¬ eotToken <:+: v) :
    ∃ v', partialMatch (u ++ (botToken ++ (t.header ++ v))) = some (t.name, v', none) ∧
      strip v' = strip v := by
  obtain ⟨hfind, -, hdrop⟩ := glmTags.split (show botToken ∈ allTags by decide) (hu _ (by decide))
    (t.header ++ v)
  rw [partialMatch, hfind, bind_some, hdrop, t.splitLine_arguments, map_some]
  rw [find_eq_none_iff.mpr hv]
  dsimp only
  split
  · rename_i hlast
    exact ⟨_, rfl, strip_dropLast hlast⟩
  · exact ⟨_, rfl, rfl⟩

/-- A complete tool call. -/
theorem partialMatch_closed (hu : PlainText u) (l : Text) :
    partialMatch (u ++ (botToken ++ (t.header ++ (t.arguments ++ (eotToken ++ l)))))
      = some (t.name, t.arguments, some l) := by
  obtain ⟨hfind, -, hdrop⟩ := glmTags.split (show botToken ∈ allTags by decide) (hu _ (by decide))
    (t.header ++ (t.arguments ++ (eotToken ++ l)))
  obtain ⟨hfind', htake', hdrop'⟩ := glmTags.split (show eotToken ∈ allTags by decide)
    (t.not_infix_arguments (show eotToken ∈ [botToken, eotToken] by decide)) l
  rw [partialMatch, hfind, bind_some, hdrop, t.splitLine_arguments, map_some]
  rw [hfind']
  dsimp only
  rw [htake', hdrop']

theorem length_le_of_not_start {b : Text} (h : b ++ f = u ++ (botToken ++ l))
    (hno : ¬ botToken <:+: b) (hstart : isPotentialStart b = false) : b.length ≤ u.length := by
  by_contra hlt
  obtain ⟨v, rfl⟩ : u <+: b :=
    prefix_of_prefix_length_le (h ▸ prefix_append u _) (prefix_append b f) (by omega)
  rw [append_assoc] at h
  have h := append_cancel_left h
  rw [length_append] at hlt
  have hv : v <+: botToken := by
    rcases prefix_or_prefix_of_prefix (h ▸ prefix_append v f)
      (prefix_append botToken l) with hv | hv
    · exact hv
    · exact absurd (hv.isInfix.trans (suffix_append u v).isInfix) hno
  have hany : isPotentialStart (u ++ v) = true := by
    rw [isPotentialStart, List.any_eq_true]
    have hle := hv.length_le
    refine ⟨v.length - 1, ?_, ?_⟩
    · rw [mem_range, length_append]
      omega
    · have hdrop : (u ++ v).length - (v.length - 1 + 1) = u.length := by
        rw [length_append]
        omega
      rw [hdrop, drop_left]
      exact isPrefixOf_iff_prefix.mpr hv
  rw [hany] at hstart
  cases hstart

end

/-! ## 4. Increments -/

/-- The detector between two tool calls. -/
structure Detector.Waiting (d : Detector) (k : ℕ) : Prop where
  unnamed : d.currentToolNameSent = false
  empty : d.lastArguments = []
  toolId : d.currentToolId = k ∨ k = 0 ∧ d.currentToolId = -1

/-- The detector within a tool call. -/
structure Detector.Open (py : Python) (tools : List Tool) (d : Detector) (k : ℕ) (t : CallText)
    (out : Text) : Prop where
  named : d.currentToolNameSent = true
  toolId : d.currentToolId = k
  sent : d.lastArguments = out
  machine : Writes py t.name tools {} (t.fed.take d.streamedRawLength) d.machine out

/-- The item that names a tool. -/
def nameItem (k : ℕ) (t : CallText) : ToolCallItem :=
  { toolIndex := k, name := some t.name, parameters := [] }

section

variable {py : Python} {tools : List Tool} {d : Detector} {k : ℕ} {t : CallText} {newText : Text}

/-- Without a start token the buffer is kept or dropped. -/
theorem increment_noStart (py : Python) (tools : List Tool) (h : ¬ botToken <:+: d.buffer ++ newText) :
    (parseStreamingIncrement py tools d newText).2.calls = [] ∧
      ((parseStreamingIncrement py tools d newText).1 = { d with buffer := d.buffer ++ newText } ∨
        isPotentialStart (d.buffer ++ newText) = false ∧
          (parseStreamingIncrement py tools d newText).1 = { d with buffer := [] }) := by
  rw [parseStreamingIncrement]
  rw [if_pos h]
  by_cases hstart : isPotentialStart (d.buffer ++ newText) = true
  · rw [if_pos hstart]
    exact ⟨rfl, Or.inl rfl⟩
  · rw [if_neg hstart]
    exact ⟨rfl, Or.inr ⟨Bool.eq_false_iff.mpr hstart, rfl⟩⟩

/-- **A text without tool calls sends nothing.** -/
theorem Detector.Waiting.plain (py : Python) (tools : List Tool) (hd : d.Waiting k) (hl : PlainText l)
    (h : d.buffer ++ newText ++ f = l) :
    (parseStreamingIncrement py tools d newText).2.calls = [] ∧
      (parseStreamingIncrement py tools d newText).1.Waiting k ∧
      ∃ l', PlainText l' ∧ (parseStreamingIncrement py tools d newText).1.buffer ++ f = l' := by
  have hno : ¬ botToken <:+: d.buffer ++ newText := fun hi =>
    hl botToken (by decide) (h ▸ hi.trans (prefix_append _ f).isInfix)
  obtain ⟨hcalls, hkept | ⟨-, hdropped⟩⟩ := increment_noStart py tools hno
  · rw [hkept]
    exact ⟨hcalls, ⟨hd.unnamed, hd.empty, hd.toolId⟩, l, hl, h⟩
  · rw [hdropped]
    exact ⟨hcalls, ⟨hd.unnamed, hd.empty, hd.toolId⟩, f,
      fun tag ht hi => hl tag ht (h ▸ hi.trans (suffix_append _ f).isInfix), rfl⟩

/-- **In front of the line of a tool call nothing is sent.** -/
theorem Detector.Waiting.line (py : Python) (tools : List Tool) (hd : d.Waiting k) {u : Text}
    (hu : PlainText u)
    (h : d.buffer ++ newText ++ f = u ++ (botToken ++ (t.header ++ l)))
    (hlt : (d.buffer ++ newText).length < u.length + botToken.length + t.header.length) :
    (parseStreamingIncrement py tools d newText).2.calls = [] ∧
      (parseStreamingIncrement py tools d newText).1.Waiting k ∧
      ∃ i ≤ u.length, (parseStreamingIncrement py tools d newText).1.buffer ++ f
          = u.drop i ++ (botToken ++ (t.header ++ l)) ∧
        (d.buffer ++ newText).length
          = i + (parseStreamingIncrement py tools d newText).1.buffer.length := by
  by_cases hbot : botToken <:+: d.buffer ++ newText
  · -- the buffer ends within the line
    obtain ⟨v, hv⟩ : ∃ v, d.buffer ++ newText = u ++ (botToken ++ v) := by
      obtain ⟨i, hi⟩ := isSome_iff_exists.mp (ne_none_iff_isSome.mp fun hnone =>
        find_eq_none_iff.mp hnone hbot)
      have hfind := find_append hi f
      rw [h, glmTags.find_append (by decide) (hu _ (by decide))] at hfind
      injection hfind with hfind
      have hlen := find_add_le hi
      have hall : u ++ botToken <+: u ++ (botToken ++ (t.header ++ l)) :=
        ⟨t.header ++ l, by rw [append_assoc]⟩
      have hp : u ++ botToken <+: d.buffer ++ newText :=
        prefix_of_prefix_length_le hall (h ▸ prefix_append _ f) (by rw [length_append]; omega)
      obtain ⟨v, hv⟩ := hp
      exact ⟨v, by rw [← hv, append_assoc]⟩
    rw [hv] at h hlt
    simp only [append_assoc] at h
    have hrest := append_cancel_left (append_cancel_left h)
    have hlen : v.length < t.header.length := by
      simp only [length_append] at hlt
      omega
    have hprefix : v <+: t.header := prefix_of_prefix_length_le
      (hrest ▸ prefix_append v f) (prefix_append t.header l) hlen.le
    have hstep : parseStreamingIncrement py tools d newText
        = ({ d with buffer := d.buffer ++ newText }, {}) := by
      rw [parseStreamingIncrement]
      rw [if_neg (not_not_intro hbot), hv, partialMatch_line hu hprefix hlen]
    rw [hstep]
    refine ⟨rfl, ⟨hd.unnamed, hd.empty, hd.toolId⟩, 0, Nat.zero_le _, ?_, (Nat.zero_add _).symm⟩
    rw [hv, ← hrest]
    simp
  · obtain ⟨hcalls, hkept | ⟨hstart, hdropped⟩⟩ := increment_noStart py tools hbot
    · rw [hkept]
      exact ⟨hcalls, ⟨hd.unnamed, hd.empty, hd.toolId⟩, 0, Nat.zero_le _, h, (Nat.zero_add _).symm⟩
    · rw [hdropped]
      have hle := length_le_of_not_start h hbot hstart
      refine ⟨hcalls, ⟨hd.unnamed, hd.empty, hd.toolId⟩, _, hle, ?_, rfl⟩
      rw [← drop_append_of_le_length hle, ← h, drop_left]
      rfl

/-- **The line of a tool call sends its name.** -/
theorem Detector.Waiting.name (py : Python) (tools : List Tool) (hd : d.Waiting k) {u : Text}
    (hu : PlainText u)
    (h : d.buffer ++ newText = u ++ (botToken ++ (t.header ++ v))) :
    (parseStreamingIncrement py tools d newText).2.calls = [nameItem k t] ∧
      (parseStreamingIncrement py tools d newText).1.Open py tools k t [] ∧
      (parseStreamingIncrement py tools d newText).1.buffer = d.buffer ++ newText := by
  obtain ⟨funcArgs, behind, hmatch⟩ : ∃ funcArgs behind,
      partialMatch (d.buffer ++ newText) = some (t.name, funcArgs, behind) := by
    rw [h]
    obtain ⟨hfind, -, hdrop⟩ := glmTags.split (show botToken ∈ allTags by decide) (hu _ (by decide))
      (t.header ++ v)
    rw [partialMatch, hfind, bind_some, hdrop, t.splitLine_arguments, map_some]
    cases find eotToken v with
    | none => exact ⟨_, _, rfl⟩
    | some i => exact ⟨_, _, rfl⟩
  have hbot : botToken <:+: d.buffer ++ newText := by
    rw [h]
    exact (prefix_append botToken _).isInfix.trans (suffix_append u _).isInfix
  have hname : strip t.name ≠ [] := by
    rw [t.name_stripped]
    exact t.name_ne
  rw [parseStreamingIncrement]
  rw [if_neg (not_not_intro hbot), hmatch]
  dsimp only
  rw [if_neg hname, t.name_stripped]
  rcases hd.toolId with hid | ⟨rfl, hid⟩
  · rw [if_neg (by rw [hid]; omega), Detector.advance, if_pos hd.unnamed]
    refine ⟨?_, ⟨rfl, hid, hd.empty, rfl⟩, rfl⟩
    rw [nameItem, ← hid]
  · rw [if_pos hid, Detector.advance]
    exact ⟨rfl, ⟨rfl, rfl, hd.empty, rfl⟩, rfl⟩

variable {out : Text}

/-- The machine goes on with what is new. -/
theorem Detector.Open.feed (hd : d.Open py tools k t out) (ht : t.Typed tools) {x : Text}
    (hx : x <+: t.fed) : ∃ m sent,
      Writes py t.name tools d.machine (x.drop d.streamedRawLength) m sent ∧
      Writes py t.name tools {} (t.fed.take (max d.streamedRawLength x.length)) m (out ++ sent) := by
  have hsplit : t.fed.take (max d.streamedRawLength x.length)
      = t.fed.take d.streamedRawLength ++ x.drop d.streamedRawLength := by
    have hx' : x = t.fed.take x.length := prefix_iff_eq_take.mp hx
    rcases le_total d.streamedRawLength x.length with hle | hle
    · have htake : t.fed.take d.streamedRawLength = x.take d.streamedRawLength := by
        conv_rhs => rw [hx', take_take, min_eq_left hle]
      rw [max_eq_right hle, htake, take_append_drop, ← hx']
    · rw [max_eq_left hle, drop_eq_nil_of_le hle, append_nil]
  obtain ⟨m, whole, hwhole, -, -⟩ := CallText.feeds py ht
    (List.take_prefix (max d.streamedRawLength x.length) t.fed)
  rw [hsplit] at hwhole ⊢
  obtain ⟨m', out', sent, hout', hsent, rfl⟩ := hwhole.split
  have hsame := hout'.symm.trans hd.machine
  injection hsame with hm hsame
  injection hsame with hsame
  subst hm hsame
  exact ⟨m, sent, hsent, hwhole⟩

theorem Detector.Open.sent_isPrefix (hd : d.Open py tools k t out) (ht : t.Typed tools) :
    out <+: t.written py tools := by
  obtain ⟨m, out', hout', hwritten, -⟩ :=
    CallText.feeds py ht (List.take_prefix d.streamedRawLength t.fed)
  have hsame := hd.machine.symm.trans hout'
  injection hsame with _ hsame
  injection hsame with hsame
  rwa [hsame]

theorem sent_item {i : ℤ} {text : Text} (d : Detector) (hd : d.currentToolId = i) :
    Sent i text (if text = [] then [] else [d.item text]) := by
  by_cases htext : text = []
  · rw [htext]
    exact Sent.nil i
  · rw [if_neg htext, Detector.item, hd]
    exact Sent.singleton i text

/-- An increment within a tool call. -/
theorem Detector.Open.advance (hd : d.Open py tools k t out) {u funcArgs : Text}
    {behind : Option Text} (h : d.buffer ++ newText = u ++ (botToken ++ v))
    (hmatch : partialMatch (d.buffer ++ newText) = some (t.name, funcArgs, behind)) :
    parseStreamingIncrement py tools d newText =
      match ({ d with buffer := d.buffer ++ newText } : Detector).advance py tools t.name
        (strip funcArgs) behind with
      | (d', none) => (d', { normalText := d.buffer ++ newText })
      | (d', some calls) => (d', { calls := calls }) := by
  have hbot : botToken <:+: d.buffer ++ newText := by
    rw [h]
    exact (prefix_append botToken _).isInfix.trans (suffix_append u _).isInfix
  have hname : strip t.name ≠ [] := by
    rw [t.name_stripped]
    exact t.name_ne
  rw [parseStreamingIncrement]
  rw [if_neg (not_not_intro hbot), hmatch]
  dsimp only
  rewrite [if_neg hname, t.name_stripped, if_neg (by rw [hd.toolId]; omega)]
  rfl

/-- **Within a tool call the stream sends more of its arguments.** -/
theorem Detector.Open.more (hd : d.Open py tools k t out) (ht : t.Typed tools) {u : Text}
    (hu : PlainText u) (h : d.buffer ++ newText = u ++ (botToken ++ (t.header ++ v)))
    (hv : v <+: t.arguments ++ eotToken) (hlt : v.length < t.arguments.length + eotToken.length) :
    ∃ sent, Sent k sent (parseStreamingIncrement py tools d newText).2.calls ∧
      (parseStreamingIncrement py tools d newText).1.Open py tools k t (out ++ sent) ∧
      (parseStreamingIncrement py tools d newText).1.buffer = d.buffer ++ newText := by
  have hno : ¬ eotToken <:+: v := by
    have hcut : v <+: t.arguments ++ eotToken.dropLast := by
      refine prefix_of_prefix_length_le hv ?_ ?_
      · exact (prefix_append_right_inj _).mpr (List.dropLast_prefix _)
      · rw [length_append, length_dropLast]
        omega
    exact fun hi => not_infix_dropLast (by decide) (t.not_infix_arguments (show eotToken ∈ [botToken, eotToken] by decide))
      (hi.trans hcut.isInfix)
  obtain ⟨funcArgs, hmatch, hstrip⟩ := partialMatch_open hu hno
  rw [← h] at hmatch
  obtain ⟨m, sent, hm, hall⟩ := hd.feed ht (strip_isPrefix hv)
  refine ⟨sent, ?_⟩
  rw [hd.advance h hmatch, Detector.advance, if_neg (by rw [hd.named]; exact Bool.noConfusion), hstrip]
  rw [show d.machine.feed py t.name tools ((strip v).drop d.streamedRawLength) = (m, some sent) from hm]
  refine ⟨sent_item _ hd.toolId, ⟨hd.named, hd.toolId, ?_, hall⟩, rfl⟩
  exact congrArg (· ++ sent) hd.sent

/-- The arguments that the stream sends for a tool call. -/
def CallText.sent (py : Python) (tools : List Tool) (t : CallText) : Text :=
  t.written py tools ++
    if t.pairs = [] then "\x7b\x7d".toList
    else if "\x7d".toList <:+ t.written py tools then []
    else "\x7d".toList

/-- **The end token closes the arguments.** -/
theorem Detector.Open.close (hd : d.Open py tools k t out) (ht : t.Typed tools) {u : Text}
    (hu : PlainText u)
    (h : d.buffer ++ newText = u ++ (botToken ++ (t.header ++ (t.arguments ++ (eotToken ++ l))))) :
    ∃ sent, Sent k sent (parseStreamingIncrement py tools d newText).2.calls ∧
      out ++ sent = t.sent py tools ∧
      (parseStreamingIncrement py tools d newText).1.Waiting (k + 1) ∧
      (parseStreamingIncrement py tools d newText).1.buffer = l := by
  have hmatch := partialMatch_closed (t := t) hu l
  rw [← h] at hmatch
  have hfed : strip t.arguments <+: t.fed := strip_isPrefix (prefix_append _ eotToken)
  obtain ⟨m, more, hm, hall⟩ := hd.feed ht hfed
  obtain ⟨m', whole, hwhole, -, hend⟩ := CallText.feeds py ht
    (List.take_prefix (max d.streamedRawLength (strip t.arguments).length) t.fed)
  have hsame := hall.symm.trans hwhole
  injection hsame with hmm hsame
  injection hsame with hsame
  subst hmm hsame
  obtain ⟨hwritten, hfirst⟩ := hend (prefix_of_prefix_length_le hfed (List.take_prefix _ _) (by
    have hle := hfed.length_le
    rw [length_take]
    omega))
  have hstep := hd.advance h hmatch
  rw [Detector.advance, if_neg (by rw [hd.named]; exact Bool.noConfusion)] at hstep
  rw [show d.machine.feed py t.name tools ((strip t.arguments).drop d.streamedRawLength)
    = (m, some more) from hm] at hstep
  dsimp only at hstep
  rw [hstep]
  refine ⟨more ++ (if t.pairs = [] then "\x7b\x7d".toList
    else if "\x7d".toList <:+ t.written py tools then [] else "\x7d".toList), ?_, ?_, ?_, rfl⟩
  · refine (sent_item _ hd.toolId).append ?_
    rw [Detector.closing]
    rw [hd.sent, hwritten, hfirst]
    by_cases hps : t.pairs = []
    · rw [if_pos hps, if_pos (List.isEmpty_iff.mpr hps), hd.toolId]
      exact Sent.singleton _ _
    · rw [if_neg hps, if_neg (fun h => hps (List.isEmpty_iff.mp h))]
      split
      · exact Sent.nil _
      · rw [hd.toolId]
        exact Sent.singleton _ _
  · rw [← append_assoc, hwritten]
    rfl
  · refine ⟨rfl, rfl, Or.inl ?_⟩
    rw [Detector.closed]
    rw [hd.toolId, Nat.cast_succ]

end

/-! ## 5. Runs -/

/-- Where the chunks end. -/
def chunkEnds : ℕ → List Text → List ℕ
  | _, [] => []
  | start, chunk :: chunks => (start + chunk.length) :: chunkEnds (start + chunk.length) chunks

/-- Where the lines of the tool calls end, and the tool calls themselves. -/
def callEnds : ℕ → List CallText → List (ℕ × ℕ)
  | _, [] => []
  | start, t :: ts =>
    (start + t.lead.length + botToken.length + t.header.length, start + t.render.length) ::
      callEnds (start + t.render.length) ts

/-- **Whether the chunks keep up with the tool calls**: one chunk ends behind the line of a tool call, and
a later one behind its end token, before the next tool call is looked at. -/
def keepsUp : List ℕ → Bool → List (ℕ × ℕ) → Bool
  | _, _, [] => true
  | [], _, _ :: _ => false
  | p :: ps, false, c :: cs => keepsUp ps (decide (c.1 ≤ p)) (c :: cs)
  | p :: ps, true, c :: cs => if c.2 ≤ p then keepsUp ps false cs else keepsUp ps true (c :: cs)

theorem keepsUp_waiting (p : ℕ) (ps : List ℕ) (start : ℕ) (t : CallText) (ts : List CallText) :
    keepsUp (p :: ps) false (callEnds start (t :: ts)) = keepsUp ps
      (decide (start + t.lead.length + botToken.length + t.header.length ≤ p))
      (callEnds start (t :: ts)) := rfl

theorem keepsUp_open (p : ℕ) (ps : List ℕ) (start : ℕ) (t : CallText) (ts : List CallText) :
    keepsUp (p :: ps) true (callEnds start (t :: ts)) =
      if start + t.render.length ≤ p then keepsUp ps false (callEnds (start + t.render.length) ts)
      else keepsUp ps true (callEnds start (t :: ts)) := rfl

/-- What is sent for tool calls, from the tool `k` on; the flag says whether they are all closed. -/
inductive Streamed (py : Python) (tools : List Tool) :
    ℕ → List CallText → Bool → List ToolCallItem → Prop
  | finished {k : ℕ} : Streamed py tools k [] true []
  | waiting {k : ℕ} {t : CallText} {ts : List CallText} : Streamed py tools k (t :: ts) false []
  | cut {k : ℕ} {t : CallText} {ts : List CallText} {out : Text} {items : List ToolCallItem}
      (written : out <+: t.written py tools) (items_sent : Sent k out items) :
      Streamed py tools k (t :: ts) false (nameItem k t :: items)
  | call {k : ℕ} {t : CallText} {ts : List CallText} {closed : Bool} {items more : List ToolCallItem}
      (items_sent : Sent k (t.sent py tools) items) (rest : Streamed py tools (k + 1) ts closed more) :
      Streamed py tools k (t :: ts) closed (nameItem k t :: (items ++ more))

/-- What is sent for tool calls the first of which is open, and has been sent `out`. -/
def Continued (py : Python) (tools : List Tool) (k : ℕ) (t : CallText) (ts : List CallText) (out : Text)
    (closed : Bool) (calls : List ToolCallItem) : Prop :=
  (closed = false ∧ ∃ more, out ++ more <+: t.written py tools ∧ Sent k more calls) ∨
    ∃ sent items more, calls = items ++ more ∧ out ++ sent = t.sent py tools ∧ Sent k sent items ∧
      Streamed py tools (k + 1) ts closed more

section

variable {py : Python} {tools : List Tool} {k : ℕ} {t : CallText} {ts : List CallText}

theorem Continued.named {closed : Bool} {calls : List ToolCallItem}
    (h : Continued py tools k t ts [] closed calls) :
    Streamed py tools k (t :: ts) closed (nameItem k t :: calls) := by
  rcases h with ⟨rfl, more, hmore, hsent⟩ | ⟨sent, items, more, rfl, hall, hsent, hrest⟩
  · exact .cut hmore hsent
  · rw [nil_append] at hall
    exact .call (hall ▸ hsent) hrest

theorem Continued.more {closed : Bool} {calls items : List ToolCallItem} {out sent : Text}
    (h : Continued py tools k t ts (out ++ sent) closed calls) (hs : Sent k sent items) :
    Continued py tools k t ts out closed (items ++ calls) := by
  rcases h with ⟨rfl, more, hmore, hsent⟩ | ⟨sent', items', more, rfl, hall, hsent, hrest⟩
  · rw [append_assoc] at hmore
    exact Or.inl ⟨rfl, _, hmore, hs.append hsent⟩
  · rw [append_assoc] at hall
    exact Or.inr ⟨_, items ++ items', more, (append_assoc _ _ _).symm, hall, hs.append hsent, hrest⟩

/-- The rest of a text, from a tool call on. -/
def restText (behind : Text) (ts : List CallText) : Text := ts.flatMap (·.render) ++ behind

theorem restText_cons (behind : Text) (t : CallText) (ts : List CallText) :
    restText behind (t :: ts) = t.lead ++ (botToken ++ (t.header ++ (t.arguments ++
      (eotToken ++ restText behind ts)))) := by
  simp [restText, CallText.render]

theorem length_render (t : CallText) : t.render.length = t.lead.length + botToken.length +
    t.header.length + t.arguments.length + eotToken.length := by
  simp only [CallText.render, length_append]
  omega

/-- The calls of all results. -/
def sentCalls (py : Python) (tools : List Tool) (d : Detector) (chunks : List Text) :
    List ToolCallItem :=
  (parseStream py tools d chunks).2.flatMap (·.calls)

theorem sentCalls_cons (py : Python) (tools : List Tool) (d : Detector) (newText : Text)
    (chunks : List Text) : sentCalls py tools d (newText :: chunks)
      = (parseStreamingIncrement py tools d newText).2.calls ++
        sentCalls py tools (parseStreamingIncrement py tools d newText).1 chunks := by
  rfl

theorem sentCalls_plain : ∀ {chunks : List Text} {d : Detector} {l : Text}, d.Waiting k → PlainText l →
    d.buffer ++ chunks.flatten = l → sentCalls py tools d chunks = []
  | [], _, _, _, _, _ => rfl
  | newText :: chunks, d, l, hd, hl, h => by
    rw [flatten_cons, ← append_assoc] at h
    obtain ⟨hcalls, hd', l', hl', h'⟩ := hd.plain py tools hl h
    rw [sentCalls_cons, hcalls, sentCalls_plain hd' hl' h']
    rfl

/-- What the stream sends from a state between two tool calls. -/
def FromWaiting (py : Python) (tools : List Tool) (behind : Text) (chunks : List Text) : Prop :=
  ∀ (i start : ℕ) {d : Detector} {k : ℕ} {ts : List CallText}, (∀ t ∈ ts, t.Typed tools) →
    d.Waiting k → (∀ t ∈ ts.head?, i ≤ t.lead.length) →
    d.buffer ++ chunks.flatten = (restText behind ts).drop i →
    Streamed py tools k ts
      (keepsUp (chunkEnds (start + i + d.buffer.length) chunks) false (callEnds start ts))
      (sentCalls py tools d chunks)

/-- What the stream sends from a state within a tool call. -/
def FromOpen (py : Python) (tools : List Tool) (behind : Text) (chunks : List Text) : Prop :=
  ∀ {d : Detector} {k : ℕ} {t : CallText} {ts : List CallText} (i start : ℕ) {v out : Text},
    (∀ t' ∈ t :: ts, t'.Typed tools) → d.Open py tools k t out → i ≤ t.lead.length →
    d.buffer = t.lead.drop i ++ (botToken ++ (t.header ++ v)) →
    v ++ chunks.flatten = t.arguments ++ (eotToken ++ restText behind ts) →
    Continued py tools k t ts out
      (keepsUp (chunkEnds (start + i + d.buffer.length) chunks) true (callEnds start (t :: ts)))
      (sentCalls py tools d chunks)

theorem plain_drop {u : Text} (hu : PlainText u) (i : ℕ) : PlainText (u.drop i) :=
  fun tag ht hi => hu tag ht (hi.trans (drop_suffix i u).isInfix)

/-- An increment between two tool calls. -/
theorem fromWaiting_cons {behind newText : Text} (hbehind : PlainText behind) {chunks : List Text}
    (hwaiting : FromWaiting py tools behind chunks) (hopen : FromOpen py tools behind chunks) :
    FromWaiting py tools behind (newText :: chunks) := by
  intro i start d k ts hts hd hi h
  rcases ts with _ | ⟨t, ts⟩
  · have hkeep : ∀ ps, keepsUp ps false (callEnds start []) = true := fun ps => by
      cases ps <;> rfl
    rw [sentCalls_plain hd (plain_drop hbehind i) h]
    exact .finished
  have hi : i ≤ t.lead.length := hi t rfl
  have hu : PlainText (t.lead.drop i) := plain_drop t.lead_free i
  rw [restText_cons, drop_append_of_le_length hi, flatten_cons, ← append_assoc] at h
  have hlen : (t.lead.drop i).length = t.lead.length - i := length_drop
  have hbuffer : (d.buffer ++ newText).length = d.buffer.length + newText.length := length_append
  rw [sentCalls_cons, chunkEnds, keepsUp_waiting, Nat.add_assoc (start + i), ← hbuffer]
  by_cases hlt : (d.buffer ++ newText).length < (t.lead.drop i).length + botToken.length + t.header.length
  · obtain ⟨hcalls, hd', j, hj, hbuffer', hsum⟩ := hd.line py tools hu h hlt
    rw [hcalls, decide_eq_false (by omega)]
    have hnext := hwaiting (i + j) start hts hd' (fun t' ht' => by cases ht'; omega) (by
      rw [hbuffer', restText_cons, drop_append_of_le_length (by omega), drop_drop])
    rwa [show start + i + (d.buffer ++ newText).length = start + (i + j) +
      (parseStreamingIncrement py tools d newText).1.buffer.length by omega]
  · have hall : t.lead.drop i ++ (botToken ++ t.header) <+: t.lead.drop i ++ (botToken ++ (t.header ++
        (t.arguments ++ (eotToken ++ restText behind ts)))) :=
      ⟨t.arguments ++ (eotToken ++ restText behind ts), by simp⟩
    obtain ⟨v, hv⟩ : t.lead.drop i ++ (botToken ++ t.header) <+: d.buffer ++ newText :=
      prefix_of_prefix_length_le hall (h ▸ prefix_append _ _) (by simp only [length_append]; omega)
    have hv : d.buffer ++ newText = t.lead.drop i ++ (botToken ++ (t.header ++ v)) := by
      rw [← hv]
      simp
    obtain ⟨hcalls, hd', hbuffer'⟩ := hd.name py tools hu hv
    rw [hcalls, decide_eq_true (by omega), ← hbuffer']
    refine Continued.named (hopen i start hts hd' hi (hbuffer'.trans hv) ?_)
    rw [hv] at h
    simp only [append_assoc] at h
    exact append_cancel_left (append_cancel_left (append_cancel_left h))

/-- An increment within a tool call. -/
theorem fromOpen_cons {behind newText : Text} {chunks : List Text}
    (hwaiting : FromWaiting py tools behind chunks) (hopen : FromOpen py tools behind chunks) :
    FromOpen py tools behind (newText :: chunks) := by
  intro d k t ts i start v out hts hd hi hbuffer h
  have hu : PlainText (t.lead.drop i) := plain_drop t.lead_free i
  have hlen : (t.lead.drop i).length = t.lead.length - i := length_drop
  have hrender := length_render t
  have ht := hts t mem_cons_self
  have hnew : d.buffer ++ newText = t.lead.drop i ++ (botToken ++ (t.header ++ (v ++ newText))) := by
    rw [hbuffer]
    simp
  have hsum : (d.buffer ++ newText).length = d.buffer.length + newText.length := length_append
  have htotal : (d.buffer ++ newText).length = t.lead.length - i + botToken.length + t.header.length +
      (v ++ newText).length := by
    rw [hnew]
    simp only [length_append, hlen]
    omega
  rw [flatten_cons, ← append_assoc] at h
  rw [chunkEnds, keepsUp_open, Nat.add_assoc (start + i), ← hsum]
  by_cases hle : t.arguments.length + eotToken.length ≤ (v ++ newText).length
  · have hall : t.arguments ++ eotToken <+: t.arguments ++ (eotToken ++ restText behind ts) :=
      ⟨restText behind ts, by simp⟩
    obtain ⟨l, hl⟩ : t.arguments ++ eotToken <+: v ++ newText :=
      prefix_of_prefix_length_le hall (h ▸ prefix_append _ _) (by rw [length_append]; exact hle)
    rw [← hl] at h
    simp only [append_assoc] at h
    have hrest := append_cancel_left (append_cancel_left h)
    rw [← hl, append_assoc] at hnew
    obtain ⟨sent, hsent, hall, hd', hbuffer'⟩ := hd.close ht hu hnew
    rw [if_pos (by omega)]
    refine Or.inr ⟨sent, _, _, rfl, hall, hsent, ?_⟩
    have hnext := hwaiting 0 (start + t.render.length)
      (fun t' ht' => hts t' (mem_cons_of_mem _ ht')) hd' (fun _ _ => Nat.zero_le _)
      (by rw [hbuffer']; exact hrest)
    rw [hbuffer'] at hnext
    have hpos : start + i + (d.buffer ++ newText).length = start + t.render.length + 0 + l.length := by
      have hl := congrArg List.length hl
      rw [length_append, length_append] at hl
      omega
    rwa [hpos]
  · have hargs : (t.arguments ++ eotToken).length = t.arguments.length + eotToken.length :=
      length_append
    have hv : v ++ newText <+: t.arguments ++ eotToken :=
      prefix_of_prefix_length_le (h ▸ prefix_append _ chunks.flatten)
        ⟨restText behind ts, by simp⟩ (by rw [hargs]; omega)
    obtain ⟨sent, hsent, hd', hbuffer'⟩ := hd.more ht hu hnew hv (by omega)
    rw [if_neg (by omega), ← hbuffer']
    exact Continued.more (hopen i start hts hd' hi (hbuffer'.trans hnew) h) hsent

/-- **What the stream sends**, from either state. -/
theorem fromWaiting_and_fromOpen {behind : Text} (hbehind : PlainText behind) :
    ∀ chunks : List Text, FromWaiting py tools behind chunks ∧ FromOpen py tools behind chunks
  | [] => by
    constructor
    · intro i start d k ts hts hd hi h
      cases ts with
      | nil => exact .finished
      | cons t ts => exact .waiting
    · intro d k t ts i start v out hts hd hi hbuffer h
      refine Or.inl ⟨rfl, [], ?_, Sent.nil k⟩
      rw [append_nil]
      exact hd.sent_isPrefix (hts t mem_cons_self)
  | newText :: chunks => by
    obtain ⟨hwaiting, hopen⟩ := fromWaiting_and_fromOpen hbehind chunks
    exact ⟨fromWaiting_cons hbehind hwaiting hopen, fromOpen_cons hwaiting hopen⟩

/-- Whether the chunks of a stream keep up with the tool calls of a text. -/
def Document.keepsUp (d : Document) (chunks : List Text) : Bool :=
  Glm4Moe.keepsUp (chunkEnds 0 chunks) false (callEnds 0 d.calls)

/-- **What the stream sends for a well-formed text.** -/
theorem parseStream_streamed (py : Python) {d : Document} (ht : ∀ t ∈ d.calls, t.Typed tools) {chunks : List Text}
    (h : chunks.flatten = d.render) :
    Streamed py tools 0 d.calls (d.keepsUp chunks) (sentCalls py tools {} chunks) := by
  have hstart : ({} : Detector).Waiting 0 := ⟨rfl, rfl, Or.inr ⟨rfl, rfl⟩⟩
  exact (fromWaiting_and_fromOpen d.behind_free chunks).1 0 0 ht hstart (fun _ _ => Nat.zero_le _) h

end

end Glm4Moe

end FunctionCall

end Sglang
