/-
# Well-formed texts of GLM-4 MoE

A text is well formed if it is a sequence of complete tool calls with text around them (`Document`): a
name on a line of its own, arguments with different keys, and no tag in a key, in a value or between two
tags.  The regular expressions of `detect_and_parse` find the names, the keys and the values of such a text
(`Document.detectAndParse_calls`).
-/
import Sglang.FunctionCall.Glm4MoeMachine

namespace Sglang

open Lib List Option

namespace FunctionCall

namespace Glm4Moe

/-! ## 1. Well-formed texts -/

/-- A complete tool call: no key is given to two of its arguments. -/
structure CallText where
  lead : Text
  name : Text
  lineBreak : Text
  pairs : List PairText
  behind : Text
  lead_free : PlainText lead
  name_ne : name ≠ []
  name_free : PlainText name
  name_stripped : strip name = name
  name_line : splitLine name = none
  lineBreak_eq : lineBreak = "\n".toList ∨ lineBreak = "\\n".toList
  distinct : (pairs.map (·.name)).Nodup
  behind_free : PlainText behind

namespace CallText

/-- `func_args`. -/
def arguments (t : CallText) : Text := t.pairs.flatMap (·.render) ++ t.behind

/-- The first line. -/
def header (t : CallText) : Text := t.name ++ t.lineBreak

def render (t : CallText) : Text :=
  t.lead ++ (botToken ++ (t.header ++ t.arguments ++ eotToken))

end CallText

/-- **A well-formed text**: complete tool calls, and text without tags around them. -/
structure Document where
  calls : List CallText
  behind : Text
  behind_free : PlainText behind

def Document.render (d : Document) : Text := d.calls.flatMap (·.render) ++ d.behind

/-! ## 2. What no tag stands in -/

variable {u : Text}

theorem plain_of_notMem (h : '<' ∉ u) : PlainText u := fun tag ht hi => by
  obtain ⟨t, rfl, -⟩ := glmTags.head tag ht
  exact h (hi.subset mem_cons_self)

variable {tag : Text}

theorem PairText.not_infix (ht : tag ∈ [botToken, eotToken]) (hu : ¬ tag <:+: u)
    (p : PairText) : ¬ tag <:+: p.render ++ u := by
  have hmem : tag ∈ allTags := mem_append_left [argKeyToken, argKeyEnd, argValueToken, argValueEnd] ht
  have hskip : ∀ tag' ∈ [argKeyToken, argKeyEnd, argValueToken, argValueEnd], ∀ {v w : Text},
      PlainText v → ¬ tag <:+: w → ¬ tag <:+: v ++ (tag' ++ w) := by
    intro tag' ht' v w hv hw
    have hmem' : tag' ∈ allTags := mem_append_right [botToken, eotToken] ht'
    have hapart : ∀ a ∈ [botToken, eotToken],
        ∀ b ∈ [argKeyToken, argKeyEnd, argValueToken, argValueEnd], a ≠ b := by decide
    have hne : tag ≠ tag' := hapart tag ht tag' ht'
    exact glmTags.not_infix_append hmem (hv tag hmem)
      (glmTags.not_infix_tag hmem hmem' hne (w := []) not_mem_nil hw) (glmTags.opens hmem' _)
  have h := hskip argKeyToken (by decide) p.lead_free (hskip argKeyEnd (by decide) p.key_free
    (hskip argValueToken (by decide) (plain_of_notMem (notMem_of_skipGap p.gap_skipped))
      (hskip argValueEnd (by decide) p.value_free hu)))
  simpa only [PairText.render, append_assoc] using h

theorem CallText.not_infix_arguments (ht : tag ∈ [botToken, eotToken]) (t : CallText) :
    ¬ tag <:+: t.arguments :=
  flatMap_append_induction (P := fun u => ¬ tag <:+: u) (fun p _ hu => p.not_infix ht hu)
    (t.behind_free tag (mem_append_left _ ht)) t.pairs

/-! ## 3. The first line -/

/-- What is in front of the first line break does not depend on what follows it. -/
theorem splitLine_append : ∀ {l u v : Text}, splitLine l = some (u, v) → ∀ m,
    splitLine (l ++ m) = some (u, v ++ m)
  | [], _, _, h, _ => by cases h
  | c :: l, u, v, h, m => by
    rw [splitLine] at h
    rw [cons_append, splitLine]
    split at h
    · rename_i hc
      cases h
      rw [if_pos hc]
    · rename_i hc
      rw [if_neg hc]
      split at h
      · rename_i hn
        obtain ⟨d, l, rfl⟩ : ∃ d l', l = d :: l' := by
          rcases l with _ | ⟨d, l⟩
          · exact absurd hn.2 (by simp)
          · exact ⟨d, l, rfl⟩
        cases h
        exact if_pos hn
      · rename_i hn
        obtain ⟨p, hp, heq⟩ := map_eq_some_iff.mp h
        cases heq
        have hno : ¬ (c = '\\' ∧ (l ++ m).head? = some 'n') := by
          rintro ⟨hback, hhead⟩
          rcases l with _ | ⟨d, l⟩
          · cases hp
          · exact hn ⟨hback, hhead⟩
        rw [if_neg hno, splitLine_append hp m]
        rfl

theorem splitLine_lineBreak {lineBreak : Text} (hb : lineBreak = "\n".toList ∨ lineBreak = "\\n".toList) :
    ∀ {name : Text}, splitLine name = none → splitLine (name ++ lineBreak) = some (name, [])
  | [], _ => by
    rcases hb with rfl | rfl
    · rfl
    · rfl
  | c :: name, h => by
    rw [splitLine] at h
    rw [cons_append, splitLine]
    split at h
    · cases h
    · rename_i hc
      rw [if_neg hc]
      split at h
      · cases h
      · rename_i hn
        have hno : ¬ (c = '\\' ∧ (name ++ lineBreak).head? = some 'n') := by
          rintro ⟨hback, hhead⟩
          rcases name with _ | ⟨d, name⟩
          · rcases hb with rfl | rfl
            · cases hhead
            · cases hhead
          · exact hn ⟨hback, hhead⟩
        rw [if_neg hno, splitLine_lineBreak hb (map_eq_none_iff.mp h)]
        rfl

namespace CallText

theorem splitLine_header (t : CallText) : splitLine t.header = some (t.name, []) :=
  splitLine_lineBreak t.lineBreak_eq t.name_line

theorem splitLine_arguments (t : CallText) (l : Text) :
    splitLine (t.header ++ l) = some (t.name, l) :=
  splitLine_append t.splitLine_header l

/-- Nothing is read from a beginning of the first line. -/
theorem splitLine_none {t : CallText} (h : u <+: t.header) (hlt : u.length < t.header.length) :
    splitLine u = none := by
  obtain ⟨v, hv⟩ := h
  cases hu : splitLine u with
  | none => rfl
  | some p =>
    have hall := splitLine_append hu v
    rw [hv, t.splitLine_header] at hall
    injection hall with hall
    injection hall with _ hnil
    obtain rfl : v = [] := (append_eq_nil_iff.mp hnil.symm).2
    rw [append_nil] at hv
    rw [hv] at hlt
    omega

/-- No tool call begins or ends within the content of one. -/
theorem not_infix_content (ht : tag ∈ [botToken, eotToken]) (t : CallText) :
    ¬ tag <:+: t.header ++ t.arguments := by
  have hchars : ∀ tag ∈ [botToken, eotToken], '\n' ∉ tag ∧ '\\' ∉ tag ∧ 'n' ∉ tag := by decide
  obtain ⟨hline, hback, hn⟩ := hchars tag ht
  have hname := t.name_free tag (mem_append_left _ ht)
  have harguments := t.not_infix_arguments ht
  intro h
  rw [header, append_assoc] at h
  rcases t.lineBreak_eq with hb | hb
  · rw [hb] at h
    rcases infix_append_cons_of_notMem hline h with h | h
    · exact hname h
    · exact harguments h
  · rw [hb] at h
    rcases infix_append_cons_of_notMem hback h with h | h
    · exact hname h
    · rcases infix_append_cons_of_notMem (u := []) hn h with h | h
      · rw [infix_nil] at h
        subst h
        revert ht
        decide
      · exact harguments h

end CallText

/-! ## 4. What the regular expressions find -/

theorem skipGap_append : ∀ {gap : Text}, skipGap gap = [] → ∀ {c : Char} (l : Text), c = '<' →
    skipGap (gap ++ c :: l) = c :: l
  | [], _, c, l, hc => by
    subst hc
    rw [skipGap.eq_def]
    rfl
  | d :: gap, h, c, l, hc => by
    rw [skipGap.eq_def] at h
    dsimp only at h
    rw [cons_append, skipGap.eq_def]
    dsimp only
    split at h
    · rename_i hd
      rw [if_pos hd]
      split at h
      · exact skipGap_append h l hc
      · cases h
    · rename_i hd
      rw [if_neg hd]
      split at h
      · rename_i hspace
        rw [if_pos hspace]
        exact skipGap_append h l hc
      · cases h

theorem matchValue_render (p : PairText) (l : Text) :
    matchValue (skipGap (p.gap ++ argValueToken ++ (p.value ++ argValueEnd ++ l)))
      = some (p.value, l) := by
  have hskip : skipGap (p.gap ++ (argValueToken ++ (p.value ++ (argValueEnd ++ l))))
      = argValueToken ++ (p.value ++ (argValueEnd ++ l)) :=
    skipGap_append p.gap_skipped _ rfl
  obtain ⟨hfind, htake, hdrop⟩ := glmTags.split (show argValueEnd ∈ allTags by decide)
    (p.value_free _ (by decide)) l
  rw [append_assoc, append_assoc, hskip, matchValue, if_pos (prefix_append _ _),
    drop_left, hfind, map_some, htake, hdrop]

/-- An argument is found behind the beginning of its key. -/
theorem matchPair_render (p : PairText) (l : Text) : ∀ {key : Text}, PlainText key →
    matchPair (key ++ argKeyEnd ++ (p.gap ++ argValueToken ++ (p.value ++ argValueEnd ++ l)))
      = some (key, p.value, l)
  | [], _ => by
    obtain ⟨c, t, hc⟩ := exists_cons_of_ne_nil (show argKeyEnd ≠ [] by decide)
    have hvalue := matchValue_render p l
    rw [nil_append]
    generalize p.gap ++ argValueToken ++ (p.value ++ argValueEnd ++ l) = m at hvalue ⊢
    have hcons : argKeyEnd ++ m = c :: (t ++ m) := by rw [hc]; rfl
    rw [hcons, matchPair, ← hcons, if_pos (prefix_append _ _), drop_left, hvalue]
  | c :: key, h => by
    have hno : ¬ argKeyEnd <+: c :: (key ++ argKeyEnd ++
        (p.gap ++ argValueToken ++ (p.value ++ argValueEnd ++ l))) := fun hp => by
      rw [append_assoc] at hp
      exact h argKeyEnd (by decide) (glmTags.prefix_of_append (u := c :: key) (by decide)
        (cons_ne_nil _ _) (glmTags.opens (by decide) _) hp).isInfix
    rw [cons_append, cons_append, matchPair, if_neg hno]
    rw [matchPair_render p l h.tail]
    rfl

/-- **The arguments of a tool call are found.** -/
theorem findPairs_render {behind : Text} (hbehind : PlainText behind) :
    ∀ {fuel : ℕ} {ps : List PairText}, ps.length ≤ fuel →
      findPairs fuel (ps.flatMap (·.render) ++ behind) = ps.map fun p => (p.key, p.value)
  | 0, ps, h => by
    obtain rfl := eq_nil_of_length_eq_zero (Nat.le_zero.mp h)
    rfl
  | fuel + 1, [], _ => by
    rw [flatMap_nil, nil_append, findPairs, find_eq_none_iff.mpr (hbehind argKeyToken (by decide))]
    rfl
  | fuel + 1, p :: ps, h => by
    have hstart := glmTags.split (show argKeyToken ∈ allTags by decide) (p.lead_free _ (by decide))
      (p.key ++ argKeyEnd ++ (p.gap ++ argValueToken ++
        (p.value ++ argValueEnd ++ (ps.flatMap (·.render) ++ behind))))
    have hrender : (p :: ps).flatMap (·.render) ++ behind = p.lead ++ (argKeyToken ++
        (p.key ++ argKeyEnd ++ (p.gap ++ argValueToken ++
          (p.value ++ argValueEnd ++ (ps.flatMap (·.render) ++ behind))))) := by
      simp [PairText.render]
    rw [hrender, findPairs, hstart.1]
    dsimp only
    rw [hstart.2.2, matchPair_render p _ p.key_free]
    dsimp only
    rw [findPairs_render hbehind (Nat.le_of_succ_le_succ h)]
    rfl

theorem findPairs_arguments (t : CallText) :
    findPairs t.arguments.length t.arguments = t.pairs.map fun p => (p.key, p.value) := by
  refine findPairs_render t.behind_free (length_le_flatMap (fun p hnil => ?_) t.behind t.pairs)
  rw [PairText.render] at hnil
  have hlen := congrArg List.length hnil
  simp only [length_append, length_nil] at hlen
  have hpos : 0 < argKeyToken.length := by decide
  omega

/-- **The contents of the tool calls are found.** -/
theorem findToolCalls_render {behind : Text} (hbehind : PlainText behind) :
    ∀ {fuel : ℕ} {ts : List CallText}, ts.length ≤ fuel →
      findToolCalls fuel (ts.flatMap (·.render) ++ behind) = ts.map fun t => t.header ++ t.arguments
  | 0, ts, h => by
    obtain rfl := eq_nil_of_length_eq_zero (Nat.le_zero.mp h)
    rfl
  | fuel + 1, [], _ => by
    rw [flatMap_nil, nil_append, findToolCalls, find_eq_none_iff.mpr (hbehind botToken (by decide))]
    rfl
  | fuel + 1, t :: ts, h => by
    have hstart := glmTags.split (show botToken ∈ allTags by decide) (t.lead_free _ (by decide))
      (t.header ++ t.arguments ++ (eotToken ++ (ts.flatMap (·.render) ++ behind)))
    have hend := glmTags.split (show eotToken ∈ allTags by decide)
      (t.not_infix_content (show eotToken ∈ [botToken, eotToken] by decide)) (ts.flatMap (·.render) ++ behind)
    have hrender : (t :: ts).flatMap (·.render) ++ behind = t.lead ++ (botToken ++
        (t.header ++ t.arguments ++ (eotToken ++ (ts.flatMap (·.render) ++ behind)))) := by
      simp [CallText.render]
    rw [hrender, findToolCalls, hstart.1]
    dsimp only
    rw [hstart.2.2, hend.1]
    dsimp only
    rw [hend.2.1, hend.2.2, findToolCalls_render hbehind (Nat.le_of_succ_le_succ h)]
    rfl

/-! ## 5. The calls of the whole text -/

/-- The parsed arguments of a tool call. -/
def CallText.parsed (py : Python) (tools : List Tool) (t : CallText) : Option (List (Text × Value)) :=
  t.pairs.mapM fun p => (argumentValue py t.name p.name p.value tools).map fun v => (p.name, v)

/-- The calls that a tool call gives. -/
def CallText.once (py : Python) (forwardUnknown : Bool) (tools : List Tool) (t : CallText) :
    Option (List ToolCallItem) :=
  (t.parsed py tools).bind fun arguments => parseBaseJson forwardUnknown t.name arguments tools

/-- Entries with different keys are put behind one another. -/
theorem foldlM_setItem {α : Type} (f : α → Option Value) (k : α → Text) :
    ∀ {l : List α} {d : List (Text × Value)}, (d.map (·.1) ++ l.map k).Nodup →
      l.foldlM (fun d a => (f a).map (setItem d (k a))) d
        = (l.mapM fun a => (f a).map fun v => (k a, v)).map (d ++ ·)
  | [], d, _ => by simp
  | a :: l, d, h => by
    rw [foldlM_cons, mapM_cons]
    cases f a with
    | none => rfl
    | some v =>
      have hnew : k a ∉ d.map (·.1) := fun hmem =>
        disjoint_of_nodup_append h hmem mem_cons_self
      have hnext : ((d ++ [(k a, v)]).map (·.1) ++ l.map k).Nodup := by simpa using h
      dsimp only [map_some, bind_eq_bind, bind_some]
      rw [setItem_append hnew, foldlM_setItem f k hnext]
      cases l.mapM fun a => (f a).map fun v => (k a, v) with
      | none => rfl
      | some m => simp

theorem CallText.parseToolCall_eq (py : Python) (forwardUnknown : Bool) (tools : List Tool)
    (t : CallText) : parseToolCall py forwardUnknown tools (t.header ++ t.arguments)
      = t.once py forwardUnknown tools := by
  have hpairs : parseArgumentPairs py (t.pairs.map fun p => (p.key, p.value)) t.name tools
      = t.parsed py tools := by
    rw [parseArgumentPairs, foldlM_map]
    refine (foldlM_setItem (d := []) (fun p : PairText => argumentValue py t.name p.name p.value tools)
      (·.name) t.distinct).trans ?_
    simp [CallText.parsed]
  rw [parseToolCall, t.splitLine_arguments]
  dsimp only
  rw [findPairs_arguments, hpairs]
  rfl

/-- **The calls of the whole text**; an exception leaves none. -/
theorem Document.detectAndParse_calls (py : Python) (forwardUnknown : Bool) (tools : List Tool)
    (d : Document) : (detectAndParse py forwardUnknown tools d.render).calls
      = ((d.calls.mapM (CallText.once py forwardUnknown tools)).map List.flatten).getD [] := by
  rcases hts : d.calls with _ | ⟨t, ts⟩
  · have hfind : find botToken d.render = none := by
      rw [Document.render, hts]
      exact find_eq_none_iff.mpr (d.behind_free _ (by decide))
    rw [detectAndParse, hfind]
    rfl
  · have hfind : find botToken d.render = some t.lead.length := by
      rw [Document.render, hts, flatMap_cons, CallText.render]
      simp only [append_assoc]
      exact glmTags.find_append (by decide) (t.lead_free _ (by decide)) _
    have hlen : d.calls.length ≤ d.render.length := by
      refine length_le_flatMap (fun t hnil => ?_) d.behind d.calls
      have hlen := congrArg List.length hnil
      simp only [CallText.render, length_append, length_nil] at hlen
      have hpos : 0 < botToken.length := by decide
      omega
    have hfound : (findToolCalls d.render.length d.render).mapM
        (parseToolCall py forwardUnknown tools)
        = d.calls.mapM (CallText.once py forwardUnknown tools) := by
      rw [Document.render] at hlen ⊢
      rw [findToolCalls_render d.behind_free hlen]
      simp [Function.comp_def, CallText.parseToolCall_eq]
    rw [detectAndParse, hfind]
    rw [hfound, hts]
    cases (t :: ts).mapM (CallText.once py forwardUnknown tools) with
    | none => rfl
    | some calls => rfl

end Glm4Moe

end FunctionCall

end Sglang
