/-
# Well-formed texts of Qwen3-coder

A text is well formed if it is a sequence of complete tool calls with text around them (`Document`):
names have no angle brackets, and no tag stands in a value or between two tags.  A tag has its `<` in
front, so a text without tags hides none of the tags that stand behind it, and a well-formed text shows
the tokens that it is built from (`Document.tokens_render`).
-/
import Sglang.FunctionCall.Qwen3CoderStream

namespace Sglang

open Lib List

namespace FunctionCall

/-! ## 1. Tokens of a text without tags -/

/-- A text in which no tag stands. -/
abbrev PlainText (text : Text) : Prop := TagFree possibleTags text

/-- A character of a text without tags is plain. -/
theorem next_plain {c : Char} {g l : Text} (hg : PlainText (c :: g)) (hl : Opens '<' l) (hne : l ≠ []) :
    next (c :: g ++ l) = some (.text c, g ++ l) := by
  have hno : ∀ tag ∈ possibleTags, ¬ tag <+: c :: (g ++ l) := fun tag ht hp =>
    hg tag ht (qwenTags.prefix_of_append (u := c :: g) ht (cons_ne_nil _ _) hl hp).isInfix
  by_cases hc : c = '<'
  · rw [cons_append, next, if_neg (not_not_intro hc), if_neg (hno _ (by decide)),
      if_neg (hno _ (by decide)), if_neg (hno _ (by decide)), if_neg (hno _ (by decide)),
      if_neg (hno _ (by decide)), if_neg]
    -- a tag that the text would begin has no second `<`
    intro hany
    obtain ⟨tag, ht, hp⟩ := any_eq_true.mp hany
    obtain ⟨t, rfl, hopen, -⟩ := qwenTags.head tag ht
    obtain ⟨d, l, rfl⟩ := exists_cons_of_ne_nil hne
    obtain rfl : d = '<' := hl d rfl
    have hmem := (cons_prefix_cons.mp (List.isPrefixOf_iff_prefix.mp hp)).2.mem
      (show '<' ∈ g ++ '<' :: l by simp)
    exact hopen hmem
  · exact next_text hc (g ++ l)

/-- **A text without tags is plain**, if something opens behind it. -/
theorem tokens_plain : ∀ {g l : Text}, PlainText g → Opens '<' l → l ≠ [] →
    tokens next (g ++ l) = (g.map .text ++ (tokens next l).1, (tokens next l).2)
  | [], _, _, _, _ => rfl
  | c :: g, l, hg, hl, hne => by
    rw [tokens_cons steady_next (next_plain hg hl hne), tokens_plain hg.tail hl hne]
    rfl

theorem plain_of_tagFree {g : Text} (hg : PlainText g) :
    ∀ t ∈ (tokens next g).1, ∃ c, t = .text c := by
  induction hlen : g.length using Nat.strongRecOn generalizing g with
  | ind n ih =>
    cases hn : next g with
    | none =>
      rw [tokens_stop steady_next hn]
      exact fun _ h => absurd h not_mem_nil
    | some p =>
      obtain ⟨t, r⟩ := p
      have hplain : ∃ c, t = .text c ∧ g = c :: r := by
        rcases g with _ | ⟨c, g⟩
        · cases hn
        · have hno : ∀ tag ∈ possibleTags, ¬ tag <+: c :: g := fun tag ht hp => hg tag ht hp.isInfix
          rw [next, if_neg (hno _ (by decide)), if_neg (hno _ (by decide)),
            if_neg (hno _ (by decide)), if_neg (hno _ (by decide)),
            if_neg (hno _ (by decide))] at hn
          split at hn
          · cases hn
            exact ⟨c, rfl, rfl⟩
          · split at hn
            · cases hn
            · cases hn
              exact ⟨c, rfl, rfl⟩
      obtain ⟨c, rfl, rfl⟩ := hplain
      rw [tokens_cons steady_next hn]
      intro t ht
      rcases mem_cons.mp ht with rfl | ht
      · exact ⟨c, rfl⟩
      · exact ih r.length (by rw [← hlen]; exact Nat.lt_succ_self _) hg.tail rfl t ht

theorem scanValue_value : ∀ {v : Text}, PlainText v → ∀ l,
    scanValue (v ++ (parameterEndToken ++ l)) = some (v, l)
  | [], _, l => if_pos (prefix_append parameterEndToken l)
  | c :: v, hv, l => by
    have hno : ∀ tag ∈ possibleTags, ¬ tag <+: c :: (v ++ (parameterEndToken ++ l)) :=
      fun tag ht hp => hv tag ht (qwenTags.prefix_of_append (u := c :: v) ht (cons_ne_nil _ _)
        (fun d hd => by cases hd; rfl) hp).isInfix
    rw [cons_append, scanValue, if_neg (hno _ (by decide)),
      if_neg (not_or.mpr ⟨hno _ (by decide), hno _ (by decide)⟩), scanValue_value hv.tail]
    rfl

/-! ## 2. Well-formed texts -/

/-- A complete parameter, with the text in front of it. -/
structure ParameterText where
  lead : Text
  name : Text
  value : Text
  lead_free : PlainText lead
  name_plain : '<' ∉ name ∧ '>' ∉ name
  value_free : PlainText value

def ParameterText.render (p : ParameterText) : Text :=
  p.lead ++ (parameterPrefix ++ (p.name ++ ('>' :: (p.value ++ parameterEndToken))))

def ParameterText.tokens (p : ParameterText) : List Token :=
  p.lead.map .text ++ [.parameter p.name p.value]

/-- A complete function: no name is given to two of its parameters. -/
structure FunctionText where
  lead : Text
  name : Text
  parameters : List ParameterText
  behind : Text
  lead_free : PlainText lead
  name_plain : '<' ∉ name ∧ '>' ∉ name
  distinct : (parameters.map (·.name)).Nodup
  behind_free : PlainText behind

/-- `params_str`. -/
def FunctionText.paramsStr (f : FunctionText) : Text :=
  f.parameters.flatMap (·.render) ++ f.behind

def FunctionText.render (f : FunctionText) : Text :=
  f.lead ++ (toolCallPrefix ++ (f.name ++ ('>' :: f.paramsStr) ++ functionEndToken))

def FunctionText.tokens (f : FunctionText) : List Token :=
  f.lead.map .text ++ (.function f.name :: (f.parameters.flatMap (·.tokens) ++
    (f.behind.map .text ++ [.functionEnd])))

/-- A complete tool call. -/
structure ToolCallText where
  lead : Text
  functions : List FunctionText
  behind : Text
  lead_free : PlainText lead
  behind_free : PlainText behind

/-- `tool_content`. -/
def ToolCallText.content (t : ToolCallText) : Text := t.functions.flatMap (·.render) ++ t.behind

def ToolCallText.render (t : ToolCallText) : Text :=
  t.lead ++ (toolCallStartToken ++ (t.content ++ toolCallEndToken))

def ToolCallText.tokens (t : ToolCallText) : List Token :=
  t.lead.map .text ++ (.toolCall :: (t.functions.flatMap (·.tokens) ++
    (t.behind.map .text ++ [.toolCallEnd])))

/-- **A well-formed text**: complete tool calls, and text without tags around them. -/
structure Document where
  toolCalls : List ToolCallText
  behind : Text
  behind_free : PlainText behind

def Document.render (d : Document) : Text := d.toolCalls.flatMap (·.render) ++ d.behind

/-- The functions of all tool calls. -/
def Document.functions (d : Document) : List FunctionText := d.toolCalls.flatMap (·.functions)

/-! ## 3. The tokens of a well-formed text -/

/-- The text shows the tokens, whatever follows it. -/
def Reads (u : Text) (ts : List Token) : Prop :=
  ∀ l, tokens next (u ++ l) = (ts ++ (tokens next l).1, (tokens next l).2)

theorem Reads.append {u v : Text} {ts us : List Token} (hu : Reads u ts) (hv : Reads v us) :
    Reads (u ++ v) (ts ++ us) := fun l => by
  rw [append_assoc, hu, hv, append_assoc]

theorem Reads.flatMap {α : Type} {f : α → Text} {g : α → List Token} :
    ∀ {l : List α}, (∀ a ∈ l, Reads (f a) (g a)) → Reads (l.flatMap f) (l.flatMap g)
  | [], _ => fun _ => rfl
  | a :: l, h => by
    rw [flatMap_cons]
    exact (h a mem_cons_self).append (Reads.flatMap fun b hb => h b (mem_cons_of_mem _ hb))

theorem Reads.behindPlain {g u : Text} {t : Token} {ts : List Token} (hg : PlainText g)
    (hu : Reads u (t :: ts)) (hopen : ∀ l, Opens '<' (u ++ l)) : Reads (g ++ u) (g.map .text ++ (t :: ts)) :=
  fun l => by
    have hne : u ++ l ≠ [] := fun h => by
      have := hu l
      rw [h] at this
      exact absurd (congrArg Prod.fst this) (cons_ne_nil _ _).symm
    rw [append_assoc, tokens_plain hg (hopen l) hne, hu, append_assoc]

theorem splitName_name {name : Text} (h : '>' ∉ name) (l : Text) :
    splitName (name ++ '>' :: l) = some (name, l) := by
  rw [splitName, find_singleton_append h, find_singleton_self]
  simp

theorem next_tag (tag r : Text) (ht : tag ∈ possibleTags) : ∃ c l, tag ++ r = c :: l ∧
    c = '<' ∧ tag <+: c :: l ∧ (c :: l).drop tag.length = r ∧
    ∀ tag' ∈ possibleTags, tag' ≠ tag → ¬ tag' <+: c :: l := by
  obtain ⟨t, rfl, -⟩ := qwenTags.head tag ht
  have hp : '<' :: t <+: '<' :: (t ++ r) := prefix_append ('<' :: t) r
  refine ⟨'<', t ++ r, rfl, rfl, hp, drop_left, fun tag' ht' hne h => ?_⟩
  exact hne (qwenTags.unique ht' ht h hp)

theorem reads_toolCall : Reads toolCallStartToken [.toolCall] := fun l => by
  obtain ⟨c, r, heq, rfl, hp, hdrop, -⟩ := next_tag toolCallStartToken l (by decide)
  have hnext : next (toolCallStartToken ++ l) = some (.toolCall, l) := by
    rw [heq, next, if_neg (not_not_intro rfl), if_pos hp, hdrop]
  exact tokens_cons steady_next hnext

theorem reads_functionEnd : Reads functionEndToken [.functionEnd] := fun l => by
  obtain ⟨c, r, heq, rfl, hp, hdrop, hno⟩ := next_tag functionEndToken l (by decide)
  have hnext : next (functionEndToken ++ l) = some (.functionEnd, l) := by
    rw [heq, next, if_neg (not_not_intro rfl), if_neg (hno _ (by decide) (by decide)),
      if_neg (hno _ (by decide) (by decide)), if_neg (hno _ (by decide) (by decide)), if_pos hp, hdrop]
  exact tokens_cons steady_next hnext

theorem reads_toolCallEnd : Reads toolCallEndToken [.toolCallEnd] := fun l => by
  obtain ⟨c, r, heq, rfl, hp, hdrop, hno⟩ := next_tag toolCallEndToken l (by decide)
  have hnext : next (toolCallEndToken ++ l) = some (.toolCallEnd, l) := by
    rw [heq, next, if_neg (not_not_intro rfl), if_neg (hno _ (by decide) (by decide)),
      if_neg (hno _ (by decide) (by decide)), if_neg (hno _ (by decide) (by decide)),
      if_neg (hno _ (by decide) (by decide)), if_pos hp, hdrop]
  exact tokens_cons steady_next hnext

theorem reads_function {name : Text} (h : '>' ∉ name) :
    Reads (toolCallPrefix ++ (name ++ ['>'])) [.function name] := fun l => by
  rw [append_assoc, append_assoc]
  obtain ⟨c, r, heq, rfl, hp, hdrop, hno⟩ :=
    next_tag toolCallPrefix (name ++ (['>'] ++ l)) (by decide)
  have hnext : next (toolCallPrefix ++ (name ++ (['>'] ++ l))) = some (.function name, l) := by
    rw [heq, next, if_neg (hno _ (by decide) (by decide)), if_pos hp, hdrop, singleton_append,
      splitName_name h]
    rfl
  exact tokens_cons steady_next hnext

theorem ParameterText.reads (p : ParameterText) : Reads p.render p.tokens := by
  refine Reads.behindPlain p.lead_free (fun l => ?_) fun l => by
    rw [append_assoc]
    exact qwenTags.opens (by decide) _
  simp only [append_assoc, cons_append]
  obtain ⟨c, r, heq, rfl, hp, hdrop, hno⟩ := next_tag parameterPrefix
    (p.name ++ '>' :: (p.value ++ (parameterEndToken ++ l))) (by decide)
  have hnext : next (parameterPrefix ++ (p.name ++ '>' :: (p.value ++ (parameterEndToken ++ l))))
      = some (.parameter p.name p.value, l) := by
    rw [heq, next, if_neg (hno _ (by decide) (by decide)), if_neg (hno _ (by decide) (by decide)),
      if_pos hp, hdrop, splitName_name p.name_plain.2, Option.bind_some,
      scanValue_value p.value_free]
    rfl
  exact tokens_cons steady_next hnext

theorem FunctionText.reads (f : FunctionText) : Reads f.render f.tokens := by
  have hbehind : Reads (f.behind ++ functionEndToken) (f.behind.map .text ++ [.functionEnd]) :=
    reads_functionEnd.behindPlain f.behind_free (qwenTags.opens (by decide))
  have hbody := (reads_function f.name_plain.2).append
    ((Reads.flatMap fun p (_ : p ∈ f.parameters) => p.reads).append hbehind)
  have h := Reads.behindPlain f.lead_free hbody fun l => by
    rw [append_assoc, append_assoc]
    exact qwenTags.opens (by decide) _
  simpa [FunctionText.render, FunctionText.paramsStr, FunctionText.tokens] using h

theorem ToolCallText.reads (t : ToolCallText) : Reads t.render t.tokens := by
  have hbehind : Reads (t.behind ++ toolCallEndToken) (t.behind.map .text ++ [.toolCallEnd]) :=
    reads_toolCallEnd.behindPlain t.behind_free (qwenTags.opens (by decide))
  have hbody := reads_toolCall.append
    ((Reads.flatMap fun f (_ : f ∈ t.functions) => f.reads).append hbehind)
  have h := Reads.behindPlain t.lead_free hbody fun l => by
    rw [append_assoc]
    exact qwenTags.opens (by decide) _
  simpa [ToolCallText.render, ToolCallText.content, ToolCallText.tokens] using h

/-- **The tokens of a well-formed text.** -/
theorem Document.tokens_render (d : Document) : tokens next d.render
    = (d.toolCalls.flatMap (·.tokens) ++ (tokens next d.behind).1, (tokens next d.behind).2) :=
  Reads.flatMap (fun t (_ : t ∈ d.toolCalls) => t.reads) d.behind

/-- A call with one parameter, and a line break behind it. -/
def oneCall : Document where
  toolCalls :=
    [{ lead := []
       functions :=
        [{ lead := []
           name := "f".toList
           parameters := [⟨[], "x".toList, "1".toList, by decide, by decide, by decide⟩]
           behind := []
           lead_free := by decide
           name_plain := by decide
           distinct := by decide
           behind_free := by decide }]
       behind := []
       lead_free := by decide
       behind_free := by decide }]
  behind := ['\n']
  behind_free := by decide

example : (tokens next oneCall.render).1 = [.toolCall, .function "f".toList,
    .parameter "x".toList "1".toList, .functionEnd, .toolCallEnd, .text '\n'] := by decide

end FunctionCall

end Sglang
