/-
# Qwen3-coder tool calls, read at once and in a stream

The fragments that the stream sends for a function are the text of its members (`Sends`), and so are the
arguments that the regular expressions of `detect_and_parse` find in a well-formed text
(`Document.detectAndParse_eq`): the keys are escaped in one of them and not in the other, and the values
are the same.

The stream does not depend on the cut, and agrees with the whole text, exactly if every parameter of the
text converts to a value that `json.dumps` accepts (`Convertible`): the stream calls it outside of any
`try`.
-/
import Sglang.Lib.OptionLoops
import Sglang.FunctionCall.Qwen3CoderText
import Sglang.Lib.JsonAssembly

namespace Sglang

open Lib List Option

namespace FunctionCall

/-! ## 1. The members of a function -/

/-- The value of a parameter, if `json.dumps` accepts it. -/
def jsonValue (py : Python) (paramConfig : Json) (name rawValue : Text) : Option Json :=
  (convertParamValue py (cleanValue rawValue) name paramConfig).bind Value.dumped

/-- The members that the parameters give. -/
def members (py : Python) (paramConfig : Json) (parameters : List ParameterText) :
    Option (List (Text × Json)) :=
  parameters.mapM fun p => (jsonValue py paramConfig p.name p.value).map fun v => (p.name, v)

/-- A function with its members. -/
def FunctionText.members (py : Python) (tools : Option (List Tool)) (f : FunctionText) :
    Option (Text × List (Text × Json)) :=
  (FunctionCall.members py (getArgumentsConfig (some f.name) tools) f.parameters).map fun m =>
    (f.name, m)

theorem jsonKeyVal_eq (py : Python) (tools : Option (List Tool)) (funcName : Option Text)
    (paramName rawValue : Text) : jsonKeyVal py tools funcName paramName rawValue
      = (jsonValue py (getArgumentsConfig funcName tools) paramName rawValue).map fun v =>
        Json.dumpsStr true paramName ++ ": ".toList ++ Json.dumps v := by
  rw [jsonKeyVal, jsonValue]
  cases convertParamValue py (cleanValue rawValue) paramName (getArgumentsConfig funcName tools) with
  | none => rfl
  | some o => rfl

/-! ## 2. What the stream sends -/

theorem calls_append (es es' : List Event) : calls (es ++ es') = calls es ++ calls es' :=
  filterMap_append

theorem calls_plain (s : State) (u : Text) : calls (s.plain u) = [] := by
  rw [State.plain]
  split
  · rfl
  · rw [calls, filterMap_map]
    exact filterMap_eq_nil_iff.mpr fun _ _ => rfl

theorem sent_openBrace (s : State) :
    Sent s.currentToolId (if s.jsonStarted then [] else "\x7b".toList) (calls s.openBrace) := by
  rw [State.openBrace]
  split
  · exact Sent.nil _
  · exact Sent.singleton _ _

variable {s s' : State} {u : Text} {es : List Event}

/-- Plain text in front of other tokens sends nothing. -/
theorem handle_plain_append {py : Python} {tools : Option (List Tool)} {ts : List Token}
    (h : handle (act py tools) s (u.map .text ++ ts) = some (s', es)) :
    ∃ es', handle (act py tools) s ts = some (s', es') ∧ calls es = calls es' := by
  rw [handle_append, handle_text] at h
  obtain ⟨q, hq, heq⟩ := map_eq_some_iff.mp h
  cases heq
  exact ⟨q.2, hq, by rw [calls_append, calls_plain, nil_append]⟩

/-- What members add to the arguments: a separator or the opening brace, if there are any. -/
def sentMembers (started : Bool) (m : List (Text × Json)) : Text :=
  if m = [] then [] else (if started then ", ".toList else "\x7b".toList) ++ Json.dumpsMembers true m

theorem sentMembers_cons (started : Bool) (k : Text) (v : Json) (m : List (Text × Json)) :
    sentMembers started ((k, v) :: m) = (if started then ", ".toList else "\x7b".toList) ++
      (Json.dumpsStr true k ++ ": ".toList ++ Json.dumps v) ++ sentMembers true m := by
  rw [sentMembers, Json.dumpsMembers_cons, sentMembers]
  have hcolon : ": ".toList = [':', ' '] := rfl
  have hcomma : ", ".toList = [',', ' '] := rfl
  by_cases hm : m = []
  · simp [hm, hcolon]
  · simp [hm, hcolon, hcomma]

/-- The state between the parameters of a function. -/
structure Within (funcName : Text) (s : State) : Prop where
  named : s.currentFuncName = some funcName
  started : s.jsonStarted = decide (0 < s.currentToolParamCount)

variable {funcName : Text}

theorem parameter_spec {py : Python} {tools : Option (List Tool)}
    {name rawValue : Text} (hs : Within funcName s)
    (h : s.parameter py tools name rawValue = some (s', es)) :
    ∃ v, jsonValue py (getArgumentsConfig (some funcName) tools) name rawValue = some v ∧
      Within funcName s' ∧ s'.currentToolId = s.currentToolId ∧ s'.jsonStarted = true ∧
      Sent s.currentToolId ((if s.jsonStarted then ", ".toList else "\x7b".toList) ++
        (Json.dumpsStr true name ++ ": ".toList ++ Json.dumps v)) (calls es) := by
  rw [State.parameter, jsonKeyVal_eq, hs.named, Option.map_map] at h
  obtain ⟨v, hv, heq⟩ := map_eq_some_iff.mp h
  cases heq
  refine ⟨v, hv, ⟨rfl, ?_⟩, rfl, rfl, ?_⟩
  · exact (decide_eq_true (Nat.succ_pos _)).symm
  · rw [calls_append]
    by_cases hcount : 0 < s.currentToolParamCount
    · have hstarted : s.jsonStarted = true := hs.started.trans (decide_eq_true hcount)
      have hopen := sent_openBrace s
      rw [hstarted] at hopen
      rw [hstarted, if_pos hcount]
      exact hopen.append (Sent.singleton _ _)
    · have hstarted : s.jsonStarted = false := hs.started.trans (decide_eq_false hcount)
      have hopen := sent_openBrace s
      rw [hstarted] at hopen
      rw [hstarted, if_neg hcount]
      exact hopen.append (Sent.singleton _ _)

/-- **The parameters of a function send its members.** -/
theorem parameters_spec {py : Python} {tools : Option (List Tool)} :
    ∀ {ps : List ParameterText} {s s' : State} {es : List Event}, Within funcName s →
    handle (act py tools) s (ps.flatMap (·.tokens)) = some (s', es) →
    ∃ m, members py (getArgumentsConfig (some funcName) tools) ps = some m ∧ Within funcName s' ∧
      s'.currentToolId = s.currentToolId ∧ s'.jsonStarted = (s.jsonStarted || !m.isEmpty) ∧
      Sent s.currentToolId (sentMembers s.jsonStarted m) (calls es)
  | [], s, s', es, hs, h => by
    cases h
    exact ⟨[], rfl, hs, rfl, (Bool.or_false _).symm, Sent.nil _⟩
  | p :: ps, s, s', es, hs, h => by
    rw [flatMap_cons, ParameterText.tokens, append_assoc] at h
    obtain ⟨es', h, hes⟩ := handle_plain_append h
    obtain ⟨⟨s₁, es₁⟩, h₁, h⟩ := bind_eq_some_iff.mp h
    obtain ⟨⟨s₂, es₂⟩, h₂, heq⟩ := map_eq_some_iff.mp h
    cases heq
    obtain ⟨v, hv, hs₁, hid₁, hstarted₁, hsent₁⟩ := parameter_spec hs h₁
    obtain ⟨m, hm, hs₂, hid₂, hstarted₂, hsent₂⟩ := parameters_spec hs₁ h₂
    refine ⟨(p.name, v) :: m, ?_, hs₂, hid₂.trans hid₁, ?_, ?_⟩
    · rw [members, mapM_cons, hv]
      exact (congrArg (Option.bind · _) hm).trans rfl
    · rw [hstarted₂, hstarted₁]
      simp
    · rw [hes, calls_append, sentMembers_cons]
      rw [hid₁, hstarted₁] at hsent₂
      exact hsent₁.append hsent₂

/-- The calls name the functions, one after another from the tool `i` on, and send their members. -/
def Answers (i : ℤ) : List (Text × List (Text × Json)) → List ToolCallItem → Prop
  | [], calls => calls = []
  | f :: fs, calls => ∃ items more,
    calls = { toolIndex := i, name := some f.1, parameters := [] } :: (items ++ more) ∧
    Sent i ("\x7b".toList ++ Json.dumpsMembers true f.2 ++ "\x7d".toList) items ∧ Answers (i + 1) fs more

theorem Answers.append {gs : List (Text × List (Text × Json))} {calls' : List ToolCallItem} :
    ∀ {i : ℤ} {fs : List (Text × List (Text × Json))} {calls : List ToolCallItem},
    Answers i fs calls → Answers (i + fs.length) gs calls' → Answers i (fs ++ gs) (calls ++ calls')
  | i, [], calls, h, h' => by
    obtain rfl : calls = [] := h
    simpa using h'
  | i, f :: fs, calls, h, h' => by
    obtain ⟨items, more, rfl, hitems, hmore⟩ := h
    refine ⟨items, more ++ calls', by simp, hitems, hmore.append ?_⟩
    rwa [length_cons, Nat.cast_succ, add_comm (fs.length : ℤ), ← add_assoc] at h'

/-- Tokens that name the functions and send their members, if they are handled at all. -/
def Sends (py : Python) (tools : Option (List Tool)) (ts : List Token) (fs : List FunctionText) :
    Prop :=
  ∀ s s' es, handle (act py tools) s ts = some (s', es) →
    ∃ ms, fs.mapM (FunctionText.members py tools) = some ms ∧
      s'.currentToolId = s.currentToolId + fs.length ∧ Answers (s.currentToolId + 1) ms (calls es)

namespace Sends

variable {py : Python} {tools : Option (List Tool)} {ts us : List Token} {fs gs : List FunctionText}

theorem append (h : Sends py tools ts fs) (h' : Sends py tools us gs) :
    Sends py tools (ts ++ us) (fs ++ gs) := by
  intro s s' es hes
  rw [handle_append] at hes
  obtain ⟨⟨s₁, es₁⟩, h₁, hes⟩ := bind_eq_some_iff.mp hes
  obtain ⟨⟨s₂, es₂⟩, h₂, heq⟩ := map_eq_some_iff.mp hes
  cases heq
  obtain ⟨ms, hms, hid, hans⟩ := h s s₁ es₁ h₁
  obtain ⟨ms', hms', hid', hans'⟩ := h' s₁ s₂ es₂ h₂
  refine ⟨ms ++ ms', mapM_append_some hms hms', ?_, ?_⟩
  · rw [hid', hid, length_append, Nat.cast_add, add_assoc]
  · rw [calls_append]
    refine hans.append ?_
    rwa [length_mapM hms, add_right_comm, ← hid]

theorem nil (hts : ∀ s, ∃ s' es, handle (act py tools) s ts = some (s', es) ∧
    s'.currentToolId = s.currentToolId ∧ calls es = []) : Sends py tools ts [] := by
  intro s s' es h
  obtain ⟨s₁, es₁, h₁, hid, hcalls⟩ := hts s
  rw [h₁] at h
  cases h
  exact ⟨[], rfl, by simp [hid], hcalls⟩

theorem plain (u : Text) : Sends py tools (u.map .text) [] :=
  nil fun s => ⟨s, s.plain u, handle_text py tools s u, rfl, calls_plain s u⟩

theorem toolCall : Sends py tools [.toolCall] [] := nil fun _ => ⟨_, _, rfl, rfl, rfl⟩

theorem toolCallEnd : Sends py tools [.toolCallEnd] [] := nil fun _ => ⟨_, _, rfl, rfl, rfl⟩

theorem flatMap {α : Type} {g : α → List Token} {f : α → List FunctionText} :
    ∀ {l : List α}, (∀ a ∈ l, Sends py tools (g a) (f a)) →
      Sends py tools (l.flatMap g) (l.flatMap f)
  | [], _ => plain []
  | a :: l, h => by
    rw [flatMap_cons]
    exact (h a mem_cons_self).append (flatMap fun b hb => h b (mem_cons_of_mem _ hb))

end Sends

/-- **A function is named and its members are sent.** -/
theorem FunctionText.sends (py : Python) (tools : Option (List Tool)) (f : FunctionText) :
    Sends py tools f.tokens [f] := by
  intro s s' es h
  obtain ⟨es', h, hes⟩ := handle_plain_append h
  obtain ⟨⟨s₁, es₁⟩, h₁, heq⟩ := map_eq_some_iff.mp h
  cases heq
  rw [handle_append] at h₁
  obtain ⟨⟨s₂, es₂⟩, h₂, h₁⟩ := bind_eq_some_iff.mp h₁
  obtain ⟨⟨s₃, es₃⟩, h₃, heq⟩ := map_eq_some_iff.mp h₁
  cases heq
  have hwithin : Within f.name (s.named f.name) := ⟨rfl, rfl⟩
  obtain ⟨m, hm, -, hid, hstarted, hsent⟩ := parameters_spec hwithin h₂
  obtain ⟨es₄, h₄, hes₄⟩ := handle_plain_append h₃
  cases h₄
  have hmembers : FunctionText.members py tools f = some (f.name, m) := by
    rw [FunctionText.members, hm]
    rfl
  refine ⟨[(f.name, m)], ?_, hid.trans rfl, ?_⟩
  · rw [mapM_cons, hmembers]
    rfl
  · refine ⟨calls es₂ ++ calls es₃, [], ?_, ?_, rfl⟩
    · rw [hes, calls_append, calls_append, append_nil]
      rfl
    · have hcalls : calls es₃ = calls s₂.openBrace ++ calls [s₂.item "\x7d"] := by
        rw [hes₄, calls_append, State.functionEnd, calls_append]
        exact append_nil _
      rw [hcalls]
      have hbrace := sent_openBrace s₂
      rw [hstarted, hid] at hbrace
      have hend : Sent (s.named f.name).currentToolId "\x7d".toList (calls [s₂.item "\x7d"]) := by
        rw [← hid]
        exact Sent.singleton _ _
      have hall := hsent.append (hbrace.append hend)
      have htext : sentMembers (s.named f.name).jsonStarted m ++
          ((if (s.named f.name).jsonStarted || !m.isEmpty then [] else "\x7b".toList) ++ "\x7d".toList)
          = "\x7b".toList ++ Json.dumpsMembers true m ++ "\x7d".toList := by
        cases m with
        | nil => rfl
        | cons p m => simp [sentMembers, State.named]
      rw [htext] at hall
      exact hall

theorem ToolCallText.sends (py : Python) (tools : Option (List Tool)) (t : ToolCallText) :
    Sends py tools t.tokens t.functions := by
  have hfunctions : Sends py tools (t.functions.flatMap (·.tokens)) t.functions := by
    have h := Sends.flatMap fun f (_ : f ∈ t.functions) => f.sends py tools
    rwa [flatMap_singleton'] at h
  have h := (Sends.plain t.lead).append (Sends.toolCall.append
    (hfunctions.append ((Sends.plain t.behind).append Sends.toolCallEnd)))
  simpa [ToolCallText.tokens] using h

/-- **A well-formed text sends the members of its functions**, if all its tokens are handled. -/
theorem Document.sends (py : Python) (tools : Option (List Tool)) (d : Document) :
    Sends py tools (tokens next d.render).1 d.functions := by
  obtain ⟨u, hu⟩ : ∃ u : Text, (tokens next d.behind).1 = u.map .text := by
    have hplain := plain_of_tagFree d.behind_free
    generalize (tokens next d.behind).1 = ts at hplain
    induction ts with
    | nil => exact ⟨[], rfl⟩
    | cons t ts ih =>
      obtain ⟨u, rfl⟩ := ih fun t ht => hplain t (mem_cons_of_mem _ ht)
      obtain ⟨c, rfl⟩ := hplain t mem_cons_self
      exact ⟨c :: u, rfl⟩
  rw [d.tokens_render, hu]
  have h := (Sends.flatMap fun t (_ : t ∈ d.toolCalls) => t.sends py tools).append (Sends.plain u)
  rwa [append_nil] at h

/-! ## 3. What the regular expressions find -/

variable {tag : Text}

theorem ParameterText.not_infix (ht : tag ∈ possibleTags) (hopen : tag ≠ parameterPrefix)
    (hend : tag ≠ parameterEndToken) (hu : ¬ tag <:+: u) (p : ParameterText) :
    ¬ tag <:+: p.render ++ u := by
  have hbehind : ¬ tag <:+: parameterEndToken ++ ([] ++ u) :=
    qwenTags.not_infix_tag ht (by decide) hend not_mem_nil hu
  have hvalue : ¬ tag <:+: p.value ++ (parameterEndToken ++ ([] ++ u)) :=
    qwenTags.not_infix_append ht (p.value_free tag ht) hbehind (qwenTags.opens (by decide) _)
  have hname : ¬ tag <:+: parameterPrefix ++ ((p.name ++ ['>']) ++
      (p.value ++ (parameterEndToken ++ ([] ++ u)))) :=
    qwenTags.not_infix_tag ht (by decide) hopen (by simpa using p.name_plain.1) hvalue
  have h := qwenTags.not_infix_append ht (p.lead_free tag ht) hname (qwenTags.opens (by decide) _)
  simpa [ParameterText.render] using h

theorem FunctionText.not_infix_paramsStr (ht : tag ∈ possibleTags)
    (hopen : tag ≠ parameterPrefix) (hend : tag ≠ parameterEndToken) (hu : ¬ tag <:+: u)
    (hu' : Opens '<' u) (f : FunctionText) : ¬ tag <:+: f.paramsStr ++ u := by
  rw [FunctionText.paramsStr, append_assoc]
  exact flatMap_append_induction (P := fun u => ¬ tag <:+: u)
    (fun p _ hu => p.not_infix ht hopen hend hu) (qwenTags.not_infix_append ht (f.behind_free tag ht) hu hu') f.parameters

/-- The match of a function ends at its end token. -/
theorem FunctionText.not_infix_body (f : FunctionText) :
    ¬ functionEndToken <:+: f.name ++ '>' :: f.paramsStr := by
  have hparams : ¬ functionEndToken <:+: f.paramsStr ++ [] :=
    f.not_infix_paramsStr (by decide) (by decide) (by decide)
      (by rw [infix_nil]; decide) (fun _ h => by cases h)
  intro h
  refine hparams (qwenTags.infix_of_append (w := f.name ++ ['>']) (by decide)
    (by simpa using f.name_plain.1) ?_)
  simpa using h

theorem FunctionText.not_infix (hu : ¬ toolCallEndToken <:+: u) (f : FunctionText) :
    ¬ toolCallEndToken <:+: f.render ++ u := by
  have hmem : toolCallEndToken ∈ possibleTags := by decide
  have hbehind : ¬ toolCallEndToken <:+: functionEndToken ++ ([] ++ u) :=
    qwenTags.not_infix_tag hmem (by decide) (by decide) not_mem_nil hu
  have hparams := f.not_infix_paramsStr hmem (by decide) (by decide) hbehind
    (qwenTags.opens (by decide) _)
  have hname : ¬ toolCallEndToken <:+: toolCallPrefix ++ ((f.name ++ ['>']) ++
      (f.paramsStr ++ (functionEndToken ++ ([] ++ u)))) :=
    qwenTags.not_infix_tag hmem (by decide) (by decide) (by simpa using f.name_plain.1) hparams
  have h := qwenTags.not_infix_append hmem (f.lead_free _ hmem) hname (qwenTags.opens (by decide) _)
  simpa [FunctionText.render] using h

theorem ToolCallText.not_infix_content (t : ToolCallText) :
    ¬ toolCallEndToken <:+: t.content :=
  flatMap_append_induction (P := fun u => ¬ toolCallEndToken <:+: u) (fun f _ hu => f.not_infix hu)
    (t.behind_free _ (by decide)) t.functions

/-- **The contents of the tool calls are found.** -/
theorem findToolCalls_render {behind : Text} (hbehind : PlainText behind) :
    ∀ {fuel : ℕ} {ts : List ToolCallText}, ts.length ≤ fuel →
      findToolCalls fuel (ts.flatMap (·.render) ++ behind) = ts.map (·.content)
  | 0, ts, h => by
    obtain rfl := eq_nil_of_length_eq_zero (Nat.le_zero.mp h)
    rfl
  | fuel + 1, [], _ => by
    rw [flatMap_nil, nil_append, findToolCalls,
      find_eq_none_iff.mpr (hbehind toolCallStartToken (by decide))]
    rfl
  | fuel + 1, t :: ts, h => by
    have hstart := qwenTags.split (by decide) (t.lead_free toolCallStartToken (by decide))
      (t.content ++ (toolCallEndToken ++ (ts.flatMap (·.render) ++ behind)))
    have hend := qwenTags.split (by decide) t.not_infix_content (ts.flatMap (·.render) ++ behind)
    rw [flatMap_cons, ToolCallText.render, findToolCalls]
    simp only [append_assoc]
    rw [hstart.1]
    dsimp only
    rw [hstart.2.2, hend.1]
    dsimp only
    rw [hend.2.1, hend.2.2, findToolCalls_render hbehind (Nat.le_of_succ_le_succ h)]
    rfl

/-- **The functions of a tool call are found.** -/
theorem findFunctions_render {behind : Text} (hbehind : PlainText behind) :
    ∀ {fuel : ℕ} {fs : List FunctionText}, fs.length ≤ fuel →
      findFunctions fuel (fs.flatMap (·.render) ++ behind)
        = fs.map fun f => f.name ++ '>' :: f.paramsStr
  | 0, fs, h => by
    obtain rfl := eq_nil_of_length_eq_zero (Nat.le_zero.mp h)
    rfl
  | fuel + 1, [], _ => by
    rw [flatMap_nil, nil_append, findFunctions,
      find_eq_none_iff.mpr (hbehind toolCallPrefix (by decide))]
    rfl
  | fuel + 1, f :: fs, h => by
    have hstart := qwenTags.split (by decide) (f.lead_free toolCallPrefix (by decide))
      (f.name ++ '>' :: f.paramsStr ++ (functionEndToken ++ (fs.flatMap (·.render) ++ behind)))
    have hend := qwenTags.split (by decide) f.not_infix_body (fs.flatMap (·.render) ++ behind)
    rw [flatMap_cons, FunctionText.render, findFunctions]
    rw [append_assoc, append_assoc, append_assoc, append_assoc _ functionEndToken, hstart.1]
    dsimp only
    rw [hstart.2.2, hend.1]
    dsimp only
    rw [hend.2.1, hend.2.2, findFunctions_render hbehind (Nat.le_of_succ_le_succ h)]
    rfl

theorem scanParameter_value : ∀ {v : Text}, PlainText v → ∀ l,
    scanParameter (v ++ (parameterEndToken ++ l)) = (v, l)
  | [], _, l => if_pos (prefix_append parameterEndToken l)
  | c :: v, hv, l => by
    have hno : ∀ tag ∈ possibleTags, ¬ tag <+: c :: (v ++ (parameterEndToken ++ l)) :=
      fun tag ht hp => hv tag ht (qwenTags.prefix_of_append (u := c :: v) ht (cons_ne_nil _ _)
        (qwenTags.opens (by decide) l) hp).isInfix
    have hlong : c :: (v ++ (parameterEndToken ++ l)) ≠ ['\n'] := fun h => by
      have hlen := congrArg List.length h
      simp only [length_cons, length_append, length_nil] at hlen
      have hpos : 0 < parameterEndToken.length := by decide
      omega
    rw [cons_append, scanParameter, if_neg (hno _ (by decide)),
      if_neg (by simp only [not_or]; exact ⟨hno _ (by decide), hno _ (by decide), hlong⟩),
      scanParameter_value hv.tail]

/-- **The parameters of a function are found.** -/
theorem findParameters_render {behind : Text} (hbehind : PlainText behind) :
    ∀ {fuel : ℕ} {ps : List ParameterText}, ps.length ≤ fuel →
      findParameters fuel (ps.flatMap (·.render) ++ behind)
        = ps.map fun p => p.name ++ '>' :: p.value
  | 0, ps, h => by
    obtain rfl := eq_nil_of_length_eq_zero (Nat.le_zero.mp h)
    rfl
  | fuel + 1, [], _ => by
    rw [flatMap_nil, nil_append, findParameters,
      find_eq_none_iff.mpr (hbehind parameterPrefix (by decide))]
    rfl
  | fuel + 1, p :: ps, h => by
    have hstart := qwenTags.split (by decide) (p.lead_free parameterPrefix (by decide))
      (p.name ++ '>' :: p.value ++ (parameterEndToken ++ (ps.flatMap (·.render) ++ behind)))
    have hfree : PlainText (p.name ++ '>' :: p.value) := fun tag ht hi =>
      p.value_free tag ht (qwenTags.infix_of_append (w := p.name ++ ['>']) ht
        (by simpa using p.name_plain.1) (by simpa using hi))
    have hrender : (p :: ps).flatMap (·.render) ++ behind = p.lead ++ (parameterPrefix ++
        (p.name ++ '>' :: p.value ++ (parameterEndToken ++ (ps.flatMap (·.render) ++ behind)))) := by
      simp [ParameterText.render]
    rw [hrender, findParameters, hstart.1]
    dsimp only
    rw [hstart.2.2, scanParameter_value hfree,
      findParameters_render hbehind (Nat.le_of_succ_le_succ h)]
    rfl

/-! ## 4. The calls of a well-formed text -/

theorem ne_nil_of_tag {v : Text} (ht : tag ∈ possibleTags) : u ++ (tag ++ v) ≠ [] := by
  obtain ⟨t, rfl, -⟩ := qwenTags.head tag ht
  simp

/-- **The parsed parameters are written as the members**, if no name is given twice. -/
theorem parsedParams_eq {py : Python} {paramConfig : Json} :
    ∀ {ps : List ParameterText} {m : List (Text × Json)} {d : List (Text × Value)},
    (d.map (·.1) ++ ps.map (·.name)).Nodup → members py paramConfig ps = some m →
    ∃ params, (ps.map fun p => p.name ++ '>' :: p.value).foldlM (addParameter py paramConfig) d
        = some (d ++ params) ∧
      params.mapM (fun p : Text × Value => p.2.dumped.map fun v => (p.1, v)) = some m
  | [], m, d, _, hm => by
    cases hm
    exact ⟨[], congrArg some (append_nil d).symm, rfl⟩
  | p :: ps, m, d, hnodup, hm => by
    rw [members, mapM_cons] at hm
    obtain ⟨q, hq, hm⟩ := bind_eq_some_iff.mp hm
    obtain ⟨v, hv, rfl⟩ := map_eq_some_iff.mp hq
    obtain ⟨m', hm', heq⟩ := bind_eq_some_iff.mp hm
    cases heq
    obtain ⟨value, hvalue, hdumped⟩ := bind_eq_some_iff.mp hv
    have hnew : p.name ∉ d.map (·.1) := fun hmem =>
      disjoint_of_nodup_append hnodup hmem mem_cons_self
    have hnext : ((d ++ [(p.name, value)]).map (·.1) ++ ps.map (·.name)).Nodup := by
      simpa using hnodup
    have hadd : addParameter py paramConfig d (p.name ++ '>' :: p.value)
        = some (d ++ [(p.name, value)]) := by
      rw [addParameter, splitName_name p.name_plain.2]
      dsimp only
      rw [hvalue, map_some, ← setItem_append hnew]
    obtain ⟨params, hfold, hparams⟩ := parsedParams_eq hnext hm'
    refine ⟨(p.name, value) :: params, ?_, ?_⟩
    · rw [map_cons, foldlM_cons, hadd]
      refine hfold.trans ?_
      simp
    · rw [mapM_cons, hdumped, hparams]
      rfl

/-- The calls of some functions with their members, from the index `k` on. -/
def callsFrom : ℕ → List (Text × List (Text × Json)) → List ToolCallItem
  | _, [] => []
  | k, f :: fs =>
    { toolIndex := k
      name := some f.1
      parameters := "\x7b".toList ++ Json.dumpsMembers false f.2 ++ "\x7d".toList } :: callsFrom (k + 1) fs

theorem index_le_of_mem_callsFrom : ∀ {k : ℕ} {fs : List (Text × List (Text × Json))}
    {call : ToolCallItem}, call ∈ callsFrom k fs → (k : ℤ) ≤ call.toolIndex
  | _, [], _, h => by cases h
  | k, f :: fs, call, h => by
    rcases mem_cons.mp h with rfl | h
    · exact le_refl _
    · have := index_le_of_mem_callsFrom h
      omega

theorem parseFunction_eq {py : Python} {tools : Option (List Tool)} {f : FunctionText}
    {m : Text × List (Text × Json)} (h : f.members py tools = some m) (k : ℕ) :
    parseFunction py tools k f.name f.paramsStr = some
      { toolIndex := k
        name := some m.1
        parameters := "\x7b".toList ++ Json.dumpsMembers false m.2 ++ "\x7d".toList } := by
  obtain ⟨m, hm, rfl⟩ := map_eq_some_iff.mp h
  have hlen : f.parameters.length ≤ f.paramsStr.length :=
    length_le_flatMap (fun p => ne_nil_of_tag (by decide)) f.behind f.parameters
  obtain ⟨params, hfold, hparams⟩ := parsedParams_eq (d := []) (by simpa using f.distinct) hm
  rw [parseFunction, parsedParams, FunctionText.paramsStr] at *
  rw [findParameters_render f.behind_free hlen, hfold, bind_some, nil_append, dumpsParams, hparams]
  rfl

theorem mapM_parseFunction {py : Python} {tools : Option (List Tool)} :
    ∀ {fs : List FunctionText} {ms : List (Text × List (Text × Json))} {k : ℕ},
    fs.mapM (FunctionText.members py tools) = some ms →
    ((fs.map fun f => (f.name, f.paramsStr)).zipIdx k).mapM
      (fun f => parseFunction py tools f.2 f.1.1 f.1.2) = some (callsFrom k ms)
  | [], ms, k, h => by
    cases h
    rfl
  | f :: fs, ms, k, h => by
    rw [mapM_cons] at h
    obtain ⟨m, hm, h⟩ := bind_eq_some_iff.mp h
    obtain ⟨ms', hms, heq⟩ := bind_eq_some_iff.mp h
    cases heq
    rw [map_cons, zipIdx_cons, mapM_cons, parseFunction_eq hm, mapM_parseFunction hms]
    rfl

/-- The functions of a well-formed text are found. -/
theorem Document.functionsOf_render (d : Document) :
    functionsOf (findToolCalls d.render.length d.render)
      = d.functions.map fun f => (f.name, f.paramsStr) := by
  have hlen : d.toolCalls.length ≤ d.render.length :=
    length_le_flatMap (fun t => ne_nil_of_tag (by decide)) d.behind d.toolCalls
  have hcontent : ∀ t : ToolCallText, (findFunctions t.content.length t.content).filterMap splitName
      = t.functions.map fun f => (f.name, f.paramsStr) := by
    intro t
    have ht : t.functions.length ≤ t.content.length :=
      length_le_flatMap (fun f => ne_nil_of_tag (by decide)) t.behind t.functions
    rw [ToolCallText.content] at ht ⊢
    rw [findFunctions_render t.behind_free ht, filterMap_map]
    rw [← filterMap_eq_map]
    congr 1
    funext f
    exact splitName_name f.name_plain.2 f.paramsStr
  rw [Document.render] at hlen ⊢
  rw [findToolCalls_render d.behind_free hlen, functionsOf, flatMap_map, Document.functions,
    map_flatMap]
  simp [hcontent]

/-- **The whole text gives the calls of its functions**, if their values are accepted. -/
theorem Document.detectAndParse_eq {py : Python} {tools : Option (List Tool)} {d : Document}
    {ms : List (Text × List (Text × Json))}
    (h : d.functions.mapM (FunctionText.members py tools) = some ms) :
    (detectAndParse py tools d.render).calls = callsFrom 0 ms := by
  rcases hts : d.toolCalls with _ | ⟨t, ts⟩
  · have hms : ms = [] := by
      rw [Document.functions, hts] at h
      cases h
      rfl
    have hfind : find toolCallStartToken d.render = none := by
      rw [Document.render, hts]
      exact find_eq_none_iff.mpr (d.behind_free _ (by decide))
    rw [detectAndParse, hfind, hms]
    rfl
  · have hfind : find toolCallStartToken d.render = some t.lead.length := by
      rw [Document.render, hts, flatMap_cons, ToolCallText.render]
      simp only [append_assoc]
      exact qwenTags.find_append (by decide) (t.lead_free _ (by decide)) _
    have hlen : d.toolCalls.length ≤ d.render.length :=
      length_le_flatMap (fun t => ne_nil_of_tag (by decide)) d.behind d.toolCalls
    have hraw : rawToolCalls d.render = findToolCalls d.render.length d.render := by
      refine if_neg fun hnil => ?_
      have hfound := findToolCalls_render d.behind_free hlen
      rw [Document.render] at hnil
      rw [Document.render, hnil.1, hts] at hfound
      cases hfound
    rw [detectAndParse, hfind]
    rw [hraw, d.functionsOf_render, mapM_parseFunction h]

theorem Answers.index_le : ∀ {i : ℤ} {fs : List (Text × List (Text × Json))}
    {calls : List ToolCallItem}, Answers i fs calls → ∀ c ∈ calls, i ≤ c.toolIndex
  | i, [], calls, h, c, hc => by
    obtain rfl : calls = [] := h
    cases hc
  | i, f :: fs, calls, h, c, hc => by
    obtain ⟨items, more, rfl, hitems, hmore⟩ := h
    rcases mem_cons.mp hc with rfl | hc
    · exact le_refl _
    rcases mem_append.mp hc with hc | hc
    · exact (hitems.index c hc).ge
    · exact (Int.le_add_one (le_refl i)).trans (hmore.index_le c hc)

/-- **The calls of the stream name the functions of the whole text**, and the parameters that they send
for a function are read as the same object. -/
theorem Answers.agree : ∀ {k : ℕ} {fs : List (Text × List (Text × Json))}
    {calls : List ToolCallItem}, Answers k fs calls →
    namesOf calls = namesOf (callsFrom k fs) ∧
      ∀ call ∈ callsFrom k fs, ∃ v, Json.loads call.parameters = some v ∧
        Json.loads (parametersOf calls call.toolIndex) = some v
  | k, [], calls, h => by
    obtain rfl : calls = [] := h
    exact ⟨rfl, fun _ hc => by cases hc⟩
  | k, f :: fs, calls, h => by
    obtain ⟨items, more, rfl, hitems, hmore⟩ := h
    have hmore' : Answers ((k + 1 : ℕ) : ℤ) fs more := by exact_mod_cast hmore
    obtain ⟨hnames, hloads⟩ := hmore'.agree
    have hunnamed : namesOf items = [] := filterMap_eq_nil_iff.mpr fun c hc => by
      rw [hitems.unnamed c hc]
      rfl
    have hothers : ∀ i : ℤ, k < i → items.filter (fun c => c.toolIndex == i) = [] := fun i hi =>
      filter_eq_nil_iff.mpr fun c hc => by
        rw [hitems.index c hc]
        simpa using hi.ne
    constructor
    · rw [namesOf, filterMap_cons, filterMap_append]
      rw [namesOf] at hunnamed
      rw [hunnamed]
      exact congrArg (((k : ℤ), f.1) :: ·) hnames
    · intro call hcall
      rcases mem_cons.mp hcall with rfl | hcall
      · refine ⟨.obj (Json.canonicalMembers f.2), Json.loads_members false f.2, ?_⟩
        have hself : items.filter (fun c => c.toolIndex == (k : ℤ)) = items :=
          filter_eq_self.mpr fun c hc => beq_iff_eq.mpr (hitems.index c hc)
        have hbehind : more.filter (fun c => c.toolIndex == (k : ℤ)) = [] :=
          filter_eq_nil_iff.mpr fun c hc => by
            have := hmore.index_le c hc
            simp only [beq_iff_eq]
            omega
        have htext : parametersOf ({ toolIndex := k, name := some f.1, parameters := [] } ::
            (items ++ more)) k = "\x7b".toList ++ Json.dumpsMembers true f.2 ++ "\x7d".toList := by
          rw [parametersOf, filter_cons, if_pos (beq_self_eq_true _), filter_append, hself,
            hbehind, append_nil, flatMap_cons, nil_append, hitems.text]
        rw [htext]
        exact Json.loads_members true f.2
      · obtain ⟨v, hv, hv'⟩ := hloads call hcall
        have hindex : (k : ℤ) < call.toolIndex := by
          have := index_le_of_mem_callsFrom hcall
          omega
        refine ⟨v, hv, ?_⟩
        rw [← hv', parametersOf, parametersOf, filter_cons, if_neg (by simpa using hindex.ne),
          filter_append, hothers _ hindex, nil_append]

/-! ## 5. Streams and their cuts -/

theorem normalText_append (es es' : List Event) :
    normalText (es ++ es') = normalText es ++ normalText es' :=
  filterMap_append

theorem resultsOf_flatten : ∀ ess : List (List Event),
    (resultsOf ess).flatMap (·.normalText) = normalText ess.flatten ∧
      (resultsOf ess).flatMap (·.calls) = calls ess.flatten
  | [] => ⟨rfl, rfl⟩
  | es :: ess => by
    obtain ⟨htext, hcalls⟩ := resultsOf_flatten ess
    rw [resultsOf, map_cons, flatten_cons, normalText_append, calls_append]
    exact ⟨congrArg (normalText es ++ ·) htext, congrArg (calls es ++ ·) hcalls⟩

/-- **A stream gives the events of its text**, and it returns if the tokens of its text are handled. -/
theorem parseStream_eq (py : Python) (tools : Option (List Tool)) (chunks : List Text) :
    match handle (act py tools) {} (tokens next chunks.flatten).1 with
    | none => parseStream py tools {} chunks = .error .raised
    | some p => ∃ results, parseStream py tools {} chunks = .ok results ∧
        results.flatMap (·.normalText) = normalText p.2 ∧ results.flatMap (·.calls) = calls p.2 := by
  have hpieces : (pieces next (act py tools) {} [] chunks).map
        (fun q => (q.1, q.2.1, q.2.2.flatten))
      = (handle (act py tools) {} (tokens next chunks.flatten).1).map fun p =>
        (p.1, (tokens next chunks.flatten).2, p.2) := pieces_eq steady_next rfl chunks
  rw [parseStream_pieces]
  cases hall : handle (act py tools) {} (tokens next chunks.flatten).1 with
  | none =>
    rw [hall, map_none, map_eq_none_iff] at hpieces
    rw [hpieces]
  | some p =>
    rw [hall] at hpieces
    obtain ⟨q, hq, heq⟩ := map_eq_some_iff.mp hpieces
    have hevents : q.2.2.flatten = p.2 := congrArg (fun x => x.2.2) heq
    rw [hq]
    obtain ⟨htext, hcalls⟩ := resultsOf_flatten q.2.2
    exact ⟨resultsOf q.2.2, rfl, htext.trans (by rw [hevents]), hcalls.trans (by rw [hevents])⟩

/-- The function that is open behind some tokens. -/
def openFunction (ts : List Token) : Option Text :=
  ts.foldl (fun funcName t =>
    match t with
    | .function name => some name
    | .functionEnd => none
    | _ => funcName) none

/-- Every complete parameter of the text converts to a value that `json.dumps` accepts. -/
def Convertible (py : Python) (tools : Option (List Tool)) (text : Text) : Prop :=
  ∀ front name rawValue behind,
    (tokens next text).1 = front ++ .parameter name rawValue :: behind →
    ∃ value v, convertParamValue py (cleanValue rawValue) name
      (getArgumentsConfig (openFunction front) tools) = some value ∧ value.dumped = some v

theorem currentFuncName_eq {py : Python} {tools : Option (List Tool)} {ts : List Token}
    {p : State × List Event} (h : handle (act py tools) {} ts = some p) :
    p.1.currentFuncName = openFunction ts := by
  induction ts using List.reverseRecOn generalizing p with
  | nil =>
    cases h
    rfl
  | append_singleton ts t ih =>
    rw [handle_append] at h
    obtain ⟨q, hq, h⟩ := bind_eq_some_iff.mp h
    obtain ⟨r, hr, heq⟩ := map_eq_some_iff.mp h
    cases heq
    obtain ⟨a, ha, hr⟩ := bind_eq_some_iff.mp hr
    cases hr
    rw [openFunction, foldl_append]
    have hq := ih hq
    rw [openFunction] at hq
    rw [← hq]
    cases t with
    | parameter name rawValue =>
      obtain ⟨v, -, heq⟩ := map_eq_some_iff.mp ha
      cases heq
      rfl
    | _ =>
      cases ha
      rfl

/-- **All tokens of a text are handled exactly if its parameters convert.** -/
theorem handle_isSome_iff_convertible (py : Python) (tools : Option (List Tool)) (text : Text) :
    (handle (act py tools) {} (tokens next text).1).isSome ↔ Convertible py tools text := by
  have hact : ∀ {s : State} {name rawValue : Text},
      (act py tools s (.parameter name rawValue)).isSome ↔ ∃ value v, convertParamValue py
        (cleanValue rawValue) name (getArgumentsConfig s.currentFuncName tools) = some value ∧
        value.dumped = some v := by
    intro s name rawValue
    rw [act, State.parameter, isSome_map, jsonKeyVal_eq, isSome_map, jsonValue, isSome_iff_exists]
    simp only [bind_eq_some_iff]
    exact exists_comm
  constructor
  · intro h front name rawValue behind hsplit
    have hfront : (handle (act py tools) {} front).isSome := by
      rw [hsplit, handle_append] at h
      exact isSome_of_isSome_bind h
    obtain ⟨p, hp⟩ := isSome_iff_exists.mp hfront
    rw [← currentFuncName_eq hp]
    exact hact.mp (handle_isSome_iff.mp h front _ behind p hsplit hp)
  · intro h
    rw [handle_isSome_iff]
    intro us t vs p hsplit hp
    cases t with
    | parameter name rawValue =>
      rw [hact, currentFuncName_eq hp]
      exact h us name rawValue vs hsplit
    | _ => rfl

/-- A stream of the text does not depend on the cut, and agrees with the whole text. -/
structure CutFree (py : Python) (tools : Option (List Tool)) (text : Text) : Prop where
  returns : ∀ chunks : List Text, chunks.flatten = text →
    ∃ results, parseStream py tools {} chunks = .ok results
  independent : ∀ (chunks chunks' : List Text) results results',
    chunks.flatten = text → chunks'.flatten = text →
    parseStream py tools {} chunks = .ok results → parseStream py tools {} chunks' = .ok results' →
    results.flatMap (·.normalText) = results'.flatMap (·.normalText) ∧
      namesOf (results.flatMap (·.calls)) = namesOf (results'.flatMap (·.calls)) ∧
      ∀ i, parametersOf (results.flatMap (·.calls)) i = parametersOf (results'.flatMap (·.calls)) i
  agrees : ∀ (d : Document) (chunks : List Text) results, d.render = text → chunks.flatten = text →
    parseStream py tools {} chunks = .ok results →
    namesOf (results.flatMap (·.calls)) = namesOf (detectAndParse py tools text).calls ∧
      ∀ call ∈ (detectAndParse py tools text).calls, ∃ v, Json.loads call.parameters = some v ∧
        Json.loads (parametersOf (results.flatMap (·.calls)) call.toolIndex) = some v

/-- **A stream does not depend on its cut and agrees with the whole text exactly if every complete
parameter of the text converts** to a value that `json.dumps` accepts. -/
theorem cutFree_iff_convertible (py : Python) (tools : Option (List Tool)) (text : Text) :
    CutFree py tools text ↔ Convertible py tools text := by
  rw [← handle_isSome_iff_convertible]
  constructor
  · intro h
    obtain ⟨results, hok⟩ := h.returns [text] (append_nil text)
    have hstream := parseStream_eq py tools [text]
    rw [flatten_singleton] at hstream
    cases hall : handle (act py tools) {} (tokens next text).1 with
    | none =>
      rw [hall] at hstream
      cases hok.symm.trans hstream
    | some p => rfl
  · intro h
    obtain ⟨p, hp⟩ := isSome_iff_exists.mp h
    have hstream : ∀ chunks : List Text, chunks.flatten = text →
        ∃ results, parseStream py tools {} chunks = .ok results ∧
          results.flatMap (·.normalText) = normalText p.2 ∧
          results.flatMap (·.calls) = calls p.2 := by
      rintro chunks rfl
      have hevents := parseStream_eq py tools chunks
      rw [hp] at hevents
      exact hevents
    have hresults : ∀ (chunks : List Text) results, chunks.flatten = text →
        parseStream py tools {} chunks = .ok results →
        results.flatMap (·.normalText) = normalText p.2 ∧
          results.flatMap (·.calls) = calls p.2 := by
      intro chunks results hchunks hok
      obtain ⟨results', hok', hevents⟩ := hstream chunks hchunks
      cases hok.symm.trans hok'
      exact hevents
    refine ⟨fun chunks hchunks => ?_, fun chunks chunks' results results' hc hc' hok hok' => ?_,
      fun d chunks results hd hc hok => ?_⟩
    · obtain ⟨results, hok, -⟩ := hstream chunks hchunks
      exact ⟨results, hok⟩
    · obtain ⟨htext, hcalls⟩ := hresults chunks results hc hok
      obtain ⟨htext', hcalls'⟩ := hresults chunks' results' hc' hok'
      rw [htext, htext', hcalls, hcalls']
      exact ⟨rfl, rfl, fun _ => rfl⟩
    · subst hd
      obtain ⟨-, hcalls⟩ := hresults chunks results hc hok
      obtain ⟨ms, hms, -, hans⟩ := d.sends py tools {} p.1 p.2 hp
      rw [hcalls, Document.detectAndParse_eq hms]
      exact Answers.agree (k := 0) hans

/-- `ast.literal_eval` reads a set. -/
def readsSet : Python where
  int := fun _ => none
  float := fun _ => none
  jsonLoads := Json.loads
  literalEval := fun text =>
    if text = "\x7b1, 2\x7d".toList then .value (.other false "\x7b1, 2\x7d".toList none) else .refused
  repr := fun _ => []

/-- **A set is no JSON value**: the call that meets its end tag raises. -/
theorem setValue_not_cutFree : ¬ CutFree readsSet (some [objectTool])
    ("<tool_call><function=f><parameter=x>".toList ++
      "\x7b1, 2\x7d</parameter></function></tool_call>".toList) := by
  intro h
  obtain ⟨results, hok⟩ := h.returns [_] (append_nil _)
  have hraised : parseStream readsSet (some [objectTool]) {}
      ["<tool_call><function=f><parameter=x>".toList ++
        "\x7b1, 2\x7d</parameter></function></tool_call>".toList] = .error .raised := by rfl
  cases hok.symm.trans hraised

end FunctionCall

end Sglang
