/-
# GLM-4 MoE tool calls, read at once and in a stream

The stream sends the raw text of a value, unless its type is that of a string, and closes an object only if
what it has sent does not end with a brace.  The whole text is parsed and written again.  For the calls of
a well-formed text both are one object exactly if the chunks keep up with the calls, every tool is known,
the last value of a call does not end with a brace, and every value stands for itself
(`streamAgrees_iff`).
-/
import Sglang.Lib.OptionLoops
import Sglang.FunctionCall.Glm4MoeStream

namespace Sglang

open Lib List Option Json

namespace FunctionCall

namespace Glm4Moe

/-! ## 1. Values -/

/-- The value of an argument is a JSON text, unless it is taken as a string, and nothing of it is held
back. -/
def PairText.Regular (funcName : Text) (tools : List Tool) (p : PairText) : Prop :=
  ∃ valueType, p.valueType funcName tools = some valueType ∧ held p.value = [] ∧
    (isStr "string" valueType = false → (Json.loads p.value).isSome)

/-- The value that the stream sends. -/
def PairText.streamed (funcName : Text) (tools : List Tool) (p : PairText) : Json :=
  if isStr "string" ((p.valueType funcName tools).getD (.str "string".toList)) then .str p.value
  else (Json.loads p.value).getD .null

/-- The value that the whole text gives. -/
def PairText.parsed (py : Python) (funcName : Text) (tools : List Tool) (p : PairText) :
    Option Value :=
  argumentValue py funcName p.name p.value tools

/-- **Whether a value stands for itself.**  If the type is that of a string, the text that
`parse_arguments` reads is written as the same string; if there is no type, the text is not read as
anything else; and a number is not written as a string. -/
def PairText.Faithful (py : Python) (funcName : Text) (tools : List Tool) (p : PairText) : Prop :=
  ∃ argType, getArgumentType funcName p.name tools = some argType ∧
    if isStr "string" argType then
      ∃ r, parseArguments py p.value argType = some r ∧
        (stringValue py r.1).bind Value.dumped = some (.str p.value)
    else if truthy argType then ∀ v, Json.loads p.value = some v → coerceNumber py argType v = v
    else ∃ r, parseArguments py p.value argType = some r ∧
      (r.2 = true → r.1.dumped = some (.str p.value))

variable {funcName : Text} {p : PairText}

/-- The text that the stream sends is read as its value. -/
theorem PairText.loads_text (py : Python) {tools : List Tool} (h : p.Regular funcName tools) :
    Json.loads (p.text py funcName tools) = some (p.streamed funcName tools) := by
  obtain ⟨valueType, htype, -, hjson⟩ := h
  rw [PairText.text, PairText.streamed, htype, getD_some, valueText]
  by_cases hs : isStr "string" valueType = true
  · rw [if_pos hs]
    by_cases hnil : p.value = []
    · rw [if_pos hnil, formatValueComplete, if_pos hs, hnil, if_pos hs]
      exact loads_dumpsStr false []
    · rw [if_neg hnil, if_pos hs]
      exact loads_dumpsStr false p.value
  · rw [if_neg hs]
    obtain ⟨v, hv⟩ := isSome_iff_exists.mp (hjson (Bool.eq_false_iff.mpr hs))
    have hne : p.value ≠ [] := fun hnil => by
      rw [hnil] at hv
      cases hv
    rw [if_neg hne, if_neg hs, hv]
    rfl

theorem canonical_eq_str {v : Json} {s : Text} : canonical v = .str s ↔ v = .str s := by
  cases v with
  | str t => exact Iff.rfl
  | arr l => exact ⟨(by cases ·), (by cases ·)⟩
  | obj m => exact ⟨(by cases ·), (by cases ·)⟩
  | _ => exact Iff.rfl

theorem canonical_coerceNumber {py : Python} {argType v : Json} (hv : canonical v = v) :
    canonical (coerceNumber py argType v) = v ↔ coerceNumber py argType v = v := by
  rw [coerceNumber.eq_def]
  split
  · rename_i s
    split
    · exact canonical_eq_str
    · exact Iff.rfl
  · exact ⟨fun _ => rfl, fun _ => hv⟩

/-- **A value stands for itself exactly if the stream sends what the whole text gives.** -/
theorem PairText.faithful_iff {py : Python} {tools : List Tool}
    (h : p.Regular funcName tools) : p.Faithful py funcName tools ↔
      ∃ v, (p.parsed py funcName tools).bind Value.dumped = some v ∧
        canonical v = p.streamed funcName tools := by
  obtain ⟨valueType, htype, -, hjson⟩ := h
  obtain ⟨argType, harg, hvalue⟩ := map_eq_some_iff.mp htype
  have hfaithful : ∀ {P : Json → Prop}, (∃ a, getArgumentType funcName p.name tools = some a ∧ P a) ↔
      P argType := fun {P} => by
    rw [harg]
    exact ⟨fun ⟨a, ha, hp⟩ => by cases ha; exact hp, fun hp => ⟨_, rfl, hp⟩⟩
  have hstr : isStr "string" (.str "string".toList) = true := rfl
  rw [PairText.Faithful, hfaithful, PairText.streamed, htype, getD_some, PairText.parsed,
    argumentValue, harg, bind_some]
  by_cases hs : isStr "string" argType = true
  · have htruthy : truthy argType = true := by
      cases argType with
      | str s =>
        obtain rfl := beq_iff_eq.mp hs
        rfl
      | _ => cases hs
    rw [if_pos htruthy] at hvalue
    subst hvalue
    rw [if_pos hs, if_pos hs]
    simp only [canonical_eq_str, exists_eq_right]
    cases parseArguments py p.value argType with
    | none => simp
    | some r => simp [hs]
  · rw [if_neg hs]
    by_cases htruthy : truthy argType = true
    · rw [if_pos htruthy] at hvalue
      subst hvalue
      obtain ⟨v, hv⟩ := isSome_iff_exists.mp (hjson (Bool.eq_false_iff.mpr hs))
      have hparse : parseArguments py p.value argType
          = some (.json (coerceNumber py argType v), true) := by
        rw [parseArguments, hv]
      rw [if_pos htruthy, if_neg hs, hparse, bind_some, if_neg hs, if_pos rfl, hv]
      constructor
      · exact fun h => ⟨_, rfl, (canonical_coerceNumber (canonical_loads hv)).mpr (h v rfl)⟩
      · rintro ⟨w, hw, hcanonical⟩ v' hv'
        cases hw
        cases hv'
        exact (canonical_coerceNumber (canonical_loads hv)).mp hcanonical
    · rw [if_neg htruthy] at hvalue
      subst hvalue
      rw [if_neg htruthy, if_pos hstr]
      simp only [canonical_eq_str, exists_eq_right]
      cases parseArguments py p.value argType with
      | none => simp
      | some r =>
        rcases r with ⟨w, good⟩
        cases good with
        | false => simp [hs, Value.dumped]
        | true => simp [hs]

/-! ## 2. Objects -/

namespace CallText

/-- The object that the stream sends. -/
def object (tools : List Tool) (t : CallText) : List (Text × Json) :=
  t.pairs.map fun p => (p.name, p.streamed t.name tools)

/-- The members that the whole text writes. -/
def members (py : Python) (tools : List Tool) (t : CallText) : Option (List (Text × Json)) :=
  t.pairs.mapM fun p => ((p.parsed py t.name tools).bind Value.dumped).map fun v => (p.name, v)

/-- The tool is known, or calls of unknown tools are forwarded. -/
def Known (forwardUnknown : Bool) (tools : List Tool) (t : CallText) : Prop :=
  forwardUnknown = true ∨ (toolIndex tools t.name).isSome

/-- The last value does not end with a brace, unless it is taken as a string. -/
def Closes (tools : List Tool) (t : CallText) : Prop :=
  ∀ p, t.pairs.getLast? = some p → "\x7d".toList <:+ p.value →
    ∃ valueType, p.valueType t.name tools = some valueType ∧ isStr "string" valueType = true

end CallText

/-- Members with different names are written as they are. -/
theorem canonicalMembers_eq : ∀ {m : List (Text × Json)}, (m.map (·.1)).Nodup →
    canonicalMembers m = m.map fun p => (p.1, canonical p.2)
  | [], _ => rfl
  | (k, v) :: m, h => by
    have hkeys := nodup_cons.mp h
    rw [canonicalMembers, canonicalMembers_eq hkeys.2, insertMember_of_notMem]
    · rfl
    · rw [List.map_map]
      exact hkeys.1

theorem mapM_members_iff {f : PairText → Option Json} {g : PairText → Json} :
    ∀ {ps : List PairText}, (ps.map (·.name)).Nodup →
    ((∃ m, (ps.mapM fun p => (f p).map fun v => (p.name, v)) = some m ∧
        canonicalMembers m = ps.map fun p => (p.name, g p)) ↔
      ∀ p ∈ ps, ∃ v, f p = some v ∧ canonical v = g p)
  | [], _ => ⟨fun _ p hp => absurd hp not_mem_nil, fun _ => ⟨[], rfl, rfl⟩⟩
  | p :: ps, h => by
    have hkeys := nodup_cons.mp h
    have hnames : ∀ {ps : List PairText} {m : List (Text × Json)},
        (ps.mapM fun p => (f p).map fun v => (p.name, v)) = some m → m.map (·.1) = ps.map (·.name) := by
      intro ps
      induction ps with
      | nil =>
        intro m hm
        cases hm
        rfl
      | cons p ps ih =>
        intro m hm
        rw [mapM_cons] at hm
        obtain ⟨q, hq, hm⟩ := bind_eq_some_iff.mp hm
        obtain ⟨m', hm', heq⟩ := bind_eq_some_iff.mp hm
        obtain ⟨v, -, rfl⟩ := map_eq_some_iff.mp hq
        cases heq
        rw [map_cons, map_cons, ih hm']
    rw [forall_mem_cons, ← mapM_members_iff hkeys.2, mapM_cons]
    constructor
    · rintro ⟨m, hm, hcanonical⟩
      obtain ⟨q, hq, hm⟩ := bind_eq_some_iff.mp hm
      obtain ⟨m', hm', heq⟩ := bind_eq_some_iff.mp hm
      obtain ⟨v, hv, rfl⟩ := map_eq_some_iff.mp hq
      cases heq
      have hnodup : (((p.name, v) :: m').map (·.1)).Nodup := by
        rw [map_cons, hnames hm']
        exact h
      rw [canonicalMembers_eq hnodup, map_cons, map_cons] at hcanonical
      injection hcanonical with hhead htail
      injection hhead with _ hhead
      refine ⟨⟨v, hv, hhead⟩, m', hm', ?_⟩
      rw [canonicalMembers_eq (nodup_cons.mp hnodup).2]
      exact htail
    · rintro ⟨⟨v, hv, hhead⟩, m, hm, htail⟩
      refine ⟨(p.name, v) :: m, by rw [hv, hm]; rfl, ?_⟩
      have hnodup : (((p.name, v) :: m).map (·.1)).Nodup := by
        rw [map_cons, hnames hm]
        exact h
      rw [canonicalMembers_eq (nodup_cons.mp hnodup).2] at htail
      rw [canonicalMembers_eq hnodup, map_cons, map_cons, hhead, htail]

variable {α β : Type}

/-- The texts of a list of options of a list. -/
theorem mapM_bind_mapM {γ : Type} (f : α → Option β) (g : β → Option γ) : ∀ l : List α,
    (l.mapM f).bind (·.mapM g) = l.mapM fun a => (f a).bind g
  | [] => rfl
  | a :: l => by
    rw [mapM_cons, mapM_cons, ← mapM_bind_mapM f g l]
    cases hf : f a with
    | none => rfl
    | some b =>
      cases hl : l.mapM f with
      | none =>
        cases hg : g b with
        | none => simp
        | some c => simp
      | some m => simp

variable {forwardUnknown : Bool}

namespace CallText

theorem parsed_bind_dumpsParams (py : Python) (tools : List Tool) (t : CallText) :
    (t.parsed py tools).bind dumpsParams = (t.members py tools).map fun m =>
      "\x7b".toList ++ dumpsMembers false m ++ "\x7d".toList := by
  have hmembers : (t.parsed py tools).bind
      (·.mapM fun p : Text × Value => p.2.dumped.map fun v => (p.1, v)) = t.members py tools := by
    rw [parsed, mapM_bind_mapM]
    refine congrArg (fun f => t.pairs.mapM f) (funext fun p => ?_)
    rw [PairText.parsed]
    cases argumentValue py t.name p.name p.value tools with
    | none => rfl
    | some v => rfl
  rw [← hmembers]
  cases t.parsed py tools with
  | none => rfl
  | some m => rfl

/-- **A tool call gives one call with the object of the stream** exactly if its tool is known and its
values stand for themselves. -/
theorem once_iff {py : Python} {tools : List Tool} {t : CallText}
    (h : ∀ p ∈ t.pairs, p.Regular t.name tools) :
    (∃ call, t.once py forwardUnknown tools = some [call] ∧
        Json.loads call.parameters = some (.obj (t.object tools))) ↔
      t.Known forwardUnknown tools ∧ ∀ p ∈ t.pairs, p.Faithful py t.name tools := by
  have hmembers : (∃ m, t.members py tools = some m ∧ canonicalMembers m = t.object tools) ↔
      ∀ p ∈ t.pairs, p.Faithful py t.name tools :=
    (mapM_members_iff t.distinct).trans
      (forall₂_congr fun p hp => (PairText.faithful_iff (h p hp)).symm)
  have hloads : ∀ m, Json.loads ("\x7b".toList ++ dumpsMembers false m ++ "\x7d".toList)
      = some (.obj (t.object tools)) ↔ canonicalMembers m = t.object tools := fun m => by
    have hread : Json.loads ("\x7b".toList ++ dumpsMembers false m ++ "\x7d".toList)
        = some (.obj (canonicalMembers m)) := Json.loads_members false m
    rw [hread]
    simp
  have hdumps := t.parsed_bind_dumpsParams py tools
  rw [← hmembers, once]
  by_cases hknown : t.Known forwardUnknown tools
  · obtain ⟨i, hi⟩ : ∃ i : ℤ, ∀ arguments, parseBaseJson forwardUnknown t.name arguments tools
        = (dumpsParams arguments).map fun text =>
          [{ toolIndex := i, name := some t.name, parameters := text }] := by
      cases hindex : toolIndex tools t.name with
      | none =>
        rw [Known, hindex] at hknown
        refine ⟨-1, fun arguments => ?_⟩
        rw [parseBaseJson, hindex]
        exact if_pos (hknown.resolve_right (by simp))
      | some i => exact ⟨i, fun arguments => by rw [parseBaseJson, hindex]⟩
    have honce : (t.parsed py tools).bind (fun arguments =>
        parseBaseJson forwardUnknown t.name arguments tools) = (t.members py tools).map fun m =>
          [{ toolIndex := i
             name := some t.name
             parameters := "\x7b".toList ++ dumpsMembers false m ++ "\x7d".toList }] := by
      simp only [hi]
      refine (Option.map_bind (x := t.parsed py tools) (f := dumpsParams)).symm.trans ?_
      rw [hdumps, Option.map_map]
      rfl
    rw [honce]
    constructor
    · rintro ⟨call, hcall, hobject⟩
      obtain ⟨m, hm, heq⟩ := map_eq_some_iff.mp hcall
      cases heq
      exact ⟨hknown, m, hm, (hloads m).mp hobject⟩
    · rintro ⟨-, m, hm, hobject⟩
      rw [hm]
      exact ⟨_, rfl, (hloads m).mpr hobject⟩
  · have honce : ∀ arguments, parseBaseJson forwardUnknown t.name arguments tools = some [] := by
      rw [Known, not_or] at hknown
      intro arguments
      rw [parseBaseJson, not_isSome_iff_eq_none.mp hknown.2]
      exact if_neg hknown.1
    simp only [honce]
    constructor
    · rintro ⟨call, hcall, -⟩
      obtain ⟨m, -, heq⟩ := bind_eq_some_iff.mp hcall
      cases heq
    · exact fun h => absurd h.1 hknown

end CallText

/-! ## 3. What the stream sends is read -/

theorem assemble_concat (ascii : Bool) (k v : Text) : ∀ m : List (Text × Text),
    ∃ u, u ≠ [] ∧ assemble ascii (m ++ [(k, v)]) = u ++ v
  | [] => ⟨dumpsStr ascii k ++ ": ".toList, by simp, by
      rw [nil_append, assemble, if_pos rfl]
      simp⟩
  | (k', v') :: m => by
    obtain ⟨u, -, hu⟩ := assemble_concat ascii k v m
    refine ⟨dumpsStr ascii k' ++ (':' :: ' ' :: (v' ++ (',' :: ' ' :: u))), by simp, ?_⟩
    rw [cons_append, assemble, if_neg (by simp), hu]
    simp

theorem singleton_suffix_append {c : Char} {u v : Text} (hv : v ≠ []) : [c] <:+ u ++ v ↔ [c] <:+ v := by
  refine ⟨fun h => ?_, fun h => h.trans (suffix_append u v)⟩
  refine suffix_of_suffix_length_le h (suffix_append u v) ?_
  exact length_pos_iff.mpr hv

namespace CallText

variable {py : Python} {tools : List Tool} {t : CallText}

/-- The members, with their texts and their values. -/
theorem written_eq (hps : t.pairs ≠ []) : t.written py tools = '\x7b' :: assemble false
    ((t.pairs.map fun p => (p.name, p.text py t.name tools, p.streamed t.name tools)).map
      fun p => (p.1, p.2.1)) := by
  rw [written, membersText, if_neg hps, List.map_map]
  rfl

theorem written_brace_iff (h : ∀ p ∈ t.pairs, p.Regular t.name tools) (hps : t.pairs ≠ []) :
    "\x7d".toList <:+ t.written py tools ↔ ¬ t.Closes tools := by
  obtain ⟨ps, p, hlast⟩ := (eq_nil_or_concat' t.pairs).resolve_left hps
  have hp := h p (by rw [hlast]; simp)
  obtain ⟨valueType, htype, -, hjson⟩ := id hp
  have htext : p.text py t.name tools ≠ [] := fun hnil => by
    have hloads := PairText.loads_text py hp
    rw [hnil] at hloads
    cases hloads
  obtain ⟨u, -, hu⟩ := assemble_concat false p.name (p.text py t.name tools)
    (ps.map fun p => (p.name, p.text py t.name tools))
  have hwritten : t.written py tools = '\x7b' :: u ++ p.text py t.name tools := by
    rw [written, membersText, if_neg hps, hlast, map_append, map_singleton, hu]
    rfl
  have hbrace : "\x7d".toList <:+ t.written py tools ↔ "\x7d".toList <:+ p.text py t.name tools := by
    rw [hwritten]
    exact singleton_suffix_append htext
  have hcloses : t.Closes tools ↔ ("\x7d".toList <:+ p.value → isStr "string" valueType = true) := by
    rw [Closes, hlast, getLast?_append, getLast?_singleton]
    constructor
    · intro hall hbrace
      obtain ⟨valueType', htype', hs⟩ := hall p rfl hbrace
      cases htype.symm.trans htype'
      exact hs
    · intro hs q hq hbrace
      cases hq
      exact ⟨valueType, htype, hs hbrace⟩
  rw [hbrace, hcloses, PairText.text, htype, getD_some, valueText]
  by_cases hs : isStr "string" valueType = true
  · have hquote : ∀ s : Text, ¬ "\x7d".toList <:+ dumpsStr false s := by
      intro s hsuffix
      have hsplit : dumpsStr false s = ('\x22' :: s.flatMap (escapeChar false)) ++ ['\x22'] :=
        rfl
      rw [hsplit, show "\x7d".toList = ['\x7d'] from rfl, singleton_suffix_append (cons_ne_nil _ _)] at hsuffix
      revert hsuffix
      decide
    refine iff_of_false ?_ (not_not_intro fun _ => hs)
    split
    · rw [formatValueComplete, if_pos hs]
      exact hquote []
    · exact hquote p.value
  · have hne : p.value ≠ [] := fun hnil => by
      have := hjson (Bool.eq_false_iff.mpr hs)
      rw [hnil] at this
      cases this
    rw [if_neg hne, if_neg hs]
    exact ⟨fun hv himp => hs (himp hv), fun hno => by
      by_contra hv
      exact hno fun h => absurd h hv⟩

theorem loads_members (py : Python) (h : ∀ p ∈ t.pairs, p.Regular t.name tools) :
    (∀ q ∈ t.pairs.map fun p => (p.name, p.text py t.name tools, p.streamed t.name tools),
        Json.loads q.2.1 = some q.2.2) ∧
      ((t.pairs.map fun p => (p.name, p.text py t.name tools, p.streamed t.name tools)).map
        (·.1)).Nodup := by
  constructor
  · intro q hq
    obtain ⟨p, hp, rfl⟩ := List.mem_map.mp hq
    exact PairText.loads_text py (h p hp)
  · rw [List.map_map]
    exact t.distinct

/-- The members and the brace that belongs behind them. -/
theorem loads_written (py : Python) (h : ∀ p ∈ t.pairs, p.Regular t.name tools) (hps : t.pairs ≠ []) :
    Json.loads (t.written py tools ++ "\x7d".toList) = some (.obj (t.object tools)) := by
  obtain ⟨hloads, hkeys⟩ := loads_members py h
  have hobject : t.object tools = (t.pairs.map fun p =>
      (p.name, p.text py t.name tools, p.streamed t.name tools)).map fun p => (p.1, p.2.2) := by
    rw [object, List.map_map]
    rfl
  rw [written_eq hps, hobject]
  exact loads_assemble false hloads hkeys

/-- **The arguments that the stream sends are read** exactly if the last value does not end with a
brace. -/
theorem loads_sent (h : ∀ p ∈ t.pairs, p.Regular t.name tools) (m : List (Text × Json)) :
    Json.loads (t.sent py tools) = some (.obj m) ↔ t.Closes tools ∧ m = t.object tools := by
  by_cases hps : t.pairs = []
  · have hcloses : t.Closes tools := fun p hp => by
      rw [hps] at hp
      cases hp
    have hsent : t.sent py tools = "\x7b\x7d".toList := by
      rw [sent, if_pos hps, written, membersText, if_pos hps]
      rfl
    rw [hsent, object, hps]
    have hread : Json.loads "\x7b\x7d".toList = some (.obj []) := rfl
    rw [hread]
    simp [hcloses, eq_comm]
  · rw [sent, if_neg hps]
    by_cases hbrace : "\x7d".toList <:+ t.written py tools
    · obtain ⟨hloads, -⟩ := loads_members py h
      have hopen := loads_assemble_open false (fun hnil => hps (map_eq_nil_iff.mp hnil)) hloads
      rw [if_pos hbrace, append_nil, written_eq hps, hopen]
      exact ⟨(by cases ·), fun hc => absurd hc.1 ((written_brace_iff h hps).mp hbrace)⟩
    · rw [if_neg hbrace, loads_written py h hps]
      have hcloses : t.Closes tools := not_not.mp fun hc => hbrace ((written_brace_iff h hps).mpr hc)
      simp [hcloses, eq_comm]

theorem loads_cut (h : ∀ p ∈ t.pairs, p.Regular t.name tools) {out : Text}
    (hout : out <+: t.written py tools) (m : List (Text × Json)) : Json.loads out ≠ some (.obj m) := by
  obtain ⟨w, hw⟩ := hout
  by_cases hps : t.pairs = []
  · have hnil : t.written py tools = [] := by rw [written, membersText, if_pos hps]
    obtain rfl : out = [] := (append_eq_nil_iff.mp (hw.trans hnil)).1
    intro hread
    cases hread
  · have hall := loads_written py h hps
    rw [← hw, append_assoc] at hall
    refine loads_ne_obj_of_append hall (fun hwhite => ?_) m
    have hmem : ∀ c ∈ w ++ "\x7d".toList, isWhite c = true :=
      dropWhile_eq_nil_iff.mp hwhite
    exact absurd (hmem '\x7d' (by simp)) (by decide)

end CallText

/-! ## 4. Streams and whole texts -/

theorem parametersOf_append (calls calls' : List ToolCallItem) (i : ℤ) :
    parametersOf (calls ++ calls') i = parametersOf calls i ++ parametersOf calls' i := by
  rw [parametersOf, filter_append, flatMap_append]
  rfl

variable {i : ℤ}

theorem parametersOf_of_ne {calls : List ToolCallItem} (h : ∀ c ∈ calls, c.toolIndex ≠ i) :
    parametersOf calls i = [] := by
  have hnone : calls.filter (fun c => c.toolIndex == i) = [] :=
    filter_eq_nil_iff.mpr fun c hc => by simpa using h c hc
  rw [parametersOf, hnone]
  rfl

variable {items : List ToolCallItem}

theorem parametersOf_sent {text : Text} (h : Sent i text items) : parametersOf items i = text := by
  have hall : items.filter (fun c => c.toolIndex == i) = items :=
    filter_eq_self.mpr fun c hc => beq_iff_eq.mpr (h.index c hc)
  rw [parametersOf, hall, h.text]

namespace Streamed

variable {py : Python} {tools : List Tool} {k : ℕ} {ts : List CallText} {closed : Bool}
  {calls : List ToolCallItem}

theorem index_le (h : Streamed py tools k ts closed calls) : ∀ c ∈ calls, (k : ℤ) ≤ c.toolIndex := by
  induction h with
  | finished => exact fun c hc => absurd hc not_mem_nil
  | waiting => exact fun c hc => absurd hc not_mem_nil
  | cut hout hsent =>
    intro c hc
    rcases mem_cons.mp hc with rfl | hc
    · exact le_refl _
    · exact (hsent.index c hc).ge
  | call hsent hrest ih =>
    intro c hc
    rcases mem_cons.mp hc with rfl | hc
    · exact le_refl _
    · rcases mem_append.mp hc with hc | hc
      · exact (hsent.index c hc).ge
      · have := ih c hc
        omega

/-- The parameters of the first tool call, if it is closed. -/
theorem parameters_head {t : CallText} {more : List ToolCallItem}
    (hsent : Sent k (t.sent py tools) items)
    (hrest : Streamed py tools (k + 1) ts closed more) :
    parametersOf (nameItem k t :: (items ++ more)) k = t.sent py tools := by
  have hmore : parametersOf more k = [] := parametersOf_of_ne fun c hc => by
    have := hrest.index_le c hc
    omega
  have hname : parametersOf [nameItem k t] k = [] := by
    rw [parametersOf, filter_singleton, nameItem]
    simp
  rw [← singleton_append, parametersOf_append, parametersOf_append, hname, hmore,
    parametersOf_sent hsent, append_nil, nil_append]

theorem parameters_tail {t : CallText} {more : List ToolCallItem} {text : Text}
    (hsent : Sent k text items) (i : ℕ) : parametersOf (nameItem k t :: (items ++ more)) (k + 1 + i : ℕ)
      = parametersOf more (k + 1 + i : ℕ) := by
  have hitems : parametersOf items (k + 1 + i : ℕ) = [] := parametersOf_of_ne fun c hc => by
    rw [hsent.index c hc]
    omega
  have hname : parametersOf [nameItem k t] (k + 1 + i : ℕ) = [] := parametersOf_of_ne fun c hc => by
    rw [mem_singleton.mp hc, nameItem]
    dsimp only
    omega
  rw [← singleton_append, parametersOf_append, parametersOf_append, hname, hitems]
  rfl

/-- **If all tool calls are closed**, each has been sent its arguments. -/
theorem parameters_closed (h : Streamed py tools k ts closed calls) (hclosed : closed = true) :
    ∀ (i : ℕ) (t : CallText), ts[i]? = some t → parametersOf calls (k + i : ℕ) = t.sent py tools := by
  induction h with
  | finished => exact fun i t ht => by cases ht
  | waiting => cases hclosed
  | cut hout hsent => cases hclosed
  | @call k t ts closed items more hsent hrest ih =>
    intro i t' ht'
    rcases i with _ | i
    · cases ht'
      exact parameters_head hsent hrest
    · rw [show k + (i + 1) = k + 1 + i by omega, parameters_tail hsent]
      exact ih hclosed i t' ht'

/-- **Otherwise one of them has been sent only a beginning.** -/
theorem parameters_open (h : Streamed py tools k ts closed calls) (hclosed : closed = false) :
    ∃ (i : ℕ) (t : CallText), ts[i]? = some t ∧ parametersOf calls (k + i : ℕ) <+: t.written py tools := by
  induction h with
  | finished => cases hclosed
  | waiting =>
    exact ⟨0, _, rfl, nil_prefix⟩
  | @cut k t ts out items hout hsent =>
    refine ⟨0, t, rfl, ?_⟩
    have hname : parametersOf [nameItem k t] k = [] := by
      rw [parametersOf, filter_singleton, nameItem]
      simp
    rw [Nat.add_zero, ← singleton_append, parametersOf_append, hname, parametersOf_sent hsent]
    exact hout
  | @call k t ts closed items more hsent hrest ih =>
    obtain ⟨i, t', ht', hout⟩ := ih hclosed
    refine ⟨i + 1, t', ht', ?_⟩
    rw [show k + (i + 1) = k + 1 + i by omega, parameters_tail hsent]
    exact hout

end Streamed

/-- A stream of a text, and what the whole text gives: for each tool call one call, and one object. -/
structure StreamAgrees (py : Python) (forwardUnknown : Bool) (tools : List Tool) (d : Document)
    (chunks : List Text) : Prop where
  calls : (detectAndParse py forwardUnknown tools d.render).calls.length = d.calls.length
  agrees : ∀ (i : ℕ) (call : ToolCallItem),
    (detectAndParse py forwardUnknown tools d.render).calls[i]? = some call →
    ∃ m, Json.loads (parametersOf (sentCalls py tools {} chunks) i) = some (.obj m) ∧
      Json.loads call.parameters = some (.obj m)

theorem CallText.length_once {py : Python} {tools : List Tool} {t : CallText}
    {calls : List ToolCallItem} (h : t.once py forwardUnknown tools = some calls) : calls.length ≤ 1 := by
  obtain ⟨arguments, -, h⟩ := bind_eq_some_iff.mp h
  rw [parseBaseJson] at h
  split at h
  · split at h
    · obtain ⟨text, -, rfl⟩ := map_eq_some_iff.mp h
      exact le_refl 1
    · cases h
      exact Nat.zero_le 1
  · obtain ⟨text, -, rfl⟩ := map_eq_some_iff.mp h
    exact le_refl 1

theorem length_flatten_mapM {py : Python} {tools : List Tool} :
    ∀ {ts : List CallText} {ls : List (List ToolCallItem)},
    ts.mapM (CallText.once py forwardUnknown tools) = some ls → ls.flatten.length ≤ ts.length ∧
      (ls.flatten.length = ts.length →
        List.Forall₂ (fun t call => t.once py forwardUnknown tools = some [call]) ts ls.flatten)
  | [], ls, h => by
    cases h
    exact ⟨le_refl _, fun _ => .nil⟩
  | t :: ts, ls, h => by
    rw [mapM_cons] at h
    obtain ⟨l, hl, h⟩ := bind_eq_some_iff.mp h
    obtain ⟨ls', hls, heq⟩ := bind_eq_some_iff.mp h
    cases heq
    have hone := CallText.length_once hl
    obtain ⟨hle, hall⟩ := length_flatten_mapM hls
    rw [flatten_cons, length_append, length_cons]
    refine ⟨by omega, fun hlen => ?_⟩
    obtain ⟨call, rfl⟩ := length_eq_one_iff.mp (show l.length = 1 by omega)
    exact .cons hl (hall (by rw [length_singleton] at hlen; omega))

theorem exists_forall₂ {R : α → β → Prop} : ∀ {l : List α}, (∀ a ∈ l, ∃ b, R a b) →
    ∃ m, List.Forall₂ R l m
  | [], _ => ⟨[], .nil⟩
  | a :: l, h => by
    obtain ⟨b, hb⟩ := h a mem_cons_self
    obtain ⟨m, hm⟩ := exists_forall₂ fun c hc => h c (mem_cons_of_mem _ hc)
    exact ⟨b :: m, .cons hb hm⟩

theorem mapM_of_forall₂ {f : α → Option (List β)} : ∀ {l : List α} {m : List β},
    List.Forall₂ (fun a b => f a = some [b]) l m → (l.mapM f).map List.flatten = some m
  | [], _, .nil => rfl
  | a :: l, _, .cons hab hrest => by
    obtain ⟨ls, hls, hflat⟩ := map_eq_some_iff.mp (mapM_of_forall₂ hrest)
    rw [mapM_cons, hab, hls, ← hflat]
    rfl

/-- The calls of the whole text, one for each tool call. -/
theorem calls_eq_iff {py : Python} {tools : List Tool} {d : Document} :
    (detectAndParse py forwardUnknown tools d.render).calls.length = d.calls.length ↔
      List.Forall₂ (fun t call => t.once py forwardUnknown tools = some [call]) d.calls
        (detectAndParse py forwardUnknown tools d.render).calls := by
  refine ⟨fun h => ?_, fun h => h.length_eq.symm⟩
  rw [Document.detectAndParse_calls] at h ⊢
  cases hall : d.calls.mapM (CallText.once py forwardUnknown tools) with
  | none =>
    rw [hall] at h
    have hnil : d.calls = [] := eq_nil_of_length_eq_zero h.symm
    rw [hnil] at hall
    cases hall
  | some ls =>
    rw [hall] at h
    exact (length_flatten_mapM hall).2 h

theorem isSome_valueType_of_argument {tools : List Tool} {argType : Json}
    (h : getArgumentType funcName p.name tools = some argType) : (p.valueType funcName tools).isSome := by
  rw [PairText.valueType, getValueType, h]
  rfl

theorem StreamAgrees.isSome_valueType {py : Python} {forwardUnknown : Bool} {tools : List Tool}
    {d : Document} {chunks : List Text} {t : CallText} (h : StreamAgrees py forwardUnknown tools d chunks)
    (ht : t ∈ d.calls) (hp : p ∈ t.pairs) : (p.valueType t.name tools).isSome := by
  obtain ⟨i, hi, rfl⟩ := mem_iff_getElem.mp ht
  have hcalls := calls_eq_iff.mp h.calls
  have honce := (forall₂_iff_get.mp hcalls).2 i hi (hcalls.length_eq ▸ hi)
  obtain ⟨arguments, hparsed, -⟩ := bind_eq_some_iff.mp honce
  obtain ⟨entry, hentry⟩ := exists_of_mapM hparsed hp
  obtain ⟨v, hv, -⟩ := map_eq_some_iff.mp hentry
  obtain ⟨argType, harg, -⟩ := bind_eq_some_iff.mp hv
  exact isSome_valueType_of_argument harg

/-- `ast.literal_eval` reads nothing. -/
def readsNothing : Python where
  int := fun _ => none
  float := fun _ => none
  jsonLoads := Json.loads
  literalEval := fun _ => .refused
  repr := fun _ => []

/-- A call of a tool with one argument. -/
def oneArgument (value : Text) (h : PlainText value) : Document where
  calls :=
    [{ lead := []
       name := "f".toList
       lineBreak := "\n".toList
       pairs :=
        [{ lead := []
           key := "x".toList
           gap := []
           value := value
           lead_free := by decide
           key_free := by decide
           gap_skipped := rfl
           value_free := h }]
       behind := []
       lead_free := by decide
       name_ne := by decide
       name_free := by decide
       name_stripped := by decide
       name_line := rfl
       lineBreak_eq := Or.inl rfl
       distinct := nodup_singleton _
       behind_free := by decide }]
  behind := []
  behind_free := by decide

/-- The name in one chunk, the argument in a second one, the end token in a third. -/
def threeChunks (value : Text) : List Text :=
  ["<tool_call>f\n".toList, "<arg_key>x</arg_key><arg_value>".toList ++ value ++ "</arg_value>".toList,
    "</tool_call>".toList]

end Glm4Moe

end FunctionCall

end Sglang
