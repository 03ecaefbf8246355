/-
# Tool calls of GLM-4 MoE

A transcription of `glm4_moe_detector.py`.  In a stream a machine reads the XML of a tool call character by
character and writes JSON (`_process_xml_to_json_streaming`); `parse_streaming_increment` finds the tool
call in the buffer, sends its name, and feeds the machine from the next call on.  The closing brace is sent
if the arguments sent so far do not end with one.  `detect_and_parse` reads a whole text with regular
expressions, and its values with `parse_arguments`.

What is kept for the serving layer (`prev_tool_call_arr`, `streamed_args_for_tool`) and the log are not
modelled.
-/
import Sglang.Lib.JsonAssembly
import Sglang.FunctionCall.Tools

namespace Sglang

open Lib

namespace FunctionCall

namespace Glm4Moe

/-! ## 1. The machine -/

def botToken : Text := "<tool_call>".toList

def eotToken : Text := "</tool_call>".toList

def argKeyToken : Text := "<arg_key>".toList

def argKeyEnd : Text := "</arg_key>".toList

def argValueToken : Text := "<arg_value>".toList

def argValueEnd : Text := "</arg_value>".toList

/-- `StreamState`. -/
inductive StreamState
  | init
  | between
  | inKey
  | waitingValue
  | inValue
deriving DecidableEq

/-- The fields of the streaming state machine (`_reset_streaming_state`). -/
structure Machine where
  streamState : StreamState := .init
  currentKey : Text := []
  currentValue : Text := []
  xmlTagBuffer : Text := []
  isFirstParam : Bool := true
  valueStarted : Bool := false
  cachedValueType : Option Json := none

/-- `_convert_to_number`. -/
def convertToNumber (py : Python) (value : Text) : Json :=
  if '.' ∈ value ∨ 'e' ∈ lower value then ((py.float value).map (·.1)).getD (.str value)
  else ((py.int value).map Json.int).getD (.str value)

/-- `_get_value_type`.  It is asked when `_current_value` has just been emptied, so there is no value to
detect a type from. -/
def getValueType (funcName key : Text) (tools : List Tool) : Option Json :=
  (getArgumentType funcName key tools).map fun argType =>
    if truthy argType then argType else .str "string".toList

/-- `_format_value_complete`. -/
def formatValueComplete (py : Python) (value : Text) (valueType : Json) : Text :=
  if isStr "string" valueType then Json.dumpsStr false value
  else if isStr "number" valueType then py.str (convertToNumber py (strip value))
  else value

/-- `json.dumps(content, ensure_ascii=False)[1:-1]`. -/
def escaped (content : Text) : Text := content.flatMap (Json.escapeChar false)

/-- `_cached_value_type or "string"`. -/
def Machine.valueType (m : Machine) : Json := m.cachedValueType.getD (.str "string".toList)

/-- `</arg_value>` is complete. -/
def Machine.closeValue (py : Python) (m : Machine) (finalValue : Text) : Machine × Text :=
  ({ m with
      xmlTagBuffer := []
      streamState := .between
      currentValue := []
      valueStarted := false
      cachedValueType := none },
    if m.valueStarted then
      (if finalValue = [] then [] else
        if isStr "string" m.valueType then escaped finalValue else finalValue) ++
        if isStr "string" m.valueType then "\"".toList else []
    else formatValueComplete py (m.currentValue ++ finalValue) m.valueType)

/-- The buffer is not the beginning of `</arg_value>`. -/
def Machine.content (m : Machine) (content : Text) : Machine × Text :=
  ({ m with
      valueStarted := true
      currentValue := m.currentValue ++ content
      xmlTagBuffer := [] },
    if isStr "string" m.valueType then
      (if m.valueStarted then [] else "\"".toList) ++ escaped content
    else content)

/-- One character of `_process_xml_to_json_streaming`; without a text the step raises. -/
def Machine.step (py : Python) (funcName : Text) (tools : List Tool) (m : Machine) (char : Char) :
    Machine × Option Text :=
  let buffer := m.xmlTagBuffer ++ [char]
  match m.streamState with
  | .init | .between =>
    if argKeyToken <:+ buffer then
      ({ m with
          streamState := .inKey
          currentKey := []
          xmlTagBuffer := []
          isFirstParam := false },
        some (if m.isFirstParam then "\x7b".toList else ", ".toList))
    else ({ m with xmlTagBuffer := buffer }, some [])
  | .inKey =>
    if argKeyEnd <:+ buffer then
      let key := strip (buffer.take (buffer.length - argKeyEnd.length))
      ({ m with
          currentKey := key
          xmlTagBuffer := []
          streamState := .waitingValue },
        some (Json.dumpsStr false key ++ ": ".toList))
    else ({ m with xmlTagBuffer := buffer }, some [])
  | .waitingValue =>
    if argValueToken <:+ buffer then
      let m := { m with
        streamState := .inValue
        currentValue := []
        xmlTagBuffer := []
        valueStarted := false }
      match getValueType funcName m.currentKey tools with
      | none => (m, none)
      | some valueType => ({ m with cachedValueType := some valueType }, some [])
    else ({ m with xmlTagBuffer := buffer }, some [])
  | .inValue =>
    if argValueEnd <:+ buffer then
      let r := m.closeValue py (buffer.take (buffer.length - argValueEnd.length))
      (r.1, some r.2)
    else if buffer.length ≤ argValueEnd.length ∧ buffer <+: argValueEnd then
      ({ m with xmlTagBuffer := buffer }, some [])
    else
      let r := m.content buffer
      (r.1, some r.2)

/-- `_process_xml_to_json_streaming`. -/
def Machine.feed (py : Python) (funcName : Text) (tools : List Tool) :
    Machine → Text → Machine × Option Text
  | m, [] => (m, some [])
  | m, char :: rawIncrement =>
    match m.step py funcName tools char with
    | (m, none) => (m, none)
    | (m, some output) =>
      let r := m.feed py funcName tools rawIncrement
      (r.1, r.2.map (output ++ ·))

/-! ## 2. The stream -/

/-- `Glm4MoeDetector`. -/
structure Detector where
  buffer : Text := []
  currentToolId : ℤ := -1
  currentToolNameSent : Bool := false
  lastArguments : Text := []
  streamedRawLength : ℕ := 0
  machine : Machine := {}

/-- `(.*?)(?:\\n|\n)`: what is in front of the first line break, written out or escaped, and behind it. -/
def splitLine : Text → Option (Text × Text)
  | [] => none
  | c :: text =>
    if c = '\n' then some ([], text)
    else if c = '\\' ∧ text.head? = some 'n' then some ([], text.tail)
    else (splitLine text).map fun p => (c :: p.1, p.2)

/-- The groups of `<tool_call>(.*?)(?:\\n|\n)(.*?)(</tool_call>|$)`, and what is behind the end token, if
it was matched.  The dollar also stands in front of a line break at the end. -/
def partialMatch (currentText : Text) : Option (Text × Text × Option Text) :=
  (find botToken currentText).bind fun i =>
    (splitLine (currentText.drop (i + botToken.length))).map fun p =>
      match find eotToken p.2 with
      | some j => (p.1, p.2.take j, some (p.2.drop (j + eotToken.length)))
      | none => (p.1, if p.2.getLast? = some '\n' then p.2.dropLast else p.2, none)

/-- `output_text.replace(self.eot_token, "")`. -/
def removeEot : ℕ → Text → Text
  | 0, text => text
  | fuel + 1, text =>
    match find eotToken text with
    | none => text
    | some i => text.take i ++ removeEot fuel (text.drop (i + eotToken.length))

/-- Whether some end of the text begins the start token. -/
def isPotentialStart (currentText : Text) : Bool :=
  (List.range (min currentText.length botToken.length)).any fun i =>
    (currentText.drop (currentText.length - (i + 1))).isPrefixOf botToken

/-- No tool call is open any more. -/
def Detector.closed (d : Detector) (buffer : Text) : Detector where
  buffer := buffer
  currentToolId := d.currentToolId + 1

/-- An item for the current tool. -/
def Detector.item (d : Detector) (parameters : Text) : ToolCallItem :=
  { toolIndex := d.currentToolId, parameters := parameters }

/-- The brace that ends the arguments. -/
def Detector.closing (d : Detector) : List ToolCallItem :=
  if d.machine.isFirstParam then [d.item "\x7b\x7d".toList]
  else if "\x7d".toList <:+ d.lastArguments then []
  else [d.item "\x7d".toList]

/-- The name of a tool call, or the next part of its arguments; without calls an exception. -/
def Detector.advance (py : Python) (tools : List Tool) (d : Detector) (funcName funcArgs : Text)
    (behind : Option Text) : Detector × Option (List ToolCallItem) :=
  if d.currentToolNameSent = false then
    ({ d with
        currentToolNameSent := true
        streamedRawLength := 0
        machine := {} },
      some [{ toolIndex := d.currentToolId, name := some funcName, parameters := [] }])
  else
    let r := d.machine.feed py funcName tools (funcArgs.drop d.streamedRawLength)
    match r.2 with
    | none => ({ d with machine := r.1 }, none)
    | some jsonIncrement =>
      let d' := { d with
        machine := r.1
        streamedRawLength := max d.streamedRawLength funcArgs.length
        lastArguments := d.lastArguments ++ jsonIncrement }
      let sent := if jsonIncrement = [] then [] else [d.item jsonIncrement]
      match behind with
      | none => (d', some sent)
      | some buffer => (d'.closed buffer, some (sent ++ d'.closing))

/-- `parse_streaming_increment`. -/
def parseStreamingIncrement (py : Python) (tools : List Tool) (d : Detector) (newText : Text) :
    Detector × StreamingParseResult :=
  let currentText := d.buffer ++ newText
  let d := { d with buffer := currentText }
  if ¬ botToken <:+: currentText then
    if isPotentialStart currentText then (d, {})
    else ({ d with buffer := [] }, { normalText := removeEot currentText.length currentText })
  else
    match partialMatch currentText with
    | none => (d, {})
    | some (funcNameRaw, funcArgsRaw, behind) =>
      if strip funcNameRaw = [] then (d, {})
      else
        let d : Detector := if d.currentToolId = -1 then
            { buffer := currentText, currentToolId := 0, lastArguments := d.lastArguments }
          else d
        match d.advance py tools (strip funcNameRaw) (strip funcArgsRaw) behind with
        | (d, none) => (d, { normalText := currentText })
        | (d, some calls) => (d, { calls := calls })

/-- The chunks of a stream, one after another. -/
def parseStream (py : Python) (tools : List Tool) :
    Detector → List Text → Detector × List StreamingParseResult
  | d, [] => (d, [])
  | d, newText :: chunks =>
    let p := parseStreamingIncrement py tools d newText
    let q := parseStream py tools p.1 chunks
    (q.1, p.2 :: q.2)

/-! ## 3. The whole text -/

/-- A string that is to be a number is one. -/
def coerceNumber (py : Python) (argType v : Json) : Json :=
  match v with
  | .str s => if isStr "number" argType then convertToNumber py s else v
  | v => v

/-- `parse_arguments`; `none` is an exception. -/
def parseArguments (py : Python) (jsonValue : Text) (argType : Json) : Option (Value × Bool) :=
  match Json.loads jsonValue with
  | some v => some (.json (coerceNumber py argType v), true)
  | none =>
    match (Json.loads ("\x7b\"tmp\": \"".toList ++ jsonValue ++ "\"\x7d".toList)).bind
        fun wrapped => getItem wrapped "tmp".toList with
    | some (.str s) =>
      match Json.loads s with
      | some v => some (.json (coerceNumber py argType v), true)
      | none => evaluated
    | some _ => none
    | none => evaluated
where
  /-- The third and the fourth strategy. -/
  evaluated : Option (Value × Bool) :=
    match py.literalEval jsonValue with
    | .value v => some (v, true)
    | .raised => none
    | .refused =>
      match Json.loads (Json.dumpsStr true jsonValue) with
      | some v => some (.json v, true)
      | none => some (.json (.str jsonValue), false)

/-- The value of an argument that is to be a string. -/
def stringValue (py : Python) : Value → Option Value
  | .json (.str s) => some (.json (.str s))
  | .json (.arr l) => some (.json (.str (Json.dumps (.arr l))))
  | .json (.obj m) => some (.json (.str (Json.dumps (.obj m))))
  | .json v => some (.json (.str (py.str v)))
  | .other true _ dumped => dumped.map fun v => .json (.str (Json.dumps v))
  | .other false str _ => some (.json (.str str))

/-- The value of an argument in `_parse_argument_pairs`. -/
def argumentValue (py : Python) (funcName argKey argValue : Text) (tools : List Tool) :
    Option Value :=
  (getArgumentType funcName argKey tools).bind fun argType =>
    (parseArguments py argValue argType).bind fun p =>
      if isStr "string" argType then stringValue py p.1
      else some (if p.2 then p.1 else .json (.str argValue))

/-- `_parse_argument_pairs`. -/
def parseArgumentPairs (py : Python) (pairs : List (Text × Text)) (funcName : Text)
    (tools : List Tool) : Option (List (Text × Value)) :=
  pairs.foldlM
    (fun arguments pair =>
      (argumentValue py funcName (strip pair.1) pair.2 tools).map (setItem arguments (strip pair.1)))
    []

/-- `(?:\\n|\s)*`. -/
def skipGap : Text → Text
  | [] => []
  | c :: text =>
    if c = '\\' then
      match text with
      | 'n' :: text => skipGap text
      | text => c :: text
    else if isSpace c then skipGap text
    else c :: text

/-- `<arg_value>(.*?)</arg_value>` at the beginning of a text, and what is behind it. -/
def matchValue (text : Text) : Option (Text × Text) :=
  if argValueToken <+: text then
    (find argValueEnd (text.drop argValueToken.length)).map fun j =>
      ((text.drop argValueToken.length).take j, (text.drop argValueToken.length).drop (j + argValueEnd.length))
  else none

/-- `(.*?)</arg_key>(?:\\n|\s)*<arg_value>(.*?)</arg_value>`, and what is behind it. -/
def matchPair : Text → Option (Text × Text × Text)
  | [] => none
  | c :: text =>
    match (if argKeyEnd <+: c :: text then matchValue (skipGap ((c :: text).drop argKeyEnd.length))
      else none) with
    | some (value, behind) => some ([], value, behind)
    | none => (matchPair text).map fun p => (c :: p.1, p.2)

/-- `func_arg_regex.findall`. -/
def findPairs : ℕ → Text → List (Text × Text)
  | 0, _ => []
  | fuel + 1, text =>
    match find argKeyToken text with
    | none => []
    | some i =>
      match matchPair (text.drop (i + argKeyToken.length)) with
      | none => findPairs fuel (text.drop (i + 1))
      | some (key, value, behind) => (key, value) :: findPairs fuel behind

/-- The contents of `re.findall(self.func_call_regex, text)`: what is between the tokens. -/
def findToolCalls : ℕ → Text → List Text
  | 0, _ => []
  | fuel + 1, text =>
    match find botToken text with
    | none => []
    | some i =>
      let rest := text.drop (i + botToken.length)
      match find eotToken rest with
      | none => []
      | some j => rest.take j :: findToolCalls fuel (rest.drop (j + eotToken.length))

/-- The calls of one match; without a line break there are none. -/
def parseToolCall (py : Python) (forwardUnknown : Bool) (tools : List Tool) (content : Text) :
    Option (List ToolCallItem) :=
  match splitLine content with
  | none => some []
  | some (funcName, funcArgs) =>
    (parseArgumentPairs py (findPairs funcArgs.length funcArgs) funcName tools).bind
      fun arguments => parseBaseJson forwardUnknown funcName arguments tools

/-- `detect_and_parse`; an exception gives the text back. -/
def detectAndParse (py : Python) (forwardUnknown : Bool) (tools : List Tool) (text : Text) :
    StreamingParseResult :=
  match find botToken text with
  | none => { normalText := text }
  | some idx =>
    match (findToolCalls text.length text).mapM (parseToolCall py forwardUnknown tools) with
    | none => { normalText := text }
    | some calls => { normalText := strip (text.take idx), calls := calls.flatten }

end Glm4Moe

end FunctionCall

end Sglang
