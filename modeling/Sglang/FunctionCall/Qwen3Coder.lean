/-
# Tool calls of Qwen3-coder

A transcription of `qwen3_coder_detector.py`: a cursor machine that reads a stream
(`parse_streaming_increment`), three regular expressions that read a whole text (`detect_and_parse`), and
the conversion of a value by its schema, which both of them use (`_convert_param_value`).

The log is not modelled.
-/
import Sglang.Lib.Lexer
import Sglang.FunctionCall.Tools

namespace Sglang

open Lib

namespace FunctionCall

/-! ## 1. Values by their schema -/

/-- `_get_arguments_config`. -/
def getArgumentsConfig (funcName : Option Text) (tools : Option (List Tool)) : Json :=
  match tools with
  | none => .obj []
  | some tools =>
    match tools.find? fun t => t.type == "function".toList && funcName == some t.function.name with
    | none => .obj []
    | some t =>
      match t.function.parameters with
      | .obj params => (params.lookup "properties".toList).getD (.obj params)
      | _ => .obj []

/-- The type that a schema declares. -/
def paramType (py : Python) (schema : Json) : Text :=
  match getItem schema "type".toList with
  | some type => lower (strip (py.str type))
  | none => "string".toList

/-- `ast.literal_eval`, or the text. -/
def evalLiteral (py : Python) (paramValue : Text) : Value :=
  match py.literalEval paramValue with
  | .value v => v
  | _ => .json (.str paramValue)

/-- A value of a declared type. -/
def convertTyped (py : Python) (paramType paramValue : Text) : Value :=
  let startsWith := fun s : String => s.toList.isPrefixOf paramType
  if paramType ∈ ["string", "str", "text", "varchar", "char", "enum"].map String.toList then
    .json (.str paramValue)
  else if startsWith "int" || startsWith "uint" || startsWith "long" || startsWith "short" ||
      startsWith "unsigned" then
    .json (((py.int paramValue).map Json.int).getD (.str paramValue))
  else if startsWith "num" || startsWith "float" then
    match py.float paramValue with
    | none => .json (.str paramValue)
    | some (x, whole) =>
      if '.' ∈ paramValue ∨ 'e' ∈ lower paramValue then .json x
      else .json ((whole.map Json.int).getD x)
  else if paramType ∈ ["boolean", "bool", "binary"].map String.toList then
    .json (.bool (lower paramValue == "true".toList))
  else if paramType ∈ ["object", "array", "arr"].map String.toList || startsWith "dict" ||
      startsWith "list" then
    match py.jsonLoads paramValue with
    | some v => .json v
    | none => evalLiteral py paramValue
  else evalLiteral py paramValue

/-- `_convert_param_value`; `none` is a `TypeError`. -/
def convertParamValue (py : Python) (paramValue paramName : Text) (paramConfig : Json) :
    Option Value :=
  if lower paramValue = "null".toList then some (.json .null)
  else
    (contains paramConfig paramName).bind fun isIn =>
      if isIn then
        (getItem paramConfig paramName).map fun schema =>
          convertTyped py (paramType py schema) paramValue
      else some (.json (.str paramValue))

/-- A value without the line break in front of it and the one behind it. -/
def cleanValue (rawValue : Text) : Text :=
  let value := if rawValue.head? = some '\n' then rawValue.tail else rawValue
  if value.getLast? = some '\n' then value.dropLast else value

/-! ## 2. The stream -/

def toolCallStartToken : Text := "<tool_call>".toList

def toolCallEndToken : Text := "</tool_call>".toList

def toolCallPrefix : Text := "<function=".toList

def functionEndToken : Text := "</function>".toList

def parameterPrefix : Text := "<parameter=".toList

def parameterEndToken : Text := "</parameter>".toList

/-- `possible_tags`. -/
def possibleTags : List Text :=
  [toolCallStartToken, toolCallEndToken, toolCallPrefix, functionEndToken, parameterPrefix,
    parameterEndToken]

/-- `Qwen3CoderDetector`, the fields that a turn of the loop reads and changes. -/
structure State where
  currentToolId : ℤ := -1
  currentToolParamCount : ℕ := 0
  jsonStarted : Bool := false
  isInsideToolCall : Bool := false
  currentFuncName : Option Text := none
deriving DecidableEq

/-- What a turn adds: a character to `normal_text_chunks`, or an item to `calls`. -/
inductive Event
  | char (c : Char)
  | call (item : ToolCallItem)
deriving DecidableEq

/-- A turn of the loop: `break`, an exception, or `continue` with the cursor `n` characters further. -/
inductive Turn
  | stop
  | raise
  | advance (n : ℕ) (s : State) (events : List Event)

/-- `normal_text_chunks.append(text)`, if no tool call is open. -/
def State.plain (s : State) (text : Text) : List Event :=
  if s.isInsideToolCall then [] else text.map .char

/-- An item for the current tool. -/
def State.item (s : State) (parameters : String) : Event :=
  .call { toolIndex := s.currentToolId, parameters := parameters.toList }

/-- The brace that opens the arguments, if it is not sent yet. -/
def State.openBrace (s : State) : List Event := if s.jsonStarted then [] else [s.item "\x7b"]

/-- A function is named. -/
def State.named (s : State) (funcName : Text) : State :=
  { s with
    currentToolId := s.currentToolId + 1
    currentToolParamCount := 0
    jsonStarted := false
    currentFuncName := some funcName }

/-- `min(candidates, key=lambda x: x[0])`. -/
def bestCandidate : List (ℕ × ℕ) → Option (ℕ × ℕ)
  | [] => none
  | p :: l =>
    match bestCandidate l with
    | none => some p
    | some q => if q.1 < p.1 then some q else some p

/-- The places where a value may end, with the length of the tag that belongs to it. -/
def candidates (restOfSlice : Text) : List (ℕ × ℕ) :=
  ((find parameterEndToken restOfSlice).map (·, parameterEndToken.length)).toList ++
    ((find parameterPrefix restOfSlice).map (·, 0)).toList ++
    ((find functionEndToken restOfSlice).map (·, 0)).toList

/-- The text of a parameter in the arguments; `none` is an exception. -/
def jsonKeyVal (py : Python) (tools : Option (List Tool)) (funcName : Option Text)
    (paramName rawValue : Text) : Option Text :=
  (convertParamValue py (cleanValue rawValue) paramName (getArgumentsConfig funcName tools)).bind
    fun converted => converted.dumped.map fun v =>
      Json.dumpsStr true paramName ++ ": ".toList ++ Json.dumps v

/-- A parameter whose value is complete. -/
def State.parameter (py : Python) (tools : Option (List Tool)) (s : State)
    (paramName rawValue : Text) : Option (State × List Event) :=
  (jsonKeyVal py tools s.currentFuncName paramName rawValue).map fun jsonKeyVal =>
    ({ s with jsonStarted := true, currentToolParamCount := s.currentToolParamCount + 1 },
      s.openBrace ++
        [.call
          { toolIndex := s.currentToolId
            parameters :=
              if 0 < s.currentToolParamCount then ", ".toList ++ jsonKeyVal else jsonKeyVal }])

/-- `</function>`. -/
def State.functionEnd (s : State) : State × List Event :=
  ({ s with jsonStarted := true, currentFuncName := none }, s.openBrace ++ [s.item "\x7d"])

/-- The turn at `<function=`. -/
def functionTurn (s : State) (slice : Text) : Turn :=
  match find ['>'] slice with
  | none => .stop
  | some endAngle =>
    let funcName := (slice.take endAngle).drop toolCallPrefix.length
    .advance (endAngle + 1) (s.named funcName)
      [.call { toolIndex := s.currentToolId + 1, name := some funcName, parameters := [] }]

/-- The turn at `<parameter=`. -/
def parameterTurn (py : Python) (tools : Option (List Tool)) (s : State) (slice : Text) : Turn :=
  match find ['>'] slice with
  | none => .stop
  | some nameEnd =>
    let restOfSlice := slice.drop (nameEnd + 1)
    match bestCandidate (candidates restOfSlice) with
    | none => .stop
    | some (endPos, endTokenLen) =>
      let paramName := (slice.take nameEnd).drop parameterPrefix.length
      match s.parameter py tools paramName (restOfSlice.take endPos) with
      | none => .raise
      | some (s', events) => .advance (nameEnd + 1 + endPos + endTokenLen) s' events

/-- The turn at anything else. -/
def plainTurn (s : State) (slice : Text) : Turn :=
  match find ['<'] slice with
  | none => .advance slice.length s (s.plain slice)
  | some 0 =>
    if possibleTags.any fun tag => slice.isPrefixOf tag then .stop
    else .advance 1 s (s.plain ['<'])
  | some nextOpenAngle => .advance nextOpenAngle s (s.plain (slice.take nextOpenAngle))

/-- One turn of the loop of `parse_streaming_increment`. -/
def turn (py : Python) (tools : Option (List Tool)) (s : State) (slice : Text) : Turn :=
  if slice = [] then .stop
  else if toolCallStartToken <+: slice then
    .advance toolCallStartToken.length { s with isInsideToolCall := true } []
  else if toolCallPrefix <+: slice then functionTurn s slice
  else if parameterPrefix <+: slice then parameterTurn py tools s slice
  else if functionEndToken <+: slice then
    .advance functionEndToken.length s.functionEnd.1 s.functionEnd.2
  else if toolCallEndToken <+: slice then
    .advance toolCallEndToken.length { s with isInsideToolCall := false } []
  else plainTurn s slice

/-- Why a call does not return. -/
inductive Fault
  | raised
  | outOfFuel
deriving DecidableEq

/-- The loop: the state and the text that it leaves, and what it has added. -/
def loop (py : Python) (tools : Option (List Tool)) :
    ℕ → State → Text → Except Fault (State × Text × List Event)
  | 0, _, _ => .error .outOfFuel
  | fuel + 1, s, slice =>
    match turn py tools s slice with
    | .stop => .ok (s, slice, [])
    | .raise => .error .raised
    | .advance n s' events =>
      (loop py tools fuel s' (slice.drop n)).map fun r => (r.1, r.2.1, events ++ r.2.2)

def normalText (events : List Event) : Text :=
  events.filterMap fun e => match e with | .char c => some c | .call _ => none

def calls (events : List Event) : List ToolCallItem :=
  events.filterMap fun e => match e with | .char _ => none | .call item => some item

/-- `Qwen3CoderDetector`; the cursor is at the beginning of the buffer between two calls. -/
structure Detector where
  state : State := {}
  buffer : Text := []
deriving DecidableEq

/-- `parse_streaming_increment`. -/
def parseStreamingIncrement (py : Python) (tools : Option (List Tool)) (d : Detector)
    (newText : Text) : Except Fault (Detector × StreamingParseResult) :=
  let buffer := d.buffer ++ newText
  if buffer = [] then .ok ({ d with buffer := buffer }, {})
  else
    (loop py tools (buffer.length + 1) d.state buffer).map fun r =>
      (⟨r.1, r.2.1⟩, { normalText := normalText r.2.2, calls := calls r.2.2 })

/-- The chunks of a stream, one after another. -/
def parseStream (py : Python) (tools : Option (List Tool)) :
    Detector → List Text → Except Fault (List StreamingParseResult)
  | _, [] => .ok []
  | d, newText :: chunks =>
    match parseStreamingIncrement py tools d newText with
    | .error fault => .error fault
    | .ok (d', result) => (parseStream py tools d' chunks).map (result :: ·)

/-! ## 3. The whole text -/

/-- `tool_call_regex.findall`: `<tool_call>(.*?)</tool_call>`. -/
def findToolCalls : ℕ → Text → List Text
  | 0, _ => []
  | fuel + 1, text =>
    match find toolCallStartToken text with
    | none => []
    | some i =>
      let rest := text.drop (i + toolCallStartToken.length)
      match find toolCallEndToken rest with
      | none => []
      | some j => rest.take j :: findToolCalls fuel (rest.drop (j + toolCallEndToken.length))

/-- `tool_call_function_regex.findall`: `<function=(.*?)</function>|<function=(.*)$`, the group that is
not empty. -/
def findFunctions : ℕ → Text → List Text
  | 0, _ => []
  | fuel + 1, text =>
    match find toolCallPrefix text with
    | none => []
    | some i =>
      let rest := text.drop (i + toolCallPrefix.length)
      match find functionEndToken rest with
      | none => [rest]
      | some j => rest.take j :: findFunctions fuel (rest.drop (j + functionEndToken.length))

/-- `(.*?)(?:</parameter>|(?=<parameter=)|(?=</function>)|$)`: the group, and what is left.  The dollar
also stands in front of a line break at the end. -/
def scanParameter : Text → Text × Text
  | [] => ([], [])
  | c :: text =>
    if parameterEndToken <+: c :: text then ([], (c :: text).drop parameterEndToken.length)
    else if parameterPrefix <+: c :: text ∨ functionEndToken <+: c :: text ∨ c :: text = ['\n'] then
      ([], c :: text)
    else (c :: (scanParameter text).1, (scanParameter text).2)

/-- `tool_call_parameter_regex.findall`. -/
def findParameters : ℕ → Text → List Text
  | 0, _ => []
  | fuel + 1, text =>
    match find parameterPrefix text with
    | none => []
    | some i =>
      let m := scanParameter (text.drop (i + parameterPrefix.length))
      m.1 :: findParameters fuel m.2

/-- The name in front of the first `>`, and what is behind it. -/
def splitName (body : Text) : Option (Text × Text) :=
  (find ['>'] body).map fun i => (body.take i, body.drop (i + 1))

/-- A match of the parameter expression; one without `>` is skipped. -/
def addParameter (py : Python) (paramConfig : Json) (params : List (Text × Value))
    (pMatch : Text) : Option (List (Text × Value)) :=
  match splitName pMatch with
  | none => some params
  | some (pName, pVal) =>
    (convertParamValue py (cleanValue pVal) pName paramConfig).map (setItem params pName)

/-- `parsed_params`. -/
def parsedParams (py : Python) (paramConfig : Json) (pMatches : List Text) :
    Option (List (Text × Value)) :=
  pMatches.foldlM (addParameter py paramConfig) []

/-- The call of a function; `none` is an exception. -/
def parseFunction (py : Python) (tools : Option (List Tool)) (toolIdx : ℕ)
    (funcName paramsStr : Text) : Option ToolCallItem :=
  (parsedParams py (getArgumentsConfig (some funcName) tools)
      (findParameters paramsStr.length paramsStr)).bind fun params =>
    (dumpsParams params).map fun parameters =>
      { toolIndex := toolIdx, name := some funcName, parameters := parameters }

/-- The functions of the tool calls: their names and what is behind them. -/
def functionsOf (rawToolCalls : List Text) : List (Text × Text) :=
  rawToolCalls.flatMap fun toolContent =>
    (findFunctions toolContent.length toolContent).filterMap splitName

/-- `raw_tool_calls`. -/
def rawToolCalls (text : Text) : List Text :=
  let found := findToolCalls text.length text
  if found = [] ∧ toolCallPrefix <:+: text then [text] else found

/-- `detect_and_parse`; an exception gives the text back. -/
def detectAndParse (py : Python) (tools : Option (List Tool)) (text : Text) :
    StreamingParseResult :=
  match find toolCallStartToken text with
  | none => { normalText := text }
  | some startIdx =>
    match (functionsOf (rawToolCalls text)).zipIdx.mapM fun f =>
        parseFunction py tools f.2 f.1.1 f.1.2 with
    | none => { normalText := text }
    | some calls => { normalText := text.take startIdx, calls := calls }

end FunctionCall

end Sglang
