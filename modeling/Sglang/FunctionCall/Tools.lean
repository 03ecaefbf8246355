/-
# Tools, and the values of their arguments

What the detectors of tool calls share: the items that they return, the tools with their schemas, the type
of an argument that a schema implies (`infer_type_from_json_schema` of `utils.py`), and the values that
Python makes of a text.

A string is the list of its characters, and `none` is an exception.  What the standard library reads from
a text (`int`, `float`, `json.loads`, `ast.literal_eval`) is a parameter.
-/
import Sglang.Lib.Json
import Sglang.Parser.ReasoningParser

namespace Sglang

open Lib List

namespace FunctionCall

/-! ## 1. Calls and tools -/

/-- `ToolCallItem`. -/
structure ToolCallItem where
  toolIndex : ℤ
  name : Option Text := none
  parameters : Text
deriving DecidableEq

/-- `StreamingParseResult`. -/
structure StreamingParseResult where
  normalText : Text := []
  calls : List ToolCallItem := []
deriving DecidableEq

/-- `Function`, the fields that are read; `parameters` is `None` if there is no schema. -/
structure Function where
  name : Text
  parameters : Json

/-- `Tool`. -/
structure Tool where
  type : Text
  function : Function

/-- The parameters that the calls send for a tool. -/
def parametersOf (calls : List ToolCallItem) (i : ℤ) : Text :=
  (calls.filter fun c => c.toolIndex == i).flatMap (·.parameters)

/-- The functions that the calls name, with the indices of the tools. -/
def namesOf (calls : List ToolCallItem) : List (ℤ × Text) :=
  calls.filterMap fun c => c.name.map fun name => (c.toolIndex, name)

/-- The items are for the tool `i`, name no function, and their parameters are `text`. -/
structure Sent (i : ℤ) (text : Text) (items : List ToolCallItem) : Prop where
  index : ∀ item ∈ items, item.toolIndex = i
  unnamed : ∀ item ∈ items, item.name = none
  text : items.flatMap (·.parameters) = text

theorem Sent.nil (i : ℤ) : Sent i [] [] :=
  ⟨fun _ h => absurd h not_mem_nil, fun _ h => absurd h not_mem_nil, rfl⟩

theorem Sent.singleton (i : ℤ) (text : Text) : Sent i text [{ toolIndex := i, parameters := text }] :=
  ⟨fun _ h => by cases mem_singleton.mp h; rfl, fun _ h => by cases mem_singleton.mp h; rfl,
    append_nil _⟩

theorem Sent.append {i : ℤ} {text text' : Text} {items items' : List ToolCallItem}
    (h : Sent i text items) (h' : Sent i text' items') :
    Sent i (text ++ text') (items ++ items') where
  index := fun item hi => (mem_append.mp hi).elim (h.index item) (h'.index item)
  unnamed := fun item hi => (mem_append.mp hi).elim (h.unnamed item) (h'.unnamed item)
  text := by rw [flatMap_append, h.text, h'.text]

/-! ## 2. Values -/

/-- A value of Python: one that `json.loads` gives, or another one (a tuple, a set, bytes).  The other one
comes with its `str` and with what `json.dumps` writes for it, if it does not refuse it. -/
inductive Value
  | json (v : Json)
  | other (isContainer : Bool) (str : Text) (dumped : Option Json)

/-- What `json.dumps` writes, if anything. -/
def Value.dumped : Value → Option Json
  | .json v => some v
  | .other _ _ dumped => dumped

/-- What `ast.literal_eval` does: `refused` is a `ValueError` or a `SyntaxError`. -/
inductive Literal
  | value (v : Value)
  | refused
  | raised

/-- What the standard library reads from a text.  A float comes with the integer that it is equal to, if
there is one. -/
structure Python where
  int : Text → Option ℤ
  float : Text → Option (Json × Option ℤ)
  jsonLoads : Text → Option Json
  literalEval : Text → Literal
  /-- `str` of a float, a list or a dictionary. -/
  repr : Json → Text

/-- `str`. -/
def Python.str (py : Python) : Json → Text
  | .str s => s
  | .null => "None".toList
  | .bool b => (if b then "True" else "False").toList
  | .int z => Json.dumpsInt z
  | v => py.repr v

/-- `str.lower`: no other character becomes one of the letters that the result is compared with. -/
def lower (text : Text) : Text := text.map Char.toLower

/-- `str.strip`. -/
def strip (text : Text) : Text := rstrip (text.dropWhile isSpace)

/-- `key in value`; `none` is a `TypeError`. -/
def contains (value : Json) (key : Text) : Option Bool :=
  match value with
  | .obj m => some (m.any fun p => p.1 == key)
  | .arr l => some (l.any fun v => match v with | .str s => s == key | _ => false)
  | .str s => some (decide (key <:+: s))
  | _ => none

/-- `value[key]`. -/
def getItem (value : Json) (key : Text) : Option Json :=
  match value with
  | .obj m => m.lookup key
  | _ => none

/-- Whether a value is true. -/
def truthy : Json → Bool
  | .null => false
  | .bool b => b
  | .int z => z ≠ 0
  | .float literal =>
    let mantissa := literal.1.tail.takeWhile fun c => c ≠ 'e' && c ≠ 'E'
    (literal.1.whole ++ mantissa).any fun c => Json.isDigit c && c ≠ '0'
  | .nan => true
  | .infinity _ => true
  | .str s => !s.isEmpty
  | .arr l => !l.isEmpty
  | .obj m => !m.isEmpty

/-! ## 3. The type that a schema implies -/

def isStr (s : String) : Json → Bool
  | .str t => t == s.toList
  | _ => false

/-- The name of the type of a value in an enumeration. -/
def enumType : Json → String
  | .null => "null"
  | .bool _ => "boolean"
  | .int _ => "integer"
  | .float _ | .nan | .infinity _ => "number"
  | .str _ => "string"
  | .arr _ => "array"
  | .obj _ => "object"

/-- The type of an `anyOf`: `string` if it is among the types, otherwise the first one; types that are
all the same are a case of it.  A set of types raises if one of them is a list or a dictionary. -/
def typeOfAny (types : List Json) : Option Json :=
  if types.any fun t => match t with | .arr _ | .obj _ => true | _ => false then none
  else if types.any (isStr "string") then some (.str "string".toList)
  else types.head?

/-- `infer_type_from_json_schema` for the members of a schema; `inferred` are the types of the elements of
those members that are lists. -/
def inferSchema (schema : List (Text × Json)) (inferred : List (Text × List (Option Json))) :
    Option Json :=
  let elementTypes := fun key : String => (inferred.lookup key.toList).getD []
  match schema.lookup "type".toList with
  | some (.str s) => some (.str s)
  | some (.arr (t :: ts)) =>
    some (((t :: ts).find? fun t => !isStr "null" t).getD (.str "string".toList))
  | _ =>
    let anyOf := (schema.lookup "anyOf".toList).getD .null
    match (if truthy anyOf then elementTypes "anyOf" else elementTypes "oneOf").mapM id with
    | none => none
    | some types =>
      if types.any truthy then typeOfAny (types.filter truthy)
      else
        match schema.lookup "enum".toList, schema.lookup "allOf".toList with
        | some (.arr values), _ =>
          match (values.map enumType).dedup with
          | [t] => some (.str t.toList)
          | _ => some (.str "string".toList)
        | _, some (.arr _) =>
          match (elementTypes "allOf").find? fun t =>
              match t with | none => true | some t => truthy t && !isStr "string" t with
          | none => some (.str "string".toList)
          | some t => t
        | _, _ =>
          if (schema.lookup "properties".toList).isSome then some (.str "object".toList)
          else if (schema.lookup "items".toList).isSome then some (.str "array".toList)
          else some .null

mutual

/-- `infer_type_from_json_schema`; `null` is `None`. -/
def inferType : Json → Option Json
  | .obj schema => inferSchema schema (inferMembers schema)
  | _ => some .null

def inferMembers : List (Text × Json) → List (Text × List (Option Json))
  | [] => []
  | (key, v) :: schema => (key, inferElements v) :: inferMembers schema

def inferElements : Json → List (Option Json)
  | .arr l => inferAll l
  | _ => []

def inferAll : List Json → List (Option Json)
  | [] => []
  | v :: l => inferType v :: inferAll l

end

/-! ## 4. The tools of a request -/

/-- The last tool of a name: later entries of a dictionary win. -/
def findTool (funcName : Text) (tools : List Tool) : Option Tool :=
  tools.reverse.find? fun t => t.function.name == funcName

/-- `get_argument_type` (`glm4_moe_detector.py`). -/
def getArgumentType (funcName argKey : Text) (definedTools : List Tool) : Option Json :=
  match findTool funcName definedTools with
  | none => some .null
  | some tool =>
    let parameters := tool.function.parameters
    if truthy parameters then
      match parameters with
      | .obj m =>
        match (m.lookup "properties".toList).bind fun properties => getItem properties argKey with
        | none => some .null
        | some schema => inferType schema
      | _ => none
    else some .null

/-- `_get_tool_indices`, read at one name. -/
def toolIndex (tools : List Tool) (name : Text) : Option ℕ :=
  if name = [] then none
  else (tools.zipIdx.reverse.find? fun t => t.1.function.name == name).map (·.2)

/-- `json.dumps(parameters, ensure_ascii=False)` of a dictionary. -/
def dumpsParams (params : List (Text × Value)) : Option Text :=
  (params.mapM fun p : Text × Value => p.2.dumped.map fun v => (p.1, v)).map fun m =>
    "\x7b".toList ++ Json.dumpsMembers false m ++ "\x7d".toList

/-- `d[key] = value`. -/
def setItem (d : List (Text × Value)) (key : Text) (value : Value) : List (Text × Value) :=
  if d.any fun p => p.1 == key then d.map fun p => if p.1 = key then (key, value) else p
  else d ++ [(key, value)]

/-- A new key comes last. -/
theorem setItem_append {d : List (Text × Value)} {key : Text} (h : key ∉ d.map (·.1))
    (value : Value) : setItem d key value = d ++ [(key, value)] := by
  rw [setItem, if_neg]
  intro hany
  obtain ⟨p, hp, hkey⟩ := any_eq_true.mp hany
  exact h (mem_map.mpr ⟨p, hp, beq_iff_eq.mp hkey⟩)

/-- `parse_base_json` of one action; `forwardUnknown` is `SGLANG_FORWARD_UNKNOWN_TOOLS`. -/
def parseBaseJson (forwardUnknown : Bool) (name : Text) (parameters : List (Text × Value))
    (tools : List Tool) : Option (List ToolCallItem) :=
  match toolIndex tools name with
  | none =>
    if forwardUnknown then
      (dumpsParams parameters).map fun text =>
        [{ toolIndex := -1, name := some name, parameters := text }]
    else some []
  | some i =>
    (dumpsParams parameters).map fun text =>
      [{ toolIndex := i, name := some name, parameters := text }]

/-- A tool with one parameter, an object. -/
def objectTool : Tool where
  type := "function".toList
  function :=
    { name := "f".toList
      parameters := .obj [("properties".toList, .obj [("x".toList, .obj [("type".toList,
        .str "object".toList)])])] }

end FunctionCall

end Sglang
