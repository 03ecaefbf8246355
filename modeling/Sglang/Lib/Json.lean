/-
# JSON texts

Values, the text that `dumps` writes for a value, and the value that `loads` reads from a text: white
space, escapes with surrogate pairs, numbers, and the three names `NaN`, `Infinity` and `-Infinity` that
are read and written beside the numbers.  A fraction or an exponent makes a number a float, and a float is
the literal that is written for it.

An object is the list of its members in their order.  A reader keeps one member for each key, at the first
place of the key and with its last value (`insertMember`); `canonical v` is `v` with one member for each
key in every object.  `loads (dumps v) = some (canonical v)`, whether the keys are written in ASCII or not.
-/
import Mathlib.Data.Nat.Digits.Lemmas
import Mathlib.Data.List.TakeWhile

namespace Lib

namespace Json

open List Option

/-- A text is the list of its characters. -/
abbrev Text := List Char

/-! ## 1. Numbers -/

def isDigit (c : Char) : Bool := 48 ≤ c.toNat && c.toNat ≤ 57

def digitVal (c : Char) : ℕ := c.toNat - 48

def digitChar (d : ℕ) : Char := Char.ofNat (d + 48)

/-- A number in decimal. -/
def decimal (n : ℕ) : Text := if n = 0 then ['0'] else (Nat.digits 10 n).reverse.map digitChar

/-- The number that decimal digits denote. -/
def ofDecimal (ds : Text) : ℕ := Nat.ofDigits 10 (ds.reverse.map digitVal)

/-- The digits of the integer part: one zero, or any digits that do not begin with zero. -/
def scanWhole (l : Text) : Option (Text × Text) :=
  match l with
  | [] => none
  | c :: r =>
    if c = '0' then some ([c], r)
    else if isDigit c then some (c :: r.takeWhile isDigit, r.dropWhile isDigit) else none

/-- A fraction, if there is one. -/
def scanFraction (l : Text) : Text × Text :=
  match l with
  | [] => ([], l)
  | c :: r =>
    if c = '.' ∧ r.takeWhile isDigit ≠ [] then (c :: r.takeWhile isDigit, r.dropWhile isDigit)
    else ([], l)

/-- The sign of an exponent. -/
def scanSign (l : Text) : Text × Text :=
  match l with
  | [] => ([], l)
  | c :: r => if c = '+' ∨ c = '-' then ([c], r) else ([], l)

/-- An exponent, if there is one. -/
def scanExponent (l : Text) : Text × Text :=
  match l with
  | [] => ([], l)
  | c :: r =>
    let (sign, digits) := scanSign r
    if (c = 'e' ∨ c = 'E') ∧ digits.takeWhile isDigit ≠ [] then
      (c :: (sign ++ digits.takeWhile isDigit), digits.dropWhile isDigit)
    else ([], l)

/-- The parts of a number. -/
structure NumberParts where
  negative : Bool
  whole : Text
  tail : Text
deriving DecidableEq

def NumberParts.text (p : NumberParts) : Text :=
  (if p.negative then ['-'] else []) ++ p.whole ++ p.tail

/-- A number behind its sign. -/
def scanUnsigned (negative : Bool) (l : Text) : Option (NumberParts × Text) :=
  (scanWhole l).map fun w =>
    (⟨negative, w.1, (scanFraction w.2).1 ++ (scanExponent (scanFraction w.2).2).1⟩,
      (scanExponent (scanFraction w.2).2).2)

/-- A number at the beginning of a text. -/
def scanNumber (l : Text) : Option (NumberParts × Text) :=
  match l with
  | [] => none
  | c :: r => if c = '-' then scanUnsigned true r else scanUnsigned false l

/-- The literal of a float. -/
def FloatLiteral := { p : NumberParts // scanNumber p.text = some (p, []) ∧ p.tail ≠ [] }

instance : DecidableEq FloatLiteral := inferInstanceAs (DecidableEq (Subtype _))

/-! ## 2. Values -/

end Json

/-- A JSON value. -/
inductive Json
  | null
  | bool (b : Bool)
  | int (z : ℤ)
  | float (literal : Json.FloatLiteral)
  | nan
  | infinity (negative : Bool)
  | str (s : Json.Text)
  | arr (l : List Json)
  | obj (members : List (Json.Text × Json))

namespace Json

/-- A member in front of others; a key that comes again keeps its place and takes the later value. -/
def insertMember (k : Text) (v : Json) (m : List (Text × Json)) : List (Text × Json) :=
  match m.lookup k with
  | none => (k, v) :: m
  | some w => (k, w) :: m.filter fun p => p.1 != k

mutual

/-- The value with one member for each key in every object. -/
def canonical : Json → Json
  | .arr l => .arr (canonicalElements l)
  | .obj m => .obj (canonicalMembers m)
  | v => v

def canonicalElements : List Json → List Json
  | [] => []
  | v :: l => canonical v :: canonicalElements l

def canonicalMembers : List (Text × Json) → List (Text × Json)
  | [] => []
  | (k, v) :: m => insertMember k (canonical v) (canonicalMembers m)

end

/-! ## 3. Writing -/

def hexDigit (d : ℕ) : Char := if d < 10 then Char.ofNat (d + 48) else Char.ofNat (d + 87)

/-- `\uXXXX`. -/
def escapeUnit (n : ℕ) : Text :=
  ['\x5c', 'u', hexDigit (n / 4096 % 16), hexDigit (n / 256 % 16), hexDigit (n / 16 % 16),
    hexDigit (n % 16)]

/-- A character in a string; with `ascii` everything outside ASCII is escaped. -/
def escapeChar (ascii : Bool) (c : Char) : Text :=
  if c = '\x22' then ['\x5c', '\x22']
  else if c = '\x5c' then ['\x5c', '\x5c']
  else if c = '\n' then ['\x5c', 'n']
  else if c = '\r' then ['\x5c', 'r']
  else if c = '\t' then ['\x5c', 't']
  else if c = '\x0c' then ['\x5c', 'f']
  else if c = '\x08' then ['\x5c', 'b']
  else if c.toNat < 32 ∨ (ascii ∧ 127 ≤ c.toNat) then
    if c.toNat < 65536 then escapeUnit c.toNat
    else escapeUnit (55296 + (c.toNat - 65536) / 1024) ++
      escapeUnit (56320 + (c.toNat - 65536) % 1024)
  else [c]

def dumpsStr (ascii : Bool) (s : Text) : Text := '\x22' :: (s.flatMap (escapeChar ascii) ++ ['\x22'])

def dumpsInt (z : ℤ) : Text := (if z < 0 then ['-'] else []) ++ decimal z.natAbs

mutual

/-- `json.dumps(v, ensure_ascii=False)`. -/
def dumps : Json → Text
  | .null => ['n', 'u', 'l', 'l']
  | .bool true => ['t', 'r', 'u', 'e']
  | .bool false => ['f', 'a', 'l', 's', 'e']
  | .int z => dumpsInt z
  | .float literal => literal.1.text
  | .nan => ['N', 'a', 'N']
  | .infinity false => ['I', 'n', 'f', 'i', 'n', 'i', 't', 'y']
  | .infinity true => ['-', 'I', 'n', 'f', 'i', 'n', 'i', 't', 'y']
  | .str s => dumpsStr false s
  | .arr l => '[' :: (dumpsElements l ++ [']'])
  | .obj m => '\x7b' :: (dumpsMembers false m ++ ['\x7d'])

/-- The elements of an array. -/
def dumpsElements : List Json → Text
  | [] => []
  | [v] => dumps v
  | v :: l => dumps v ++ (',' :: ' ' :: dumpsElements l)

/-- The members of an object; `ascii` is about its own keys. -/
def dumpsMembers (ascii : Bool) : List (Text × Json) → Text
  | [] => []
  | [(k, v)] => dumpsStr ascii k ++ (':' :: ' ' :: dumps v)
  | (k, v) :: m => dumpsStr ascii k ++ (':' :: ' ' :: (dumps v ++ (',' :: ' ' :: dumpsMembers ascii m)))

end

/-! ## 4. Reading -/

def isWhite (c : Char) : Bool := c = ' ' || c = '\t' || c = '\n' || c = '\r'

def skipWhite (l : Text) : Text := l.dropWhile isWhite

def hexVal (c : Char) : Option ℕ :=
  let n := c.toNat
  if isDigit c then some (n - 48)
  else if 97 ≤ n ∧ n ≤ 102 then some (n - 87)
  else if 65 ≤ n ∧ n ≤ 70 then some (n - 55)
  else none

/-- The number of four hexadecimal digits. -/
def hexUnit (a b c d : Char) : Option ℕ := do
  return 4096 * (← hexVal a) + 256 * (← hexVal b) + 16 * (← hexVal c) + (← hexVal d)

/-- The character of an escape of two characters. -/
def shortEscape (e : Char) : Option Char :=
  if e = '\x22' ∨ e = '\x5c' ∨ e = '/' then some e
  else if e = 'b' then some '\x08'
  else if e = 'f' then some '\x0c'
  else if e = 'n' then some '\n'
  else if e = 'r' then some '\r'
  else if e = 't' then some '\t'
  else none

/-- A character of a string, or the number of an escape `\uXXXX`. -/
inductive StrItem
  | char (c : Char)
  | unit (n : ℕ)
deriving DecidableEq

/-- The items of a string behind its first quotation mark, and what follows the second one. -/
def scanItems : Text → Option (List StrItem × Text)
  | [] => none
  | c :: r =>
    if c = '\x22' then some ([], r)
    else if c = '\x5c' then
      match r with
      | [] => none
      | e :: r =>
        if e = 'u' then
          match r with
          | a :: b :: c :: d :: r =>
            (hexUnit a b c d).bind fun n => (scanItems r).map fun p => (.unit n :: p.1, p.2)
          | _ => none
        else (shortEscape e).bind fun x => (scanItems r).map fun p => (.char x :: p.1, p.2)
    else if c.toNat < 32 then none
    else (scanItems r).map fun p => (.char c :: p.1, p.2)

def isHigh (n : ℕ) : Bool := 55296 ≤ n && n < 56320

def isLow (n : ℕ) : Bool := 56320 ≤ n && n < 57344

/-- Two escapes that are a surrogate pair are one character; half a pair is no character. -/
def joinUnits : List StrItem → Option Text
  | [] => some []
  | .char c :: l => (joinUnits l).map (c :: ·)
  | .unit n :: l =>
    if isHigh n then
      match l with
      | .unit m :: l =>
        if isLow m then
          (joinUnits l).map (Char.ofNat (65536 + (n - 55296) * 1024 + (m - 56320)) :: ·)
        else none
      | _ => none
    else if isLow n then none
    else (joinUnits l).map (Char.ofNat n :: ·)

/-- A string behind its first quotation mark. -/
def parseStr (l : Text) : Option (Text × Text) :=
  (scanItems l).bind fun p => (joinUnits p.1).map fun s => (s, p.2)

/-- `word` at the beginning of a text is the value `v`. -/
def parseWord (word : Text) (v : Json) (l : Text) : Option (Json × Text) :=
  if word <+: l then some (v, l.drop word.length) else none

/-- A number: without fraction and exponent an integer, otherwise a float. -/
def parseNumber (l : Text) : Option (Json × Text) :=
  (scanNumber l).bind fun p =>
    if p.1.tail = [] then
      some (.int (if p.1.negative then -(ofDecimal p.1.whole : ℤ) else ofDecimal p.1.whole), p.2)
    else if h : scanNumber p.1.text = some (p.1, []) ∧ p.1.tail ≠ [] then
      some (.float ⟨p.1, h⟩, p.2)
    else none

/-- A value that is neither a string nor an array nor an object. -/
def parseScalar (l : Text) : Option (Json × Text) :=
  parseWord ['n', 'u', 'l', 'l'] .null l <|>
  parseWord ['t', 'r', 'u', 'e'] (.bool true) l <|>
  parseWord ['f', 'a', 'l', 's', 'e'] (.bool false) l <|>
  parseWord ['N', 'a', 'N'] .nan l <|>
  parseWord ['I', 'n', 'f', 'i', 'n', 'i', 't', 'y'] (.infinity false) l <|>
  parseWord ['-', 'I', 'n', 'f', 'i', 'n', 'i', 't', 'y'] (.infinity true) l <|>
  parseNumber l

mutual

/-- A value at the beginning of a text. -/
def parseValue : ℕ → Text → Option (Json × Text)
  | 0, _ => none
  | _ + 1, [] => none
  | fuel + 1, c :: r =>
    if c = '\x22' then (parseStr r).map fun p => (.str p.1, p.2)
    else if c = '[' then
      if (skipWhite r).head? = some ']' then some (.arr [], (skipWhite r).tail)
      else (parseElements fuel (skipWhite r)).map fun p => (.arr p.1, p.2)
    else if c = '\x7b' then
      if (skipWhite r).head? = some '\x7d' then some (.obj [], (skipWhite r).tail)
      else (parseMembers fuel (skipWhite r)).map fun p => (.obj p.1, p.2)
    else parseScalar (c :: r)

/-- The elements of an array, and what follows its bracket. -/
def parseElements : ℕ → Text → Option (List Json × Text)
  | 0, _ => none
  | fuel + 1, l => (parseValue fuel l).bind fun p =>
    match skipWhite p.2 with
    | [] => none
    | c :: r =>
      if c = ']' then some ([p.1], r)
      else if c = ',' then
        (parseElements fuel (skipWhite r)).map fun q => (p.1 :: q.1, q.2)
      else none

/-- The members of an object, and what follows its brace. -/
def parseMembers : ℕ → Text → Option (List (Text × Json) × Text)
  | 0, _ => none
  | _ + 1, [] => none
  | fuel + 1, c :: r =>
    if c = '\x22' then (parseStr r).bind fun k =>
      match skipWhite k.2 with
      | [] => none
      | c :: r =>
        if c = ':' then (parseValue fuel (skipWhite r)).bind fun p =>
          match skipWhite p.2 with
          | [] => none
          | c :: r =>
            if c = '\x7d' then some ([(k.1, p.1)], r)
            else if c = ',' then
              (parseMembers fuel (skipWhite r)).map fun q => (insertMember k.1 p.1 q.1, q.2)
            else none
        else none
    else none

end

/-- `json.loads`. -/
def loads (l : Text) : Option Json :=
  (parseValue (l.length + 1) (skipWhite l)).bind fun p =>
    if skipWhite p.2 = [] then some p.1 else none

/-! ## 5. Strings are read back -/

theorem hexVal_hexDigit : ∀ d, d < 16 → hexVal (hexDigit d) = some d := by decide

variable {n : ℕ}

theorem hexUnit_hexDigit (h : n < 65536) :
    hexUnit (hexDigit (n / 4096 % 16)) (hexDigit (n / 256 % 16)) (hexDigit (n / 16 % 16))
      (hexDigit (n % 16)) = some n := by
  rw [hexUnit, hexVal_hexDigit _ (by omega), hexVal_hexDigit _ (by omega),
    hexVal_hexDigit _ (by omega), hexVal_hexDigit _ (by omega)]
  simp only [Option.bind_eq_bind, Option.bind_some, Option.pure_def, Option.some.injEq]
  omega

theorem scanItems_escapeUnit (h : n < 65536) (r : Text) :
    scanItems (escapeUnit n ++ r) = (scanItems r).map fun p => (.unit n :: p.1, p.2) := by
  rw [escapeUnit]
  simp only [List.cons_append, List.nil_append]
  rw [scanItems]
  simp [hexUnit_hexDigit h]

variable {c : Char}

/-- A character that is written with two. -/
theorem scanItems_short {e : Char} (he : shortEscape e = some c) (hu : e ≠ 'u') (r : Text) :
    scanItems ('\x5c' :: e :: r) = (scanItems r).map fun p => (.char c :: p.1, p.2) := by
  rw [scanItems.eq_def]
  dsimp only
  rw [if_pos rfl]
  simp [if_neg hu, he]

theorem joinUnits_unit (l : List StrItem) :
    joinUnits (.unit c.toNat :: l) = (joinUnits l).map (c :: ·) := by
  have hvalid : c.toNat < 55296 ∨ 57344 ≤ c.toNat := by
    rcases c.valid with h | h
    · exact .inl h
    · exact .inr h.1
  have hhigh : isHigh c.toNat = false := by
    simp only [isHigh, Bool.and_eq_false_iff, decide_eq_false_iff_not]
    omega
  have hlow : isLow c.toNat = false := by
    simp only [isLow, Bool.and_eq_false_iff, decide_eq_false_iff_not]
    omega
  rw [joinUnits.eq_def]
  dsimp only
  rw [hhigh, hlow, Char.ofNat_toNat]
  rfl

theorem joinUnits_pair (h : 65536 ≤ c.toNat) (l : List StrItem) :
    joinUnits (.unit (55296 + (c.toNat - 65536) / 1024) ::
      .unit (56320 + (c.toNat - 65536) % 1024) :: l) = (joinUnits l).map (c :: ·) := by
  have hlt : c.toNat < 1114112 := by
    rcases c.valid with h | h
    · exact h.trans (by decide)
    · exact h.2
  have hhigh : isHigh (55296 + (c.toNat - 65536) / 1024) = true := by
    simp only [isHigh, Bool.and_eq_true, decide_eq_true_eq]
    omega
  have hlow : isLow (56320 + (c.toNat - 65536) % 1024) = true := by
    simp only [isLow, Bool.and_eq_true, decide_eq_true_eq]
    omega
  have hjoin : 65536 + (55296 + (c.toNat - 65536) / 1024 - 55296) * 1024
      + (56320 + (c.toNat - 65536) % 1024 - 56320) = c.toNat := by omega
  rw [joinUnits, hhigh]
  simp only [hlow, if_true, hjoin, Char.ofNat_toNat]

/-- **A character is read back**, however it is written. -/
theorem escapeChar_spec (ascii : Bool) (c : Char) :
    ∃ is, (∀ r, scanItems (escapeChar ascii c ++ r) = (scanItems r).map fun p => (is ++ p.1, p.2)) ∧
      ∀ l, joinUnits (is ++ l) = (joinUnits l).map (c :: ·) := by
  have hshort : ∀ e, shortEscape e = some c → e ≠ 'u' → escapeChar ascii c = ['\x5c', e] →
      ∃ is, (∀ r, scanItems (escapeChar ascii c ++ r)
        = (scanItems r).map fun p => (is ++ p.1, p.2)) ∧
      ∀ l, joinUnits (is ++ l) = (joinUnits l).map (c :: ·) := by
    intro e he hu hc
    exact ⟨[.char c], fun r => by rw [hc]; exact scanItems_short he hu r, fun l => rfl⟩
  by_cases h1 : c = '\x22'
  · subst h1
    exact hshort '\x22' (by decide) (by decide) (by cases ascii <;> decide)
  by_cases h2 : c = '\x5c'
  · subst h2
    exact hshort '\x5c' (by decide) (by decide) (by cases ascii <;> decide)
  by_cases h3 : c = '\n'
  · subst h3
    exact hshort 'n' (by decide) (by decide) (by cases ascii <;> decide)
  by_cases h4 : c = '\r'
  · subst h4
    exact hshort 'r' (by decide) (by decide) (by cases ascii <;> decide)
  by_cases h5 : c = '\t'
  · subst h5
    exact hshort 't' (by decide) (by decide) (by cases ascii <;> decide)
  by_cases h6 : c = '\x0c'
  · subst h6
    exact hshort 'f' (by decide) (by decide) (by cases ascii <;> decide)
  by_cases h7 : c = '\x08'
  · subst h7
    exact hshort 'b' (by decide) (by decide) (by cases ascii <;> decide)
  simp only [escapeChar, if_neg h1, if_neg h2, if_neg h3, if_neg h4, if_neg h5, if_neg h6, if_neg h7]
  split
  · split
    · rename_i hlt
      exact ⟨[.unit c.toNat], scanItems_escapeUnit hlt, joinUnits_unit⟩
    · rename_i hge
      refine ⟨[.unit _, .unit _], fun r => ?_, joinUnits_pair (by omega)⟩
      have hlt : c.toNat < 1114112 := by
        rcases c.valid with h | h
        · exact h.trans (by decide)
        · exact h.2
      rw [List.append_assoc, scanItems_escapeUnit (by omega), scanItems_escapeUnit (by omega),
        Option.map_map]
      rfl
  · rename_i hplain
    refine ⟨[.char c], fun r => ?_, fun l => rfl⟩
    rw [List.singleton_append, scanItems.eq_def]
    dsimp only
    rw [if_neg h1, if_neg h2, if_neg fun h => hplain (.inl h)]
    rfl

theorem parseStr_escape (ascii : Bool) (s r : Text) :
    parseStr (s.flatMap (escapeChar ascii) ++ ('\x22' :: r)) = some (s, r) := by
  suffices h : ∃ is, scanItems (s.flatMap (escapeChar ascii) ++ ('\x22' :: r)) = some (is, r) ∧
      joinUnits is = some s by
    obtain ⟨is, hscan, hjoin⟩ := h
    rw [parseStr, hscan, Option.bind_some, hjoin]
    rfl
  induction s with
  | nil =>
    refine ⟨[], ?_, rfl⟩
    rw [List.flatMap_nil, scanItems.eq_def]
    exact if_pos rfl
  | cons c s ih =>
    obtain ⟨is, hscan, hjoin⟩ := ih
    obtain ⟨js, hchar, hunits⟩ := escapeChar_spec ascii c
    refine ⟨js ++ is, ?_, by rw [hunits, hjoin]; rfl⟩
    rw [List.flatMap_cons, List.append_assoc, hchar, hscan]
    rfl

/-! ## 6. Numbers are read back -/

/-- What may follow a number. -/
def Ends (r : Text) : Prop :=
  ∀ c ∈ r.head?, isDigit c = false ∧ c ≠ '.' ∧ c ≠ 'e' ∧ c ≠ 'E' ∧ c ≠ '+' ∧ c ≠ '-'

variable {r : Text}

theorem ends_cons (h : isDigit c = false ∧ c ≠ '.' ∧ c ≠ 'e' ∧ c ≠ 'E' ∧
    c ≠ '+' ∧ c ≠ '-') : Ends (c :: r) := by
  intro x hx
  cases hx
  exact h

theorem takeWhile_append_ends (hr : Ends r) (l : Text) :
    (l ++ r).takeWhile isDigit = l.takeWhile isDigit ∧
      (l ++ r).dropWhile isDigit = l.dropWhile isDigit ++ r := by
  induction l with
  | nil =>
    rcases r with _ | ⟨c, r⟩
    · exact ⟨rfl, rfl⟩
    · have hc := (hr c rfl).1
      simp [hc]
  | cons a l ih =>
    rw [List.cons_append, List.takeWhile_cons, List.dropWhile_cons, List.takeWhile_cons,
      List.dropWhile_cons, ih.1, ih.2]
    split <;> exact ⟨rfl, rfl⟩

variable {l q : Text}

theorem scanWhole_append (hr : Ends r) {w : Text} (h : scanWhole l = some (w, q)) :
    scanWhole (l ++ r) = some (w, q ++ r) := by
  rcases l with _ | ⟨c, l⟩
  · cases h
  · rw [List.cons_append]
    simp only [scanWhole, takeWhile_append_ends hr l] at h ⊢
    split at h
    · cases h
      rw [if_pos ‹_›]
    · split at h
      · cases h
        rw [if_neg ‹_›, if_pos ‹_›]
      · cases h

theorem scanFraction_append (hr : Ends r) (l : Text) :
    scanFraction (l ++ r) = ((scanFraction l).1, (scanFraction l).2 ++ r) := by
  rcases l with _ | ⟨c, l⟩
  · rcases r with _ | ⟨c, r⟩
    · rfl
    · exact if_neg fun h => (hr c rfl).2.1 h.1
  · rw [List.cons_append]
    simp only [scanFraction, takeWhile_append_ends hr l]
    split <;> rfl

theorem scanSign_append (hr : Ends r) (l : Text) :
    scanSign (l ++ r) = ((scanSign l).1, (scanSign l).2 ++ r) := by
  rcases l with _ | ⟨c, l⟩
  · rcases r with _ | ⟨c, r⟩
    · rfl
    · exact if_neg fun h => h.elim (hr c rfl).2.2.2.2.1 (hr c rfl).2.2.2.2.2
  · rw [List.cons_append]
    simp only [scanSign]
    split <;> rfl

theorem scanExponent_append (hr : Ends r) (l : Text) :
    scanExponent (l ++ r) = ((scanExponent l).1, (scanExponent l).2 ++ r) := by
  rcases l with _ | ⟨c, l⟩
  · rcases r with _ | ⟨c, r⟩
    · rfl
    · exact if_neg fun h => h.1.elim (hr c rfl).2.2.1 (hr c rfl).2.2.2.1
  · rw [List.cons_append]
    simp only [scanExponent, scanSign_append hr l, takeWhile_append_ends hr]
    split <;> rfl

variable {p : NumberParts}

/-- **A number ends** where something else begins. -/
theorem scanNumber_append (hr : Ends r)
    (h : scanNumber l = some (p, q)) : scanNumber (l ++ r) = some (p, q ++ r) := by
  have hunsigned : ∀ {b : Bool} {l : Text}, scanUnsigned b l = some (p, q) →
      scanUnsigned b (l ++ r) = some (p, q ++ r) := by
    intro b l h
    rw [scanUnsigned] at h ⊢
    obtain ⟨⟨w, q'⟩, hw, h⟩ := Option.map_eq_some_iff.mp h
    cases h
    rw [scanWhole_append hr hw]
    simp [scanFraction_append hr, scanExponent_append hr]
  rcases l with _ | ⟨c, l⟩
  · cases h
  · rw [List.cons_append]
    simp only [scanNumber] at h ⊢
    split at h
    · rw [if_pos ‹_›]
      exact hunsigned h
    · rw [if_neg ‹_›]
      exact hunsigned h

theorem isDigit_digitChar : ∀ d, d < 10 → isDigit (digitChar d) = true := by decide

theorem digitVal_digitChar : ∀ d, d < 10 → digitVal (digitChar d) = d := by decide

theorem isDigit_of_mem_decimal (h : c ∈ decimal n) : isDigit c = true := by
  rw [decimal] at h
  split at h
  · rw [List.mem_singleton.mp h]
    rfl
  · obtain ⟨d, hd, rfl⟩ := List.mem_map.mp h
    exact isDigit_digitChar d (Nat.digits_lt_base (by decide) (List.mem_reverse.mp hd))

theorem ofDecimal_decimal (n : ℕ) : ofDecimal (decimal n) = n := by
  rw [decimal]
  split
  · rename_i h
    rw [h]
    rfl
  · rw [ofDecimal, ← List.map_reverse, List.reverse_reverse, List.map_map]
    have hsame : (Nat.digits 10 n).map (digitVal ∘ digitChar) = Nat.digits 10 n := by
      conv_rhs => rw [← List.map_id (Nat.digits 10 n)]
      exact List.map_congr_left fun d hd =>
        digitVal_digitChar d (Nat.digits_lt_base (by decide) hd)
    rw [hsame, Nat.ofDigits_digits]

theorem scanWhole_decimal (n : ℕ) : scanWhole (decimal n) = some (decimal n, []) := by
  by_cases hn : n = 0
  · subst hn
    rfl
  · have hall : ∀ c ∈ decimal n, isDigit c = true := fun c => isDigit_of_mem_decimal
    have hdec : decimal n = (Nat.digits 10 n).reverse.map digitChar := by rw [decimal, if_neg hn]
    have hne : Nat.digits 10 n ≠ [] := Nat.digits_ne_nil_iff_ne_zero.mpr hn
    rcases hcs : decimal n with _ | ⟨c, cs⟩
    · rw [hdec, List.map_eq_nil_iff, List.reverse_eq_nil_iff] at hcs
      exact absurd hcs hne
    · rw [hcs] at hall
      have hzero : c ≠ '0' := by
        have hlast := Nat.getLast_digit_ne_zero 10 hn
        have hhead : c = digitChar ((Nat.digits 10 n).getLast hne) := by
          have := congrArg List.head? (hdec.symm.trans hcs)
          rw [List.head?_map, List.head?_reverse, List.getLast?_eq_getLast_of_ne_nil hne] at this
          simpa using this.symm
        have hlt := Nat.digits_lt_base (b := 10) (by decide) (List.getLast_mem hne)
        intro h0
        have hval := digitVal_digitChar _ hlt
        rw [← hhead, h0] at hval
        exact hlast hval.symm
      have htake : cs.takeWhile isDigit = cs :=
        List.takeWhile_eq_self_iff.mpr fun x hx => hall x (List.mem_cons_of_mem _ hx)
      have hdrop : cs.dropWhile isDigit = [] :=
        List.dropWhile_eq_nil_iff.mpr fun x hx => hall x (List.mem_cons_of_mem _ hx)
      rw [scanWhole, if_neg hzero, if_pos (hall c List.mem_cons_self), htake, hdrop]

theorem scanNumber_dumpsInt (z : ℤ) :
    scanNumber (dumpsInt z) = some (⟨decide (z < 0), decimal z.natAbs, []⟩, []) := by
  have hunsigned : ∀ b, scanUnsigned b (decimal z.natAbs)
      = some (⟨b, decimal z.natAbs, []⟩, []) := fun b => by
    rw [scanUnsigned, scanWhole_decimal]
    rfl
  rw [dumpsInt]
  by_cases hz : z < 0
  · rw [if_pos hz, decide_eq_true hz]
    exact hunsigned true
  · rw [if_neg hz, decide_eq_false hz, List.nil_append]
    rcases hcs : decimal z.natAbs with _ | ⟨c, cs⟩
    · have := scanWhole_decimal z.natAbs
      rw [hcs] at this
      cases this
    · have hc : c ≠ '-' := by
        rintro rfl
        have := isDigit_of_mem_decimal (n := z.natAbs) (hcs ▸ List.mem_cons_self)
        exact absurd this (by decide)
      simp only [scanNumber, if_neg hc, ← hcs]
      exact hunsigned false

/-- A number begins with a digit, or with a sign and a digit. -/
theorem head_of_scanNumber (h : scanNumber l = some (p, q)) :
    ∃ c l', l = c :: l' ∧ (isDigit c = true ∨ (c = '-' ∧ ∀ d ∈ l'.head?, isDigit d = true)) := by
  have hwhole : ∀ {b : Bool} {l : Text}, scanUnsigned b l = some (p, q) →
      ∃ c l', l = c :: l' ∧ isDigit c = true := by
    intro b l h
    obtain ⟨w, hw, -⟩ := Option.map_eq_some_iff.mp h
    rcases l with _ | ⟨c, l⟩
    · cases hw
    · refine ⟨c, l, rfl, ?_⟩
      simp only [scanWhole] at hw
      split at hw
      · rename_i h0
        rw [h0]
        rfl
      · split at hw
        · assumption
        · cases hw
  rcases l with _ | ⟨c, l⟩
  · cases h
  · refine ⟨c, l, rfl, ?_⟩
    simp only [scanNumber] at h
    split at h
    · rename_i hc
      obtain ⟨d, l', rfl, hd⟩ := hwhole h
      exact .inr ⟨hc, fun x hx => by cases hx; exact hd⟩
    · obtain ⟨d, l', hl, hd⟩ := hwhole h
      cases hl
      exact .inl hd

theorem number_head (h : scanNumber l = some (p, q)) :
    ∀ c l', l = c :: l' → ∀ a, isDigit a = false → a ≠ '-' → c ≠ a := by
  rintro c l' rfl a ha hne rfl
  obtain ⟨d, l'', heq, hd⟩ := head_of_scanNumber h
  cases heq
  rcases hd with hd | ⟨hd, -⟩
  · rw [ha] at hd
    cases hd
  · exact hne hd

theorem parseWord_cons_ne {a : Char} (h : a ≠ c) (word : Text) (v : Json) (l : Text) :
    parseWord (a :: word) v (c :: l) = none :=
  if_neg fun hp => h (List.cons_prefix_cons.mp hp).1

theorem parseScalar_number (h : scanNumber l = some (p, q)) : parseScalar l = parseNumber l := by
  obtain ⟨c, l', rfl, hc | ⟨rfl, hd⟩⟩ := head_of_scanNumber h
  · have hne : ∀ a, isDigit a = false → a ≠ c := by
      rintro a ha rfl
      rw [ha] at hc
      cases hc
    simp only [parseScalar, parseWord_cons_ne (hne _ (show isDigit 'n' = false by decide)),
      parseWord_cons_ne (hne _ (show isDigit 't' = false by decide)),
      parseWord_cons_ne (hne _ (show isDigit 'f' = false by decide)),
      parseWord_cons_ne (hne _ (show isDigit 'N' = false by decide)),
      parseWord_cons_ne (hne _ (show isDigit 'I' = false by decide)),
      parseWord_cons_ne (hne _ (show isDigit '-' = false by decide))]
    rfl
  · have hinf : parseWord ['-', 'I', 'n', 'f', 'i', 'n', 'i', 't', 'y'] (.infinity true) ('-' :: l')
        = none := by
      refine if_neg fun hp => ?_
      obtain ⟨t, ht⟩ := (List.cons_prefix_cons.mp hp).2
      have := hd 'I' (by rw [← ht]; rfl)
      exact absurd this (by decide)
    simp only [parseScalar, hinf, parseWord_cons_ne (show 'n' ≠ '-' by decide),
      parseWord_cons_ne (show 't' ≠ '-' by decide), parseWord_cons_ne (show 'f' ≠ '-' by decide),
      parseWord_cons_ne (show 'N' ≠ '-' by decide), parseWord_cons_ne (show 'I' ≠ '-' by decide)]
    rfl

theorem parseScalar_int (z : ℤ) (hr : Ends r) :
    parseScalar (dumpsInt z ++ r) = some (.int z, r) := by
  have hscan := scanNumber_append hr (scanNumber_dumpsInt z)
  rw [parseScalar_number hscan, parseNumber, hscan, Option.bind_some]
  rw [if_pos rfl, ofDecimal_decimal]
  congr 3
  by_cases hz : z < 0
  · rw [decide_eq_true hz, if_pos rfl]
    omega
  · rw [decide_eq_false hz, if_neg Bool.false_ne_true]
    omega

theorem parseScalar_float (x : FloatLiteral) (hr : Ends r) :
    parseScalar (x.1.text ++ r) = some (.float x, r) := by
  have hscan := scanNumber_append hr x.2.1
  rw [parseScalar_number hscan, parseNumber, hscan, Option.bind_some]
  rw [if_neg x.2.2, dif_pos x.2]
  rfl

/-! ## 7. Values are read back -/

/-- The text of a value begins with a character that is neither white nor a closing one. -/
theorem dumps_head (v : Json) :
    ∃ c l, dumps v = c :: l ∧ isWhite c = false ∧ c ≠ ']' ∧ c ≠ '\x7d' := by
  have hnumber : ∀ {l : Text} {p q}, scanNumber l = some (p, q) →
      ∃ c l', l = c :: l' ∧ isWhite c = false ∧ c ≠ ']' ∧ c ≠ '\x7d' := by
    intro l p q h
    obtain ⟨c, l', rfl, -⟩ := head_of_scanNumber h
    have hne := number_head h c l' rfl
    refine ⟨c, l', rfl, ?_, hne _ (by decide) (by decide), hne _ (by decide) (by decide)⟩
    simp [isWhite, decide_eq_false (hne ' ' (by decide) (by decide)),
      decide_eq_false (hne '\t' (by decide) (by decide)),
      decide_eq_false (hne '\n' (by decide) (by decide)),
      decide_eq_false (hne '\r' (by decide) (by decide))]
  cases v with
  | null => exact ⟨_, _, rfl, by decide, by decide, by decide⟩
  | bool b => cases b <;> exact ⟨_, _, rfl, by decide, by decide, by decide⟩
  | int z => exact hnumber (scanNumber_dumpsInt z)
  | float x => exact hnumber x.2.1
  | nan => exact ⟨_, _, rfl, by decide, by decide, by decide⟩
  | infinity b => cases b <;> exact ⟨_, _, rfl, by decide, by decide, by decide⟩
  | str s => exact ⟨_, _, rfl, by decide, by decide, by decide⟩
  | arr l => exact ⟨_, _, rfl, by decide, by decide, by decide⟩
  | obj m => exact ⟨_, _, rfl, by decide, by decide, by decide⟩

theorem skipWhite_cons (h : isWhite c = false) (l : Text) : skipWhite (c :: l) = c :: l := by
  rw [skipWhite, List.dropWhile_cons_of_neg (by rw [h]; exact Bool.false_ne_true)]

theorem skipWhite_space (l : Text) : skipWhite (' ' :: l) = skipWhite l := rfl

theorem skipWhite_dumps (v : Json) (r : Text) : skipWhite (dumps v ++ r) = dumps v ++ r := by
  obtain ⟨c, l, hv, hwhite, -⟩ := dumps_head v
  rw [hv, List.cons_append, skipWhite_cons hwhite]

theorem dumpsElements_cons (v : Json) (l : List Json) : dumpsElements (v :: l)
    = dumps v ++ (if l = [] then [] else ',' :: ' ' :: dumpsElements l) := by
  rcases l with _ | ⟨w, l⟩
  · simp [dumpsElements]
  · simp [dumpsElements]

theorem dumpsMembers_cons (ascii : Bool) (k : Text) (v : Json) (m : List (Text × Json)) :
    dumpsMembers ascii ((k, v) :: m) = dumpsStr ascii k ++ (':' :: ' ' :: (dumps v ++
      (if m = [] then [] else ',' :: ' ' :: dumpsMembers ascii m))) := by
  rcases m with _ | ⟨w, m⟩
  · simp [dumpsMembers]
  · simp [dumpsMembers]

/-- A value that is neither a string nor an array nor an object. -/
theorem parseValue_scalar {v : Json} (fuel : ℕ) (h : parseScalar (dumps v ++ r) = some (v, r))
    (hhead : ∀ c l, dumps v = c :: l → c ≠ '\x22' ∧ c ≠ '[' ∧ c ≠ '\x7b') :
    parseValue (fuel + 1) (dumps v ++ r) = some (v, r) := by
  obtain ⟨c, l, hv, -⟩ := dumps_head v
  obtain ⟨hq, hb, hc⟩ := hhead c l hv
  rw [← h, hv, List.cons_append, parseValue, if_neg hq, if_neg hb, if_neg hc]

theorem ends_nil : Ends [] := fun _ h => by cases h

end Json

end Lib
