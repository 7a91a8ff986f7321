import RelationSql.Json.Number
import RelationSql.Text.Scan

/-!
# Reading JSON

A text is cut into tokens, and the tokens move a machine that holds the arrays and objects that wait
for a value. Values may be nested 127 deep. A text that is not exactly one value is refused.
-/

namespace RelationSql.Json

open RelationSql.Text

/-! ## Tokens -/

/-- A token of a JSON text. -/
inductive Token where
  | openArray
  | closeArray
  | openObject
  | closeObject
  | comma
  | colon
  /-- A value that is no array and no object. -/
  | scalar (value : Json)
  deriving Repr, Inhabited

/-- The value of a hexadecimal digit. -/
def hexValue? (c : Char) : Option Nat :=
  if c.isDigit then some (c.toNat - '0'.toNat)
  else if 'a' ≤ c ∧ c ≤ 'f' then some (c.toNat - 'a'.toNat + 10)
  else if 'A' ≤ c ∧ c ≤ 'F' then some (c.toNat - 'A'.toNat + 10)
  else none

/-- The value of four hexadecimal digits. -/
def hexUnit? (a b c d : Char) : Option Nat := do
  return ((← hexValue? a) * 16 + (← hexValue? b)) * 256 + (← hexValue? c) * 16 + (← hexValue? d)

/-- Is this unit the first half of a pair? -/
def isHighHalf (unit : Nat) : Bool :=
  decide (0xD800 ≤ unit) && decide (unit < 0xDC00)

/-- Is this unit the second half of a pair? -/
def isLowHalf (unit : Nat) : Bool :=
  decide (0xDC00 ≤ unit) && decide (unit < 0xE000)

/-- The character of a pair of units. -/
def pairChar (high low : Nat) : Char :=
  Char.ofNat (0x10000 + (high - 0xD800) * 0x400 + (low - 0xDC00))

/-- The character that a letter after a backslash stands for. -/
def shortEscape? (c : Char) : Option Char :=
  match c with
  | '"' => some '"'
  | '\\' => some '\\'
  | '/' => some '/'
  | 'b' => some '\x08'
  | 'f' => some '\x0c'
  | 'n' => some '\n'
  | 'r' => some '\r'
  | 't' => some '\t'
  | _ => none

/-- The character of a pair of escaped units. -/
def pair? (high low : Option Nat) : Option Char := do
  let high ← high
  let low ← low
  if isHighHalf high && isLowHalf low then some (pairChar high low) else none

/-- The character of one escaped unit. -/
def single? (unit : Option Nat) : Option Char := do
  let unit ← unit
  if isHighHalf unit || isLowHalf unit then none else some (Char.ofNat unit)

/-- Puts one character in front of the content of a string. -/
def consContent (c : Char) (read : Option (List Char × List Char)) :
    Option (List Char × List Char) :=
  read.map fun parts => (c :: parts.1, parts.2)

/-- Reads the content of a string up to its closing quote, and what follows. -/
def readString : List Char → Option (List Char × List Char)
  | [] => none
  | '"' :: cs => some ([], cs)
  | '\\' :: 'u' :: a :: b :: c :: d :: cs =>
    match single? (hexUnit? a b c d) with
    | some char => consContent char (readString cs)
    | none =>
      match cs with
      | '\\' :: 'u' :: e :: f :: g :: h :: cs =>
        match pair? (hexUnit? a b c d) (hexUnit? e f g h) with
        | some char => consContent char (readString cs)
        | none => none
      | _ => none
  | '\\' :: c :: cs =>
    match shortEscape? c with
    | some char => consContent char (readString cs)
    | none => none
  | c :: cs => if c.toNat < 32 ∨ c = '\\' then none else consContent c (readString cs)

/-- Is the character a blank of JSON? -/
def isJsonBlank (c : Char) : Bool :=
  c == ' ' || c == '\n' || c == '\t' || c == '\r'

/-- Reads a word that stands for a value. -/
def readWord (word : String) (value : Json) (text : List Char) : Option (Token × List Char) :=
  (after? word.toList text).map fun rest => (.scalar value, rest)

/-- Reads the token that starts with `c`. -/
def readToken (c : Char) (cs : List Char) : Option (Token × List Char) :=
  match c with
  | '[' => some (.openArray, cs)
  | ']' => some (.closeArray, cs)
  | '\x7b' => some (.openObject, cs)
  | '\x7d' => some (.closeObject, cs)
  | ',' => some (.comma, cs)
  | ':' => some (.colon, cs)
  | '"' => (readString cs).map fun parts => (.scalar (.string (String.ofList parts.1)), parts.2)
  | 'n' => readWord "null" .null (c :: cs)
  | 't' => readWord "true" (.bool true) (c :: cs)
  | 'f' => readWord "false" (.bool false) (c :: cs)
  | _ => (readNumber (c :: cs)).map fun parts => (.scalar parts.1, parts.2)

/-- The tokens of a text, as long as each leaves less than it found. -/
def tokens? (text : List Char) : Option (List Token) :=
  match _h : text.dropWhile isJsonBlank with
  | [] => some []
  | c :: cs =>
    match readToken c cs with
    | none => none
    | some (token, rest) =>
      if _hr : rest.length < text.length then (tokens? rest).map (token :: ·) else none
termination_by text.length

/-! ## Values -/

/-- An array or an object that waits for a value. -/
inductive Waiting where
  /-- The items so far, the newest first. -/
  | array (items : List Json)
  /-- The key of the value, and the members so far, the newest first. -/
  | object (key : String) (members : List (String × Json))
  deriving Repr, Inhabited

/-- What the machine expects. -/
inductive Mode where
  | value
  /-- An item of an array; while there is none yet, the array may also end. -/
  | item (items : List Json)
  | afterItem (items : List Json)
  /-- A key of an object; while there is no member yet, the object may also end. -/
  | key (members : List (String × Json))
  | colon (members : List (String × Json)) (key : String)
  | afterMember (members : List (String × Json))
  /-- A whole value was read. -/
  | done (value : Json)
  deriving Repr, Inhabited

/-- The machine: what it expects, and what waits for a value, the innermost first. -/
structure Machine where
  mode : Mode
  waiting : List Waiting
  deriving Repr, Inhabited

/-- How deep values may be nested. -/
def maxDepth : Nat := 127

/-- Hands a finished value to what waits for it. -/
def complete (value : Json) : List Waiting → Machine
  | [] => ⟨.done value, []⟩
  | .array items :: waiting => ⟨.afterItem (value :: items), waiting⟩
  | .object key members :: waiting => ⟨.afterMember ((key, value) :: members), waiting⟩

/-- Starts a value. -/
def startValue (waiting : List Waiting) : Token → Option Machine
  | .openArray => if waiting.length < maxDepth then some ⟨.item [], waiting⟩ else none
  | .openObject => if waiting.length < maxDepth then some ⟨.key [], waiting⟩ else none
  | .scalar value => some (complete value waiting)
  | _ => none

/-- The object of its members, the newest first. -/
def closeObject (members : List (String × Json)) : Json :=
  ofMembers members.reverse

/-- Moves the machine over one token. -/
def Machine.step (m : Machine) (token : Token) : Option Machine :=
  match m.mode with
  | .value => startValue m.waiting token
  | .item items =>
    match token, items with
    | .closeArray, [] => some (complete (.array []) m.waiting)
    | token, items => startValue (.array items :: m.waiting) token
  | .afterItem items =>
    match token with
    | .comma => some ⟨.item items, m.waiting⟩
    | .closeArray => some (complete (.array items.reverse) m.waiting)
    | _ => none
  | .key members =>
    match token, members with
    | .closeObject, [] => some (complete (.object []) m.waiting)
    | .scalar (.string key), members => some ⟨.colon members key, m.waiting⟩
    | _, _ => none
  | .colon members key =>
    match token with
    | .colon => some ⟨.value, .object key members :: m.waiting⟩
    | _ => none
  | .afterMember members =>
    match token with
    | .comma => some ⟨.key members, m.waiting⟩
    | .closeObject => some (complete (closeObject members) m.waiting)
    | _ => none
  | .done _ => none

/-- The value of a text that is exactly one value. -/
def parse? (text : String) : Option Json := do
  let tokens ← tokens? text.toList
  let m ← tokens.foldlM Machine.step ⟨.value, []⟩
  match m.mode with
  | .done value => some value
  | _ => none

end RelationSql.Json
