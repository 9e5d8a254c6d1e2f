import TypedPipeline.Json
import TypedPipeline.Decimal.Shortest

/-!
# Json.Reader: from text to JSON values

Reading has two stages. The first follows the grammar alone and yields a `JsonText`, which still
shows what a value no longer does: repeated member names, numbers out of range, texts with half of
a surrogate pair, any depth of nesting. The second stage (`JsonText.toJson?`) makes a value of it or
refuses it. This file fixes:

* the scanner, a machine fed one character at a time (`Scanner.step`), and the tokens it yields;
* the grammar, a machine fed one token at a time with the open arrays and objects on a stack
  (`Grammar.step`);
* the reading of number literals (`readNumber?`) and of escapes (`decodePieces`);
* `Json.parse?`, which allows no more than 127 levels of nesting and lets the last of several
  members of one name win.
-/

namespace TypedPipeline

/-- What a JSON text says, before it is judged: a number is `none` if it is out of range, a text if
    it holds half of a surrogate pair. -/
inductive JsonText where
  | null
  | bool (value : Bool)
  | number (value : Option Number)
  | text (value : Option String)
  | array (items : List JsonText)
  | object (members : List (Option String × JsonText))
  deriving Inhabited

namespace JsonText

/-! ## 1. Texts -/

/-- A character of a quoted text: written as itself, or as a 16-bit unit in hexadecimal. -/
inductive Piece where
  | char (c : Char)
  | unit (value : Nat)

def isHighSurrogate (unit : Nat) : Bool := 0xD800 ≤ unit && unit < 0xDC00

def isLowSurrogate (unit : Nat) : Bool := 0xDC00 ≤ unit && unit < 0xE000

/-- The characters that pieces stand for. Two units make one character if they are a surrogate
    pair; half of a pair stands for nothing. -/
def decodePieces : List Piece → Option (List Char)
  | [] => some []
  | .char c :: rest => (decodePieces rest).map (c :: ·)
  | .unit high :: .unit low :: rest =>
    if isHighSurrogate high then
      if isLowSurrogate low then
        let code := 0x10000 + (high - 0xD800) * 0x400 + (low - 0xDC00)
        (decodePieces rest).map (Char.ofNat code :: ·)
      else none
    else if isLowSurrogate high then none
    else (decodePieces (.unit low :: rest)).map (Char.ofNat high :: ·)
  | .unit u :: rest =>
    if isHighSurrogate u || isLowSurrogate u then none
    else (decodePieces rest).map (Char.ofNat u :: ·)

/-- The value of a hexadecimal digit. -/
def hexValue? (c : Char) : Option Nat :=
  if '0' ≤ c ∧ c ≤ '9' then some (c.toNat - '0'.toNat)
  else if 'a' ≤ c ∧ c ≤ 'f' then some (c.toNat - 'a'.toNat + 10)
  else if 'A' ≤ c ∧ c ≤ 'F' then some (c.toNat - 'A'.toNat + 10)
  else none

/-- The character that follows a reverse slash, if it stands for one alone. -/
def shortEscape? (c : Char) : Option Char :=
  match c with
  | '"' => some '"'
  | '\\' => some '\\'
  | '/' => some '/'
  | 'b' => some '\x08'
  | 'f' => some '\x0c'
  | 'n' => some '\n'
  | 'r' => some '\r'
  | 't' => some '\t'
  | _ => none

/-! ## 2. Numbers -/

def isDigit (c : Char) : Bool := '0' ≤ c && c ≤ '9'

def digitsValue (digits : List Char) : Nat :=
  digits.foldl (fun n c => n * 10 + (c.toNat - '0'.toNat)) 0

/-- The number nearest to `mantissa * 10 ^ power`; `none` if it is too large. -/
def readFloat? (negative : Bool) (mantissa : Nat) (power : Int) : Option Number :=
  let size : Int := Decimal.digitCount mantissa + power
  if mantissa = 0 ∨ size < -330 then some (.float ⟨negative, 0⟩)
  else if 310 < size then none
  else
    let x : Binary64 :=
      if power < 0 then
        .ofQuotient negative (mantissa * Binary64.unitsPerOne) (10 ^ power.natAbs)
      else .ofQuotient negative (mantissa * 10 ^ power.natAbs * Binary64.unitsPerOne) 1
    if x.isFinite then some (.float x) else none

/-- A literal without fraction and exponent: whole if it fits 64 bits, with the sign or, if there
    is none, without; otherwise, and for negative zero, in double precision. -/
def readWhole? (negative : Bool) (n : Nat) : Option Number :=
  if negative then
    if n ≠ 0 ∧ n ≤ 2 ^ 63 then some (.int (-n)) else readFloat? true n 0
  else if n < 2 ^ 64 then some (.int n)
  else readFloat? false n 0

/-- The exponent part of a literal: `e` or `E`, a sign or none, digits. Empty reads as zero. -/
def readExponent? : List Char → Option (Option Int)
  | [] => some none
  | mark :: rest =>
    if mark = 'e' ∨ mark = 'E' then
      let (negative, digits) := match rest with
        | '-' :: digits => (true, digits)
        | '+' :: digits => (false, digits)
        | digits => (false, digits)
      if digits ≠ [] ∧ digits.all isDigit then
        let n : Int := digitsValue digits
        some (some (if negative then -n else n))
      else none
    else none

/-- A number literal; the outer `none` says that it is not one, the inner that it is too large. -/
def readNumber? (literal : List Char) : Option (Option Number) := do
  let (negative, rest) := match literal with
    | '-' :: rest => (true, rest)
    | rest => (false, rest)
  let whole := rest.takeWhile isDigit
  let rest := rest.dropWhile isDigit
  guard (whole ≠ [] ∧ (whole.head? ≠ some '0' ∨ whole.length = 1))
  let (hasPoint, rest) := match rest with
    | '.' :: rest => (true, rest)
    | rest => (false, rest)
  let fraction := if hasPoint then rest.takeWhile isDigit else []
  let rest := if hasPoint then rest.dropWhile isDigit else rest
  guard (!hasPoint || fraction ≠ [])
  let exponent ← readExponent? rest
  if !hasPoint && exponent.isNone then
    return readWhole? negative (digitsValue whole)
  else
    return readFloat? negative (digitsValue (whole ++ fraction))
      (exponent.getD 0 - fraction.length)

/-! ## 3. Tokens -/

inductive Token where
  | openArray
  | closeArray
  | openObject
  | closeObject
  | comma
  | colon
  | text (value : Option String)
  | leaf (value : JsonText)

/-- Where the scanner is. Characters and tokens are held last first. -/
inductive Scanner where
  | between
  | word (letters : List Char)
  | quoted (pieces : List Piece)
  | escape (pieces : List Piece)
  | unit (pieces : List Piece) (digits value : Nat)

namespace Scanner

/-- The token an unquoted word stands for. -/
def wordToken? (letters : List Char) : Option Token :=
  match String.ofList letters with
  | "null" => some (.leaf .null)
  | "true" => some (.leaf (.bool true))
  | "false" => some (.leaf (.bool false))
  | _ => (readNumber? letters).map fun n => .leaf (.number n)

/-- The token a punctuation mark stands for. -/
def mark? (c : Char) : Option Token :=
  match c with
  | '[' => some .openArray
  | ']' => some .closeArray
  | '\x7b' => some .openObject
  | '\x7d' => some .closeObject
  | ',' => some .comma
  | ':' => some .colon
  | _ => none

def isBlank (c : Char) : Bool := c == ' ' || c == '\n' || c == '\r' || c == '\t'

/-- A character outside quotes that does not continue a word. -/
def stepBetween (tokens : List Token) (c : Char) : List Token × Scanner :=
  if isBlank c then (tokens, .between)
  else if c = '"' then (tokens, .quoted [])
  else match mark? c with
    | some token => (token :: tokens, .between)
    | none => (tokens, .word [c])

def endsWord (c : Char) : Bool := isBlank c || c == '"' || (mark? c).isSome

/-- One character. Control characters do not stand inside quotes. -/
def step : List Token × Scanner → Char → Option (List Token × Scanner)
  | (tokens, .between), c => some (stepBetween tokens c)
  | (tokens, .word letters), c =>
    if endsWord c then do
      let token ← wordToken? letters.reverse
      return stepBetween (token :: tokens) c
    else some (tokens, .word (c :: letters))
  | (tokens, .quoted pieces), c =>
    if c = '"' then
      some (.text ((decodePieces pieces.reverse).map String.ofList) :: tokens, .between)
    else if c = '\\' then some (tokens, .escape pieces)
    else if c.toNat < 32 then none
    else some (tokens, .quoted (.char c :: pieces))
  | (tokens, .escape pieces), c =>
    if c = 'u' then some (tokens, .unit pieces 0 0)
    else (shortEscape? c).map fun e => (tokens, .quoted (.char e :: pieces))
  | (tokens, .unit pieces digits value), c => do
    let digit ← hexValue? c
    let value := value * 16 + digit
    if digits = 3 then return (tokens, .quoted (.unit value :: pieces))
    else return (tokens, .unit pieces (digits + 1) value)

/-- The tokens of a text, in order. -/
def tokens? (s : String) : Option (List Token) := do
  match ← s.toList.foldlM step ([], .between) with
  | (tokens, .between) => return tokens.reverse
  | (tokens, .word letters) => return (← wordToken? letters.reverse) :: tokens |>.reverse
  | _ => none

end Scanner

/-! ## 4. Grammar -/

/-- An open array, an open object, or an open object with the name of the member to come. What is
    already there is held last first. -/
inductive Frame where
  | items (done : List JsonText)
  | members (done : List (Option String × JsonText))
  | named (done : List (Option String × JsonText)) (name : Option String)

/-- What has to come next. -/
inductive Grammar where
  | value (stack : List Frame)
  | itemOrEnd (stack : List Frame)
  | memberOrEnd (stack : List Frame)
  | member (stack : List Frame)
  | colon (stack : List Frame)
  | more (stack : List Frame)
  | finished (value : JsonText)

namespace Grammar

/-- A finished value takes its place in what is open. -/
def place (value : JsonText) : List Frame → Option Grammar
  | [] => some (.finished value)
  | .items done :: stack => some (.more (.items (value :: done) :: stack))
  | .named done name :: stack => some (.more (.members ((name, value) :: done) :: stack))
  | .members _ :: _ => none

/-- The first token of a value. -/
def begin (stack : List Frame) : Token → Option Grammar
  | .openArray => some (.itemOrEnd (.items [] :: stack))
  | .openObject => some (.memberOrEnd (.members [] :: stack))
  | .text s => place (.text s) stack
  | .leaf v => place v stack
  | _ => none

/-- The innermost open array or object ends. -/
def close : List Frame → Token → Option Grammar
  | .items done :: stack, .closeArray => place (.array done.reverse) stack
  | .members done :: stack, .closeObject => place (.object done.reverse) stack
  | _, _ => none

/-- The name of a member. -/
def beginMember : List Frame → Token → Option Grammar
  | .members done :: stack, .text name => some (.colon (.named done name :: stack))
  | _, _ => none

/-- One token. -/
def step : Grammar → Token → Option Grammar
  | .value stack, token => begin stack token
  | .itemOrEnd stack, .closeArray => close stack .closeArray
  | .itemOrEnd stack, token => begin stack token
  | .memberOrEnd stack, .closeObject => close stack .closeObject
  | .memberOrEnd stack, token => beginMember stack token
  | .member stack, token => beginMember stack token
  | .colon stack, .colon => some (.value stack)
  | .more (.items done :: stack), .comma => some (.value (.items done :: stack))
  | .more (.members done :: stack), .comma => some (.member (.members done :: stack))
  | .more stack, token => close stack token
  | _, _ => none

end Grammar

/-- What a text says, if it follows the grammar. -/
def parse? (s : String) : Option JsonText := do
  match ← (← Scanner.tokens? s).foldlM Grammar.step (.value []) with
  | .finished value => return value
  | _ => none

/-! ## 5. Values -/

mutual

/-- The value that is meant, if every number and text in it is good and it nests no deeper than
    `levels`. -/
def toJson? (levels : Nat) : JsonText → Option Json
  | .null => some .null
  | .bool b => some (.bool b)
  | .number n => n.map .number
  | .text s => s.map .text
  | .array items =>
    if levels = 0 then none else (itemsToJson? (levels - 1) items).map .array
  | .object members =>
    if levels = 0 then none
    else (membersToJson? (levels - 1) members).map fun ms => .object (Keyed.ofList ms)

def itemsToJson? (levels : Nat) : List JsonText → Option (List Json)
  | [] => some []
  | item :: rest => do
    let value ← item.toJson? levels
    return value :: (← itemsToJson? levels rest)

def membersToJson? (levels : Nat) : List (Option String × JsonText) → Option (List (String × Json))
  | [] => some []
  | (name, item) :: rest => do
    let name ← name
    let value ← item.toJson? levels
    return (name, value) :: (← membersToJson? levels rest)

end

mutual

/-- A value as a text would say it. -/
def ofJson : Json → JsonText
  | .null => .null
  | .bool b => .bool b
  | .number n => .number (some n)
  | .text s => .text (some s)
  | .array items => .array (ofItems items)
  | .object members => .object (ofMembers members)

def ofItems : List Json → List JsonText
  | [] => []
  | item :: rest => ofJson item :: ofItems rest

def ofMembers : List (String × Json) → List (Option String × JsonText)
  | [] => []
  | (name, value) :: rest => (some name, ofJson value) :: ofMembers rest

end

/-- How many levels of arrays and objects a text may open. -/
def maxLevels : Nat := 127

end JsonText

/-- The value of a JSON text. -/
def Json.parse? (s : String) : Option Json := (JsonText.parse? s).bind (·.toJson? JsonText.maxLevels)

end TypedPipeline
