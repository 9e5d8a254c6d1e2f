import TypedPipeline.Json.Writer

/-!
# Space.Setting: the value of one dimension

An optimizer gives every dimension a scalar: a double-precision number, a 64-bit integer, a text, a
truth value or null. This file fixes how settings come from JSON values (`ofJson?`), how they go back
(`toJson`), and their partial views.
-/

namespace TypedPipeline

/-- The value of one dimension. -/
inductive Setting where
  | float (value : Binary64)
  | int (value : Int)
  | text (value : String)
  | bool (value : Bool)
  | null
  deriving DecidableEq, Inhabited

namespace Setting

def asFloat? : Setting → Option Binary64
  | .float x => some x
  | .int i => some (.ofInt i)
  | _ => none

/-- An integer; a double-precision number loses its fraction and is clamped to 64 bits. -/
def asInt? : Setting → Option Int
  | .int i => some i
  | .float x => some x.toInt64
  | _ => none

def asText? : Setting → Option String
  | .text s => some s
  | _ => none

def asBool? : Setting → Option Bool
  | .bool b => some b
  | _ => none

def isNull : Setting → Bool
  | .null => true
  | _ => false

/-- A scalar as a setting: whole numbers are integers if they fit 64 bits. -/
def ofJson? : Json → Option Setting
  | .null => some .null
  | .bool b => some (.bool b)
  | .number n =>
    match n.asInt64? with
    | some i => some (.int i)
    | none => some (.float n.toBinary64)
  | .text s => some (.text s)
  | .array _ | .object _ => none

/-- The scalar that a setting stands for; null for a number that is not finite. -/
def toJson : Setting → Json
  | .float x => .float x
  | .int i => .int i
  | .text s => .text s
  | .bool b => .bool b
  | .null => .null

def displayText (s : Setting) : String := s.toJson.compact

/-- Equal and of one kind; a NaN is equal to nothing. -/
def same : Setting → Setting → Bool
  | .float x, .float y => x.equals y
  | .int i, .int j => i == j
  | .text s, .text t => s == t
  | .bool a, .bool b => a == b
  | .null, .null => true
  | _, _ => false

/-- The stored form, which names the kind of the setting. -/
def stored : Setting → Json
  | .float x => .object [("Float", .float x)]
  | .int i => .object [("Int", .int i)]
  | .text s => .object [("String", .text s)]
  | .bool b => .object [("Bool", .bool b)]
  | .null => .text "Null"

end Setting

end TypedPipeline
