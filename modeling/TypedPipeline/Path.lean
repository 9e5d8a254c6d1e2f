/-!
# Path: places inside nested schemas and values

A path leads from a root inwards, by the name of a property, by a position in an array, or by the
mark for any element. This file fixes:

* the steps and how a path is extended (`property`, `index`, `items`);
* the written form, `a.b[0].c` or `a.b[].c`, and `(root)` for the path that goes nowhere (`text`);
* the reading of that form (`parse?`): parts between points, each a name followed by brackets; an
  empty first part is refused, an empty later one is passed over.
-/

namespace TypedPipeline

/-- One step inwards. -/
inductive Segment where
  | property (name : String)
  | index (position : Nat)
  | items
  deriving DecidableEq

/-- The place that a list of steps leads to. -/
abbrev Path := List Segment

namespace Path

def root : Path := []

def property (path : Path) (name : String) : Path := path ++ [.property name]

def index (path : Path) (position : Nat) : Path := path ++ [.index position]

def items (path : Path) : Path := path ++ [.items]

/-! ## 1. The written form -/

/-- A step as it follows other steps. -/
def laterText : Segment → String
  | .property name => "." ++ name
  | .index position => "[" ++ toString position ++ "]"
  | .items => "[]"

/-- A step that comes first: a property has no point before it. -/
def firstText : Segment → String
  | .property name => name
  | segment => laterText segment

def text : Path → String
  | [] => "(root)"
  | first :: rest => firstText first ++ String.join (rest.map laterText)

/-! ## 2. Reading it back -/

/-- The parts of a text between separators, at least one. -/
def splitAt (separator : Char) : List Char → List (List Char)
  | [] => [[]]
  | c :: rest =>
    if c = separator then [] :: splitAt separator rest
    else match splitAt separator rest with
      | part :: parts => (c :: part) :: parts
      | [] => [[c]]

/-- A natural number below `2 ^ 64` in decimal digits; a plus sign may come before them. -/
def readPosition? (digits : List Char) : Option Nat :=
  let digits := match digits with
    | '+' :: rest => rest
    | digits => digits
  if digits = [] then none
  else if digits.all (fun c => '0' ≤ c && c ≤ '9') then
    let n := digits.foldl (fun n c => n * 10 + (c.toNat - '0'.toNat)) 0
    if n < UInt64.size then some n else none
  else none

/-- What stands between brackets: a position, or nothing for any element. -/
def readBracket? (inner : List Char) : Option Segment :=
  if inner = [] then some .items else (readPosition? inner).map .index

mutual

/-- Brackets to the end of a part. -/
def readBrackets? : List Char → Option (List Segment)
  | [] => some []
  | c :: rest => if c = '[' then readInside? [] rest else none

/-- The rest of a bracket, of which `inner` has been read, last character first. -/
def readInside? (inner : List Char) : List Char → Option (List Segment)
  | [] => none
  | c :: rest =>
    if c = ']' then do
      let segment ← readBracket? inner.reverse
      return segment :: (← readBrackets? rest)
    else readInside? (c :: inner) rest

end

/-- One part: a name, which may be empty, and brackets. -/
def readPart? (part : List Char) : Option (List Segment) := do
  let name := part.takeWhile (· ≠ '[')
  let brackets ← readBrackets? (part.dropWhile (· ≠ '['))
  return if name = [] then brackets else .property (String.ofList name) :: brackets

/-- The path a text describes. -/
def parse? (s : String) : Option Path := do
  let parts := splitAt '.' s.toList
  guard (parts.head? ≠ some [])
  return (← parts.mapM readPart?).flatten

end Path

end TypedPipeline
