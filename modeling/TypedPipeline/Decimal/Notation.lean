import TypedPipeline.Decimal.Shortest

/-!
# Decimal.Notation: how the digits of a number are laid out

The digits of a number are chosen in `Decimal.Shortest`; a `Notation` decides how they are written.
Two notations are in use:

* `document`, for numbers in JSON documents: a fraction is always written, and very large and very
  small numbers carry a signed exponent;
* `message`, for numbers in messages: never an exponent, and no fraction on whole numbers.
-/

namespace TypedPipeline

/-- The decisions of a written form of numbers. -/
structure NumberNotation where
  /-- The exponents of the first digit that are written positionally; `none` means all. -/
  positional : Option (Int × Int)
  /-- What follows a whole number written positionally. -/
  wholeSuffix : String
  tie : TieRule
  infinity : String
  nan : String

namespace NumberNotation

/-- Numbers in documents are positional from `0.00001` up to sixteen whole digits and always show a
    fraction; otherwise they carry a signed exponent. Documents have no infinities and no NaN. -/
def document : NumberNotation := ⟨some (-5, 15), ".0", .toEven, "null", "null"⟩

/-- Numbers in messages are positional at every size and show a fraction only if they have one. -/
def message : NumberNotation := ⟨none, "", .up, "inf", "NaN"⟩

def isPositional (n : NumberNotation) (exponent : Int) : Bool :=
  match n.positional with
  | none => true
  | some (low, high) => low ≤ exponent && exponent ≤ high

private def zeros (n : Nat) : List Char := List.replicate n '0'

/-- Digits with the point in its place: after the digit of `10 ^ 0`. -/
def positionalText (wholeSuffix : String) (d : Decimal) : String :=
  let digits := Decimal.digitChars d.digits
  if d.exponent < 0 then
    String.ofList ('0' :: '.' :: zeros (d.exponent.natAbs - 1) ++ digits)
  else
    let whole := d.exponent.natAbs + 1
    if digits.length ≤ whole then
      String.ofList (digits ++ zeros (whole - digits.length)) ++ wholeSuffix
    else String.ofList (digits.take whole ++ '.' :: digits.drop whole)

/-- One digit, the others as a fraction if there are any, and a signed exponent. -/
def scientificText (d : Decimal) : String :=
  let mantissa := match Decimal.digitChars d.digits with
    | [] => []
    | [first] => [first]
    | first :: rest => first :: '.' :: rest
  let sign := if d.exponent < 0 then "e-" else "e+"
  String.ofList mantissa ++ sign ++ toString d.exponent.natAbs

/-- The text of a number without its sign. -/
def magnitudeText (n : NumberNotation) (magnitude : Nat) : String :=
  if magnitude = 0 then "0" ++ n.wholeSuffix
  else
    let d := Decimal.shortest n.tie magnitude
    if n.isPositional d.exponent then positionalText n.wholeSuffix d else scientificText d

/-- The text of a number. A zero keeps its sign. -/
def text (n : NumberNotation) (x : Binary64) : String :=
  if x.isNaN then n.nan
  else
    let unsigned := if x.isFinite then n.magnitudeText x.magnitude else n.infinity
    if x.negative then "-" ++ unsigned else unsigned

end NumberNotation

/-- A number as messages show it. -/
def Binary64.messageText (x : Binary64) : String := NumberNotation.message.text x

end TypedPipeline
