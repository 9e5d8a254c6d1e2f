import TypedPipeline.Binary64.Rounding

/-!
# Decimal.Shortest: the fewest digits that read back

A positive number is written with as few decimal digits as identify it: some decimal with that many
digits lies in the interval of reals that round to the number, and none with fewer does. Of two such
decimals the nearer one is taken. This file fixes:

* the rounding interval of a pattern (`interval`), ends included for even patterns;
* the better of the two neighbours of a number on a decimal grid that lie in the interval
  (`nearest`);
* the search over one, two, … seventeen digits (`shortest`), whose answer is a digit string and the
  exponent of its first digit;
* the exact value cut to a fixed count of significant digits (`rounded`).
-/

namespace TypedPipeline

/-- A positive decimal number: `digits` is not divisible by ten, and `exponent` is the power of ten
    of its first digit. -/
structure Decimal where
  digits : Nat
  exponent : Int
  deriving DecidableEq

/-- Where a number halfway between two equally short decimals goes. -/
inductive TieRule where
  | toEven
  | up
  deriving DecidableEq

namespace Decimal

/-! ## 1. Digit strings -/

/-- The decimal digits of a natural number, most significant first. -/
def digitChars (n : Nat) : List Char := Nat.toDigits 10 n

/-- How many decimal digits a natural number has; zero has one. -/
def digitCount (n : Nat) : Nat := (digitChars n).length

/-- `n` without its trailing zeros, looking at no more than `fuel` digits. -/
def stripZeros : (fuel : Nat) → Nat → Nat
  | 0, n => n
  | fuel + 1, n => if n % 10 = 0 && n ≠ 0 then stripZeros fuel (n / 10) else n

/-- The decimal `n * 10 ^ power` in normal form. -/
def ofScaled (n : Nat) (power : Int) : Decimal :=
  ⟨stripZeros (digitCount n) n, power + digitCount n - 1⟩

/-! ## 2. The rounding interval -/

/-- A positive number and the ends of the reals that round to it, counted in parts of which `one`
    make one, and whether the ends belong. -/
structure Interval where
  low : Nat
  value : Nat
  high : Nat
  one : Nat
  closed : Bool

/-- The interval of a nonzero finite pattern, in quarters of its last digit. The number below is
    half as far away where the exponent has just gone up. -/
def interval (magnitude : Nat) : Interval :=
  let significand := Binary64.significand magnitude
  let scale := Binary64.scale magnitude
  let below := if significand = 2 ^ 52 ∧ scale ≠ 0 then 1 else 2
  let up := 2 ^ (scale - 1076)
  ⟨(4 * significand - below) * up, 4 * significand * up, (4 * significand + 2) * up,
    2 ^ (1076 - scale), magnitude % 2 == 0⟩

/-- `num / den` with the powers of ten moved to the side where they are whole. -/
private def scaledBy (power : Int) (num den : Nat) : Nat × Nat :=
  if power < 0 then (num * 10 ^ power.natAbs, den) else (num, den * 10 ^ power.natAbs)

/-- The same interval in multiples of `10 ^ power`. -/
def Interval.onGrid (i : Interval) (power : Int) : Interval :=
  let (value, one) := scaledBy power i.value i.one
  let (low, _) := scaledBy power i.low i.one
  let (high, _) := scaledBy power i.high i.one
  ⟨low, value, high, one, i.closed⟩

/-- A whole number lies in the interval. -/
def Interval.holds (i : Interval) (n : Nat) : Bool :=
  if i.closed then i.low ≤ n * i.one && n * i.one ≤ i.high
  else i.low < n * i.one && n * i.one < i.high

/-- The decimal exponent of `num / den` (both positive): the power of ten of its first digit. -/
def leadingExponent (num den : Nat) : Int :=
  let guess : Int := (digitCount num : Int) - digitCount den
  let (scaled, unit) := scaledBy guess num den
  if scaled < unit then guess - 1 else guess

/-! ## 3. The search -/

/-- The multiple of `10 ^ power` nearest to the number, of those that lie in its interval. `none` if
    neither neighbour on that grid does. -/
def nearest (tie : TieRule) (i : Interval) (power : Int) : Option Nat :=
  let i := i.onGrid power
  let below := i.value / i.one
  let above := below + 1
  let rest := i.value % i.one
  match i.holds below && below != 0, i.holds above with
  | false, false => none
  | true, false => some below
  | false, true => some above
  | true, true =>
    if 2 * rest < i.one then some below
    else if i.one < 2 * rest then some above
    else match tie with
      | .up => some above
      | .toEven => some (if below % 2 = 0 then below else above)

/-- The first grid with a hit, from the grid `10 ^ power` down, on at most `fuel` more grids. -/
private def search (tie : TieRule) (i : Interval) : (fuel : Nat) → (power : Int) → Decimal
  | 0, power => ofScaled ((nearest tie i power).getD 1) power
  | fuel + 1, power =>
    match nearest tie i power with
    | some n => ofScaled n power
    | none => search tie i fuel (power - 1)

/-- The shortest decimal that reads back to a nonzero finite pattern. Seventeen digits always
    suffice. -/
def shortest (tie : TieRule) (magnitude : Nat) : Decimal :=
  let i := interval magnitude
  search tie i 16 (leadingExponent i.value i.one)

/-! ## 4. A fixed count of digits -/

/-- The value of a nonzero finite pattern to `count` significant digits, halves to even. -/
def rounded (count : Nat) (magnitude : Nat) : Decimal :=
  let i := interval magnitude
  let power := leadingExponent i.value i.one + 1 - count
  let (num, den) := scaledBy power i.value i.one
  ofScaled (roundHalfEven num den) power

/-- The number nearest to a decimal. -/
def toBinary64 (negative : Bool) (d : Decimal) : Binary64 :=
  let power := d.exponent + 1 - digitCount d.digits
  if power < 0 then
    .ofQuotient negative (d.digits * Binary64.unitsPerOne) (10 ^ power.natAbs)
  else .ofQuotient negative (d.digits * 10 ^ power.natAbs * Binary64.unitsPerOne) 1

end Decimal

/-- A number to `count` significant decimal digits; zeros, infinities and NaN stay as they are. -/
def Binary64.toSignificant (count : Nat) (x : Binary64) : Binary64 :=
  if x.isFinite && !x.isZero then (Decimal.rounded count x.magnitude).toBinary64 x.negative else x

end TypedPipeline
