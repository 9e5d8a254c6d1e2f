/-!
# Random.Stream: a reproducible stream of random words

A stream is four 64-bit words. The next word is a scrambled sum of two of them, and each step mixes
the four by shifts, exclusive ors and one rotation. This file fixes:

* the seeding of a stream from one number, by four steps of a simple counter-based generator
  (`ofSeed`);
* the next word (`nextWord`), and what is drawn from it: a number in `[0, 1)` on a grid of `2 ^ 53`
  points (`nextFraction`), a truth value (`nextBool`), and an integer of a range (`nextBelow`,
  `nextInt`), for which words that would favour some integers are thrown away.
-/

namespace TypedPipeline

/-- The state of a random stream. -/
structure RandomStream where
  s0 : UInt64
  s1 : UInt64
  s2 : UInt64
  s3 : UInt64
  deriving DecidableEq, Inhabited

namespace RandomStream

/-! ## 1. Seeding -/

/-- The amount by which the seeding counter advances. -/
def seedStep : UInt64 := 0x9e3779b97f4a7c15

/-- The word made of a value of the seeding counter. -/
def seedWord (counter : UInt64) : UInt64 :=
  let z := (counter ^^^ (counter >>> 30)) * 0xbf58476d1ce4e5b9
  let z := (z ^^^ (z >>> 27)) * 0x94d049bb133111eb
  z ^^^ (z >>> 31)

/-- The stream of a seed. -/
def ofSeed (seed : UInt64) : RandomStream :=
  ⟨seedWord (seed + seedStep), seedWord (seed + 2 * seedStep), seedWord (seed + 3 * seedStep),
    seedWord (seed + 4 * seedStep)⟩

/-! ## 2. Words -/

def rotateLeft (x : UInt64) (by' : UInt64) : UInt64 := (x <<< by') ||| (x >>> (64 - by'))

def nextWord (r : RandomStream) : UInt64 × RandomStream :=
  let word := rotateLeft (r.s0 + r.s3) 23 + r.s0
  let s2 := r.s2 ^^^ r.s0
  let s3 := r.s3 ^^^ r.s1
  let s1 := r.s1 ^^^ s2
  let s0 := r.s0 ^^^ s3
  (word, ⟨s0, s1, s2 ^^^ (r.s1 <<< 17), rotateLeft s3 45⟩)

/-! ## 3. Draws -/

/-- A multiple of `2 ^ -53` in `[0, 1)`, as the natural number it is a multiple by. -/
def nextFraction (r : RandomStream) : Nat × RandomStream :=
  let (word, r) := r.nextWord
  ((word >>> 11).toNat, r)

/-- The top bit of the next word. -/
def nextBool (r : RandomStream) : Bool × RandomStream :=
  let (word, r) := r.nextWord
  (word >>> 63 == 1, r)

/-- The largest low half of a product with which a word is used: `range`, shifted to the top of a
    word, less one. -/
def acceptedZone (range : Nat) : Nat := range <<< (63 - range.log2) - 1

/-- A natural number below `range`, from the first word whose product with `range` has an acceptable
    low half; the high half is the number. At least every second word is acceptable, and after
    `fuel` refusals the next word is taken as it comes. -/
def nextBelowWithin : (fuel : Nat) → (range : Nat) → RandomStream → Nat × RandomStream
  | 0, range, r =>
    let (word, r) := r.nextWord
    (word.toNat * range / UInt64.size, r)
  | fuel + 1, range, r =>
    let (word, r) := r.nextWord
    let product := word.toNat * range
    if product % UInt64.size ≤ acceptedZone range then (product / UInt64.size, r)
    else nextBelowWithin fuel range r

/-- A natural number below `range`, which is positive and below `2 ^ 64`. -/
def nextBelow (range : Nat) (r : RandomStream) : Nat × RandomStream :=
  nextBelowWithin 256 range r

/-- An integer of `[low, high]`, for signed 64-bit integers with `low ≤ high`; where these are all
    there are, the next word itself. -/
def nextInt (low high : Int) (r : RandomStream) : Int × RandomStream :=
  if high - low + 1 < UInt64.size then
    let (n, r) := r.nextBelow (high - low + 1).toNat
    (low + n, r)
  else
    let (word, r) := r.nextWord
    (word.toInt64.toInt, r)

end RandomStream

end TypedPipeline
