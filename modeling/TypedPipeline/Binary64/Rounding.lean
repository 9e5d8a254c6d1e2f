import TypedPipeline.Binary64

/-!
# Binary64.Rounding: from exact values back to double precision

Every operation is the exact result on integers followed by one rounding. This file fixes:

* the rounding itself: to the nearest number, halves to the even pattern (`ofQuotient`);
* the sum, difference, product and quotient, with the usual rules for infinities and NaN;
* `floor` and `ceil`, which keep the sign of a zero, and the conversions from and to integers
  (`ofInt`, and `toInt64`, which cuts the fraction off and clamps to the 64-bit range);
* the natural logarithm and the exponential, taken from the machine.
-/

namespace TypedPipeline

/-- The integer nearest to `num / den`, halves to the even one. -/
def roundHalfEven (num den : Nat) : Nat :=
  let low := num / den
  let rest := num % den
  if 2 * rest < den then low
  else if den < 2 * rest then low + 1
  else low + low % 2

theorem roundHalfEven_mul_left {k : Nat} (h : 0 < k) (num den : Nat) :
    roundHalfEven (k * num) (k * den) = roundHalfEven num den := by
  have below : 2 * (k * (num % den)) < k * den ↔ 2 * (num % den) < den := by
    rw [Nat.mul_left_comm]; exact Nat.mul_lt_mul_left h
  have above : k * den < 2 * (k * (num % den)) ↔ den < 2 * (num % den) := by
    rw [Nat.mul_left_comm]; exact Nat.mul_lt_mul_left h
  simp only [roundHalfEven, Nat.mul_div_mul_left _ _ h, Nat.mul_mod_mul_left, below, above]

theorem roundHalfEven_mul_self (n : Nat) {den : Nat} (h : 0 < den) :
    roundHalfEven (n * den) den = n := by
  simp [roundHalfEven, Nat.mul_div_cancel _ h, h]

theorem log2_mul_two_pow {n : Nat} (h : n ≠ 0) (k : Nat) : (n * 2 ^ k).log2 = n.log2 + k := by
  rw [Nat.log2_eq_iff (Nat.mul_ne_zero h (Nat.ne_of_gt (Nat.two_pow_pos k))), Nat.add_right_comm,
    Nat.pow_add, Nat.pow_add]
  have := (Nat.log2_eq_iff h).1 rfl
  exact ⟨Nat.mul_le_mul_right _ this.1, Nat.mul_lt_mul_of_pos_right this.2 (Nat.two_pow_pos k)⟩

theorem log2_div_two_pow (n k : Nat) : (n / 2 ^ k).log2 = n.log2 - k := by
  by_cases small : n < 2 ^ k
  · rw [Nat.div_eq_of_lt small, Nat.log2_zero]
    by_cases h : n = 0
    · simp [h]
    · have := (Nat.log2_lt h).2 small
      omega
  · have large : 2 ^ k ≤ n := Nat.le_of_not_lt small
    have h : n ≠ 0 := Nat.ne_of_gt (Nat.lt_of_lt_of_le (Nat.two_pow_pos k) large)
    have le : k ≤ n.log2 := (Nat.le_log2 h).2 large
    have quotient : n / 2 ^ k ≠ 0 := Nat.ne_of_gt (Nat.div_pos large (Nat.two_pow_pos k))
    have bounds := (Nat.log2_eq_iff h).1 rfl
    rw [Nat.log2_eq_iff quotient]
    constructor
    · rw [Nat.le_div_iff_mul_le (Nat.two_pow_pos k), ← Nat.pow_add, Nat.sub_add_cancel le]
      exact bounds.1
    · rw [Nat.div_lt_iff_lt_mul (Nat.two_pow_pos k), ← Nat.pow_add]
      have : n.log2 - k + 1 + k = n.log2 + 1 := by omega
      rw [this]
      exact bounds.2

namespace Binary64

/-! ## 1. Rounding -/

/-- The pattern nearest to `num / den` units. The quotient is cut to 53 significant bits; carrying
    into a 54th bit gives the first pattern of the next exponent, as it should. -/
def roundedMagnitude (num den : Nat) : Nat :=
  let shift := (num / den).log2 + 1 - 53
  Nat.min (shift * 2 ^ 52 + roundHalfEven num (den * 2 ^ shift)) infiniteMagnitude

/-- The number nearest to `num / den` units, with the given sign. -/
def ofQuotient (negative : Bool) (num den : Nat) : Binary64 :=
  ⟨negative, roundedMagnitude num den⟩

/-- The pattern nearest to `n * 2 ^ power` units. Only the bits of `n` are looked at: they are cut
    to 53, or moved up where there are fewer. -/
def scaledMagnitude (n : Nat) (power : Int) : Nat :=
  if n = 0 then 0
  else
    let shift := (n.log2 + power + 1 - 53).toNat
    let leading :=
      if shift ≤ power then n * 2 ^ (power - shift).toNat
      else roundHalfEven n (2 ^ (shift - power).toNat)
    Nat.min (shift * 2 ^ 52 + leading) infiniteMagnitude

/-- This is the rounding of the same number of units, written as a quotient. -/
theorem scaledMagnitude_eq (n : Nat) (power : Int) :
    scaledMagnitude n power = roundedMagnitude (n * 2 ^ power.toNat) (2 ^ (-power).toNat) := by
  by_cases h : n = 0
  · have := Nat.two_pow_pos (-power).toNat
    simp [scaledMagnitude, h, roundedMagnitude, roundHalfEven, this]
  · rcases Int.le_total 0 power with up | down
    · obtain ⟨k, rfl⟩ := Int.eq_ofNat_of_zero_le up
      have same : ((n.log2 : Int) + (k : Int) + 1 - 53).toNat = n.log2 + k + 1 - 53 := by omega
      have none : (-(k : Int)).toNat = 0 := by omega
      simp only [scaledMagnitude, if_neg h, same, roundedMagnitude, Int.toNat_natCast, none,
        Nat.pow_zero, Nat.div_one, log2_mul_two_pow h, Nat.one_mul]
      generalize n.log2 + k + 1 - 53 = shift
      congr 2
      by_cases le : shift ≤ k
      · have power : (k : Int) - shift = ((k - shift : Nat) : Int) := by omega
        rw [if_pos (by omega), power, Int.toNat_natCast]
        have split : n * 2 ^ k = n * 2 ^ (k - shift) * 2 ^ shift := by
          rw [Nat.mul_assoc, ← Nat.pow_add, Nat.sub_add_cancel le]
        rw [split, roundHalfEven_mul_self _ (Nat.two_pow_pos shift)]
      · have power : (shift : Int) - k = ((shift - k : Nat) : Int) := by omega
        rw [if_neg (by omega), power, Int.toNat_natCast]
        have split : 2 ^ shift = 2 ^ k * 2 ^ (shift - k) := by
          rw [← Nat.pow_add, Nat.add_sub_cancel' (by omega)]
        rw [split, Nat.mul_comm n, roundHalfEven_mul_left (Nat.two_pow_pos k)]
    · obtain ⟨k, hk⟩ := Int.eq_ofNat_of_zero_le (Int.neg_nonneg_of_nonpos down)
      obtain rfl : power = -(k : Int) := by omega
      have same : ((n.log2 : Int) + -(k : Int) + 1 - 53).toNat = n.log2 - k + 1 - 53 := by omega
      have none : (-(k : Int)).toNat = 0 := by omega
      simp only [scaledMagnitude, if_neg h, same, roundedMagnitude, none, Int.neg_neg,
        Int.toNat_natCast, Nat.pow_zero, Nat.mul_one, log2_div_two_pow]
      generalize n.log2 - k + 1 - 53 = shift
      congr 2
      by_cases le : (shift : Int) ≤ -(k : Int)
      · obtain ⟨rfl, rfl⟩ : shift = 0 ∧ k = 0 := by omega
        have := roundHalfEven_mul_self n Nat.one_pos
        simpa using this.symm
      · have power : (shift : Int) - -(k : Int) = ((k + shift : Nat) : Int) := by omega
        rw [if_neg le, power, Int.toNat_natCast, Nat.pow_add]

/-- The number nearest to `n * 2 ^ power` units, with the given sign. -/
def ofScaled (negative : Bool) (n : Nat) (power : Int) : Binary64 :=
  ⟨negative, scaledMagnitude n power⟩

theorem ofScaled_eq (negative : Bool) (n : Nat) (power : Int) :
    ofScaled negative n power = ofQuotient negative (n * 2 ^ power.toNat) (2 ^ (-power).toNat) := by
  rw [ofScaled, ofQuotient, scaledMagnitude_eq]

/-- The number nearest to an integer. -/
def ofInt (n : Int) : Binary64 := ofScaled (n < 0) n.natAbs (1022 + 52)

theorem ofInt_eq (n : Int) : ofInt n = ofQuotient (n < 0) (n.natAbs * unitsPerOne) 1 := by
  have up : (1022 + 52 : Int).toNat = 1022 + 52 := rfl
  have down : (-(1022 + 52) : Int).toNat = 0 := rfl
  rw [ofInt, ofScaled_eq, up, down, Nat.pow_zero, unitsPerOne]

def ofNat (n : Nat) : Binary64 := ofInt n

/-! ## 2. Arithmetic -/

def isInfinite (x : Binary64) : Bool := x.magnitude == infiniteMagnitude

def isZero (x : Binary64) : Bool := x.magnitude == 0

/-- A number as a multiple of `2 ^ power` units, for powers up to its scale. -/
def multiple (x : Binary64) (power : Nat) : Int :=
  let n := significand x.magnitude * 2 ^ (scale x.magnitude - power)
  if x.negative then -n else n

theorem multiple_mul {x : Binary64} {power : Nat} (h : power ≤ scale x.magnitude) :
    x.multiple power * 2 ^ power = x.units := by
  have whole : significand x.magnitude * 2 ^ (scale x.magnitude - power) * 2 ^ power
      = weight x.magnitude := by
    rw [weight, Nat.mul_assoc, ← Nat.pow_add, Nat.sub_add_cancel h]
  rw [multiple, units, ← whole]
  cases x.negative with
  | false => simp
  | true =>
      simp only [↓reduceIte]
      rw [Int.neg_mul]
      simp

/-- The sum. Opposite infinities have none, and only two negative zeros add up to a negative
    zero. -/
def add (x y : Binary64) : Binary64 :=
  if x.isNaN || y.isNaN then nan
  else if x.isInfinite then (if y.isInfinite && x.negative != y.negative then nan else x)
  else if y.isInfinite then y
  else
    let power := Min.min (scale x.magnitude) (scale y.magnitude)
    let sum := x.multiple power + y.multiple power
    if sum = 0 then ⟨x.negative && y.negative, 0⟩ else ofScaled (sum < 0) sum.natAbs power

/-- The sum of finite numbers is that of their units, rounded. -/
theorem add_eq {x y : Binary64} (hx : x.isFinite = true) (hy : y.isFinite = true) :
    x.add y =
      if x.units + y.units = 0 then ⟨x.negative && y.negative, 0⟩
      else ofQuotient (x.units + y.units < 0) (x.units + y.units).natAbs 1 := by
  simp only [isFinite, decide_eq_true_eq] at hx hy
  have nx : x.isNaN = false := by simp [isNaN]; omega
  have ny : y.isNaN = false := by simp [isNaN]; omega
  have ix : x.isInfinite = false := by simp [isInfinite]; omega
  have iy : y.isInfinite = false := by simp [isInfinite]; omega
  simp only [add, nx, ny, ix, iy, Bool.or_self, Bool.false_eq_true, ↓reduceIte]
  have left := multiple_mul (Nat.min_le_left (scale x.magnitude) (scale y.magnitude))
  have right := multiple_mul (Nat.min_le_right (scale x.magnitude) (scale y.magnitude))
  generalize Min.min (scale x.magnitude) (scale y.magnitude) = power at left right ⊢
  rw [← left, ← right, ← Int.add_mul]
  generalize x.multiple power + y.multiple power = sum
  have positive : (0 : Int) < 2 ^ power := Int.pow_pos (by decide)
  have zero : sum * 2 ^ power = 0 ↔ sum = 0 := by
    rw [Int.mul_eq_zero]; omega
  have negative : sum * 2 ^ power < 0 ↔ sum < 0 :=
    ⟨fun h => Int.not_le.1 fun le => Int.not_le.2 h (Int.mul_nonneg le (Int.le_of_lt positive)),
      fun h => Int.mul_neg_of_neg_of_pos h positive⟩
  have size : (sum * 2 ^ power).natAbs = sum.natAbs * 2 ^ power := by
    rw [Int.natAbs_mul, Int.natAbs_pow]; rfl
  have none : (-(power : Int)).toNat = 0 := by omega
  simp only [zero, negative, size, ofScaled_eq, Int.toNat_natCast, none, Nat.pow_zero]

def sub (x y : Binary64) : Binary64 := if y.isNaN then nan else x.add y.negate

/-- The product; infinity times zero has none. -/
def mul (x y : Binary64) : Binary64 :=
  let negative := x.negative != y.negative
  if x.isNaN || y.isNaN then nan
  else if x.isInfinite || y.isInfinite then
    (if x.isZero || y.isZero then nan else ⟨negative, infiniteMagnitude⟩)
  else
    ofScaled negative (significand x.magnitude * significand y.magnitude)
      (scale x.magnitude + scale y.magnitude - (1022 + 52))

/-- The quotient; zero by zero and infinity by infinity have none. -/
def div (x y : Binary64) : Binary64 :=
  let negative := x.negative != y.negative
  if x.isNaN || y.isNaN then nan
  else if x.isInfinite then (if y.isInfinite then nan else ⟨negative, infiniteMagnitude⟩)
  else if y.isInfinite then ⟨negative, 0⟩
  else if y.isZero then (if x.isZero then nan else ⟨negative, infiniteMagnitude⟩)
  else ofQuotient negative (x.units.natAbs * unitsPerOne) y.units.natAbs

/-! ## 3. Whole numbers -/

/-- A whole number, where a zero takes the sign of the number it was rounded from. -/
def wholeFrom (x : Binary64) (n : Int) : Binary64 :=
  if n = 0 then ⟨x.negative, 0⟩ else ofInt n

/-- The greatest whole number not above `x`. -/
def floor (x : Binary64) : Binary64 :=
  if x.isFinite then wholeFrom x (x.units / unitsPerOne) else x

/-- The least whole number not below `x`. -/
def ceil (x : Binary64) : Binary64 :=
  if x.isFinite then wholeFrom x (-(-x.units / unitsPerOne)) else x

/-- The whole number nearest to `x`, halves away from zero. -/
def round (x : Binary64) : Binary64 :=
  if x.isFinite then
    let size : Int := (2 * x.units.natAbs + unitsPerOne) / (2 * unitsPerOne)
    wholeFrom x (if x.negative then -size else size)
  else x

/-- The value without its fraction. -/
def truncate (x : Binary64) : Int := x.units.tdiv unitsPerOne

def minInt64 : Int := -(2 ^ 63)

def maxInt64 : Int := 2 ^ 63 - 1

/-- The value without its fraction, clamped to the signed 64-bit integers; zero for a NaN. -/
def toInt64 (x : Binary64) : Int :=
  if x.isNaN then 0 else Max.max minInt64 (Min.min maxInt64 x.truncate)

/-- The value without its fraction, clamped to the unsigned 64-bit integers; zero for a NaN. -/
def toUInt64 (x : Binary64) : Nat :=
  if x.isNaN then 0 else (Min.min (2 ^ 64 - 1 : Int) x.truncate).toNat

/-! ## 4. Logarithm and exponential -/

def log (x : Binary64) : Binary64 := ofBits (Float.ofBits x.toBits).log.toBits

def exp (x : Binary64) : Binary64 := ofBits (Float.ofBits x.toBits).exp.toBits

end Binary64

end TypedPipeline
