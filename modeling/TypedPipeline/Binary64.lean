/-!
# Binary64: double-precision numbers as exact integers

A number is held by its sign and by its magnitude pattern (exponent and fraction bits read as one
natural number), so that every finite number is an exact multiple of `2 ^ -1074`. This file fixes:

* the reading of a pattern as that multiple (`weight`, `units`), infinity included as the pattern
  that follows the largest finite one; larger patterns are larger multiples (`weight_lt_weight`);
* comparison (`less`, `equals`): a NaN compares false with everything, and otherwise the patterns
  decide, which are in the order of the multiples (`less_iff`, `equals_iff`), so the two zeros are
  equal;
* the neighbours of a number (`nextUp`, `nextDown`) and its sign change (`negate`).

Rounding and arithmetic are in `Binary64.Rounding`.
-/

namespace TypedPipeline

-- powers are the built-in ones in every file, whatever algebra it imports
attribute [instance (high), default_instance high] instPowNat

/-- A double-precision number: its sign and its 63-bit magnitude pattern. -/
structure Binary64 where
  negative : Bool
  magnitude : Nat
  deriving DecidableEq, Inhabited

namespace Binary64

/-! ## 1. Patterns -/

/-- The magnitude pattern of infinity; every larger pattern is a NaN. -/
def infiniteMagnitude : Nat := 2047 * 2 ^ 52

def zero : Binary64 := ⟨false, 0⟩

def infinity : Binary64 := ⟨false, infiniteMagnitude⟩

def nan : Binary64 := ⟨false, infiniteMagnitude + 2 ^ 51⟩

def isNaN (x : Binary64) : Bool := infiniteMagnitude < x.magnitude

def isFinite (x : Binary64) : Bool := x.magnitude < infiniteMagnitude

/-- The 64-bit pattern, sign bit first. -/
def toBits (x : Binary64) : UInt64 :=
  UInt64.ofNat ((if x.negative then 2 ^ 63 else 0) + x.magnitude)

/-- The number a 64-bit pattern stands for. All NaN patterns are read as one NaN. -/
def ofBits (bits : UInt64) : Binary64 :=
  let x : Binary64 := ⟨2 ^ 63 ≤ bits.toNat, bits.toNat % 2 ^ 63⟩
  if x.isNaN then nan else x

/-! ## 2. The exact value -/

/-- The leading digits of a magnitude pattern: below `2 ^ 52` the pattern itself, from there on the
    fraction with its leading one. -/
def significand (magnitude : Nat) : Nat :=
  if magnitude < 2 ^ 52 then magnitude else 2 ^ 52 + magnitude % 2 ^ 52

/-- The power of two that the significand of a magnitude pattern is multiplied by. -/
def scale (magnitude : Nat) : Nat := magnitude / 2 ^ 52 - 1

/-- How many multiples of `2 ^ -1074` a magnitude pattern stands for. -/
def weight (magnitude : Nat) : Nat := significand magnitude * 2 ^ scale magnitude

theorem weight_of_lt {m : Nat} (h : m < 2 ^ 52) : weight m = m := by
  rw [weight, significand, if_pos h, scale, Nat.div_eq_of_lt h, Nat.zero_sub, Nat.pow_zero,
    Nat.mul_one]

theorem weight_zero : weight 0 = 0 := weight_of_lt (Nat.two_pow_pos 52)

/-- From `2 ^ 52` on, a pattern is an exponent `e` and a fraction `f`. -/
theorem weight_add_mul (e : Nat) {f : Nat} (h : f < 2 ^ 52) :
    weight (f + 2 ^ 52 * (e + 1)) = (2 ^ 52 + f) * 2 ^ e := by
  have large : ¬ f + 2 ^ 52 * (e + 1) < 2 ^ 52 := by omega
  rw [weight, significand, scale, if_neg large, Nat.add_mul_mod_self_left, Nat.mod_eq_of_lt h,
    Nat.add_mul_div_left _ _ (Nat.two_pow_pos 52), Nat.div_eq_of_lt h, Nat.zero_add,
    Nat.add_sub_cancel]

theorem weight_lt_succ (m : Nat) : weight m < weight (m + 1) := by
  by_cases small : m < 2 ^ 52
  · rw [weight_of_lt small]
    by_cases next : m + 1 < 2 ^ 52
    · rw [weight_of_lt next]; omega
    · have first : m + 1 = 0 + 2 ^ 52 * (0 + 1) := by omega
      rw [first, weight_add_mul 0 (Nat.two_pow_pos 52)]; omega
  · obtain ⟨e, f, h, rfl⟩ : ∃ e f, f < 2 ^ 52 ∧ m = f + 2 ^ 52 * (e + 1) :=
      ⟨m / 2 ^ 52 - 1, m % 2 ^ 52, by omega, by omega⟩
    rw [weight_add_mul e h]
    by_cases last : f + 1 < 2 ^ 52
    · rw [Nat.add_right_comm, weight_add_mul e last]
      exact Nat.mul_lt_mul_of_pos_right (by omega) (Nat.two_pow_pos e)
    · have next : f + 2 ^ 52 * (e + 1) + 1 = 0 + 2 ^ 52 * (e + 1 + 1) := by omega
      have double : 2 ^ (e + 1) = 2 * 2 ^ e := Nat.pow_succ'
      rw [next, weight_add_mul (e + 1) (Nat.two_pow_pos 52), double, ← Nat.mul_assoc]
      exact Nat.mul_lt_mul_of_pos_right (by omega) (Nat.two_pow_pos e)

/-- A larger pattern stands for a larger magnitude. -/
theorem weight_lt_weight {m n : Nat} (h : m < n) : weight m < weight n := by
  induction n with
  | zero => omega
  | succ n ih =>
    have := weight_lt_succ n
    rcases Nat.eq_or_lt_of_le (Nat.le_of_lt_succ h) with rfl | h
    · exact this
    · exact Nat.lt_trans (ih h) this

theorem weight_inj {m n : Nat} : weight m = weight n ↔ m = n := by
  refine ⟨fun h => ?_, fun h => h ▸ rfl⟩
  rcases Nat.lt_trichotomy m n with lt | eq | gt
  · have := weight_lt_weight lt; omega
  · exact eq
  · have := weight_lt_weight gt; omega

/-- The value as a multiple of `2 ^ -1074`. -/
def units (x : Binary64) : Int :=
  if x.negative then -(weight x.magnitude : Int) else weight x.magnitude

/-- How many units make one: a unit has the least exponent, `-1022`, and the last of 52 fraction
    bits. -/
def unitsPerOne : Nat := 2 ^ (1022 + 52)

/-- The value is a whole number. -/
def isInteger (x : Binary64) : Bool := x.isFinite && x.units % unitsPerOne == 0

/-! ## 3. Comparison -/

/-- The order of the patterns: upwards from zero, downwards below it. -/
def precedes (x y : Binary64) : Bool :=
  match x.negative, y.negative with
  | false, false => x.magnitude < y.magnitude
  | true, true => y.magnitude < x.magnitude
  | true, false => x.magnitude != 0 || y.magnitude != 0
  | false, true => false

/-- One pattern, and one sign unless it is that of zero. -/
def coincides (x y : Binary64) : Bool :=
  x.magnitude == y.magnitude && (x.negative == y.negative || x.magnitude == 0)

/-- Patterns are in the order of the multiples they stand for. -/
theorem precedes_iff {x y : Binary64} : x.precedes y = true ↔ x.units < y.units := by
  obtain ⟨s, m⟩ := x
  obtain ⟨t, n⟩ := y
  have up : m < n → weight m < weight n := weight_lt_weight
  have down : n < m → weight n < weight m := weight_lt_weight
  have inj := @weight_inj m n
  have zero := @weight_inj m 0
  have zero' := @weight_inj n 0
  rw [weight_zero] at zero zero'
  cases s <;> cases t <;> simp [precedes, units] <;> omega

theorem coincides_iff {x y : Binary64} : x.coincides y = true ↔ x.units = y.units := by
  obtain ⟨s, m⟩ := x
  obtain ⟨t, n⟩ := y
  have inj := @weight_inj m n
  have zero := @weight_inj m 0
  have zero' := @weight_inj n 0
  rw [weight_zero] at zero zero'
  cases s <;> cases t <;> simp [coincides, units] <;> omega

def less (x y : Binary64) : Bool := !x.isNaN && !y.isNaN && x.precedes y

def equals (x y : Binary64) : Bool := !x.isNaN && !y.isNaN && x.coincides y

theorem less_iff {x y : Binary64} :
    x.less y = true ↔ x.isNaN = false ∧ y.isNaN = false ∧ x.units < y.units := by
  simp [less, precedes_iff, and_assoc]

theorem equals_iff {x y : Binary64} :
    x.equals y = true ↔ x.isNaN = false ∧ y.isNaN = false ∧ x.units = y.units := by
  simp [equals, coincides_iff, and_assoc]

/-- The larger of two numbers; a NaN gives way to the other. -/
def max (x y : Binary64) : Binary64 :=
  if x.isNaN then y else if y.isNaN then x else if x.less y then y else x

/-- The smaller of two numbers; a NaN gives way to the other. -/
def min (x y : Binary64) : Binary64 :=
  if x.isNaN then y else if y.isNaN then x else if y.less x then y else x

/-! ## 4. Sign and neighbours -/

def negate (x : Binary64) : Binary64 := { x with negative := !x.negative }

/-- The least number above `x`; a NaN and positive infinity stay as they are. -/
def nextUp (x : Binary64) : Binary64 :=
  if x.isNaN then x
  else if x.magnitude = 0 then ⟨false, 1⟩
  else if x.negative then ⟨true, x.magnitude - 1⟩
  else if x.magnitude = infiniteMagnitude then x
  else ⟨false, x.magnitude + 1⟩

/-- The greatest number below `x`. -/
def nextDown (x : Binary64) : Binary64 := x.negate.nextUp.negate

end Binary64

end TypedPipeline
