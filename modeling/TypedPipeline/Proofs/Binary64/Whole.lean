import TypedPipeline.Proofs.Binary64.Nearest

/-!
# Proofs.Binary64.Whole: comparison and whole numbers

Numbers are compared by their units. This file fixes, in units:

* comparison without NaN (`less_eq_false_iff`), the larger and the smaller of two numbers, the
  neighbours of a number (`units_lt_nextUp`, `nextUp_le_units`, …), and finiteness
  (`isFinite_iff_units`);
* integers as numbers: in the order of the integers (`units_ofInt_mono`), exact up to `2 ^ 53`
  (`units_ofInt`) and where the integer is the value of a number (`units_ofInt_of_units`);
* `floor` and `ceil`, which are exact for every finite number (`units_floor`, `units_ceil`), and the
  whole numbers next to a number (`add_one_floor_le`, `lt_add_one_floor`, …);
* the way back to the 64-bit integers (`toInt64_of_units`, `toInt64_mono`), and the numbers below
  `2 ^ 53`, around which it is exact (`IsSmall`, `IsSmallWhole`).
-/

namespace TypedPipeline

namespace Binary64

variable {x y : Binary64}

/-! ## 1. Comparison -/

theorem unitsPerOne_pos : (0 : Int) < unitsPerOne := by
  rw [unitsPerOne]
  generalize 1022 + 52 = k
  exact Int.natCast_pos.2 (Nat.two_pow_pos k)

theorem isNaN_of_isFinite (h : x.isFinite = true) : x.isNaN = false := by
  simp only [isFinite, isNaN, decide_eq_true_eq, decide_eq_false_iff_not] at h ⊢
  omega

theorem less_eq_false_iff (hx : x.isNaN = false) (hy : y.isNaN = false) :
    x.less y = false ↔ y.units ≤ x.units := by
  rw [← Bool.not_eq_true, less_iff]
  simp only [hx, hy, true_and, Int.not_lt]

theorem equals_eq_false_iff (hx : x.isNaN = false) (hy : y.isNaN = false) :
    x.equals y = false ↔ x.units ≠ y.units := by
  rw [← Bool.not_eq_true, equals_iff]
  simp only [hx, hy, true_and, ne_eq]

theorem equals_refl (h : x.isNaN = false) : x.equals x = true := equals_iff.2 ⟨h, h, rfl⟩

/-- The larger of two numbers is one of them and below neither. -/
theorem max_cases (hx : x.isNaN = false) (hy : y.isNaN = false) :
    (x.max y = x ∨ x.max y = y) ∧ x.units ≤ (x.max y).units ∧ y.units ≤ (x.max y).units := by
  simp only [max, hx, hy, Bool.false_eq_true, ↓reduceIte]
  split
  · rename_i h
    exact ⟨Or.inr rfl, Int.le_of_lt (less_iff.1 h).2.2, Int.le_refl _⟩
  · rename_i h
    exact ⟨Or.inl rfl, Int.le_refl _, (less_eq_false_iff hx hy).1 (by simpa using h)⟩

/-- The smaller of two numbers is one of them and above neither. -/
theorem min_cases (hx : x.isNaN = false) (hy : y.isNaN = false) :
    (x.min y = x ∨ x.min y = y) ∧ (x.min y).units ≤ x.units ∧ (x.min y).units ≤ y.units := by
  simp only [min, hx, hy, Bool.false_eq_true, ↓reduceIte]
  split
  · rename_i h
    exact ⟨Or.inr rfl, Int.le_of_lt (less_iff.1 h).2.2, Int.le_refl _⟩
  · rename_i h
    exact ⟨Or.inl rfl, Int.le_refl _, (less_eq_false_iff hy hx).1 (by simpa using h)⟩

/-! ## 2. Neighbours -/

theorem units_negate (x : Binary64) : x.negate.units = -x.units := by
  obtain ⟨s, m⟩ := x
  cases s <;> simp [negate, units]

/-- The next number is larger, and no NaN. -/
theorem units_lt_nextUp (h : x.isFinite = true) :
    x.units < x.nextUp.units ∧ x.nextUp.isNaN = false := by
  obtain ⟨s, m⟩ := x
  have hf : m < infiniteMagnitude := by simpa [isFinite] using h
  have hn : ¬ infiniteMagnitude < m := by omega
  have one : weight 1 = 1 := weight_of_lt (by decide)
  have large : 1 < infiniteMagnitude := by decide
  simp only [nextUp, isNaN, hn, decide_false, Bool.false_eq_true, ↓reduceIte]
  by_cases zero : m = 0
  · subst zero
    cases s <;> simp [units, weight_zero, one] <;> omega
  · simp only [zero, ↓reduceIte]
    cases s with
    | true =>
        have := weight_lt_weight (show m - 1 < m by omega)
        simp only [units, ↓reduceIte, decide_eq_false_iff_not]
        omega
    | false =>
        have := weight_lt_weight (show m < m + 1 by omega)
        simp only [Nat.ne_of_lt hf, Bool.false_eq_true, ↓reduceIte, units,
          decide_eq_false_iff_not]
        omega

/-- The previous number is smaller, and no NaN. -/
theorem nextDown_lt_units (h : x.isFinite = true) :
    x.nextDown.units < x.units ∧ x.nextDown.isNaN = false := by
  have hn : x.negate.isFinite = true := h
  obtain ⟨lt, nan⟩ := units_lt_nextUp hn
  rw [units_negate] at lt
  refine ⟨?_, nan⟩
  rw [nextDown, units_negate]
  omega

theorem lt_of_weight_lt {m n : Nat} (h : weight m < weight n) : m < n := by
  refine Classical.byContradiction fun le => ?_
  have := weight_le_weight (Nat.le_of_not_lt le)
  omega

/-- No number lies between a number and the next one. -/
theorem nextUp_le_units (h : x.isFinite = true) (lt : x.units < y.units) :
    x.nextUp.units ≤ y.units := by
  obtain ⟨s, m⟩ := x
  obtain ⟨t, n⟩ := y
  have hf : m < infiniteMagnitude := by simpa [isFinite] using h
  have hn : ¬ infiniteMagnitude < m := by omega
  have one : weight 1 = 1 := weight_of_lt (by decide)
  simp only [nextUp, isNaN, hn, decide_false, Bool.false_eq_true, ↓reduceIte]
  by_cases zero : m = 0
  · subst zero
    cases s <;> simp [units, weight_zero, one] at lt ⊢ <;> omega
  · simp only [zero, ↓reduceIte]
    cases s with
    | true =>
        cases t with
        | true =>
            simp only [units, ↓reduceIte] at lt ⊢
            have := weight_le_weight (show n ≤ m - 1 by
              have := @lt_of_weight_lt n m (by omega)
              omega)
            omega
        | false =>
            simp only [units, Bool.false_eq_true, ↓reduceIte]
            omega
    | false =>
        simp only [Nat.ne_of_lt hf, Bool.false_eq_true, ↓reduceIte]
        cases t with
        | true =>
            simp only [units, Bool.false_eq_true, ↓reduceIte] at lt
            omega
        | false =>
            simp only [units, Bool.false_eq_true, ↓reduceIte] at lt ⊢
            have := weight_le_weight (show m + 1 ≤ n from @lt_of_weight_lt m n (by omega))
            omega

theorem units_le_nextDown (h : x.isFinite = true) (lt : y.units < x.units) :
    y.units ≤ x.nextDown.units := by
  have le := @nextUp_le_units x.negate y.negate h (by rw [units_negate, units_negate]; omega)
  rw [units_negate] at le
  rw [nextDown, units_negate]
  omega

theorem natAbs_units (x : Binary64) : x.units.natAbs = weight x.magnitude := by
  rw [units]; split <;> simp

/-- The finite numbers are those of fewer units than the infinite one. -/
theorem isFinite_iff_units : x.isFinite = true ↔
    -(weight infiniteMagnitude : Int) < x.units ∧ x.units < weight infiniteMagnitude := by
  have abs := natAbs_units x
  have lt : x.isFinite = true ↔ weight x.magnitude < weight infiniteMagnitude := by
    rw [isFinite, decide_eq_true_eq]
    exact ⟨weight_lt_weight, fun h => Nat.lt_of_not_le fun le =>
      absurd (weight_le_weight le) (Nat.not_le_of_lt h)⟩
  rw [lt, ← abs]
  omega

/-! ## 3. Integers as numbers -/

theorem magnitude_ofInt (n : Int) :
    (ofInt n).magnitude = roundedMagnitude (n.natAbs * unitsPerOne) 1 := by
  rw [ofInt_eq]; rfl

theorem negative_ofInt (n : Int) : (ofInt n).negative = decide (n < 0) := rfl

theorem isNaN_ofInt (n : Int) : (ofInt n).isNaN = false := by
  have : (ofInt n).magnitude ≤ infiniteMagnitude := by
    rw [magnitude_ofInt]; exact Nat.min_le_right _ _
  simp only [isNaN, decide_eq_false_iff_not]
  omega

theorem units_ofInt_eq (n : Int) :
    (ofInt n).units =
      if n < 0 then -(weight (roundedMagnitude (n.natAbs * unitsPerOne) 1) : Int)
      else weight (roundedMagnitude (n.natAbs * unitsPerOne) 1) := by
  rw [units, negative_ofInt, magnitude_ofInt]
  simp only [decide_eq_true_eq]

/-- **Integers as numbers are in the order of the integers.** -/
theorem units_ofInt_mono {m n : Int} (h : m ≤ n) : (ofInt m).units ≤ (ofInt n).units := by
  have size (a b : Nat) (hab : a ≤ b) : weight (roundedMagnitude (a * unitsPerOne) 1) ≤
      weight (roundedMagnitude (b * unitsPerOne) 1) :=
    weight_le_weight (roundedMagnitude_mono (Nat.mul_le_mul_right _ hab))
  rw [units_ofInt_eq, units_ofInt_eq]
  by_cases hm : m < 0
  · by_cases hn : n < 0
    · have := size n.natAbs m.natAbs (by omega)
      rw [if_pos hm, if_pos hn]; omega
    · rw [if_pos hm, if_neg hn]; omega
  · have := size m.natAbs n.natAbs (by omega)
    rw [if_neg hm, if_neg (by omega)]; omega

/-- An integer whose units are those of a pattern is held as that pattern. -/
theorem ofInt_of_weight {n : Int} {m : Nat} (hm : m ≤ infiniteMagnitude)
    (h : weight m = n.natAbs * unitsPerOne) :
    (ofInt n).magnitude = m ∧ (ofInt n).units = n * unitsPerOne := by
  have e : roundedMagnitude (n.natAbs * unitsPerOne) 1 = m := by
    rw [← h]; exact roundedMagnitude_weight hm
  refine ⟨by rw [magnitude_ofInt, e], ?_⟩
  rw [units_ofInt_eq, e, h, Int.natCast_mul]
  split
  · have : (n.natAbs : Int) = -n := by omega
    rw [this, Int.neg_mul, Int.neg_neg]
  · have : (n.natAbs : Int) = n := by omega
    rw [this]

/-- The pattern of an integer of at most 53 bits. -/
theorem exists_weight_ofInt {n : Int} (h : n.natAbs ≤ 2 ^ 53) :
    ∃ m < infiniteMagnitude, weight m = n.natAbs * unitsPerOne := by
  obtain ⟨m, hm, e⟩ := exists_weight_eq h (1022 + 52)
  refine ⟨m, Nat.lt_of_le_of_lt hm (by decide), ?_⟩
  rw [unitsPerOne]
  exact e

/-- **Integers of at most 53 bits are held exactly.** -/
theorem units_ofInt {n : Int} (h : n.natAbs ≤ 2 ^ 53) : (ofInt n).units = n * unitsPerOne := by
  obtain ⟨m, hm, e⟩ := exists_weight_ofInt h
  exact (ofInt_of_weight (Nat.le_of_lt hm) e).2

/-- An integer that is the value of a number is held exactly. -/
theorem units_ofInt_of_units {n : Int} (hx : x.isFinite = true)
    (h : x.units = n * unitsPerOne) : (ofInt n).units = n * unitsPerOne := by
  have hm : x.magnitude ≤ infiniteMagnitude := by
    simp only [isFinite, decide_eq_true_eq] at hx; omega
  refine (ofInt_of_weight hm ?_).2
  rw [← natAbs_units, h, Int.natAbs_mul, Int.natAbs_natCast]

/-- Integers of at most 64 bits are finite numbers. -/
theorem isFinite_ofInt {n : Int} (h : n.natAbs ≤ 2 ^ 64) : (ofInt n).isFinite = true := by
  obtain ⟨k, hk⟩ : ∃ k, k = 1022 + 52 := ⟨_, rfl⟩
  obtain ⟨m, hm, e⟩ := exists_weight_eq (show 1 ≤ 2 ^ 53 by decide) (64 + k)
  have bound : (64 + k + 2) * 2 ^ 52 < infiniteMagnitude := by subst hk; decide
  have top : roundedMagnitude (2 ^ 64 * unitsPerOne) 1 = m := by
    have units : 2 ^ 64 * unitsPerOne = weight m := by
      rw [e, Nat.one_mul, Nat.pow_add, unitsPerOne, hk]
    rw [units]
    exact roundedMagnitude_weight (Nat.le_of_lt (Nat.lt_of_le_of_lt hm bound))
  have le := roundedMagnitude_mono (Nat.mul_le_mul_right unitsPerOne h)
  rw [top, ← magnitude_ofInt] at le
  simp only [isFinite, decide_eq_true_eq]
  exact Nat.lt_of_le_of_lt (Nat.le_trans le hm) bound

/-! ## 4. Whole numbers -/

theorem isInteger_iff :
    x.isInteger = true ↔ x.isFinite = true ∧ ∃ n : Int, x.units = n * unitsPerOne := by
  simp only [isInteger, Bool.and_eq_true, beq_iff_eq]
  refine and_congr_right fun _ => ⟨fun h => ?_, fun ⟨n, h⟩ => ?_⟩
  · exact ⟨x.units / unitsPerOne, (Int.ediv_mul_cancel (Int.dvd_of_emod_eq_zero h)).symm⟩
  · rw [h]; exact Int.mul_emod_left _ _

/-- From 54 bits on, what a pattern stands for is whole. -/
theorem unitsPerOne_dvd_weight {m : Nat} (h : 2 ^ 53 * unitsPerOne ≤ weight m) :
    unitsPerOne ∣ weight m := by
  rw [unitsPerOne] at h ⊢
  generalize 1022 + 52 = k at h ⊢
  by_cases small : m < 2 ^ 52
  · rw [weight_of_lt small] at h
    have := Nat.le_mul_of_pos_right (2 ^ 53) (Nat.two_pow_pos k)
    omega
  · obtain ⟨e, f, hf, rfl⟩ : ∃ e f, f < 2 ^ 52 ∧ m = f + 2 ^ 52 * (e + 1) :=
      ⟨m / 2 ^ 52 - 1, m % 2 ^ 52, by omega, by omega⟩
    rw [weight_add_mul e hf] at h ⊢
    have lt : 2 ^ k < 2 ^ e := by
      refine Nat.lt_of_not_le fun le => ?_
      have := Nat.mul_lt_mul_of_lt_of_le (show 2 ^ 52 + f < 2 ^ 53 by omega) le (Nat.two_pow_pos k)
      omega
    have le : k ≤ e := Nat.le_of_lt ((Nat.pow_lt_pow_iff_right (by decide)).1 lt)
    exact Nat.dvd_mul_left_of_dvd (Nat.pow_dvd_pow 2 le) _

/-- **An integer less than one away from a finite number is held exactly.** -/
theorem units_ofInt_near {n : Int} (hx : x.isFinite = true)
    (low : (n - 1) * unitsPerOne < x.units) (high : x.units < (n + 1) * unitsPerOne) :
    (ofInt n).units = n * unitsPerOne ∧ (ofInt n).isFinite = true := by
  have pos := unitsPerOne_pos
  by_cases small : n.natAbs ≤ 2 ^ 53
  · exact ⟨units_ofInt small, isFinite_ofInt (Nat.le_trans small (by decide))⟩
  · -- so large a number is whole, and no other whole number is as near to it as `n`
    have large : 2 ^ 53 * unitsPerOne ≤ weight x.magnitude := by
      rw [← natAbs_units]
      rcases Int.le_total 0 n with up | down
      · have := Int.mul_le_mul_of_nonneg_right (show (2 ^ 53 : Int) ≤ n - 1 by omega) (Int.le_of_lt pos)
        omega
      · have := Int.mul_le_mul_of_nonneg_right (show n + 1 ≤ (-2 ^ 53 : Int) by omega) (Int.le_of_lt pos)
        omega
    have whole : (unitsPerOne : Int) ∣ x.units := by
      rw [Int.ofNat_dvd_left, natAbs_units]
      exact unitsPerOne_dvd_weight large
    obtain ⟨k, hk⟩ := whole
    rw [Int.mul_comm] at hk
    rw [hk] at low high
    have lt := Int.lt_of_mul_lt_mul_right low (Int.le_of_lt pos)
    have gt := Int.lt_of_mul_lt_mul_right high (Int.le_of_lt pos)
    obtain rfl : k = n := by omega
    have hm : x.magnitude < infiniteMagnitude := by simpa [isFinite] using hx
    have hw : weight x.magnitude = k.natAbs * unitsPerOne := by
      rw [← natAbs_units, hk, Int.natAbs_mul, Int.natAbs_natCast]
    obtain ⟨mag, units⟩ := ofInt_of_weight (Nat.le_of_lt hm) hw
    exact ⟨units, by rw [isFinite, mag]; simpa using hm⟩

/-- The whole number that a zero or another integer is held as. -/
theorem wholeFrom_cases (x : Binary64) (n : Int) :
    (wholeFrom x n).units = (ofInt n).units ∧ (wholeFrom x n).isFinite = (ofInt n).isFinite := by
  unfold wholeFrom
  split
  · rename_i h
    subst h
    have zero : (ofInt 0).units = 0 := by rw [units_ofInt (by decide), Int.zero_mul]
    have fin : (ofInt 0).isFinite = true := isFinite_ofInt (by decide)
    rw [zero, fin]
    refine ⟨?_, by simp [isFinite, infiniteMagnitude]⟩
    cases x.negative <;> simp [units, weight_zero]
  · exact ⟨rfl, rfl⟩

/-- The rounding of a whole number of ones, where zero has a sign of its own. -/
theorem roundedUnits_cases (negative : Bool) (n : Int) :
    (if n * unitsPerOne = 0 then (⟨negative, 0⟩ : Binary64)
      else ofQuotient (n * unitsPerOne < 0) (n * unitsPerOne).natAbs 1).units = (ofInt n).units ∧
    (if n * unitsPerOne = 0 then (⟨negative, 0⟩ : Binary64)
      else ofQuotient (n * unitsPerOne < 0) (n * unitsPerOne).natAbs 1).isNaN = false := by
  have pos := unitsPerOne_pos
  by_cases zero : n = 0
  · subst zero
    rw [Int.zero_mul, if_pos rfl, units_ofInt (by decide), Int.zero_mul]
    cases negative <;> simp [units, weight_zero, isNaN, infiniteMagnitude]
  · have sign : decide (n * unitsPerOne < 0) = decide (n < 0) := by
      refine decide_eq_decide.2 ⟨fun h => Int.not_le.1 fun le => ?_,
        fun h => Int.mul_neg_of_neg_of_pos h pos⟩
      exact Int.not_le.2 h (Int.mul_nonneg le (Int.le_of_lt pos))
    have size : (n * unitsPerOne).natAbs = n.natAbs * unitsPerOne := by
      rw [Int.natAbs_mul, Int.natAbs_natCast]
    have ne : n * (unitsPerOne : Int) ≠ 0 := Int.mul_ne_zero zero (Int.ne_of_gt pos)
    rw [if_neg ne, sign, size, ← ofInt_eq n]
    exact ⟨rfl, isNaN_ofInt n⟩

theorem units_floor (hx : x.isFinite = true) :
    x.floor.units = x.units / unitsPerOne * unitsPerOne ∧ x.floor.isFinite = true := by
  have pos := unitsPerOne_pos
  have div := Int.mul_ediv_add_emod x.units unitsPerOne
  have nonneg := Int.emod_nonneg x.units (Int.ne_of_gt pos)
  have lt := Int.emod_lt_of_pos x.units pos
  have near : (ofInt (x.units / unitsPerOne)).units = x.units / unitsPerOne * unitsPerOne ∧
      (ofInt (x.units / unitsPerOne)).isFinite = true := by
    refine units_ofInt_near hx ?_ ?_
    · rw [Int.sub_mul, Int.mul_comm]; omega
    · rw [Int.add_mul, Int.mul_comm]; omega
  obtain ⟨units, fin⟩ := wholeFrom_cases x (x.units / unitsPerOne)
  rw [floor, if_pos hx, units, fin]
  exact near

theorem units_ceil (hx : x.isFinite = true) :
    x.ceil.units = -(-x.units / unitsPerOne) * unitsPerOne ∧ x.ceil.isFinite = true := by
  have pos := unitsPerOne_pos
  have div := Int.mul_ediv_add_emod (-x.units) unitsPerOne
  have nonneg := Int.emod_nonneg (-x.units) (Int.ne_of_gt pos)
  have lt := Int.emod_lt_of_pos (-x.units) pos
  have near : (ofInt (-(-x.units / unitsPerOne))).units = -(-x.units / unitsPerOne) * unitsPerOne ∧
      (ofInt (-(-x.units / unitsPerOne))).isFinite = true := by
    refine units_ofInt_near hx ?_ ?_
    · rw [Int.sub_mul, Int.neg_mul, Int.mul_comm]; omega
    · rw [Int.add_mul, Int.neg_mul, Int.mul_comm]; omega
  obtain ⟨units, fin⟩ := wholeFrom_cases x (-(-x.units / unitsPerOne))
  rw [ceil, if_pos hx, units, fin]
  exact near

/-- A bound moved up to the next whole number admits the same whole numbers. -/
theorem units_ceil_le_iff (hx : x.isFinite = true) (m : Int) :
    x.ceil.units ≤ m * unitsPerOne ↔ x.units ≤ m * unitsPerOne := by
  have pos := unitsPerOne_pos
  have div := Int.mul_ediv_add_emod (-x.units) unitsPerOne
  have nonneg := Int.emod_nonneg (-x.units) (Int.ne_of_gt pos)
  rw [(units_ceil hx).1, Int.neg_mul, Int.mul_comm (-x.units / unitsPerOne)]
  constructor
  · intro h
    omega
  · intro h
    have le : -m ≤ -x.units / unitsPerOne := by
      rw [Int.le_ediv_iff_mul_le pos, Int.neg_mul]; omega
    have := Int.mul_le_mul_of_nonneg_right le (Int.le_of_lt pos)
    rw [Int.neg_mul, Int.mul_comm (-x.units / unitsPerOne)] at this
    omega

/-- A bound moved down to the next whole number admits the same whole numbers. -/
theorem le_units_floor_iff (hx : x.isFinite = true) (m : Int) :
    m * unitsPerOne ≤ x.floor.units ↔ m * unitsPerOne ≤ x.units := by
  have pos := unitsPerOne_pos
  have div := Int.mul_ediv_add_emod x.units unitsPerOne
  have nonneg := Int.emod_nonneg x.units (Int.ne_of_gt pos)
  rw [(units_floor hx).1]
  constructor
  · intro h
    rw [Int.mul_comm (x.units / unitsPerOne)] at h
    omega
  · intro h
    exact Int.mul_le_mul_of_nonneg_right ((Int.le_ediv_iff_mul_le pos).2 h) (Int.le_of_lt pos)

/-! ## 5. The whole numbers next to a number -/

/-- One more than a whole number is rounded as the integer is. -/
theorem units_add_one {n : Int} (hx : x.isFinite = true) (h : x.units = n * unitsPerOne) :
    (x.add (ofInt 1)).units = (ofInt (n + 1)).units ∧ (x.add (ofInt 1)).isNaN = false := by
  have one : (ofInt 1).units = unitsPerOne := by rw [units_ofInt (by decide), Int.one_mul]
  have sum : x.units + (ofInt 1).units = (n + 1) * unitsPerOne := by rw [one, h, Int.add_mul, Int.one_mul]
  rw [add_eq hx (isFinite_ofInt (by decide)), sum]
  exact roundedUnits_cases _ (n + 1)

/-- One less than a whole number is rounded as the integer is. -/
theorem units_sub_one {n : Int} (hx : x.isFinite = true) (h : x.units = n * unitsPerOne) :
    (x.sub (ofInt 1)).units = (ofInt (n - 1)).units ∧ (x.sub (ofInt 1)).isNaN = false := by
  have one : (ofInt 1).negate.units = -unitsPerOne := by
    rw [units_negate, units_ofInt (by decide), Int.one_mul]
  have sum : x.units + (ofInt 1).negate.units = (n - 1) * unitsPerOne := by
    rw [one, h, Int.sub_mul, Int.one_mul, Int.sub_eq_add_neg]
  have fin : (ofInt 1).negate.isFinite = true := isFinite_ofInt (n := 1) (by decide)
  rw [sub, isNaN_ofInt, if_neg (by decide), add_eq hx fin, sum]
  exact roundedUnits_cases _ (n - 1)

/-- The whole number after a number is not above any whole number that is larger. -/
theorem add_one_floor_le {m : Int} (hx : x.isFinite = true) (hy : y.isFinite = true)
    (whole : y.units = m * unitsPerOne) (h : x.units < y.units) :
    (x.floor.add (ofInt 1)).units ≤ y.units ∧ (x.floor.add (ofInt 1)).isNaN = false := by
  obtain ⟨units, fin⟩ := units_floor hx
  obtain ⟨sum, nan⟩ := units_add_one fin units
  refine ⟨?_, nan⟩
  have lt : x.units / unitsPerOne < m := by
    rw [Int.ediv_lt_iff_lt_mul unitsPerOne_pos, ← whole]; exact h
  rw [sum, whole, ← units_ofInt_of_units hy whole]
  exact units_ofInt_mono (by omega)

/-- The whole number before a number is not below any whole number that is smaller. -/
theorem le_sub_one_ceil {m : Int} (hx : x.isFinite = true) (hy : y.isFinite = true)
    (whole : y.units = m * unitsPerOne) (h : y.units < x.units) :
    y.units ≤ (x.ceil.sub (ofInt 1)).units ∧ (x.ceil.sub (ofInt 1)).isNaN = false := by
  obtain ⟨units, fin⟩ := units_ceil hx
  obtain ⟨diff, nan⟩ := units_sub_one fin units
  refine ⟨?_, nan⟩
  have lt : -x.units / unitsPerOne < -m := by
    rw [Int.ediv_lt_iff_lt_mul unitsPerOne_pos, Int.neg_mul, ← whole]; omega
  rw [diff, whole, ← units_ofInt_of_units hy whole]
  exact units_ofInt_mono (by omega)

/-- Below `2 ^ 53` the whole number after a number is larger than it. -/
theorem lt_add_one_floor (hx : x.isFinite = true) (low : -2 ^ 53 * unitsPerOne ≤ x.units)
    (high : x.units < 2 ^ 53 * unitsPerOne) : x.units < (x.floor.add (ofInt 1)).units := by
  obtain ⟨units, fin⟩ := units_floor hx
  have pos := unitsPerOne_pos
  have div := Int.mul_ediv_add_emod x.units unitsPerOne
  have lt := Int.emod_lt_of_pos x.units pos
  have above : x.units / unitsPerOne < 2 ^ 53 := (Int.ediv_lt_iff_lt_mul pos).2 high
  have below : -2 ^ 53 ≤ x.units / unitsPerOne := (Int.le_ediv_iff_mul_le pos).2 low
  rw [(units_add_one fin units).1, units_ofInt (by omega), Int.add_mul, Int.one_mul,
    Int.mul_comm]
  omega

/-- Below `2 ^ 53` the whole number before a number is smaller than it. -/
theorem sub_one_ceil_lt (hx : x.isFinite = true) (low : -2 ^ 53 * unitsPerOne < x.units)
    (high : x.units ≤ 2 ^ 53 * unitsPerOne) : (x.ceil.sub (ofInt 1)).units < x.units := by
  obtain ⟨units, fin⟩ := units_ceil hx
  have pos := unitsPerOne_pos
  have div := Int.mul_ediv_add_emod (-x.units) unitsPerOne
  have lt := Int.emod_lt_of_pos (-x.units) pos
  have above : -x.units / unitsPerOne < 2 ^ 53 := (Int.ediv_lt_iff_lt_mul pos).2 (by omega)
  have below : -2 ^ 53 ≤ -x.units / unitsPerOne := (Int.le_ediv_iff_mul_le pos).2 (by omega)
  rw [(units_sub_one fin units).1, units_ofInt (by omega), Int.sub_mul, Int.one_mul, Int.neg_mul,
    Int.mul_comm (-x.units / unitsPerOne)]
  omega

/-! ## 6. Back to integers -/

/-- **A whole number is cut to the 64-bit integer that it is, or to the nearest one there is.** -/
theorem toInt64_of_units {n : Int} (hx : x.isNaN = false) (h : x.units = n * unitsPerOne) :
    x.toInt64 = Max.max minInt64 (Min.min maxInt64 n) := by
  have e : x.truncate = n := by
    rw [truncate, h, Int.mul_tdiv_cancel _ (Int.ne_of_gt unitsPerOne_pos)]
  rw [toInt64, hx, e, if_neg (by decide)]

/-- A whole number of 64 bits is cut to itself. -/
theorem toInt64_eq {n : Int} (hx : x.isNaN = false) (h : x.units = n * unitsPerOne)
    (low : -2 ^ 63 ≤ n) (high : n < 2 ^ 63) : x.toInt64 = n := by
  rw [toInt64_of_units hx h, minInt64, maxInt64]
  omega

theorem toInt64_bounds (x : Binary64) : -2 ^ 63 ≤ x.toInt64 ∧ x.toInt64 < 2 ^ 63 := by
  unfold Binary64.toInt64 minInt64 maxInt64
  split
  · decide
  · omega

/-- Cutting to a 64-bit integer keeps the order. -/
theorem toInt64_mono (hx : x.isNaN = false) (hy : y.isNaN = false) (h : x.units ≤ y.units) :
    x.toInt64 ≤ y.toInt64 := by
  have cut : x.truncate ≤ y.truncate := Int.tdiv_le_tdiv unitsPerOne_pos h
  rw [toInt64, toInt64, hx, hy]
  simp only [Bool.false_eq_true, if_false]
  omega

/-! ## 7. Small numbers -/

/-- Below `2 ^ 53` in magnitude. -/
def IsSmall (x : Binary64) : Prop :=
  -2 ^ 53 * unitsPerOne < x.units ∧ x.units < 2 ^ 53 * unitsPerOne

theorem isSmall_ofInt {n : Int} (h : n.natAbs < 2 ^ 53) : (ofInt n).IsSmall := by
  have pos := unitsPerOne_pos
  rw [IsSmall, units_ofInt (Nat.le_of_lt h)]
  exact ⟨Int.mul_lt_mul_of_pos_right (by omega) pos, Int.mul_lt_mul_of_pos_right (by omega) pos⟩

/-- A whole number of at most `2 ^ 53` in magnitude. -/
def IsSmallWhole (x : Binary64) : Prop :=
  x.isNaN = false ∧ ∃ m : Int, x.units = m * unitsPerOne ∧ -2 ^ 53 ≤ m ∧ m ≤ 2 ^ 53

/-- It is the 64-bit integer that it is cut to. -/
theorem IsSmallWhole.toInt64 (h : x.IsSmallWhole) :
    x.units = x.toInt64 * unitsPerOne ∧ -2 ^ 53 ≤ x.toInt64 ∧ x.toInt64 ≤ 2 ^ 53 := by
  obtain ⟨nan, m, units, low, high⟩ := h
  rw [toInt64_eq nan units (by omega) (by omega)]
  exact ⟨units, low, high⟩

theorem isSmallWhole_floor (hx : x.isFinite = true) (small : x.IsSmall) :
    x.floor.IsSmallWhole ∧ (x.floor.add (.ofInt 1)).IsSmallWhole := by
  have pos := unitsPerOne_pos
  obtain ⟨units, fin⟩ := units_floor hx
  have above : x.units / unitsPerOne < 2 ^ 53 := (Int.ediv_lt_iff_lt_mul pos).2 small.2
  have below : -2 ^ 53 ≤ x.units / unitsPerOne :=
    (Int.le_ediv_iff_mul_le pos).2 (Int.le_of_lt small.1)
  obtain ⟨next, nan⟩ := units_add_one fin units
  exact ⟨⟨isNaN_of_isFinite fin, _, units, by omega, by omega⟩,
    nan, x.units / unitsPerOne + 1, by rw [next, units_ofInt (by omega)], by omega, by omega⟩

theorem isSmallWhole_ceil (hx : x.isFinite = true) (small : x.IsSmall) :
    x.ceil.IsSmallWhole ∧ (x.ceil.sub (.ofInt 1)).IsSmallWhole := by
  have pos := unitsPerOne_pos
  obtain ⟨low, high⟩ := small
  obtain ⟨units, fin⟩ := units_ceil hx
  have above : -x.units / unitsPerOne < 2 ^ 53 := (Int.ediv_lt_iff_lt_mul pos).2 (by omega)
  have below : -2 ^ 53 ≤ -x.units / unitsPerOne := (Int.le_ediv_iff_mul_le pos).2 (by omega)
  obtain ⟨previous, nan⟩ := units_sub_one fin units
  exact ⟨⟨isNaN_of_isFinite fin, _, units, by omega, by omega⟩,
    nan, -(-x.units / unitsPerOne) - 1, by rw [previous, units_ofInt (by omega)], by omega, by omega⟩

end Binary64

end TypedPipeline
