import TypedPipeline.Proofs.Schema.Subsumption
import TypedPipeline.Proofs.Schema.Containment

/-!
# Proofs.Schema.Listing: the list of all integers of a range

An integer scalar is compared with an enumeration by the list of all its values, if these are few
enough. The whole numbers next to its bounds are cut to 64-bit integers, and the difference of these
is taken in 64 bits. This file fixes:

* the two integers that the list goes from and to (`Scalar.Spans`);
* how long the list is: no longer than `maxListed` unless the difference does not fit into 64 bits, and
  then longer than `2 ^ 63` (`Scalar.listedRange_of_fits`, `Scalar.listedRange_of_overflow`);
* what is expected of the list (`Scalar.ListsFaithfully`) and what this comes down to for the two
  integers (`Scalar.SpansFaithfully`), for instance if the bounds are moved without being rounded or
  cut (`Scalar.Movable`);
* **when the list is as expected, and that the comparison with an enumeration is exact then**
  (`Scalar.listsFaithfully_iff`), and a range of which something else is listed
  (`Scalar.beyondRange_not_listsFaithfully`).
-/

namespace TypedPipeline

namespace Binary64

variable {x : Binary64}

/-- What an integer is rounded to is whole. -/
theorem exists_units_ofInt (n : Int) : ∃ l : Int, (ofInt n).units = l * unitsPerOne := by
  by_cases small : n.natAbs ≤ 2 ^ 53
  · exact ⟨n, units_ofInt small⟩
  · have large : 2 ^ 53 * unitsPerOne ≤ weight (ofInt n).magnitude := by
      rw [← natAbs_units]
      rcases Int.le_total 0 n with up | down
      · have := @units_ofInt_mono (2 ^ 53) n (by omega)
        rw [units_ofInt (n := 2 ^ 53) (by decide)] at this
        omega
      · have := @units_ofInt_mono n (-2 ^ 53) (by omega)
        rw [units_ofInt (n := -2 ^ 53) (by decide)] at this
        omega
    have whole : (unitsPerOne : Int) ∣ (ofInt n).units := by
      rw [Int.ofNat_dvd_left, natAbs_units]
      exact unitsPerOne_dvd_weight large
    obtain ⟨l, e⟩ := whole
    exact ⟨l, by rw [e, Int.mul_comm]⟩

/-- A whole number of 64 bits is held as the integer that it is cut to. -/
theorem units_ofInt_toInt64 {l : Int} (hx : x.isFinite = true) (h : x.units = l * unitsPerOne)
    (low : -2 ^ 63 ≤ l) (high : l < 2 ^ 63) : (ofInt x.toInt64).units = x.units := by
  rw [toInt64_eq (isNaN_of_isFinite hx) h low high, h]
  exact units_ofInt_of_units hx h

theorem IsSmallWhole.units_ofInt_toInt64 (h : x.IsSmallWhole) :
    (ofInt x.toInt64).units = x.units := by
  obtain ⟨units, low, high⟩ := h.toInt64
  rw [units_ofInt (by omega), ← units]

end Binary64

namespace Scalar

open Binary64

variable {s : Scalar} {b : Bound} {low high i : Int} {values : List Json} {n : Number} {v : Json}

/-! ## 1. Bounds as integers -/

theorem whole_wholeLower (hb : b.value.isFinite = true) :
    (wholeLower b).isNaN = false ∧ ∃ l : Int, (wholeLower b).units = l * unitsPerOne := by
  unfold wholeLower
  obtain ⟨units, fin⟩ := units_ceil hb
  obtain ⟨floored, fin'⟩ := units_floor hb
  split
  · obtain ⟨sum, nan⟩ := units_add_one fin' floored
    exact ⟨nan, sum ▸ exists_units_ofInt _⟩
  · exact ⟨isNaN_of_isFinite fin, _, units⟩

theorem whole_wholeUpper (hb : b.value.isFinite = true) :
    (wholeUpper b).isNaN = false ∧ ∃ l : Int, (wholeUpper b).units = l * unitsPerOne := by
  unfold wholeUpper
  obtain ⟨units, fin⟩ := units_ceil hb
  obtain ⟨floored, fin'⟩ := units_floor hb
  split
  · obtain ⟨difference, nan⟩ := units_sub_one fin units
    exact ⟨nan, difference ▸ exists_units_ofInt _⟩
  · exact ⟨isNaN_of_isFinite fin', _, floored⟩

/-- The list of all values goes from one integer to the other, and is not empty. -/
def Spans (s : Scalar) (low high : Int) : Prop :=
  ∃ a ∈ s.minimum, ∃ b ∈ s.maximum,
    low = (wholeLower a).toInt64 ∧ high = (wholeUpper b).toInt64 ∧ low ≤ high

theorem Spans.unique {low' high' : Int} (h : s.Spans low high) (h' : s.Spans low' high') :
    low = low' ∧ high = high' := by
  obtain ⟨a, ha, b, hb, rfl, rfl, _⟩ := h
  obtain ⟨a', ha', b', hb', rfl, rfl, _⟩ := h'
  cases ha.symm.trans ha'
  cases hb.symm.trans hb'
  exact ⟨rfl, rfl⟩

theorem Spans.bounds (h : s.Spans low high) : -2 ^ 63 ≤ low ∧ low ≤ high ∧ high < 2 ^ 63 := by
  obtain ⟨a, _, b, _, rfl, rfl, le⟩ := h
  exact ⟨(toInt64_bounds _).1, le, (toInt64_bounds _).2⟩

/-! ## 2. The list -/

theorem length_wholeNumbers : (wholeNumbers low high).length = (high - low + 1).toNat := by
  rw [wholeNumbers, List.length_map, List.length_range]

/-- A difference that fits is compared as it is. -/
theorem listedRange_of_fits (le : low ≤ high) (fits : high - low < 2 ^ 63) :
    listedRange low high =
      if maxListed ≤ high - low then none else some ((wholeNumbers low high).map .int) := by
  have exactly : (high - low).bmod (2 ^ 64) = high - low := Int.bmod_eq_of_le (by omega) (by omega)
  rw [listedRange, if_neg (by omega), exactly]

/-- **A difference that does not fit is negative in 64 bits, and everything is listed.** -/
theorem listedRange_of_overflow (overflow : 2 ^ 63 ≤ high - low) (bounded : high - low < 2 ^ 64) :
    ∃ values, listedRange low high = some values ∧ 2 ^ 63 < values.length := by
  have negative : (high - low).bmod (2 ^ 64) = high - low - 2 ^ 64 := by
    rw [Int.bmod_def]
    omega
  refine ⟨(wholeNumbers low high).map .int, ?_, ?_⟩
  · rw [listedRange, if_neg (by omega), negative, if_neg (by rw [maxListed]; omega)]
  · rw [List.length_map, length_wholeNumbers]
    omega

theorem Spans.finiteDomain (kind : s.kind = .integer) (h : s.Spans low high) :
    s.finiteDomain = listedRange low high := by
  obtain ⟨a, ha, b, hb, rfl, rfl, _⟩ := h
  simp only [Option.mem_def] at ha hb
  simp [Scalar.finiteDomain, tightRange, kind, ha, hb, Bound.inclusive]

/-- What is listed has two bounds, with nothing between them or at least one integer. -/
theorem finiteDomain_cases (kind : s.kind = .integer) (h : s.finiteDomain = some values) :
    ∃ a ∈ s.minimum, ∃ b ∈ s.maximum,
      listedRange (wholeLower a).toInt64 (wholeUpper b).toInt64 = some values := by
  unfold Scalar.finiteDomain tightRange at h
  simp only [kind, if_true] at h
  cases ha : s.minimum with
  | none => simp [ha] at h
  | some a =>
      cases hb : s.maximum with
      | none => simp [ha, hb] at h
      | some b => exact ⟨a, rfl, b, rfl, by simpa [ha, hb, Bound.inclusive] using h⟩

/-! ## 3. What is expected of the list -/

/-- The list of all values is made without overflow and is short, and its members are the values that
    the scalar accepts. -/
structure ListsFaithfully (s : Scalar) : Prop where
  noOverflow : ∀ low high, s.Spans low high → high - low < 2 ^ 63
  short : ∀ values, s.finiteDomain = some values → values.length ≤ maxListed
  accepted : ∀ values, s.finiteDomain = some values →
    ∀ w ∈ values, (Schema.scalar s).accepts w = true
  complete : ∀ values, s.finiteDomain = some values →
    ∀ v : Json, v.Proper → (Schema.scalar s).accepts v = true → ∃ w ∈ values, w.agrees v = true

/-- The difference of the two integers fits, and if they are close enough for a list, then both are
    accepted and no number beyond the 64-bit integers is. -/
structure SpansFaithfully (s : Scalar) : Prop where
  noOverflow : ∀ low high, s.Spans low high → high - low < 2 ^ 63
  low : ∀ low high, s.Spans low high → high - low < maxListed →
    (Schema.scalar s).accepts (.int low) = true
  high : ∀ low high, s.Spans low high → high - low < maxListed →
    (Schema.scalar s).accepts (.int high) = true
  within : ∀ low high, s.Spans low high → high - low < maxListed →
    ∀ n : Number, n.Proper → (Schema.scalar s).accepts (.number n) = true →
      -2 ^ 63 * unitsPerOne ≤ n.toBinary64.units ∧ n.toBinary64.units ≤ 2 ^ 63 * unitsPerOne

/-- What is listed is short if the difference fits: it is empty or goes from one integer to the
    other. -/
theorem finiteDomain_of_fits (kind : s.kind = .integer)
    (fits : ∀ low high, s.Spans low high → high - low < 2 ^ 63)
    (h : s.finiteDomain = some values) :
    (values = [] ∧ ∀ low high, ¬ s.Spans low high) ∨
      ∃ low high, s.Spans low high ∧ high - low < maxListed ∧
        values = (wholeNumbers low high).map .int := by
  obtain ⟨a, ha, b, hb, listed⟩ := finiteDomain_cases kind h
  by_cases le : (wholeLower a).toInt64 ≤ (wholeUpper b).toInt64
  · have spans : s.Spans _ _ := ⟨a, ha, b, hb, rfl, rfl, le⟩
    rw [listedRange_of_fits le (fits _ _ spans)] at listed
    split at listed
    · cases listed
    · cases listed
      exact Or.inr ⟨_, _, spans, by omega, rfl⟩
  · rw [listedRange, if_pos (by omega)] at listed
    cases listed
    refine Or.inl ⟨rfl, ?_⟩
    rintro low high ⟨a', ha', b', hb', rfl, rfl, le'⟩
    cases ha.symm.trans ha'
    cases hb.symm.trans hb'
    exact le le'

theorem below_mono {x y : Binary64} (hx : x.isNaN = false) (hy : y.isNaN = false)
    (hb : b.value.isFinite = true) (le : x.units ≤ y.units) (h : below x b = false) :
    below y b = false := by
  have nan := isNaN_of_isFinite hb
  obtain ⟨above, strict⟩ := (below_eq_false_iff hx nan).1 h
  exact (below_eq_false_iff hy nan).2 ⟨by omega, fun ex => by have := strict ex; omega⟩

theorem above_mono {x y : Binary64} (hx : x.isNaN = false) (hy : y.isNaN = false)
    (hb : b.value.isFinite = true) (le : y.units ≤ x.units) (h : above x b = false) :
    above y b = false := by
  have nan := isNaN_of_isFinite hb
  obtain ⟨below, strict⟩ := (above_eq_false_iff hx nan).1 h
  exact (above_eq_false_iff hy nan).2 ⟨by omega, fun ex => by have := strict ex; omega⟩

theorem accepts_int_iff (kind : s.kind = .integer) (bare : s.enumeration = none) :
    (Schema.scalar s).accepts (.int i) = true ↔
      (∀ b ∈ s.minimum, below (ofInt i) b = false) ∧ ∀ b ∈ s.maximum, above (ofInt i) b = false := by
  rw [Schema.accepts_scalar_iff]
  constructor
  · intro fits
    exact ⟨fits.low (.int i) rfl, fits.high (.int i) rfl⟩
  · rintro ⟨low, high⟩
    refine ⟨by simp [acceptsKind, kind, Json.int, Json.isIntegral, Number.isIntegral], ?_, ?_,
      by simp [bare]⟩
    · rintro _ ⟨⟩
      exact low
    · rintro _ ⟨⟩
      exact high

/-- An integer is accepted if it lies between two that are. -/
theorem accepts_int_between (kind : s.kind = .integer) (bare : s.enumeration = none)
    (regular : s.Regular) (hl : (Schema.scalar s).accepts (.int low) = true)
    (hh : (Schema.scalar s).accepts (.int high) = true) (le : low ≤ i) (le' : i ≤ high) :
    (Schema.scalar s).accepts (.int i) = true := by
  rw [accepts_int_iff kind bare] at hl hh ⊢
  exact ⟨fun b hb => below_mono (isNaN_ofInt low) (isNaN_ofInt i) (regular.low b hb)
      (units_ofInt_mono le) (hl.1 b hb),
    fun b hb => above_mono (isNaN_ofInt high) (isNaN_ofInt i) (regular.high b hb)
      (units_ofInt_mono le') (hh.2 b hb)⟩

/-- **A number that is accepted is cut to an integer between the two.** -/
theorem spans_of_accepts (kind : s.kind = .integer) (regular : s.Regular) {a c : Bound}
    (ha : a ∈ s.minimum) (hc : c ∈ s.maximum) (pn : n.Proper)
    (accepted : (Schema.scalar s).accepts (.number n) = true) :
    s.Spans (wholeLower a).toInt64 (wholeUpper c).toInt64 ∧
      (wholeLower a).toInt64 ≤ n.toBinary64.toInt64 ∧
      n.toBinary64.toInt64 ≤ (wholeUpper c).toInt64 := by
  have fits := Schema.accepts_scalar_iff.1 accepted
  have whole := fits.whole kind
  have nan := Number.isNaN_toBinary64 pn
  obtain ⟨m, hm⟩ := (Number.isIntegral_iff pn).1 whole
  obtain ⟨lower, l, hl⟩ := whole_wholeLower (regular.low a ha)
  obtain ⟨upper, h, hh⟩ := whole_wholeUpper (regular.high c hc)
  have le := ((below_eq_false_iff nan lower).1 (below_wholeLower pn whole (regular.low a ha)
    (fits.low n rfl a ha))).1
  have le' := ((above_eq_false_iff nan upper).1 (above_wholeUpper pn whole (regular.high c hc)
    (fits.high n rfl c hc))).1
  have low := toInt64_mono lower nan le
  have high := toInt64_mono nan upper le'
  exact ⟨⟨a, ha, c, hc, rfl, rfl, Int.le_trans low high⟩, low, high⟩

/-- The integer that a whole number is cut to agrees with it, unless it is beyond the 64-bit
    integers. -/
theorem toInt64_agrees (pn : n.Proper) (whole : n.isIntegral = true)
    (low : -2 ^ 63 * unitsPerOne ≤ n.toBinary64.units)
    (high : n.toBinary64.units ≤ 2 ^ 63 * unitsPerOne) :
    (Json.int n.toBinary64.toInt64).agrees (.number n) = true := by
  have nan := Number.isNaN_toBinary64 pn
  obtain ⟨m, hm⟩ := (Number.isIntegral_iff pn).1 whole
  rw [hm] at low high
  have low := Int.le_of_mul_le_mul_right low unitsPerOne_pos
  have high := Int.le_of_mul_le_mul_right high unitsPerOne_pos
  by_cases top : m = 2 ^ 63
  · -- the greatest 64-bit integer is rounded to the number after it
    have rounded : (ofInt maxInt64).units = 2 ^ 63 * unitsPerOne := by decide +kernel
    rw [toInt64_of_units nan hm, top]
    rw [top] at hm
    exact equals_iff.2 ⟨isNaN_ofInt _, nan, rounded.trans hm.symm⟩
  · rw [toInt64_eq nan hm low (by omega)]
    exact int_agrees pn hm

/-- What agrees with a 64-bit integer is not beyond them. -/
theorem within_of_agrees (low : -2 ^ 63 ≤ i) (high : i < 2 ^ 63)
    (a : (Json.int i).agrees (.number n) = true) :
    -2 ^ 63 * unitsPerOne ≤ n.toBinary64.units ∧ n.toBinary64.units ≤ 2 ^ 63 * unitsPerOne := by
  have same : (ofInt i).units = n.toBinary64.units := (equals_iff.1 a).2.2
  have least : (ofInt (-2 ^ 63)).units = -2 ^ 63 * unitsPerOne := by decide +kernel
  have most : (ofInt (2 ^ 63)).units = 2 ^ 63 * unitsPerOne := by decide +kernel
  rw [← same, ← least, ← most]
  exact ⟨units_ofInt_mono low, units_ofInt_mono (by omega)⟩

/-! ## 4. The list as expected -/

theorem ListsFaithfully.spansFaithfully (kind : s.kind = .integer) (h : s.ListsFaithfully) :
    s.SpansFaithfully := by
  have listed {low high : Int} (spans : s.Spans low high) (few : high - low < maxListed) :
      s.finiteDomain = some ((wholeNumbers low high).map .int) := by
    have le := spans.bounds.2.1
    rw [spans.finiteDomain kind, listedRange_of_fits le (h.noOverflow _ _ spans), if_neg (by omega)]
  have member {low high i : Int} (le : low ≤ i) (le' : i ≤ high) :
      Json.int i ∈ (wholeNumbers low high).map Json.int :=
    List.mem_map_of_mem (mem_wholeNumbers.2 ⟨le, le'⟩)
  refine ⟨h.noOverflow, fun low high spans few => ?_, fun low high spans few => ?_,
    fun low high spans few n pn accepted => ?_⟩
  · exact h.accepted _ (listed spans few) _ (member (Int.le_refl _) spans.bounds.2.1)
  · exact h.accepted _ (listed spans few) _ (member spans.bounds.2.1 (Int.le_refl _))
  · obtain ⟨w, hw, a⟩ := h.complete _ (listed spans few) (.number n) pn accepted
    obtain ⟨i, hi, rfl⟩ := List.mem_map.1 hw
    have between := mem_wholeNumbers.1 hi
    have bounds := spans.bounds
    exact within_of_agrees (by omega) (by omega) a

theorem SpansFaithfully.listsFaithfully (kind : s.kind = .integer) (bare : s.enumeration = none)
    (regular : s.Regular) (h : s.SpansFaithfully) : s.ListsFaithfully := by
  refine ⟨h.noOverflow, fun values hd => ?_, fun values hd w hw => ?_, fun values hd v pv accepted => ?_⟩
  · rcases finiteDomain_of_fits kind h.noOverflow hd with ⟨rfl, _⟩ | ⟨low, high, spans, few, rfl⟩
    · decide
    · have le := spans.bounds.2.1
      rw [List.length_map, length_wholeNumbers]
      omega
  · rcases finiteDomain_of_fits kind h.noOverflow hd with ⟨rfl, _⟩ | ⟨low, high, spans, few, rfl⟩
    · cases hw
    · obtain ⟨i, hi, rfl⟩ := List.mem_map.1 hw
      obtain ⟨le, le'⟩ := mem_wholeNumbers.1 hi
      exact accepts_int_between kind bare regular (h.low _ _ spans few) (h.high _ _ spans few)
        le le'
  · have fits := Schema.accepts_scalar_iff.1 accepted
    obtain ⟨n, rfl⟩ := exists_number (x := s) (by rw [kind]; rfl) fits.kind
    obtain ⟨a, ha, c, hc, _⟩ := finiteDomain_cases kind hd
    obtain ⟨spans, le, le'⟩ := spans_of_accepts kind regular ha hc pv accepted
    rcases finiteDomain_of_fits kind h.noOverflow hd with ⟨_, none⟩ | ⟨low, high, spans', few, rfl⟩
    · exact absurd spans (none _ _)
    · obtain ⟨rfl, rfl⟩ := spans'.unique spans
      obtain ⟨above, below⟩ := h.within _ _ spans few n pv accepted
      exact ⟨_, List.mem_map_of_mem (mem_wholeNumbers.2 ⟨le, le'⟩),
        toInt64_agrees pv (fits.whole kind) above below⟩

/-! ## 5. Bounds that are moved exactly -/

/-- The bound is moved to a whole number without being rounded, and is one of 64 bits then. -/
structure Movable (b : Bound) : Prop where
  exact : b.exclusive = true → b.value.IsSmall
  low : -2 ^ 63 * unitsPerOne ≤ b.value.units
  high : b.value.units ≤ (2 ^ 63 - 1) * unitsPerOne

/-- The integer that a movable lower bound becomes is on its inner side. -/
theorem Movable.below_toInt64 (h : Movable b) (hb : b.value.isFinite = true) :
    below (ofInt (wholeLower b).toInt64) b = false := by
  rw [below_eq_false_iff (isNaN_ofInt _) (isNaN_of_isFinite hb)]
  unfold wholeLower
  cases ex : b.exclusive with
  | true =>
      have small := h.exact ex
      have lt := lt_add_one_floor hb (Int.le_of_lt small.1) small.2
      simp only [if_true, (isSmallWhole_floor hb small).2.units_ofInt_toInt64]
      exact ⟨Int.le_of_lt lt, fun _ => Int.ne_of_gt lt⟩
  | false =>
      obtain ⟨units, fin⟩ := units_ceil hb
      have le := (units_ceil_le_iff hb _).1 (Int.le_of_eq units)
      have most := (units_ceil_le_iff hb (2 ^ 63 - 1)).2 h.high
      rw [units] at most
      have exactly := units_ofInt_toInt64 fin units
        (Int.le_of_mul_le_mul_right (Int.le_trans h.low le) unitsPerOne_pos)
        (by have := Int.le_of_mul_le_mul_right most unitsPerOne_pos; omega)
      simp only [Bool.false_eq_true, if_false, exactly, false_implies, and_true]
      rw [units]
      exact le

/-- The integer that a movable upper bound becomes is on its inner side. -/
theorem Movable.above_toInt64 (h : Movable b) (hb : b.value.isFinite = true) :
    above (ofInt (wholeUpper b).toInt64) b = false := by
  rw [above_eq_false_iff (isNaN_ofInt _) (isNaN_of_isFinite hb)]
  unfold wholeUpper
  cases ex : b.exclusive with
  | true =>
      have small := h.exact ex
      have lt := sub_one_ceil_lt hb small.1 (Int.le_of_lt small.2)
      simp only [if_true, (isSmallWhole_ceil hb small).2.units_ofInt_toInt64]
      exact ⟨Int.le_of_lt lt, fun _ => Int.ne_of_lt lt⟩
  | false =>
      obtain ⟨units, fin⟩ := units_floor hb
      have le := (le_units_floor_iff hb _).1 (Int.le_of_eq units.symm)
      have least := (le_units_floor_iff hb (-2 ^ 63)).2 h.low
      rw [units] at least
      have exactly := units_ofInt_toInt64 fin units
        (Int.le_of_mul_le_mul_right least unitsPerOne_pos)
        (by have := Int.le_of_mul_le_mul_right (Int.le_trans le h.high) unitsPerOne_pos; omega)
      simp only [Bool.false_eq_true, if_false, exactly, false_implies, and_true]
      rw [units]
      exact le

/-- **Bounds that are movable span the integers that are accepted.** -/
theorem spansFaithfully_of_movable (kind : s.kind = .integer) (bare : s.enumeration = none)
    (regular : s.Regular) (lower : ∀ b ∈ s.minimum, Movable b) (upper : ∀ b ∈ s.maximum, Movable b)
    (fits : ∀ low high, s.Spans low high → high - low < 2 ^ 63) : s.SpansFaithfully := by
  have ends {low high : Int} (spans : s.Spans low high) :
      (Schema.scalar s).accepts (.int low) = true ∧ (Schema.scalar s).accepts (.int high) = true := by
    obtain ⟨a, ha, c, hc, rfl, rfl, le⟩ := spans
    have inside := (lower a ha).below_toInt64 (regular.low a ha)
    have inside' := (upper c hc).above_toInt64 (regular.high c hc)
    have mono := units_ofInt_mono le
    have across := above_mono (isNaN_ofInt _) (isNaN_ofInt _) (regular.high c hc) mono inside'
    have across' := below_mono (isNaN_ofInt _) (isNaN_ofInt _) (regular.low a ha) mono inside
    simp only [accepts_int_iff kind bare, Option.mem_def] at ha hc ⊢
    simp [ha, hc, inside, inside', across, across']
  refine ⟨fits, fun _ _ spans _ => (ends spans).1, fun _ _ spans _ => (ends spans).2,
    fun _ _ spans _ n pn accepted => ?_⟩
  obtain ⟨a, ha, c, hc, -, -, -⟩ := spans
  have accepted := Schema.accepts_scalar_iff.1 accepted
  have nan := Number.isNaN_toBinary64 pn
  have above := ((below_eq_false_iff nan (isNaN_of_isFinite (regular.low a ha))).1
    (accepted.low n rfl a ha)).1
  have below := ((above_eq_false_iff nan (isNaN_of_isFinite (regular.high c hc))).1
    (accepted.high n rfl c hc)).1
  have low := (lower a ha).low
  have high := (upper c hc).high
  have pos := unitsPerOne_pos
  omega

/-! ## 6. The comparison with an enumeration -/

theorem ListsFaithfully.isSubsumedBy_iff (kind : s.kind = .integer) (bare : s.enumeration = none)
    (h : s.ListsFaithfully) {y : Scalar} (listing : y.enumeration ≠ none) :
    (Schema.scalar s).isSubsumedBy (.scalar y) = true ↔
      s.finiteDomain ≠ none ∧ y.kind.isNumeric = true ∧
        ∀ v : Json, v.Proper → (Schema.scalar s).accepts v = true →
          (Schema.scalar y).accepts v = true := by
  rw [Schema.scalar_isSubsumedBy, Schema.scalarMismatch?_bare bare]
  constructor
  · intro fits
    obtain ⟨values, hd, each⟩ := fits.listed listing
    refine ⟨by simp [hd], ?_, fun v pv accepted => ?_⟩
    · rcases fits.kind with e | ⟨_, e⟩
      · rw [← e, kind]; rfl
      · rw [e]; rfl
    · obtain ⟨w, hw, a⟩ := h.complete values hd v pv accepted
      have scalar := isScalar_of_acceptsKind (Schema.accepts_scalar_iff.1 accepted).kind
      exact Schema.accepts_scalar_iff.2
        (Schema.fits_of_agrees pv (of_mem_finiteDomain hd hw).1 scalar a (each w hw))
  · rintro ⟨some, numeric, contained⟩
    obtain ⟨values, hd⟩ := Option.ne_none_iff_exists'.1 some
    refine ⟨?_, fun _ => ⟨values, hd, fun w hw => ?_⟩, fun e => absurd e listing,
      fun e => absurd e listing⟩
    · cases hy : y.kind <;> simp_all [KindFits, ScalarKind.isNumeric]
    · exact contained w (of_mem_finiteDomain hd hw).1 (h.accepted values hd w hw)

/-! ## 7. The list and the comparison -/

/-- **When the list of all values is what it should be.** It is made without overflow, is short, and has
    just the values that the scalar accepts, exactly if the two integers that it goes from and to do not
    lie too far apart for 64 bits and, where it is listed, are accepted themselves, with no number
    accepted beyond the 64-bit integers. So it is if the bounds are movable; and then the comparison with
    an enumeration is right both ways. -/
theorem listsFaithfully_iff (wf : (Schema.scalar s).isWellFormed = true)
    (kind : s.kind = .integer) (bare : s.enumeration = none) :
    (s.ListsFaithfully ↔ s.SpansFaithfully) ∧
    ((∀ b ∈ s.minimum, Movable b) → (∀ b ∈ s.maximum, Movable b) →
      (∀ low high, s.Spans low high → high - low < 2 ^ 63) → s.ListsFaithfully) ∧
    (s.ListsFaithfully → ∀ y : Scalar, y.enumeration ≠ none →
      ((Schema.scalar s).isSubsumedBy (.scalar y) = true ↔
        s.finiteDomain ≠ none ∧ y.kind.isNumeric = true ∧
          ∀ v : Json, v.Proper → (Schema.scalar s).accepts v = true →
            (Schema.scalar y).accepts v = true)) := by
  have sound := (Schema.isWellFormed_iff.1 wf).self
  have regular : s.Regular := ⟨by simp [Scalar.Proper, bare], fun b hb => (sound.low b hb).2,
    fun b hb => (sound.high b hb).2, by simp [bare]⟩
  exact ⟨⟨fun h => h.spansFaithfully kind, fun h => h.listsFaithfully kind bare regular⟩,
    fun lower upper fits =>
      (spansFaithfully_of_movable kind bare regular lower upper fits).listsFaithfully kind bare regular,
    fun h _ listing => h.isSubsumedBy_iff kind bare listing⟩

/-- More than 1, and at most 3. -/
def twoOrThree : Scalar where
  kind := .integer
  minimum := some ⟨.ofInt 1, true⟩
  maximum := some (.inclusive (.ofInt 3))

/-- Both are listed, and so a consumer that lists them is known to accept all values. -/
theorem listsFaithfully_iff_twoOrThree :
    (Schema.scalar twoOrThree).isWellFormed = true ∧ twoOrThree.ListsFaithfully ∧
      twoOrThree.finiteDomain = some [.int 2, .int 3] ∧
      ∀ v : Json, v.Proper → (Schema.scalar twoOrThree).accepts v = true →
        (Schema.scalar (Schema.enumerated .number [.int 3, .int 2])).accepts v = true := by
  have wf : (Schema.scalar twoOrThree).isWellFormed = true := by decide +kernel
  have spans : twoOrThree.Spans 2 3 :=
    ⟨_, rfl, _, rfl, by decide +kernel, by decide +kernel, by decide⟩
  obtain ⟨-, faithful, exactly⟩ := listsFaithfully_iff wf rfl rfl
  have lists : twoOrThree.ListsFaithfully := by
    refine faithful ?_ ?_ ?_
    · rintro _ ⟨⟩
      exact ⟨fun _ => ⟨by decide +kernel, by decide +kernel⟩, by decide +kernel, by decide +kernel⟩
    · rintro _ ⟨⟩
      exact ⟨fun ex => absurd ex (by decide), by decide +kernel, by decide +kernel⟩
    · rintro _ _ spans'
      obtain ⟨rfl, rfl⟩ := spans'.unique spans
      decide
  refine ⟨wf, lists, (spans.finiteDomain rfl).trans rfl, ?_⟩
  refine ((exactly lists _ (by simp [Schema.enumerated])).1 ?_).2.2
  rw [Schema.scalar_isSubsumedBy]
  exact Option.isNone_iff_eq_none.1 (by decide +kernel)

/-- From `2 ^ 64` to `2 ^ 65`. -/
def beyondRange : Scalar where
  kind := .integer
  minimum := some (.inclusive (.ofInt (2 ^ 64)))
  maximum := some (.inclusive (.ofInt (2 ^ 65)))

/-- All integers of 64 bits. -/
def int64Range : Scalar where
  kind := .integer
  minimum := some (.inclusive (.ofInt minInt64))
  maximum := some (.inclusive (.ofInt maxInt64))

/-- Bounds beyond the 64-bit integers are both cut to the largest of these, which is then listed
    although it is not accepted, and a consumer of it alone is taken to accept everything. Between the
    least and the largest one everything is listed, since their difference does not fit. -/
theorem beyondRange_not_listsFaithfully :
    ((Schema.scalar beyondRange).isWellFormed = true ∧
      beyondRange.finiteDomain = some [.int maxInt64] ∧
      (Schema.scalar beyondRange).accepts (.int maxInt64) = false ∧
      (Schema.scalar beyondRange).isSubsumedBy
        (.scalar (Schema.enumerated .integer [.int maxInt64])) = true ∧
      ∃ v : Json, v.Proper ∧ (Schema.scalar beyondRange).accepts v = true ∧
        (Schema.scalar (Schema.enumerated .integer [.int maxInt64])).accepts v = false) ∧
    (Schema.scalar int64Range).isWellFormed = true ∧ int64Range.Spans minInt64 maxInt64 ∧
      ∃ values, int64Range.finiteDomain = some values ∧ 2 ^ 63 < values.length := by
  have cut : beyondRange.Spans maxInt64 maxInt64 :=
    ⟨_, rfl, _, rfl, by decide +kernel, by decide +kernel, Int.le_refl _⟩
  have spans : int64Range.Spans minInt64 maxInt64 :=
    ⟨_, rfl, _, rfl, by decide +kernel, by decide +kernel, by decide⟩
  refine ⟨⟨by decide +kernel, (cut.finiteDomain rfl).trans rfl, by decide +kernel, ?_, .number (.float (.ofInt (2 ^ 64))),
    isFinite_ofInt (by decide), by decide +kernel, by decide +kernel⟩, by decide +kernel, spans, ?_⟩
  · rw [Schema.scalar_isSubsumedBy]
    exact Option.isNone_iff_eq_none.1 (by decide +kernel)
  · rw [spans.finiteDomain rfl]
    exact listedRange_of_overflow (by decide) (by decide)

end Scalar

end TypedPipeline
