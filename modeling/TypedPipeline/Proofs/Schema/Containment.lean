import TypedPipeline.Proofs.Schema.Ranges

/-!
# Proofs.Schema.Containment: one range inside another

Where neither scalar lists its members, the comparison asks whether the producer's range lies inside
the consumer's. This file fixes:

* when a bound is at least as tight as another one (`Bound.AtLeast`, `Bound.AtMost`), and that the
  comparison of ranges asks for such bounds (`lowerContained_iff`, `upperContained_iff`);
* that the tighter of two bounds is as tight as both (`atLeast_tighterLower`), and so is a small bound
  of an integer that has been moved to a whole number (`exists_atLeast_tightRange`). A bound from
  `2 ^ 53` on may be rounded back to where it was;
* the comparison of lengths as an order (`lengthFits_refl`, `lengthFits_trans`);
* what the comparison of two scalars asks for (`scalarMismatch?_enumerated`, `Scalar.BareFits`).
-/

namespace TypedPipeline

open Binary64

/-! ## 1. Bounds -/

namespace Bound

variable {a b c : Bound}

/-- As a lower bound `a` is at least as tight as `b`. -/
structure AtLeast (a b : Bound) : Prop where
  number : a.value.isNaN = false ∧ b.value.isNaN = false
  le : b.value.units ≤ a.value.units
  strict : a.value.units = b.value.units → b.exclusive = true → a.exclusive = true

/-- As an upper bound `a` is at least as tight as `b`. -/
structure AtMost (a b : Bound) : Prop where
  number : a.value.isNaN = false ∧ b.value.isNaN = false
  le : a.value.units ≤ b.value.units
  strict : a.value.units = b.value.units → b.exclusive = true → a.exclusive = true

theorem AtLeast.refl (h : a.value.isNaN = false) : a.AtLeast a :=
  ⟨⟨h, h⟩, Int.le_refl _, fun _ => id⟩

theorem AtMost.refl (h : a.value.isNaN = false) : a.AtMost a :=
  ⟨⟨h, h⟩, Int.le_refl _, fun _ => id⟩

theorem AtLeast.trans (h : a.AtLeast b) (h' : b.AtLeast c) : a.AtLeast c := by
  refine ⟨⟨h.number.1, h'.number.2⟩, Int.le_trans h'.le h.le, fun e ex => ?_⟩
  have le := h.le
  have le' := h'.le
  exact h.strict (by omega) (h'.strict (by omega) ex)

theorem AtMost.trans (h : a.AtMost b) (h' : b.AtMost c) : a.AtMost c := by
  refine ⟨⟨h.number.1, h'.number.2⟩, Int.le_trans h.le h'.le, fun e ex => ?_⟩
  have le := h.le
  have le' := h'.le
  exact h.strict (by omega) (h'.strict (by omega) ex)

theorem atLeast_tighterLower (ha : a.value.isNaN = false) (hb : b.value.isNaN = false) :
    (tighterLower a b).AtLeast a ∧ (tighterLower a b).AtLeast b := by
  unfold tighterLower
  split
  · rename_i h
    simp only [Bool.or_eq_true, Bool.and_eq_true, less_iff, equals_iff] at h
    refine ⟨AtLeast.refl ha, ⟨ha, hb⟩, ?_, fun e _ => ?_⟩
    · rcases h with h | h <;> omega
    · rcases h with h | h
      · omega
      · exact h.2
  · rename_i h
    simp only [Bool.or_eq_true, Bool.and_eq_true, less_iff, equals_iff, ha, hb, true_and, not_or,
      not_and] at h
    exact ⟨⟨⟨hb, ha⟩, by omega, fun e ex => absurd ex (h.2 e.symm)⟩, AtLeast.refl hb⟩

theorem atMost_tighterUpper (ha : a.value.isNaN = false) (hb : b.value.isNaN = false) :
    (tighterUpper a b).AtMost a ∧ (tighterUpper a b).AtMost b := by
  unfold tighterUpper
  split
  · rename_i h
    simp only [Bool.or_eq_true, Bool.and_eq_true, less_iff, equals_iff] at h
    refine ⟨AtMost.refl ha, ⟨ha, hb⟩, ?_, fun e _ => ?_⟩
    · rcases h with h | h <;> omega
    · rcases h with h | h
      · omega
      · exact h.2
  · rename_i h
    simp only [Bool.or_eq_true, Bool.and_eq_true, less_iff, equals_iff, ha, hb, true_and, not_or,
      not_and] at h
    exact ⟨⟨⟨hb, ha⟩, by omega, fun e ex => absurd ex (h.2 e.symm)⟩, AtMost.refl hb⟩

end Bound

/-! ## 2. Ranges -/

namespace Scalar

variable {s x y : Scalar} {b : Bound} {p c : Option Bound}

theorem lowerContained_iff :
    lowerContained p c = true ↔ ∀ b ∈ c, ∃ a ∈ p, a.AtLeast b := by
  cases c with
  | none => simp [lowerContained]
  | some b => cases p with
    | none => simp [lowerContained]
    | some a =>
        simp only [lowerContained, Option.mem_def, Option.some.injEq, forall_eq', exists_eq_left',
          Bool.or_eq_true, Bool.and_eq_true, less_iff, equals_iff, Bool.not_eq_eq_eq_not,
          Bool.not_true]
        constructor
        · intro h
          rcases h with ⟨nb, na, lt⟩ | ⟨⟨na, nb, e⟩, ex⟩
          · exact ⟨⟨na, nb⟩, by omega, fun _ => by omega⟩
          · exact ⟨⟨na, nb⟩, by omega, fun _ exb => ex.resolve_right (by simp [exb])⟩
        · intro h
          obtain ⟨⟨na, nb⟩, le, strict⟩ := h
          by_cases e : a.value.units = b.value.units
          · refine Or.inr ⟨⟨na, nb, e⟩, ?_⟩
            cases exb : b.exclusive with
            | false => exact Or.inr rfl
            | true => exact Or.inl (strict e exb)
          · exact Or.inl ⟨nb, na, by omega⟩

theorem upperContained_iff :
    upperContained p c = true ↔ ∀ b ∈ c, ∃ a ∈ p, a.AtMost b := by
  cases c with
  | none => simp [upperContained]
  | some b => cases p with
    | none => simp [upperContained]
    | some a =>
        simp only [upperContained, Option.mem_def, Option.some.injEq, forall_eq', exists_eq_left',
          Bool.or_eq_true, Bool.and_eq_true, less_iff, equals_iff, Bool.not_eq_eq_eq_not,
          Bool.not_true]
        constructor
        · intro h
          rcases h with ⟨na, nb, lt⟩ | ⟨⟨na, nb, e⟩, ex⟩
          · exact ⟨⟨na, nb⟩, by omega, fun _ => by omega⟩
          · exact ⟨⟨na, nb⟩, by omega, fun _ exb => ex.resolve_right (by simp [exb])⟩
        · intro h
          obtain ⟨⟨na, nb⟩, le, strict⟩ := h
          by_cases e : a.value.units = b.value.units
          · refine Or.inr ⟨⟨na, nb, e⟩, ?_⟩
            cases exb : b.exclusive with
            | false => exact Or.inr rfl
            | true => exact Or.inl (strict e exb)
          · exact Or.inl ⟨na, nb, by omega⟩

/-- A small lower bound is below the least whole number that it admits. -/
theorem atLeast_wholeLower (hb : b.value.isFinite = true) (small : b.value.IsSmall) :
    (Bound.inclusive (wholeLower b)).AtLeast b := by
  have number := (isSmallWhole_wholeLower hb small).1
  unfold wholeLower at number ⊢
  cases ex : b.exclusive with
  | true =>
      have lt := lt_add_one_floor hb (Int.le_of_lt small.1) small.2
      simp only [ex, if_true] at number ⊢
      exact ⟨⟨number, isNaN_of_isFinite hb⟩, Int.le_of_lt lt, fun e => absurd e (Int.ne_of_gt lt)⟩
  | false =>
      have units := (units_ceil hb).1
      have le : b.value.units ≤ b.value.ceil.units := by
        rw [units]
        exact (units_ceil_le_iff hb _).1 (Int.le_of_eq units)
      simp only [ex, Bool.false_eq_true, if_false] at number ⊢
      exact ⟨⟨number, isNaN_of_isFinite hb⟩, le, fun _ h => by simp [ex] at h⟩

/-- A small upper bound is above the greatest whole number that it admits. -/
theorem atMost_wholeUpper (hb : b.value.isFinite = true) (small : b.value.IsSmall) :
    (Bound.inclusive (wholeUpper b)).AtMost b := by
  have number := (isSmallWhole_wholeUpper hb small).1
  unfold wholeUpper at number ⊢
  cases ex : b.exclusive with
  | true =>
      have lt := sub_one_ceil_lt hb small.1 (Int.le_of_lt small.2)
      simp only [ex, if_true] at number ⊢
      exact ⟨⟨number, isNaN_of_isFinite hb⟩, Int.le_of_lt lt, fun e => absurd e (Int.ne_of_lt lt)⟩
  | false =>
      have units := (units_floor hb).1
      have le : b.value.floor.units ≤ b.value.units := by
        rw [units]
        exact (le_units_floor_iff hb _).1 (Int.le_of_eq units.symm)
      simp only [ex, Bool.false_eq_true, if_false] at number ⊢
      exact ⟨⟨number, isNaN_of_isFinite hb⟩, le, fun _ h => by simp [ex] at h⟩

/-- The bounds of the scalar are small if it is an integer. -/
def SmallIfInteger (s : Scalar) : Prop := s.kind = .integer →
  (∀ b ∈ s.minimum, b.value.IsSmall) ∧ ∀ b ∈ s.maximum, b.value.IsSmall

/-- The range that is compared has a bound as tight as each of the scalar. -/
theorem exists_atLeast_tightRange (regular : s.Regular) (small : s.SmallIfInteger) :
    (∀ b ∈ s.minimum, ∃ a ∈ s.tightRange.1, a.AtLeast b) ∧
      ∀ b ∈ s.maximum, ∃ a ∈ s.tightRange.2, a.AtMost b := by
  unfold tightRange
  split
  · rename_i hk
    refine ⟨fun b hb => ⟨_, Option.mem_map_of_mem _ hb, ?_⟩,
      fun b hb => ⟨_, Option.mem_map_of_mem _ hb, ?_⟩⟩
    · exact atLeast_wholeLower (regular.low b hb) ((small hk).1 b hb)
    · exact atMost_wholeUpper (regular.high b hb) ((small hk).2 b hb)
  · exact ⟨fun b hb => ⟨b, hb, .refl (isNaN_of_isFinite (regular.low b hb))⟩,
      fun b hb => ⟨b, hb, .refl (isNaN_of_isFinite (regular.high b hb))⟩⟩

end Scalar

/-! ## 3. Lengths -/

namespace Schema

theorem lengthFits_iff {x y : Length} : lengthFits x y = true ↔
    y.least.getD 0 ≤ x.least.getD 0 ∧ ∀ b ∈ y.most, ∃ a ∈ x.most, a ≤ b := by
  rw [lengthFits, Bool.and_eq_true, decide_eq_true_eq]
  refine and_congr_right fun _ => ?_
  cases x.most <;> cases y.most <;> simp

theorem lengthFits_refl (length : Length) : lengthFits length length = true :=
  lengthFits_iff.2 ⟨Nat.le_refl _, fun b hb => ⟨b, hb, Nat.le_refl _⟩⟩

theorem lengthFits_trans {x y z : Length} (h : lengthFits x y = true) (h' : lengthFits y z = true) :
    lengthFits x z = true := by
  rw [lengthFits_iff] at *
  refine ⟨Nat.le_trans h'.1 h.1, fun c hc => ?_⟩
  obtain ⟨b, hb, le⟩ := h'.2 c hc
  obtain ⟨a, ha, le'⟩ := h.2 b hb
  exact ⟨a, ha, Nat.le_trans le' le⟩

end Schema

/-! ## 4. Scalars -/

namespace Scalar

variable {s x y : Scalar}

theorem effectiveEnumeration_eq_none_iff : x.effectiveEnumeration = none ↔ x.enumeration = none := by
  simp [effectiveEnumeration]

/-- The members that a scalar accepts itself are among its values. -/
theorem fits_of_mem_effective (regular : s.Regular) {members : List Json}
    (he : s.effectiveEnumeration = some members) {m : Json} (hm : m ∈ members) :
    m.Proper ∧ s.Fits m := by
  obtain ⟨all, hall, rfl⟩ := Option.map_eq_some_iff.1 he
  obtain ⟨hm, bare⟩ := List.mem_filter.1 hm
  have proper := regular.proper all hall m hm
  rw [Option.isNone_iff_eq_none, fault?_eq_none_iff] at bare
  refine ⟨proper, bare.kind, bare.low, bare.high, fun ms hms => ?_⟩
  cases hall.symm.trans hms
  exact ⟨m, hm, Json.agrees_refl (regular.member all hall m hm) proper⟩

/-- The values of the first kind are of the second. -/
def KindFits (x y : Scalar) : Prop := x.kind = y.kind ∨ (x.kind = .integer ∧ y.kind = .number)

/-- What the comparison asks for of a scalar that does not list its members. -/
structure BareFits (x y : Scalar) : Prop where
  kind : x.KindFits y
  listed : y.enumeration ≠ none →
    ∃ values, x.finiteDomain = some values ∧ ∀ w ∈ values, (Schema.scalar y).accepts w = true
  low : y.enumeration = none → ∀ b ∈ y.minimum, ∃ a ∈ x.tightRange.1, a.AtLeast b
  high : y.enumeration = none → ∀ b ∈ y.maximum, ∃ a ∈ x.tightRange.2, a.AtMost b

end Scalar

namespace Schema

open Scalar

variable {x y : Scalar}

/-- A scalar that lists its members fits where each of those is accepted that it accepts itself. -/
theorem scalarMismatch?_enumerated {members : List Json}
    (h : x.effectiveEnumeration = some members) :
    scalarMismatch? x y = none ↔ ∀ m ∈ members, (Schema.scalar y).accepts m = true := by
  unfold scalarMismatch?
  rw [h]
  exact Option.map_eq_none_iff.trans firstRefused_eq_none_iff

theorem scalarMismatch?_bare (h : x.enumeration = none) :
    scalarMismatch? x y = none ↔ x.BareFits y := by
  unfold scalarMismatch?
  rw [effectiveEnumeration_eq_none_iff.2 h]
  dsimp only
  have kinds : (x.kind = y.kind || (x.kind = .integer && y.kind = .number)) = true ↔ x.KindFits y := by
    simp [KindFits]
  by_cases kind : x.KindFits y
  · rw [kinds.2 kind]
    cases e : y.enumeration with
    | none =>
        simp only [Bool.not_true, Bool.false_eq_true, if_false, Option.isSome_none]
        refine Iff.trans (b := lowerContained x.tightRange.1 y.minimum = true ∧
          upperContained x.tightRange.2 y.maximum = true) ?_ ?_
        · cases lowerContained x.tightRange.1 y.minimum <;>
            cases upperContained x.tightRange.2 y.maximum <;> simp
        · rw [lowerContained_iff, upperContained_iff]
          exact ⟨fun h => ⟨kind, fun ne => absurd e ne, fun _ => h.1, fun _ => h.2⟩,
            fun fits => ⟨fits.low e, fits.high e⟩⟩
    | some members =>
        simp only [Bool.not_true, Bool.false_eq_true, if_false, Option.isSome_some, if_true]
        have bare : y.enumeration ≠ none := by simp [e]
        refine Iff.trans (b := ∃ values, x.finiteDomain = some values ∧
          ∀ w ∈ values, (Schema.scalar y).accepts w = true) ?_ ?_
        · cases x.finiteDomain with
          | none => simp
          | some values =>
              simp only [Option.some.injEq, exists_eq_left']
              exact Option.map_eq_none_iff.trans firstRefused_eq_none_iff
        · exact ⟨fun h => ⟨kind, fun _ => h, fun e => absurd e bare, fun e => absurd e bare⟩,
            fun fits => fits.listed bare⟩
  · rw [Bool.eq_false_iff.2 (mt kinds.1 kind)]
    simp only [Bool.not_false, if_true, reduceCtorEq, false_iff]
    exact fun fits => kind fits.kind

end Schema

end TypedPipeline
