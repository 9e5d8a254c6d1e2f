import TypedPipeline.Schema.Subsumption
import TypedPipeline.Proofs.Schema.Intersection

/-!
# Proofs.Schema.Ranges: the comparison of two scalars

A scalar is compared with another by its members, by the list of all its values or by its range. This
file fixes:

* that moving the bounds of integers to whole numbers loses no integer (`fits_tightRange`), and that
  a range inside another one is inside (`below_of_lowerContained`, `above_of_upperContained`);
* what the list of all values is relied on for (`Scalar.Listed`): it has every value. It has if the
  bounds are small (`listed_of_isSmall`); the bounds are cut to 64-bit integers first, and out there
  one of the values may be missing;
* **the comparison itself** (`fits_of_scalarMismatch?_eq_none`), and that it is wrong about some
  scalar if a list lacks a value (`exists_unsound_of_not_listed`).
-/

namespace TypedPipeline

namespace Scalar

open Binary64

variable {s x y : Scalar} {n : Number} {b : Bound} {v : Json}

/-! ## 1. Ranges -/

theorem below_wholeLower (pn : n.Proper) (whole : n.isIntegral = true)
    (hb : b.value.isFinite = true) (h : below n.toBinary64 b = false) :
    below n.toBinary64 (.inclusive (wholeLower b)) = false := by
  obtain ⟨m, hm⟩ := (Number.isIntegral_iff pn).1 whole
  have nan := Number.isNaN_toBinary64 pn
  have fin := Number.isFinite_toBinary64 pn
  obtain ⟨le, ne⟩ := (below_eq_false_iff nan (isNaN_of_isFinite hb)).1 h
  unfold wholeLower
  cases ex : b.exclusive with
  | true =>
      have := ne ex
      obtain ⟨next, nan'⟩ := add_one_floor_le hb fin hm (by omega)
      exact (below_eq_false_iff nan nan').2 ⟨next, by simp [Bound.inclusive]⟩
  | false =>
      obtain ⟨_, fin'⟩ := units_ceil hb
      refine (below_eq_false_iff nan (isNaN_of_isFinite fin')).2 ⟨?_, by simp [Bound.inclusive]⟩
      rw [hm] at le ⊢
      exact (units_ceil_le_iff hb m).2 le

theorem above_wholeUpper (pn : n.Proper) (whole : n.isIntegral = true)
    (hb : b.value.isFinite = true) (h : above n.toBinary64 b = false) :
    above n.toBinary64 (.inclusive (wholeUpper b)) = false := by
  obtain ⟨m, hm⟩ := (Number.isIntegral_iff pn).1 whole
  have nan := Number.isNaN_toBinary64 pn
  have fin := Number.isFinite_toBinary64 pn
  obtain ⟨le, ne⟩ := (above_eq_false_iff nan (isNaN_of_isFinite hb)).1 h
  unfold wholeUpper
  cases ex : b.exclusive with
  | true =>
      have := ne ex
      obtain ⟨previous, nan'⟩ := le_sub_one_ceil hb fin hm (by omega)
      exact (above_eq_false_iff nan nan').2 ⟨previous, by simp [Bound.inclusive]⟩
  | false =>
      obtain ⟨_, fin'⟩ := units_floor hb
      refine (above_eq_false_iff nan (isNaN_of_isFinite fin')).2 ⟨?_, by simp [Bound.inclusive]⟩
      rw [hm] at le ⊢
      exact (le_units_floor_iff hb m).2 le

/-- The integers of a scalar are whole. -/
theorem Fits.whole (h : s.Fits (.number n)) (hk : s.kind = .integer) : n.isIntegral = true := by
  have := h.kind
  unfold acceptsKind at this
  rw [hk] at this
  exact this

/-- **No value is lost by moving the bounds of integers to whole numbers.** -/
theorem fits_tightRange (hs : s.Regular) (pn : n.Proper) (h : s.Fits (.number n)) :
    (∀ b ∈ s.tightRange.1, below n.toBinary64 b = false) ∧
      ∀ b ∈ s.tightRange.2, above n.toBinary64 b = false := by
  unfold tightRange
  split
  · rename_i hk
    have whole := h.whole hk
    constructor
    · intro b hb
      obtain ⟨a, ha, rfl⟩ := Option.map_eq_some_iff.1 hb
      exact below_wholeLower pn whole (hs.low a ha) (h.low n rfl a ha)
    · intro b hb
      obtain ⟨a, ha, rfl⟩ := Option.map_eq_some_iff.1 hb
      exact above_wholeUpper pn whole (hs.high a ha) (h.high n rfl a ha)
  · exact ⟨h.low n rfl, h.high n rfl⟩

theorem below_of_lowerContained {x : Binary64} {p c : Option Bound} (nan : x.isNaN = false)
    (h : lowerContained p c = true) (hp : ∀ b ∈ p, below x b = false) :
    ∀ b ∈ c, below x b = false := by
  rintro b rfl
  cases p with
  | none => cases h
  | some a =>
      have ha := hp a rfl
      simp only [lowerContained, Bool.or_eq_true, Bool.and_eq_true, less_iff, equals_iff,
        Bool.not_eq_eq_eq_not, Bool.not_true] at h
      rcases h with ⟨nb, na, lt⟩ | ⟨⟨na, nb, eq⟩, ex⟩
      · rw [below_eq_false_iff nan na] at ha
        exact (below_eq_false_iff nan nb).2 ⟨by omega, fun _ => by omega⟩
      · rw [below_eq_false_iff nan na] at ha
        refine (below_eq_false_iff nan nb).2 ⟨by omega, fun exb => ?_⟩
        rcases ex with exa | exb'
        · have := ha.2 exa
          omega
        · rw [exb] at exb'
          cases exb'

theorem above_of_upperContained {x : Binary64} {p c : Option Bound} (nan : x.isNaN = false)
    (h : upperContained p c = true) (hp : ∀ b ∈ p, above x b = false) :
    ∀ b ∈ c, above x b = false := by
  rintro b rfl
  cases p with
  | none => cases h
  | some a =>
      have ha := hp a rfl
      simp only [upperContained, Bool.or_eq_true, Bool.and_eq_true, less_iff, equals_iff,
        Bool.not_eq_eq_eq_not, Bool.not_true] at h
      rcases h with ⟨na, nb, lt⟩ | ⟨⟨na, nb, eq⟩, ex⟩
      · rw [above_eq_false_iff nan na] at ha
        exact (above_eq_false_iff nan nb).2 ⟨by omega, fun _ => by omega⟩
      · rw [above_eq_false_iff nan na] at ha
        refine (above_eq_false_iff nan nb).2 ⟨by omega, fun exb => ?_⟩
        rcases ex with exa | exb'
        · have := ha.2 exa
          omega
        · rw [exb] at exb'
          cases exb'

/-! ## 2. Lists of all values -/

theorem mem_wholeNumbers {low high i : Int} : i ∈ wholeNumbers low high ↔ low ≤ i ∧ i ≤ high := by
  simp only [wholeNumbers, List.mem_map, List.mem_range]
  constructor
  · rintro ⟨k, hk, rfl⟩
    omega
  · rintro ⟨le, le'⟩
    exact ⟨(i - low).toNat, by omega, by omega⟩

theorem mem_of_listedRange {low high i : Int} {values : List Json}
    (h : listedRange low high = some values) (le : low ≤ i) (le' : i ≤ high) :
    .int i ∈ values := by
  unfold listedRange at h
  rw [if_neg (by omega)] at h
  split at h
  · cases h
  · cases h
    exact List.mem_map_of_mem (mem_wholeNumbers.2 ⟨le, le'⟩)

theorem of_mem_listedRange {low high : Int} {values : List Json}
    (h : listedRange low high = some values) {w : Json} (hw : w ∈ values) :
    ∃ i, w = .int i ∧ low ≤ i ∧ i ≤ high := by
  unfold listedRange at h
  split at h
  · cases h; cases hw
  · split at h
    · cases h
    · cases h
      obtain ⟨i, hi, rfl⟩ := List.mem_map.1 hw
      exact ⟨i, rfl, mem_wholeNumbers.1 hi⟩

/-- The values that are listed are scalar values of the kind. -/
theorem of_mem_finiteDomain {values : List Json} (h : s.finiteDomain = some values) {w : Json}
    (hw : w ∈ values) : w.Proper ∧ w.isScalar = true ∧ s.kind.admits w = true := by
  unfold finiteDomain at h
  split at h
  · rename_i hk
    cases h
    rcases List.mem_cons.1 hw with rfl | hw
    · exact ⟨trivial, rfl, by rw [hk]; rfl⟩
    · rw [List.mem_singleton.1 hw]
      exact ⟨trivial, rfl, by rw [hk]; rfl⟩
  · rename_i hk
    cases h
    rw [List.mem_singleton.1 hw]
    exact ⟨trivial, rfl, by rw [hk]; rfl⟩
  · rename_i hk
    split at h
    · rename_i low high _
      obtain ⟨i, rfl, le, le'⟩ := of_mem_listedRange h hw
      have := toInt64_bounds low.value
      have := toInt64_bounds high.value
      refine ⟨?_, rfl, by rw [hk]; rfl⟩
      show -2 ^ 63 ≤ i ∧ i < 2 ^ 64
      omega
    · cases h
  · cases h
  · cases h

/-- The list of all values, where there is one, has every value that the scalar accepts. -/
def Listed (s : Scalar) : Prop := s.enumeration = none → ∀ values, s.finiteDomain = some values →
  ∀ v : Json, v.Proper → s.Fits v → ∃ w ∈ values, w.agrees v = true

/-- The least whole number that a small lower bound admits. -/
theorem isSmallWhole_wholeLower (hb : b.value.isFinite = true) (small : b.value.IsSmall) :
    (wholeLower b).IsSmallWhole := by
  unfold wholeLower
  split
  · exact (isSmallWhole_floor hb small).2
  · exact (isSmallWhole_ceil hb small).1

/-- The greatest whole number that a small upper bound admits. -/
theorem isSmallWhole_wholeUpper (hb : b.value.isFinite = true) (small : b.value.IsSmall) :
    (wholeUpper b).IsSmallWhole := by
  unfold wholeUpper
  split
  · exact (isSmallWhole_ceil hb small).2
  · exact (isSmallWhole_floor hb small).1

/-- An integer that a proper number agrees with. -/
theorem int_agrees {m : Int} (pn : n.Proper) (hm : n.toBinary64.units = m * unitsPerOne) :
    (Json.int m).agrees (.number n) = true := by
  have units := units_ofInt_of_units (Number.isFinite_toBinary64 pn) hm
  show (Number.int m).agrees n = true
  rw [Number.agrees, equals_iff]
  exact ⟨isNaN_ofInt m, Number.isNaN_toBinary64 pn, units.trans hm.symm⟩

/-- **The list of all values has every value if the bounds of integers are small.** -/
theorem listed_of_isSmall (hs : s.Regular)
    (small : s.kind = .integer →
      (∀ b ∈ s.minimum, b.value.IsSmall) ∧ ∀ b ∈ s.maximum, b.value.IsSmall) : s.Listed := by
  intro _ values h v pv fits
  have kind := fits.kind
  unfold acceptsKind at kind
  unfold finiteDomain at h
  split at h
  · rename_i hk
    cases h
    cases v <;> simp [hk] at kind
    rename_i b
    cases b <;> simp [Json.agrees]
  · rename_i hk
    cases h
    cases v <;> simp [hk] at kind
    simp [Json.agrees]
  · rename_i hk
    split at h
    · rename_i low high ht
      obtain ⟨n, rfl⟩ := exists_number (x := s) (by rw [hk]; rfl) fits.kind
      obtain ⟨m, hm⟩ := (Number.isIntegral_iff pv).1 (fits.whole hk)
      have nan := Number.isNaN_toBinary64 (x := n) pv
      obtain ⟨le, le'⟩ := fits_tightRange hs pv fits
      rw [ht] at le le'
      unfold tightRange at ht
      rw [if_pos hk, Prod.mk.injEq, Option.map_eq_some_iff, Option.map_eq_some_iff] at ht
      obtain ⟨⟨a, ha, rfl⟩, c, hc, rfl⟩ := ht
      have lower := isSmallWhole_wholeLower (hs.low a ha) ((small hk).1 a ha)
      have upper := isSmallWhole_wholeUpper (hs.high c hc) ((small hk).2 c hc)
      have le := ((below_eq_false_iff nan lower.1).1 (le _ rfl)).1
      have le' := ((above_eq_false_iff nan upper.1).1 (le' _ rfl)).1
      simp only [Bound.inclusive] at le le' h
      rw [lower.toInt64.1, hm] at le
      rw [upper.toInt64.1, hm] at le'
      exact ⟨.int m, mem_of_listedRange h (Int.le_of_mul_le_mul_right le unitsPerOne_pos)
        (Int.le_of_mul_le_mul_right le' unitsPerOne_pos), int_agrees pv hm⟩
    · cases h
  · cases h
  · cases h

end Scalar

/-! ## 3. The comparison -/

namespace Schema

open Scalar

variable {x y : Scalar} {v : Json}

theorem firstRefused_eq_none_iff {s : Schema} {values : List Json} :
    firstRefused s values = none ↔ ∀ w ∈ values, s.accepts w = true := by
  induction values with
  | nil => simp [firstRefused]
  | cons w rest ih =>
      rw [firstRefused, List.forall_mem_cons, ← ih, accepts]
      cases s.validate w <;> simp [Except.isOk, Except.toBool]

/-- A scalar accepts what it accepts another value for that agrees. -/
theorem fits_of_agrees {w : Json} (pv : v.Proper) (pw : w.Proper) (hv : v.isScalar = true)
    (a : w.agrees v = true) (h : (Schema.scalar y).accepts w = true) : y.Fits v :=
  fits_congr hv pw pv a (accepts_scalar_iff.1 h)

/-- **A scalar that the comparison lets through fits.** -/
theorem fits_of_scalarMismatch?_eq_none (rx : x.Regular) (listed : x.Listed)
    (h : scalarMismatch? x y = none) (pv : v.Proper) (fits : x.Fits v) : y.Fits v := by
  have hv := isScalar_of_acceptsKind fits.kind
  unfold scalarMismatch? at h
  split at h
  · rename_i members he
    obtain ⟨m, hm, a, pm⟩ := exists_effective rx.proper pv he fits
    rw [Option.map_eq_none_iff, firstRefused_eq_none_iff] at h
    exact fits_of_agrees pv pm hv a (h m hm)
  · rename_i he
    have bare : x.enumeration = none := by simpa [effectiveEnumeration] using he
    split at h
    · cases h
    · rename_i kinds
      have kind : y.acceptsKind v = true := by
        simp only [Bool.not_eq_true', Bool.not_eq_false, Bool.or_eq_true, Bool.and_eq_true,
          decide_eq_true_eq] at kinds
        have := fits.kind
        unfold acceptsKind at this ⊢
        rcases kinds with e | ⟨e, e'⟩
        · rw [← e]; exact this
        · rw [e] at this
          rw [e']
          cases v <;> simp_all [Json.isIntegral]
      split at h
      · rename_i some
        split at h
        · rename_i values hd
          obtain ⟨w, hw, a⟩ := listed bare values hd v pv fits
          rw [Option.map_eq_none_iff, firstRefused_eq_none_iff] at h
          exact fits_of_agrees pv (of_mem_finiteDomain hd hw).1 hv a (h w hw)
        · cases h
      · rename_i none
        have free : y.enumeration = Option.none := by simpa using none
        dsimp only at h
        split at h
        · cases h
        · split at h
          · cases h
          · rename_i low high
            simp only [Bool.not_eq_true', Bool.not_eq_false] at low high
            refine ⟨kind, ?_, ?_, by simp [free]⟩
            · rintro n rfl
              exact below_of_lowerContained (Number.isNaN_toBinary64 (x := n) pv) low
                (fits_tightRange rx pv fits).1
            · rintro n rfl
              exact above_of_upperContained (Number.isNaN_toBinary64 (x := n) pv) high
                (fits_tightRange rx pv fits).2

/-- The scalar of some members and nothing else. -/
def enumerated (kind : ScalarKind) (members : List Json) : Scalar :=
  { kind, enumeration := some members }

theorem sound_enumerated {kind : ScalarKind} {members : List Json} (ne : members ≠ [])
    (h : ∀ m ∈ members, kind.admits m = true) : (enumerated kind members).Sound where
  low b hb := by cases hb
  high b hb := by cases hb
  range b hb := by cases hb
  optimizer := rfl
  log := rfl
  member ms hms := by cases hms; exact ⟨ne, h⟩

theorem acceptsKind_of_admits (h : x.kind.admits v = true) : x.acceptsKind v = true := by
  unfold acceptsKind
  unfold ScalarKind.admits at h
  cases v with
  | number n =>
      cases whole : n.isIntegral <;> cases hk : x.kind <;>
        simp_all [ScalarKind.ofValue?, Json.isIntegral]
  | _ => cases hk : x.kind <;> simp_all [ScalarKind.ofValue?]

/-- Two integers, one of which does not agree with a given number. -/
theorem exists_other (v : Json) : ∃ i : Int, (i = 0 ∨ i = 1) ∧ ¬ (Json.int i).agrees v = true := by
  by_cases zero : (Json.int 0).agrees v = true
  · refine ⟨1, Or.inr rfl, fun one => ?_⟩
    cases v with
    | number n =>
        have zero : (Number.int 0).agrees n = true := zero
        have one : (Number.int 1).agrees n = true := one
        rw [Number.agrees, Binary64.equals_iff] at zero one
        have e := zero.2.2.trans one.2.2.symm
        simp only [Number.toBinary64] at e
        rw [Binary64.units_ofInt (by decide), Binary64.units_ofInt (by decide)] at e
        have := Binary64.unitsPerOne_pos
        omega
    | _ => simp [Json.int, Json.agrees] at zero
  · exact ⟨0, Or.inl rfl, zero⟩

/-- **If the list lacks a value, the scalar is let through where it does not fit.** -/
theorem exists_unsound_of_not_listed (h : ¬ x.Listed) :
    ∃ y : Scalar, y.Sound ∧ y.Proper ∧ y.minimum = none ∧ y.maximum = none ∧
      scalarMismatch? x y = none ∧ ∃ v : Json, v.Proper ∧ x.Fits v ∧ ¬ y.Fits v := by
  simp only [Listed, Classical.not_forall, not_exists] at h
  obtain ⟨bare, values, hd, v, pv, fits, lacks⟩ := h
  have lacks : ∀ w ∈ values, ¬ w.agrees v = true := fun w hw a => lacks w ⟨hw, a⟩
  -- the consumer lists the same values, or a single one that is not `v` if there are none
  obtain ⟨members, ne, sub, listed, lack⟩ : ∃ members : List Json, members ≠ [] ∧
      values ⊆ members ∧
      (∀ m ∈ members, m.Proper ∧ m.isScalar = true ∧ x.kind.admits m = true) ∧
      ∀ m ∈ members, ¬ m.agrees v = true := by
    cases values with
    | cons w rest =>
        exact ⟨w :: rest, by simp, fun _ => id, fun m hm => of_mem_finiteDomain hd hm, lacks⟩
    | nil =>
        obtain ⟨i, hi, ne⟩ := exists_other v
        have kind : x.kind = .integer := by
          unfold finiteDomain at hd
          split at hd <;> first | assumption | cases hd
        refine ⟨[.int i], by simp, by simp, ?_, by simpa using ne⟩
        intro m hm
        rw [List.mem_singleton.1 hm, kind]
        refine ⟨?_, rfl, rfl⟩
        show -2 ^ 63 ≤ i ∧ i < 2 ^ 64
        rcases hi with rfl | rfl <;> decide
  refine ⟨enumerated x.kind members, sound_enumerated ne fun m hm => (listed m hm).2.2, ?_, rfl,
    rfl, ?_, v, pv, fits, ?_⟩
  · intro ms hms m hm
    cases hms
    exact (listed m hm).1
  · have every : firstRefused (.scalar (enumerated x.kind members)) values = none := by
      refine firstRefused_eq_none_iff.2 fun w hw => accepts_scalar_iff.2 ?_
      obtain ⟨pw, sw, aw⟩ := listed w (sub hw)
      refine ⟨acceptsKind_of_admits (x := enumerated x.kind members) aw, ?_, ?_, ?_⟩
      · intro n hn b hb; cases hb
      · intro n hn b hb; cases hb
      · intro ms hms
        cases hms
        exact ⟨w, sub hw, Json.agrees_refl sw pw⟩
    unfold scalarMismatch?
    simp [effectiveEnumeration, bare, enumerated, hd]
    exact every
  · intro fits'
    obtain ⟨m, hm, a⟩ := fits'.member members rfl
    exact lack m hm a

end Schema

end TypedPipeline
