import TypedPipeline.Proofs.Schema.Subsumption
import TypedPipeline.Proofs.Schema.Containment

/-!
# Proofs.Schema.Transitivity: when fits compose

Two comparisons in a row may be decided by different rules, and what they decide together by yet
another one. This file fixes:

* ranges of integers, which are compared after their bounds have been moved to whole numbers: a whole
  bound inside a range is inside the moved one (`Scalar.tightRange_inside`);
* lists of all values: what is inside a scalar that is listed is listed with some of the values
  (`Scalar.finiteDomain_inside`);
* **that fits of scalars compose** (`Scalar.scalarMismatch?_trans`), if the producer has a value: an
  integer without one has an empty list of values, which fits every enumeration;
* **that fits compose** (`isSubsumedBy_trans`) between schemas without intersections (`IsSteady`), where
  the consumers require the properties that they declare (`Composable`);
* when an integer has a value: a whole number lies in its range, and then a small one does
  (`Scalar.InRange.clamp`). A chain of two fits is one fit (`isSubsumedBy_chain`).
-/

namespace TypedPipeline

open Binary64 Scalar

/-! ## 1. Whole bounds -/

namespace Bound

variable {c d : Bound}

/-- A whole bound above a lower bound is above the least whole number that this admits. -/
theorem AtLeast.whole (h : d.AtLeast c) (inclusive : d.exclusive = false)
    (small : d.value.IsSmallWhole) (hc : c.value.isFinite = true) :
    d.AtLeast (.inclusive (wholeLower c)) := by
  obtain ⟨number, m, units, low, high⟩ := small
  have exact : (ofInt m).units = m * unitsPerOne := units_ofInt (by omega)
  have finite : (ofInt m).isFinite = true := isFinite_ofInt (by omega)
  have le := h.le
  suffices bound : (wholeLower c).units ≤ d.value.units ∧ (wholeLower c).isNaN = false from
    ⟨⟨number, bound.2⟩, bound.1, fun _ e => by simp [Bound.inclusive] at e⟩
  unfold wholeLower
  cases ex : c.exclusive with
  | true =>
      have ne : d.value.units ≠ c.value.units := fun e => by
        rw [h.strict e ex] at inclusive
        cases inclusive
      obtain ⟨le', number'⟩ := add_one_floor_le hc finite exact (by omega)
      exact ⟨by rw [units, ← exact]; exact le', number'⟩
  | false =>
      refine ⟨?_, isNaN_of_isFinite (units_ceil hc).2⟩
      rw [units]
      exact (units_ceil_le_iff hc m).2 (by omega)

/-- A whole bound below an upper bound is below the greatest whole number that this admits. -/
theorem AtMost.whole (h : d.AtMost c) (inclusive : d.exclusive = false)
    (small : d.value.IsSmallWhole) (hc : c.value.isFinite = true) :
    d.AtMost (.inclusive (wholeUpper c)) := by
  obtain ⟨number, m, units, low, high⟩ := small
  have exact : (ofInt m).units = m * unitsPerOne := units_ofInt (by omega)
  have finite : (ofInt m).isFinite = true := isFinite_ofInt (by omega)
  have le := h.le
  suffices bound : d.value.units ≤ (wholeUpper c).units ∧ (wholeUpper c).isNaN = false from
    ⟨⟨number, bound.2⟩, bound.1, fun _ e => by simp [Bound.inclusive] at e⟩
  unfold wholeUpper
  cases ex : c.exclusive with
  | true =>
      have ne : d.value.units ≠ c.value.units := fun e => by
        rw [h.strict e ex] at inclusive
        cases inclusive
      obtain ⟨le', number'⟩ := le_sub_one_ceil hc finite exact (by omega)
      exact ⟨by rw [units, ← exact]; exact le', number'⟩
  | false =>
      refine ⟨?_, isNaN_of_isFinite (units_floor hc).2⟩
      rw [units]
      exact (le_units_floor_iff hc m).2 (by omega)

end Bound

namespace Scalar

variable {x y z : Scalar}

/-- What is known of a scalar whose range is compared. -/
structure IsBounded (s : Scalar) : Prop where
  regular : s.Regular
  small : s.SmallIfInteger

/-- The range that is compared of an integer has whole bounds. -/
theorem tightRange_whole (h : x.IsBounded) (kind : x.kind = .integer) :
    (∀ d ∈ x.tightRange.1, d.exclusive = false ∧ d.value.IsSmallWhole) ∧
      ∀ d ∈ x.tightRange.2, d.exclusive = false ∧ d.value.IsSmallWhole := by
  unfold tightRange
  rw [if_pos kind]
  constructor
  · intro d hd
    obtain ⟨b, hb, rfl⟩ := Option.map_eq_some_iff.1 hd
    exact ⟨rfl, isSmallWhole_wholeLower (h.regular.low b hb) ((h.small kind).1 b hb)⟩
  · intro d hd
    obtain ⟨b, hb, rfl⟩ := Option.map_eq_some_iff.1 hd
    exact ⟨rfl, isSmallWhole_wholeUpper (h.regular.high b hb) ((h.small kind).2 b hb)⟩

/-- A range inside that of a scalar is inside the range that is compared of it. -/
theorem tightRange_inside (hx : x.IsBounded) (hy : y.IsBounded) (kind : x.KindFits y)
    (low : ∀ b ∈ y.minimum, ∃ a ∈ x.tightRange.1, a.AtLeast b)
    (high : ∀ b ∈ y.maximum, ∃ a ∈ x.tightRange.2, a.AtMost b) :
    (∀ b ∈ y.tightRange.1, ∃ a ∈ x.tightRange.1, a.AtLeast b) ∧
      ∀ b ∈ y.tightRange.2, ∃ a ∈ x.tightRange.2, a.AtMost b := by
  by_cases integer : y.kind = .integer
  · have kind : x.kind = .integer := kind.elim (·.trans integer) And.left
    obtain ⟨wholeLow, wholeHigh⟩ := tightRange_whole hx kind
    have tight : y.tightRange = (y.minimum.map fun b => .inclusive (wholeLower b),
      y.maximum.map fun b => .inclusive (wholeUpper b)) := if_pos integer
    rw [tight]
    constructor
    · intro b hb
      obtain ⟨c, hc, rfl⟩ := Option.map_eq_some_iff.1 hb
      obtain ⟨a, ha, le⟩ := low c hc
      exact ⟨a, ha, le.whole (wholeLow a ha).1 (wholeLow a ha).2 (hy.regular.low c hc)⟩
    · intro b hb
      obtain ⟨c, hc, rfl⟩ := Option.map_eq_some_iff.1 hb
      obtain ⟨a, ha, le⟩ := high c hc
      exact ⟨a, ha, le.whole (wholeHigh a ha).1 (wholeHigh a ha).2 (hy.regular.high c hc)⟩
  · have tight : y.tightRange = (y.minimum, y.maximum) := if_neg integer
    rw [tight]
    exact ⟨low, high⟩

/-! ## 2. Lists of all values -/

theorem IsBounded.listed (h : x.IsBounded) : x.Listed := listed_of_isSmall h.regular h.small

/-- A range inside one that is listed is listed, with some of the values. -/
theorem listedRange_inside {low high low' high' : Int} {values : List Json}
    (h : listedRange low' high' = some values) (le : low' ≤ low) (le' : high ≤ high')
    (small : -2 ^ 53 ≤ low' ∧ high' ≤ 2 ^ 53) :
    ∃ inside, listedRange low high = some inside ∧ ∀ w ∈ inside, w ∈ values := by
  unfold listedRange
  by_cases empty : high < low
  · exact ⟨[], if_pos empty, by simp⟩
  · have short : ¬ maxListed ≤ (high - low).bmod (2 ^ 64) := by
      unfold listedRange at h
      rw [if_neg (by omega)] at h
      split at h
      · cases h
      · rename_i short
        rw [maxListed, Int.bmod_eq_of_le (by omega) (by omega)] at short ⊢
        omega
    rw [if_neg empty, if_neg short]
    refine ⟨_, rfl, fun w hw => ?_⟩
    obtain ⟨i, hi, rfl⟩ := List.mem_map.1 hw
    have inside := mem_wholeNumbers.1 hi
    exact mem_of_listedRange h (by omega) (by omega)

/-- Of the scalars that are listed only integers have a range. -/
theorem isNumeric_eq_false_of_listed {values : List Json} (h : x.finiteDomain = some values)
    (integer : x.kind ≠ .integer) : x.kind.isNumeric = false := by
  unfold finiteDomain at h
  cases hx : x.kind with
  | number => simp [hx] at h
  | integer => exact absurd hx integer
  | _ => rfl

theorem finiteDomain_integer (kind : x.kind = .integer) {values : List Json}
    (h : x.finiteDomain = some values) : ∃ low high, x.tightRange = (some low, some high) ∧
      listedRange low.value.toInt64 high.value.toInt64 = some values := by
  unfold finiteDomain at h
  rw [kind] at h
  dsimp only at h
  split at h
  · exact ⟨_, _, by assumption, h⟩
  · cases h

/-- **What is inside a scalar that is listed is listed, with some of the values.** -/
theorem finiteDomain_inside (hx : x.IsBounded) (hy : y.IsBounded) (kind : x.KindFits y)
    (low : ∀ b ∈ y.minimum, ∃ a ∈ x.tightRange.1, a.AtLeast b)
    (high : ∀ b ∈ y.maximum, ∃ a ∈ x.tightRange.2, a.AtMost b) {values : List Json}
    (h : y.finiteDomain = some values) :
    ∃ inside, x.finiteDomain = some inside ∧ ∀ w ∈ inside, w ∈ values := by
  by_cases integer : y.kind = .integer
  · have kind' : x.kind = .integer := kind.elim (·.trans integer) And.left
    obtain ⟨l, u, tight, listed⟩ := finiteDomain_integer integer h
    obtain ⟨insideLow, insideHigh⟩ := tightRange_inside hx hy kind low high
    rw [tight] at insideLow insideHigh
    obtain ⟨l', hl, le⟩ := insideLow l rfl
    obtain ⟨u', hu, le'⟩ := insideHigh u rfl
    have whole := tightRange_whole hy integer
    rw [tight] at whole
    obtain ⟨lowUnits, lowBound, _⟩ := (whole.1 l rfl).2.toInt64
    obtain ⟨highUnits, _, highBound⟩ := (whole.2 u rfl).2.toInt64
    have units := ((tightRange_whole hx kind').1 l' hl).2.toInt64.1
    have units' := ((tightRange_whole hx kind').2 u' hu).2.toInt64.1
    have below : l.value.toInt64 ≤ l'.value.toInt64 := by
      refine Int.le_of_mul_le_mul_right ?_ unitsPerOne_pos
      rw [← lowUnits, ← units]
      exact le.le
    have above : u'.value.toInt64 ≤ u.value.toInt64 := by
      refine Int.le_of_mul_le_mul_right ?_ unitsPerOne_pos
      rw [← highUnits, ← units']
      exact le'.le
    obtain ⟨inside, e, sub⟩ := listedRange_inside listed below above ⟨lowBound, highBound⟩
    refine ⟨inside, ?_, sub⟩
    have tight' : x.tightRange = (some l', some u') := Prod.ext hl hu
    unfold finiteDomain
    rw [kind', tight']
    exact e
  · have same : x.finiteDomain = y.finiteDomain := by
      unfold finiteDomain at h ⊢
      rcases kind with e | ⟨_, e⟩
      · rw [e]
        split at h <;> simp_all
      · simp [e] at h
    exact ⟨values, same.trans h, fun _ => id⟩

/-- The values that are listed are of a kind that fits every scalar which accepts one of them. -/
theorem kindFits_of_mem {values : List Json} (h : x.finiteDomain = some values) {w : Json}
    (hw : w ∈ values) (fits : z.Fits w) : x.KindFits z := by
  obtain ⟨_, _, own⟩ := of_mem_finiteDomain h hw
  have kind := fits.kind
  unfold acceptsKind at kind
  unfold ScalarKind.admits at own
  unfold finiteDomain at h
  unfold KindFits
  cases hx : x.kind <;> cases hz : z.kind <;> cases w <;>
    simp_all [ScalarKind.ofValue?, Json.isIntegral]

/-- A scalar with a value has one in the list of all its values. -/
theorem exists_mem_finiteDomain (hx : x.IsBounded) (bare : x.enumeration = none)
    (inhabited : x.kind = .integer → ∃ v : Json, v.Proper ∧ x.Fits v) {values : List Json}
    (h : x.finiteDomain = some values) : ∃ w, w ∈ values := by
  by_cases integer : x.kind = .integer
  · obtain ⟨v, pv, fits⟩ := inhabited integer
    obtain ⟨w, hw, _⟩ := hx.listed bare values h v pv fits
    exact ⟨w, hw⟩
  · unfold finiteDomain at h
    split at h
    · cases h
      exact ⟨_, List.mem_cons_self⟩
    · cases h
      exact ⟨_, List.mem_cons_self⟩
    · exact absurd ‹_› integer
    · cases h
    · cases h

/-- A scalar that accepts all listed values has no bound tighter than theirs. -/
theorem ends_of_listed (hx : x.IsBounded) (hz : z.IsBounded) (integer : x.kind = .integer)
    {values : List Json} (h : x.finiteDomain = some values) {w : Json} (hw : w ∈ values)
    (fits : ∀ w ∈ values, z.Fits w) :
    (∀ b ∈ z.minimum, ∃ a ∈ x.tightRange.1, a.AtLeast b) ∧
      ∀ b ∈ z.maximum, ∃ a ∈ x.tightRange.2, a.AtMost b := by
  obtain ⟨l, u, tight, listed⟩ := finiteDomain_integer integer h
  have whole := tightRange_whole hx integer
  rw [tight] at whole ⊢
  obtain ⟨inclusive, small⟩ := whole.1 l rfl
  obtain ⟨inclusive', small'⟩ := whole.2 u rfl
  obtain ⟨i, rfl, le, le'⟩ := of_mem_listedRange listed hw
  have lowest := fits _ (mem_of_listedRange listed (Int.le_refl _) (by omega))
  have highest := fits _ (mem_of_listedRange listed (by omega) (Int.le_refl _))
  have exact {d : Binary64} (small : d.IsSmallWhole) : (ofInt d.toInt64).units = d.units := by
    obtain ⟨units, low, high⟩ := small.toInt64
    rw [units, units_ofInt (by omega)]
  constructor
  · intro b hb
    have number := isNaN_of_isFinite (hz.regular.low b hb)
    have inside := (below_eq_false_iff (isNaN_ofInt _) number).1 (lowest.low _ rfl b hb)
    rw [exact small] at inside
    refine ⟨l, rfl, ⟨small.1, number⟩, inside.1, fun e ex => ?_⟩
    have := inside.2 ex
    omega
  · intro b hb
    have number := isNaN_of_isFinite (hz.regular.high b hb)
    have inside := (above_eq_false_iff (isNaN_ofInt _) number).1 (highest.high _ rfl b hb)
    rw [exact small'] at inside
    refine ⟨u, rfl, ⟨small'.1, number⟩, inside.1, fun e ex => ?_⟩
    have := inside.2 ex
    omega

/-! ## 3. Scalars -/

theorem KindFits.trans (h : x.KindFits y) (h' : y.KindFits z) : x.KindFits z := by
  unfold KindFits at *
  cases hx : x.kind <;> cases hy : y.kind <;> cases hz : z.kind <;> simp_all

/-- **Fits of scalars compose**, if the first one has a value. -/
theorem scalarMismatch?_trans (hx : x.IsBounded) (hy : y.IsBounded) (hz : z.IsBounded)
    (sz : z.Sound)
    (inhabited : x.kind = .integer → x.enumeration = none → ∃ v : Json, v.Proper ∧ x.Fits v)
    (h : Schema.scalarMismatch? x y = none) (h' : Schema.scalarMismatch? y z = none) :
    Schema.scalarMismatch? x z = none := by
  have onward {w : Json} (pw : w.Proper) (acc : (Schema.scalar y).accepts w = true) : z.Fits w :=
    Schema.fits_of_scalarMismatch?_eq_none hy.regular hy.listed h' pw (Schema.accepts_scalar_iff.1 acc)
  cases he : x.effectiveEnumeration with
  | some members =>
      refine (Schema.scalarMismatch?_enumerated he).2 fun m hm => Schema.accepts_scalar_iff.2 ?_
      exact onward (fits_of_mem_effective hx.regular he hm).1
        ((Schema.scalarMismatch?_enumerated he).1 h m hm)
  | none =>
      have bare := effectiveEnumeration_eq_none_iff.1 he
      rw [Schema.scalarMismatch?_bare bare] at h ⊢
      by_cases bare' : y.enumeration = none
      · rw [Schema.scalarMismatch?_bare bare'] at h'
        obtain ⟨low, high⟩ := tightRange_inside hx hy h.kind (h.low bare') (h.high bare')
        refine ⟨h.kind.trans h'.kind, fun listed => ?_, fun e b hb => ?_, fun e b hb => ?_⟩
        · obtain ⟨values, hd, all⟩ := h'.listed listed
          obtain ⟨inside, hi, sub⟩ := finiteDomain_inside hx hy h.kind (h.low bare') (h.high bare') hd
          exact ⟨inside, hi, fun w hw => all w (sub w hw)⟩
        · obtain ⟨a, ha, le⟩ := h'.low e b hb
          obtain ⟨a', ha', le'⟩ := low a ha
          exact ⟨a', ha', le'.trans le⟩
        · obtain ⟨a, ha, le⟩ := h'.high e b hb
          obtain ⟨a', ha', le'⟩ := high a ha
          exact ⟨a', ha', le'.trans le⟩
      · -- the first scalar is listed, and its values are accepted one by one
        obtain ⟨values, hd, all⟩ := h.listed bare'
        have fits : ∀ w ∈ values, z.Fits w := fun w hw =>
          onward (of_mem_finiteDomain hd hw).1 (all w hw)
        obtain ⟨w, hw⟩ := exists_mem_finiteDomain hx bare (inhabited · bare) hd
        have kind := kindFits_of_mem hd hw (fits w hw)
        have ends : (∀ b ∈ z.minimum, ∃ a ∈ x.tightRange.1, a.AtLeast b) ∧
            ∀ b ∈ z.maximum, ∃ a ∈ x.tightRange.2, a.AtMost b := by
          by_cases integer : x.kind = .integer
          · exact ends_of_listed hx hz integer hd hw fits
          · have plain : z.kind.isNumeric = false := by
              rw [← kind.resolve_right fun k => integer k.1]
              exact isNumeric_eq_false_of_listed hd integer
            exact ⟨fun b hb => absurd (sz.low b hb).1 (by simp [plain]),
              fun b hb => absurd (sz.high b hb).1 (by simp [plain])⟩
        exact ⟨kind, fun _ => ⟨values, hd, fun w hw => Schema.accepts_scalar_iff.2 (fits w hw)⟩,
          fun _ => ends.1, fun _ => ends.2⟩

end Scalar

namespace Schema

/-! ## 4. Schemas -/

variable {a b c : Schema}

/-- A well-formed schema without intersections and with small bounds of integers. -/
structure IsSteady (s : Schema) : Prop where
  sound : s.Sound
  proper : s.Proper
  bounds : s.IntegerBounds
  allOfFree : s.AllOfFree

/-- Every integer inside that does not list its members has a value. -/
def IntegersInhabited : Schema → Prop := Every fun
  | .scalar s => s.kind = .integer → s.enumeration = none → ∃ v : Json, v.Proper ∧ s.Fits v
  | _ => True

theorem IsSteady.of_mem {s t : Schema} (h : s.IsSteady) (ht : t ∈ s.parts) : t.IsSteady :=
  ⟨h.sound.of_mem ht, h.proper.of_mem ht, h.bounds.of_mem ht, h.allOfFree.of_mem ht⟩

theorem IsSteady.bounded {x : Scalar} (h : (scalar x).IsSteady) : x.IsBounded :=
  ⟨Sound.regular h.sound h.proper |>.self, h.bounds.self⟩

/-- A steady schema is compared as a union or as a whole. -/
theorem IsSteady.cases {s : Schema} (h : s.IsSteady) :
    (∃ branches, IsUnion s branches) ∨ (s.IsAtomic ∧ (s = .any ∨ s.IsForm)) := by
  refine h.allOfFree.union_or_atomic.imp_right fun atomic => ⟨atomic, ?_⟩
  by_cases any : s = .any
  · exact Or.inl any
  · exact Or.inr (atomic.isForm any)

/-- Objects fit on, since every property that the last one declares is required there and by the one
    in between. -/
theorem ObjectFits.trans {as bs cs : Keyed Schema} {r₁ r₂ r₃ : ObjectRules}
    (requires : ∀ name ∈ bs.names, r₂.requires name = true)
    (requires' : ∀ name ∈ cs.names, r₃.requires name = true)
    (h : ObjectFits as r₁ bs r₂) (h' : ObjectFits bs r₂ cs r₃)
    (ih : ∀ name a b c, as.find? name = some a → bs.find? name = some b → (name, c) ∈ cs →
      a.isSubsumedBy b = true → b.isSubsumedBy c = true → a.isSubsumedBy c = true) :
    ObjectFits as r₁ cs r₃ := by
  have between {name : String} {c : Schema} (hc : (name, c) ∈ cs) : ∃ b, bs.find? name = some b := by
    cases hb : bs.find? name with
    | some b => exact ⟨b, rfl⟩
    | none =>
        have := requires' name (List.mem_map.2 ⟨_, hc, rfl⟩)
        rw [h'.lacking name c hb hc] at this
        cases this
  refine ⟨fun name a c ha hc => ?_, fun name c ha hc => ?_, fun shut => ?_⟩
  · obtain ⟨b, hb⟩ := between hc
    exact ih name a b c ha hb hc (h.fitted name a b ha (Keyed.mem_of_find? hb))
      (h'.fitted name b c hb hc)
  · obtain ⟨b, hb⟩ := between hc
    have declared := Keyed.mem_of_find? hb
    have := requires name (List.mem_map.2 ⟨_, declared, rfl⟩)
    rw [h.lacking name b ha declared] at this
    cases this
  · obtain ⟨names', shut'⟩ := h'.closed shut
    obtain ⟨names, shut''⟩ := h.closed shut'
    exact ⟨fun name hn => names' name (Keyed.has_iff.1 (names name hn)), shut''⟩

/-- What is known of three schemas of which each fits the next, and of everything inside them. -/
structure Composable (a b c : Schema) : Prop where
  first : a.IsSteady
  second : b.IsSteady
  third : c.IsSteady
  inhabited : a.IntegersInhabited
  requires : b.RequiresDeclared
  requires' : c.RequiresDeclared

theorem Composable.of_mem {x y z : Schema} (h : Composable a b c) (hx : x ∈ a.parts)
    (hy : y ∈ b.parts) (hz : z ∈ c.parts) : Composable x y z :=
  ⟨h.first.of_mem hx, h.second.of_mem hy, h.third.of_mem hz, h.inhabited.of_mem hx,
    h.requires.of_mem hy, h.requires'.of_mem hz⟩

/-- Forms fit on if what is inside them does. -/
theorem FormFits.trans (composable : Composable a b c)
    (ih : ∀ x ∈ a.parts, ∀ y ∈ b.parts, ∀ z ∈ c.parts,
      x.size + y.size + z.size < a.size + b.size + c.size →
      x.isSubsumedBy y = true → y.isSubsumedBy z = true → x.isSubsumedBy z = true)
    (h : FormFits a b) (h' : FormFits b c) : FormFits a c := by
  cases h' with
  | scalar fits' =>
      cases h with
      | scalar fits =>
          exact .scalar (Scalar.scalarMismatch?_trans composable.first.bounded
            composable.second.bounded composable.third.bounded composable.third.sound.self
            composable.inhabited.self fits fits')
  | object fits' =>
      cases h with
      | object fits =>
          refine .object (fits.trans composable.requires.self composable.requires'.self fits'
            fun name x y z hx hy hz => ?_)
          have hx := Keyed.mem_of_find? hx
          have hy := Keyed.mem_of_find? hy
          have := size_le_of_mem_properties hx
          have := size_le_of_mem_properties hy
          have := size_le_of_mem_properties hz
          refine ih x (property_mem_parts hx) y (property_mem_parts hy) z (property_mem_parts hz) ?_
          simp only [size]
          omega
  | array lengths' items' =>
      cases h with
      | array lengths items =>
          refine .array (lengthFits_trans lengths lengths') (ih _ items_mem_parts _ items_mem_parts _
            items_mem_parts ?_ items items')
          simp only [size]
          omega

/-- **Fits compose** without intersections, where integers have values and consumers require what they
    declare. -/
theorem isSubsumedBy_trans (composable : Composable a b c) (h : a.isSubsumedBy b = true)
    (h' : b.isSubsumedBy c = true) : a.isSubsumedBy c = true := by
  induction hn : a.size + b.size + c.size using Nat.strongRecOn generalizing a b c with
  | ind n ih =>
      subst hn
      have inside {x y z : Schema} (hx : x ∈ a.parts) (hy : y ∈ b.parts) (hz : z ∈ c.parts)
          (lt : x.size + y.size + z.size < a.size + b.size + c.size) (h : x.isSubsumedBy y = true)
          (h' : y.isSubsumedBy z = true) : x.isSubsumedBy z = true :=
        ih _ lt (composable.of_mem hx hy hz) h h' rfl
      rcases composable.first.cases with ⟨branches, union⟩ | ⟨atomic, _⟩
      · -- every branch of the producer fits on
        refine union.isSubsumedBy.2 fun x hx => ?_
        have := union.size_lt hx
        exact inside (union.mem_parts hx) b.self_mem_parts c.self_mem_parts (by omega)
          (union.isSubsumedBy.1 h x hx) h'
      rcases composable.second.cases with ⟨branches, union⟩ | ⟨atomic', _⟩
      · -- the producer fits one branch in between, and that one fits on
        obtain ⟨x, hx, h⟩ := (atomic.isSubsumedBy union).1 h
        have := union.size_lt hx
        exact inside a.self_mem_parts (union.mem_parts hx) c.self_mem_parts (by omega) h
          (union.isSubsumedBy.1 h' x hx)
      rcases composable.third.cases with ⟨branches, union⟩ | ⟨_, rfl | form⟩
      · -- what is in between fits one branch of the consumer, and so does the producer
        obtain ⟨x, hx, h'⟩ := (atomic'.isSubsumedBy union).1 h'
        have := union.size_lt hx
        exact (atomic.isSubsumedBy union).2 ⟨x, hx, inside a.self_mem_parts b.self_mem_parts
          (union.mem_parts hx) (by omega) h h'⟩
      · exact isSubsumedBy_any
      · have fits' := atomic'.formFits form h'
        exact ((atomic.formFits fits'.isForm h).trans composable
          (fun _ hx _ hy _ hz => inside hx hy hz) fits').isSubsumedBy

end Schema

/-! ## 5. Integers with a range -/

namespace Scalar

variable {x : Scalar} {n : Int}

/-- A whole number lies between the bounds, taken at their exact values. -/
structure InRange (s : Scalar) (n : Int) : Prop where
  low : ∀ b ∈ s.minimum, b.value.units ≤ n * unitsPerOne ∧
    (b.exclusive = true → n * unitsPerOne ≠ b.value.units)
  high : ∀ b ∈ s.maximum, n * unitsPerOne ≤ b.value.units ∧
    (b.exclusive = true → n * unitsPerOne ≠ b.value.units)

/-- Between small bounds there is a small whole number, if there is any. -/
theorem InRange.clamp (small : x.SmallIfInteger) (kind : x.kind = .integer) (h : x.InRange n) :
    x.InRange (max (-2 ^ 53) (min n (2 ^ 53))) := by
  have pos := unitsPerOne_pos
  obtain ⟨smallLow, smallHigh⟩ := small kind
  constructor
  · intro b hb
    obtain ⟨le, ne⟩ := h.low b hb
    have above : -2 ^ 53 < n :=
      Int.lt_of_mul_lt_mul_right (Int.lt_of_lt_of_le (smallLow b hb).1 le) (Int.le_of_lt pos)
    by_cases far : n ≤ 2 ^ 53
    · rw [Int.min_eq_left far, Int.max_eq_right (Int.le_of_lt above)]
      exact ⟨le, ne⟩
    · rw [Int.min_eq_right (by omega), Int.max_eq_right (by decide)]
      have := (smallLow b hb).2
      exact ⟨by omega, fun _ => by omega⟩
  · intro b hb
    obtain ⟨le, ne⟩ := h.high b hb
    have below : n < 2 ^ 53 :=
      Int.lt_of_mul_lt_mul_right (Int.lt_of_le_of_lt le (smallHigh b hb).2) (Int.le_of_lt pos)
    rw [Int.min_eq_left (Int.le_of_lt below)]
    by_cases far : -2 ^ 53 ≤ n
    · rw [Int.max_eq_right far]
      exact ⟨le, ne⟩
    · rw [Int.max_eq_left (by omega)]
      have := (smallHigh b hb).1
      exact ⟨by omega, fun _ => by omega⟩

/-- An integer with small bounds and a whole number between them has a value. -/
theorem InRange.exists_fits (hx : x.IsBounded) (kind : x.kind = .integer)
    (bare : x.enumeration = none) (h : x.InRange n) : ∃ v : Json, v.Proper ∧ x.Fits v := by
  have clamped := h.clamp hx.small kind
  generalize hm : max (-2 ^ 53) (min n (2 ^ 53)) = m at clamped
  have units : (ofInt m).units = m * unitsPerOne := units_ofInt (by omega)
  refine ⟨.int m, show -2 ^ 63 ≤ m ∧ m < 2 ^ 64 by omega, ?_, ?_, ?_, by simp [bare]⟩
  · simp [acceptsKind, kind, Json.int, Json.isIntegral, Number.isIntegral]
  · rintro _ ⟨⟩ b hb
    refine (below_eq_false_iff (isNaN_ofInt m) (isNaN_of_isFinite (hx.regular.low b hb))).2 ?_
    rw [units]
    exact clamped.low b hb
  · rintro _ ⟨⟩ b hb
    refine (above_eq_false_iff (isNaN_ofInt m) (isNaN_of_isFinite (hx.regular.high b hb))).2 ?_
    rw [units]
    exact clamped.high b hb

end Scalar

namespace Schema

variable {a b c : Schema}

/-- Every integer inside that does not list its members has a whole number in its range. -/
def RangesInhabited : Schema → Prop := Every fun
  | .scalar s => s.kind = .integer → s.enumeration = none → ∃ n : Int, s.InRange n
  | _ => True

theorem RangesInhabited.integers (h : a.RangesInhabited) (steady : a.IsSteady) :
    a.IntegersInhabited := by
  intro t ht
  have inhabited := h t ht
  cases t with
  | scalar x =>
      intro kind bare
      obtain ⟨n, hn⟩ := inhabited kind bare
      exact hn.exists_fits (steady.of_mem ht).bounded kind bare
  | _ => trivial

/-- **A chain of fits.** Three well-formed schemas without intersections, with integer bounds below
    `2 ^ 53`, of which the first has no integer without a value and the others require what they
    declare: if the first fits the second and the second the third, the first fits the third, whichever
    rules have decided the two. -/
theorem isSubsumedBy_chain (wellFormed : ∀ s ∈ [a, b, c], s.isWellFormed = true ∧ s.Proper)
    (allOfFree : ∀ s ∈ [a, b, c], s.AllOfFree) (bounds : ∀ s ∈ [a, b, c], s.IntegerBounds)
    (inhabited : a.RangesInhabited) (requires : ∀ s ∈ [b, c], s.RequiresDeclared)
    (h : a.isSubsumedBy b = true) (h' : b.isSubsumedBy c = true) : a.isSubsumedBy c = true := by
  have steady (s : Schema) (hs : s ∈ [a, b, c]) : s.IsSteady :=
    ⟨isWellFormed_iff.1 (wellFormed s hs).1, (wellFormed s hs).2, bounds s hs, allOfFree s hs⟩
  have first := steady a (by simp)
  exact isSubsumedBy_trans ⟨first, steady b (by simp), steady c (by simp),
    inhabited.integers first, requires b (by simp), requires c (by simp)⟩ h h'

/-- One count or more, each from 1 to 3. -/
def counts : Schema :=
  .array (.scalar { kind := .integer, minimum := some (.inclusive (.ofInt 1)),
                    maximum := some (.inclusive (.ofInt 3)) }) { least := some 1 }

/-- Any of the numbers 1, 2 and 3, as often as one likes. -/
def listedNumbers : Schema :=
  .array (.scalar { kind := .number, enumeration := some [.int 1, .int 2, .int 3] }) {}

/-- Numbers between 0 and 4, and nulls where there are none. -/
def numbersOrNulls : Schema :=
  .array (.anyOf [.scalar { kind := .null },
    .scalar { kind := .number, minimum := some ⟨.ofInt 0, true⟩,
              maximum := some ⟨.ofInt 4, true⟩ }]) {}

/-- The first fits since its values are listed, the second by its members, and the first fits the last
    by its range. -/
theorem isSubsumedBy_chain_counts :
    counts.isSubsumedBy listedNumbers = true ∧ listedNumbers.isSubsumedBy numbersOrNulls = true ∧
      counts.isSubsumedBy numbersOrNulls = true := by
  have listed : counts.isSubsumedBy listedNumbers = true := array_isSubsumedBy.2
    ⟨by decide, scalar_isSubsumedBy.2 (Option.isNone_iff_eq_none.1 (by decide +kernel))⟩
  have members : listedNumbers.isSubsumedBy numbersOrNulls = true := array_isSubsumedBy.2
    ⟨by decide, (IsAtomic.isSubsumedBy ⟨by simp, by simp, by simp⟩ (Or.inl rfl)).2
      ⟨_, List.mem_cons_of_mem _ (List.mem_singleton_self _),
        scalar_isSubsumedBy.2 (Option.isNone_iff_eq_none.1 (by decide +kernel))⟩⟩
  refine ⟨listed, members, isSubsumedBy_chain ?_ ?_ ?_ ?_ ?_ listed members⟩
  · simp only [List.forall_mem_cons]
    refine ⟨⟨by decide +kernel, ?_⟩, ⟨by decide +kernel, ?_⟩, ⟨by decide +kernel, ?_⟩, by simp⟩
    all_goals
      simp [Proper, Every, parts, partsOfBranches, ProperPart, Scalar.Proper, counts, listedNumbers,
        numbersOrNulls, Json.int, Json.Proper, Number.Proper]
  · simp [AllOfFree, Every, parts, partsOfBranches, counts, listedNumbers, numbersOrNulls]
  · simp [IntegerBounds, Every, parts, partsOfBranches, counts, listedNumbers, numbersOrNulls,
      Bound.inclusive, isSmall_ofInt]
  · simp only [RangesInhabited, Every, parts, counts, List.forall_mem_cons]
    refine ⟨trivial, fun _ _ => ⟨2, ?_, ?_⟩, by simp⟩
    · rintro _ ⟨⟩
      decide +kernel
    · rintro _ ⟨⟩
      decide +kernel
  · simp [RequiresDeclared, Every, parts, partsOfBranches, listedNumbers, numbersOrNulls]

end Schema

end TypedPipeline
