import TypedPipeline.Proofs.Space.Covering

/-!
# Proofs.Space.Integers: dimensions of integers are exact

The bounds of an integer are moved to whole numbers on either side, the hints as well, and the tighter
one of the two is taken. This file fixes, for bounds and hints below `2 ^ 53` in magnitude:

* the end of a range as a condition: an integer is on its inner side exactly if it is on the inner side
  of both ends that it was merged from (`Scalar.sampledLow_le_iff`, `Scalar.le_sampledHigh_iff`);
* that the integers between the ends are exactly those that the scalar accepts and the hints admit
  (`Scalar.between_iff`);
* **what an integer scalar compiles to** (`compileNode_integer`): it lacks a bound exactly if a side
  has neither a bound nor a hint, and otherwise takes just these integers.
-/

namespace TypedPipeline

/-- The values that can come out of a compiled scalar: a fixed one, or all that a dimension contains. -/
def Compilation.Takes (outcome : Compilation) (path : Path) (v : Json) : Prop :=
  outcome = .ok (.fixed v) ∨
    ∃ domain x, outcome = .ok (.plain path domain) ∧ domain.Contains x ∧ x.toJson = v

/-! ## 1. Integers and numbers -/

namespace Binary64

variable {x y : Binary64}

theorem IsSmall.isFinite (h : x.IsSmall) : x.isFinite = true := by
  have large : 2 ^ 53 * unitsPerOne ≤ weight infiniteMagnitude := by decide +kernel
  obtain ⟨low, high⟩ := h
  refine isFinite_iff_units.2 ⟨?_, ?_⟩ <;> omega

/-- Only integers below `2 ^ 53` are rounded to numbers below it. -/
theorem lt_of_units_ofInt_lt {n : Int} (h : (ofInt n).units < 2 ^ 53 * unitsPerOne) : n < 2 ^ 53 := by
  refine Int.lt_of_not_ge fun le => ?_
  have mono := units_ofInt_mono le
  rw [units_ofInt (by decide)] at mono
  omega

theorem lt_of_lt_units_ofInt {n : Int} (h : -2 ^ 53 * unitsPerOne < (ofInt n).units) :
    -2 ^ 53 < n := by
  refine Int.lt_of_not_ge fun le => ?_
  have mono := units_ofInt_mono le
  rw [units_ofInt (n := -2 ^ 53) (by decide)] at mono
  omega

theorem max_units_le_iff (hx : x.isNaN = false) (hy : y.isNaN = false) {k : Int} :
    (x.max y).units ≤ k ↔ x.units ≤ k ∧ y.units ≤ k := by
  obtain ⟨either, le, le'⟩ := max_cases hx hy
  constructor
  · intro h
    omega
  · rintro ⟨h, h'⟩
    rcases either with e | e <;> rw [e] <;> assumption

theorem le_min_units_iff (hx : x.isNaN = false) (hy : y.isNaN = false) {k : Int} :
    k ≤ (x.min y).units ↔ k ≤ x.units ∧ k ≤ y.units := by
  obtain ⟨either, le, le'⟩ := min_cases hx hy
  constructor
  · intro h
    omega
  · rintro ⟨h, h'⟩
    rcases either with e | e <;> rw [e] <;> assumption

end Binary64

/-! ## 2. The ends of a range -/

namespace Scalar

open Binary64

variable {s : Scalar} {low high : Binary64} {i : Int} {path : Path}

/-- A side has neither a bound nor a hint. -/
def LacksBound (s : Scalar) : Prop :=
  (s.minimum = none ∧ s.minimumForOptimizer = none) ∨
    (s.maximum = none ∧ s.maximumForOptimizer = none)

/-- The hints admit the integer. -/
def Hinted (s : Scalar) (i : Int) : Prop :=
  (∀ v ∈ s.minimumForOptimizer, v.units ≤ i * unitsPerOne) ∧
    ∀ v ∈ s.maximumForOptimizer, i * unitsPerOne ≤ v.units

theorem Small.finite (small : s.Small) : s.Finite :=
  ⟨fun b hb => (small.low b hb).isFinite, fun b hb => (small.high b hb).isFinite,
    fun v hv => (small.lowHint v hv).isFinite, fun v hv => (small.highHint v hv).isFinite⟩

theorem lacksBound_iff : s.LacksBound ↔ s.sampledLow = none ∨ s.sampledHigh = none := by
  simp only [LacksBound, sampledLow, sampledHigh, mergeOption_eq_none_iff, Option.map_eq_none_iff]
  rw [and_comm (a := s.minimum = none), and_comm (a := s.maximum = none)]

/-- An end is on one side of an integer exactly if the hint and the moved bound are, where moving the
    hint makes no difference to that. -/
theorem sampledEnd_iff {P : Binary64 → Prop} {choose : Binary64 → Binary64 → Binary64}
    {round : Binary64 → Binary64} {move : Bound → Binary64} {hint : Option Binary64}
    {bound : Option Bound} {x : Binary64}
    (h : mergeOption choose (hint.map round) (bound.map move) = some x)
    (both : ∀ v ∈ hint, ∀ b ∈ bound,
      (P (choose (round v) (move b)) ↔ P (round v) ∧ P (move b)))
    (rounded : ∀ v ∈ hint, (P (round v) ↔ P v)) :
    P x ↔ (∀ v ∈ hint, P v) ∧ ∀ b ∈ bound, P (move b) := by
  have merged := @forall_mergeOption_iff _ P choose (hint.map round) (bound.map move) <| by
    simpa using both
  simp only [h, Option.mem_def, Option.some.injEq, forall_eq', Option.map_eq_some_iff,
    forall_exists_index, and_imp, forall_apply_eq_imp_iff₂] at merged
  rw [merged]
  exact and_congr_left fun _ => forall₂_congr rounded

/-- **An integer is not below the lower end if it is not below the hint and the end made of the
    bound.** -/
theorem sampledLow_le_iff (kind : s.kind = .integer) (fin : s.Finite)
    (h : s.sampledLow = some low) :
    low.units ≤ i * unitsPerOne ↔ (∀ v ∈ s.minimumForOptimizer, v.units ≤ i * unitsPerOne) ∧
      ∀ b ∈ s.minimum, (lowEnd (s.kind == .integer) b).units ≤ i * unitsPerOne := by
  have whole : (s.kind == .integer) = true := by rw [kind]; rfl
  refine @sampledEnd_iff (fun x => x.units ≤ i * unitsPerOne) _ _ _ _ _ low h
    (fun v hv b hb => max_units_le_iff ?_ (isEnd_lowEnd fin hb).nan) fun v hv => ?_
  · rw [whole]
    exact isNaN_of_isFinite (units_ceil (fin.lowHint v hv)).2
  · rw [whole]
    exact units_ceil_le_iff (fin.lowHint v hv) i

/-- **An integer is not above the upper end if it is not above the hint and the end made of the
    bound.** -/
theorem le_sampledHigh_iff (kind : s.kind = .integer) (fin : s.Finite)
    (h : s.sampledHigh = some high) :
    i * unitsPerOne ≤ high.units ↔ (∀ v ∈ s.maximumForOptimizer, i * unitsPerOne ≤ v.units) ∧
      ∀ b ∈ s.maximum, i * unitsPerOne ≤ (highEnd (s.kind == .integer) b).units := by
  have whole : (s.kind == .integer) = true := by rw [kind]; rfl
  refine @sampledEnd_iff (fun x => i * unitsPerOne ≤ x.units) _ _ _ _ _ high h
    (fun v hv b hb => le_min_units_iff ?_ (isEnd_highEnd fin hb).nan) fun v hv => ?_
  · rw [whole]
    exact isNaN_of_isFinite (units_floor (fin.highHint v hv)).2
  · rw [whole]
    exact le_units_floor_iff (fin.highHint v hv) i

/-! ## 3. The integers of a range -/

/-- An integer that a small scalar accepts and the hints admit is small. -/
theorem isSmall_of_fits (small : s.Small) (bounded : ¬ s.LacksBound) (fits : s.Fits (.int i))
    (hinted : s.Hinted i) : -2 ^ 53 < i ∧ i < 2 ^ 53 := by
  have pos := unitsPerOne_pos
  have fin := small.finite
  have nan := isNaN_ofInt i
  simp only [LacksBound, not_or, not_and_or] at bounded
  constructor
  · rcases bounded.1 with bound | hint
    · obtain ⟨b, hb⟩ := Option.ne_none_iff_exists'.1 bound
      have le := ((below_eq_false_iff nan (isNaN_of_isFinite (fin.low b hb))).1
        (fits.low _ rfl b hb)).1
      exact lt_of_lt_units_ofInt (Int.lt_of_lt_of_le (small.low b hb).1 le)
    · obtain ⟨v, hv⟩ := Option.ne_none_iff_exists'.1 hint
      exact Int.lt_of_mul_lt_mul_right (Int.lt_of_lt_of_le (small.lowHint v hv).1 (hinted.1 v hv))
        (Int.le_of_lt pos)
  · rcases bounded.2 with bound | hint
    · obtain ⟨b, hb⟩ := Option.ne_none_iff_exists'.1 bound
      have le := ((above_eq_false_iff nan (isNaN_of_isFinite (fin.high b hb))).1
        (fits.high _ rfl b hb)).1
      exact lt_of_units_ofInt_lt (Int.lt_of_le_of_lt le (small.high b hb).2)
    · obtain ⟨v, hv⟩ := Option.ne_none_iff_exists'.1 hint
      exact Int.lt_of_mul_lt_mul_right (Int.lt_of_le_of_lt (hinted.2 v hv) (small.highHint v hv).2)
        (Int.le_of_lt pos)

/-- **The integers between the ends are those that the scalar accepts and the hints admit.** -/
theorem between_iff (kind : s.kind = .integer) (bare : s.enumeration = none) (small : s.Small)
    (hl : s.sampledLow = some low) (hh : s.sampledHigh = some high) :
    (low.toInt64 ≤ i ∧ i ≤ high.toInt64) ↔ s.Fits (.int i) ∧ s.Hinted i := by
  have pos := unitsPerOne_pos
  have fin := small.finite
  obtain ⟨lowUnits, low1, low2⟩ := ((isEnd_sampledLow fin hl).1.whole kind small).toInt64
  obtain ⟨highUnits, high1, high2⟩ := ((isEnd_sampledHigh fin hh).1.whole kind small).toInt64
  have lower : low.units ≤ i * unitsPerOne ↔ low.toInt64 ≤ i := by
    rw [lowUnits]; exact Int.mul_le_mul_right pos
  have upper : i * unitsPerOne ≤ high.units ↔ i ≤ high.toInt64 := by
    rw [highUnits]; exact Int.mul_le_mul_right pos
  have exactly (h : -2 ^ 53 ≤ i ∧ i ≤ 2 ^ 53) : (Number.int i).Proper ∧
      (Number.int i).toBinary64.units = i * unitsPerOne :=
    ⟨⟨by omega, by omega⟩, units_ofInt (by omega)⟩
  constructor
  · rintro ⟨le, le'⟩
    obtain ⟨proper, units⟩ := exactly ⟨by omega, by omega⟩
    have le := lower.2 le
    have le' := upper.2 le'
    refine ⟨fits_between fin (fun _ => small) (by rw [kind]; rfl) bare hl hh proper (fun _ => rfl)
      (by rw [units]; exact le) (by rw [units]; exact le'), ?_, ?_⟩
    · exact ((sampledLow_le_iff kind fin hl).1 le).1
    · exact ((le_sampledHigh_iff kind fin hh).1 le').1
  · rintro ⟨fits, hinted⟩
    have bounded : ¬ s.LacksBound := by simp [lacksBound_iff, hl, hh]
    obtain ⟨above, below⟩ := isSmall_of_fits small bounded fits hinted
    obtain ⟨proper, units⟩ := exactly ⟨by omega, by omega⟩
    refine ⟨lower.1 ((sampledLow_le_iff kind fin hl).2 ⟨hinted.1, fun b hb => ?_⟩),
      upper.1 ((le_sampledHigh_iff kind fin hh).2 ⟨hinted.2, fun b hb => ?_⟩)⟩
    · rw [← units]; exact lowEnd_le fin hb proper fits
    · rw [← units]; exact le_highEnd fin hb proper fits

end Scalar

/-! ## 4. Compilation -/

variable {s : Scalar} {path : Path}

theorem Compilation.takes_fixed {v w : Json} :
    Compilation.Takes (.ok (.fixed v)) path w ↔ w = v := by
  simp [Takes, Compiled.fixed, Compiled.plain, eq_comm]

theorem Compilation.takes_plain_int {low high : Int} {logScale : Bool} {v : Json} :
    Compilation.Takes (.ok (.plain path (.int low high logScale))) path v ↔
      ∃ i : Int, v = .int i ∧ low ≤ i ∧ i ≤ high := by
  constructor
  · rintro (h | ⟨domain, x, h, hx, rfl⟩)
    · cases h
    · cases h
      cases x with
      | int i => exact ⟨i, rfl, hx⟩
      | _ => exact hx.elim
  · rintro ⟨i, rfl, between⟩
    exact Or.inr ⟨_, .int i, rfl, between, rfl⟩

theorem Compilation.not_takes_error {e : Fault} {v : Json} :
    ¬ Compilation.Takes (.error e) path v := by
  rintro (h | ⟨_, _, h, _⟩) <;> cases h

/-- What a range of integers compiles to: it depends on the ends as integers. -/
theorem compileNumeric_integer {low high : Binary64} (path : Path) (kind : s.kind = .integer)
    (hl : s.sampledLow = some low) (hh : s.sampledHigh = some high) (lower : low.IsSmallWhole)
    (upper : high.IsSmallWhole) :
    (high.toInt64 < low.toInt64 ∧
        compileNumeric s path = .error (.unbounded path (.emptyRange low high))) ∨
      (low.toInt64 = high.toInt64 ∧ compileNumeric s path = .ok (.fixed (.int low.toInt64))) ∨
      (low.toInt64 < high.toInt64 ∧ ∃ logScale, compileNumeric s path =
        .ok (.plain path (.int low.toInt64 high.toInt64 logScale))) := by
  have pos := Binary64.unitsPerOne_pos
  have less : high.less low = true ↔ high.toInt64 < low.toInt64 := by
    rw [Binary64.less_iff, lower.toInt64.1, upper.toInt64.1, Int.mul_lt_mul_right pos]
    simp [lower.1, upper.1]
  have equals : low.equals high = true ↔ low.toInt64 = high.toInt64 := by
    rw [Binary64.equals_iff, lower.toInt64.1, upper.toInt64.1,
      Int.mul_eq_mul_right_iff (Int.ne_of_gt pos)]
    simp [lower.1, upper.1]
  simp only [compileNumeric, hl, hh, less, equals, if_pos kind]
  split
  · exact Or.inl ⟨‹_›, rfl⟩
  · split
    · exact Or.inr (Or.inl ⟨‹_›, rfl⟩)
    · exact Or.inr (Or.inr ⟨by omega, _, rfl⟩)

/-- **Dimensions of integers are exact.** An integer scalar lacks a bound exactly if a side has neither
    a bound nor a hint. Otherwise it compiles to a fixed integer, to a dimension of integers, or to the
    fault of an empty range, and what comes out of it are exactly the integers that it accepts and the
    hints admit. -/
theorem compileNode_integer (settings : SpaceSettings) (path : Path) (kind : s.kind = .integer)
    (bare : s.enumeration = none) (small : s.Small) :
    (compileNode settings (.scalar s) path = .error (.unbounded path .missingBound) ↔
      s.LacksBound) ∧
    (¬ s.LacksBound →
      ((∃ i : Int, compileNode settings (.scalar s) path = .ok (.fixed (.int i))) ∨
        (∃ low high logScale, low < high ∧
          compileNode settings (.scalar s) path = .ok (.plain path (.int low high logScale))) ∨
        ∃ low high,
          compileNode settings (.scalar s) path = .error (.unbounded path (.emptyRange low high))) ∧
      ∀ v, Compilation.Takes (compileNode settings (.scalar s) path) path v ↔
        ∃ i : Int, v = .int i ∧ (Schema.scalar s).accepts (.int i) = true ∧ s.Hinted i) := by
  have outcome : compileNode settings (.scalar s) path = compileNumeric s path := by
    simp [compileNode, compileScalar, Scalar.effectiveEnumeration, bare, kind]
  rw [outcome]
  by_cases lacks : s.LacksBound
  · refine ⟨⟨fun _ => lacks, fun _ => ?_⟩, fun h => absurd lacks h⟩
    rcases Scalar.lacksBound_iff.1 lacks with none | none
    · rw [compileNumeric, none]
    · rw [compileNumeric, none]
      cases s.sampledLow <;> rfl
  · have bounded := not_or.1 (mt Scalar.lacksBound_iff.2 lacks)
    obtain ⟨low, hl⟩ := Option.ne_none_iff_exists'.1 bounded.1
    obtain ⟨high, hh⟩ := Option.ne_none_iff_exists'.1 bounded.2
    have between (i : Int) := @Scalar.between_iff s low high i kind bare small hl hh
    simp only [Schema.accepts_scalar_iff, ← between]
    rcases compileNumeric_integer path kind hl hh
        ((Scalar.isEnd_sampledLow small.finite hl).1.whole kind small)
        ((Scalar.isEnd_sampledHigh small.finite hh).1.whole kind small) with
      ⟨lt, e⟩ | ⟨eq, e⟩ | ⟨lt, logScale, e⟩
    · rw [e]
      refine ⟨⟨by simp, fun h => absurd h lacks⟩, fun _ => ⟨Or.inr (Or.inr ⟨_, _, rfl⟩), fun v => ?_⟩⟩
      refine ⟨fun h => absurd h Compilation.not_takes_error, ?_⟩
      rintro ⟨i, -, le, le'⟩
      omega
    · rw [e]
      refine ⟨⟨by simp, fun h => absurd h lacks⟩, fun _ => ⟨Or.inl ⟨_, rfl⟩, fun v => ?_⟩⟩
      rw [Compilation.takes_fixed]
      constructor
      · rintro rfl
        exact ⟨_, rfl, Int.le_refl _, Int.le_of_eq eq⟩
      · rintro ⟨i, rfl, le, le'⟩
        rw [show i = low.toInt64 by omega]
    · rw [e]
      exact ⟨⟨by simp, fun h => absurd h lacks⟩, fun _ =>
        ⟨Or.inr (Or.inl ⟨_, _, _, lt, rfl⟩), fun _ => Compilation.takes_plain_int⟩⟩

/-- More than 2, and for sampling at most 7.5: a range of which each end is of a kind of its own. -/
def aboveTwo : Scalar where
  kind := .integer
  minimum := some ⟨.ofInt 2, true⟩
  minimumForOptimizer := some (.ofQuotient false Binary64.unitsPerOne 2)
  maximumForOptimizer := some (.ofQuotient false (15 * Binary64.unitsPerOne) 2)

/-- What comes out are the integers from 3 to 7. -/
theorem compileNode_integer_aboveTwo :
    (Schema.scalar aboveTwo).isWellFormed = true ∧ aboveTwo.Small ∧ ¬ aboveTwo.LacksBound ∧
      compileNode {} (.scalar aboveTwo) .root = .ok (.plain .root (.int 3 7 false)) ∧
      ∀ v, Compilation.Takes (compileNode {} (.scalar aboveTwo) .root) .root v ↔
        ∃ i : Int, v = .int i ∧ (Schema.scalar aboveTwo).accepts (.int i) = true ∧
          aboveTwo.Hinted i := by
  have small : aboveTwo.Small := by
    refine ⟨?_, ?_, ?_, ?_⟩ <;> rintro _ ⟨⟩ <;> exact ⟨by decide +kernel, by decide +kernel⟩
  have bounded : ¬ aboveTwo.LacksBound := by simp [Scalar.LacksBound, aboveTwo]
  refine ⟨by decide +kernel, small, bounded, ?_,
    ((compileNode_integer {} .root rfl rfl small).2 bounded).2⟩
  show compileNumeric aboveTwo .root = _
  have low : aboveTwo.sampledLow = some (.ofInt 3) := by decide +kernel
  have high : aboveTwo.sampledHigh = some (.ofInt 7) := by decide +kernel
  rw [compileNumeric, low, high]
  dsimp only
  rw [if_neg (by decide +kernel), if_neg (by decide +kernel),
    if_pos (show aboveTwo.kind = .integer from rfl),
    show (Binary64.ofInt 3).toInt64 = 3 by decide +kernel,
    show (Binary64.ofInt 7).toInt64 = 7 by decide +kernel]
  rfl

end TypedPipeline
