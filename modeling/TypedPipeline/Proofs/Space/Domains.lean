import TypedPipeline.Proofs.Schema.Ranges
import TypedPipeline.Proofs.Space.Compilation

/-!
# Proofs.Space.Domains: the values of plain dimensions

A plain dimension takes the settings of its domain (`Domain.Contains`). This file fixes:

* settings as values: a setting made of a value agrees with it (`agrees_toJson`);
* the ends of a range: they cover the bounds of the schema, and are whole for integers with small
  bounds (`sampledLow_spec`, `sampledHigh_spec`);
* that a scalar accepts what it compiles to, a fixed value or every setting of a domain
  (`serves_of_compileScalar`).
-/

namespace TypedPipeline

/-- The settings of a domain. -/
def Domain.Contains : Domain → Setting → Prop
  | .float low high _, .float x => x.isFinite = true ∧ x.less low = false ∧ high.less x = false
  | .int low high _, .int i => low ≤ i ∧ i ≤ high
  | .categorical choices, x => x ∈ choices
  | .boolean, .bool _ => True
  | _, _ => False

/-- A fixed value, or every value of one dimension, is of a sort. -/
def Compiled.Serves (c : Compiled) (path : Path) (Q : Json → Prop) : Prop :=
  (∃ v, c = .fixed v ∧ Q v) ∨ ∃ d, c = .plain path d ∧ ∀ x, d.Contains x → Q x.toJson

variable {s : Scalar} {path : Path} {c : Compiled}

/-! ## 1. Settings -/

namespace Setting

/-- **A setting made of a value agrees with it.** -/
theorem agrees_toJson {v : Json} {x : Setting} (proper : v.Proper) (h : ofJson? v = some x) :
    x.toJson.Proper ∧ x.toJson.isScalar = true ∧ v.agrees x.toJson = true := by
  cases v with
  | null => cases h; exact ⟨trivial, rfl, rfl⟩
  | bool b => cases h; exact ⟨trivial, rfl, by simp [toJson, Json.agrees]⟩
  | text t => cases h; exact ⟨trivial, rfl, by simp [toJson, Json.agrees]⟩
  | array items => cases h
  | object members => cases h
  | number n =>
      have proper : n.Proper := proper
      simp only [ofJson?] at h
      split at h
      · rename_i i e
        cases h
        cases n with
        | float y => cases e
        | int j =>
            simp only [Number.asInt64?] at e
            split at e
            · cases e
              exact ⟨proper, rfl, Json.agrees_refl (v := .int i) rfl proper⟩
            · cases e
      · cases h
        have fin := Number.isFinite_toBinary64 proper
        have e : toJson (.float n.toBinary64) = .number (.float n.toBinary64) := if_pos fin
        rw [e]
        exact ⟨fin, rfl, (Number.agrees_iff proper (y := .float n.toBinary64) fin).2 rfl⟩

theorem proper_toJson {x : Setting} (h : ∀ i, x = .int i → -2 ^ 63 ≤ i ∧ i < 2 ^ 63) :
    x.toJson.Proper := by
  cases x with
  | int i =>
      obtain ⟨low, high⟩ := h i rfl
      exact ⟨low, by omega⟩
  | float y =>
      show (Json.float y).Proper
      unfold Json.float
      split
      · assumption
      · trivial
  | _ => trivial

end Setting

/-- A choice serves if its settings do. -/
theorem serves_of_compileChoices {choices : List Setting} {Q : Json → Prop}
    (h : compileChoices choices path = .ok c) (each : ∀ x ∈ choices, Q x.toJson) :
    c.Serves path Q := by
  rcases compileChoices_cases h with ⟨only, rfl, rfl⟩ | rfl
  · exact Or.inl ⟨_, rfl, each only (by simp)⟩
  · exact Or.inr ⟨_, rfl, each⟩

/-- **The settings made of values that a schema accepts stand for values that it accepts.** -/
theorem accepts_toJson {schema : Schema} {members : List Json}
    (each : ∀ m ∈ members, m.Proper ∧ schema.accepts m = true) :
    ∀ x ∈ members.filterMap Setting.ofJson?,
      x.toJson.Proper ∧ schema.accepts x.toJson = true := by
  intro x hx
  obtain ⟨m, hm, e⟩ := List.mem_filterMap.1 hx
  obtain ⟨proper, accepted⟩ := each m hm
  obtain ⟨proper', scalar, agrees⟩ := Setting.agrees_toJson proper e
  exact ⟨proper', by rw [← Schema.accepts_congr scalar proper proper' agrees]; exact accepted⟩

/-! ## 2. The ends of a range -/

/-- One of two numbers is one of two options, and on the right side of the second. -/
theorem mergeOption_spec {pick : Binary64 → Binary64 → Binary64} {le : Binary64 → Binary64 → Prop}
    (refl : ∀ x, le x x) {o o' : Option Binary64}
    (spec : ∀ x ∈ o, ∀ y ∈ o', (pick x y = x ∨ pick x y = y) ∧ le y (pick x y)) {m : Binary64}
    (h : mergeOption pick o o' = some m) : (m ∈ o ∨ m ∈ o') ∧ ∀ y ∈ o', le y m := by
  cases o with
  | none =>
      cases o' with
      | none => cases h
      | some y => cases h; exact ⟨Or.inr rfl, by rintro _ ⟨⟩; exact refl _⟩
  | some x =>
      cases o' with
      | none => cases h; exact ⟨Or.inl rfl, by simp⟩
      | some y =>
          cases h
          obtain ⟨either, le⟩ := spec x rfl y rfl
          refine ⟨either.imp (fun e => by rw [e]; rfl) fun e => by rw [e]; rfl, ?_⟩
          rintro _ ⟨⟩
          exact le

open Binary64 in
/-- The larger of two options is one of them and not below the second. -/
theorem mergeOption_max {o o' : Option Binary64} {m : Binary64} (h : mergeOption max o o' = some m)
    (nan : ∀ x ∈ o, x.isNaN = false) (nan' : ∀ y ∈ o', y.isNaN = false) :
    (m ∈ o ∨ m ∈ o') ∧ ∀ y ∈ o', y.units ≤ m.units :=
  @mergeOption_spec max (fun y m => y.units ≤ m.units) (fun _ => Int.le_refl _) _ _
    (fun x hx y hy => by
      obtain ⟨either, _, le⟩ := max_cases (nan x hx) (nan' y hy)
      exact ⟨either, le⟩) _ h

open Binary64 in
/-- The smaller of two options is one of them and not above the second. -/
theorem mergeOption_min {o o' : Option Binary64} {m : Binary64} (h : mergeOption min o o' = some m)
    (nan : ∀ x ∈ o, x.isNaN = false) (nan' : ∀ y ∈ o', y.isNaN = false) :
    (m ∈ o ∨ m ∈ o') ∧ ∀ y ∈ o', m.units ≤ y.units :=
  @mergeOption_spec min (fun y m => m.units ≤ y.units) (fun _ => Int.le_refl _) _ _
    (fun x hx y hy => by
      obtain ⟨either, _, le⟩ := min_cases (nan x hx) (nan' y hy)
      exact ⟨either, le⟩) _ h

namespace Scalar

open Binary64

/-- The bounds and hints of an integer are below `2 ^ 53` in magnitude. -/
structure Small (s : Scalar) : Prop where
  low : ∀ b ∈ s.minimum, b.value.IsSmall
  high : ∀ b ∈ s.maximum, b.value.IsSmall
  lowHint : ∀ x ∈ s.minimumForOptimizer, x.IsSmall
  highHint : ∀ x ∈ s.maximumForOptimizer, x.IsSmall

/-- An end of a range is a number, not infinite on its own side, and whole if it is the end of a
    small range of integers. -/
structure IsEnd (s : Scalar) (side : Binary64 → Prop) (x : Binary64) : Prop where
  nan : x.isNaN = false
  side : s.kind ≠ .integer → side x
  whole : s.kind = .integer → s.Small → x.IsSmallWhole

/-- Not the infinite number below all others. -/
def Above (x : Binary64) : Prop := -(weight infiniteMagnitude : Int) < x.units

/-- Not the infinite number above all others. -/
def Below (x : Binary64) : Prop := x.units < weight infiniteMagnitude

theorem isEnd_lowEnd (fin : s.Finite) {b : Bound} (hb : b ∈ s.minimum) :
    s.IsEnd Above (lowEnd (s.kind == .integer) b) := by
  have hf := fin.low b hb
  obtain ⟨lt, _⟩ := isFinite_iff_units.1 hf
  by_cases hk : s.kind = .integer
  · have e : lowEnd (s.kind == .integer) b = wholeLower b := by
      rw [hk]; unfold lowEnd wholeLower; cases b.exclusive <;> rfl
    rw [e]
    refine ⟨?_, fun ne => absurd hk ne, fun _ small =>
      isSmallWhole_wholeLower hf (small.low b hb)⟩
    unfold wholeLower
    split
    · exact (units_add_one (units_floor hf).2 (units_floor hf).1).2
    · exact isNaN_of_isFinite (units_ceil hf).2
  · have e : lowEnd (s.kind == .integer) b = if b.exclusive then b.value.nextUp else b.value := by
      rw [beq_false_of_ne hk]; unfold lowEnd; cases b.exclusive <;> rfl
    rw [e]
    obtain ⟨up, nan⟩ := units_lt_nextUp hf
    split
    · exact ⟨nan, fun _ => Int.lt_trans lt up, fun e => absurd e hk⟩
    · exact ⟨isNaN_of_isFinite hf, fun _ => lt, fun e => absurd e hk⟩

theorem isEnd_highEnd (fin : s.Finite) {b : Bound} (hb : b ∈ s.maximum) :
    s.IsEnd Below (highEnd (s.kind == .integer) b) := by
  have hf := fin.high b hb
  obtain ⟨_, lt⟩ := isFinite_iff_units.1 hf
  by_cases hk : s.kind = .integer
  · have e : highEnd (s.kind == .integer) b = wholeUpper b := by
      rw [hk]; unfold highEnd wholeUpper; cases b.exclusive <;> rfl
    rw [e]
    refine ⟨?_, fun ne => absurd hk ne, fun _ small =>
      isSmallWhole_wholeUpper hf (small.high b hb)⟩
    unfold wholeUpper
    split
    · exact (units_sub_one (units_ceil hf).2 (units_ceil hf).1).2
    · exact isNaN_of_isFinite (units_floor hf).2
  · have e : highEnd (s.kind == .integer) b = if b.exclusive then b.value.nextDown else b.value := by
      rw [beq_false_of_ne hk]; unfold highEnd; cases b.exclusive <;> rfl
    rw [e]
    obtain ⟨down, nan⟩ := nextDown_lt_units hf
    split
    · exact ⟨nan, fun _ => Int.lt_trans down lt, fun e => absurd e hk⟩
    · exact ⟨isNaN_of_isFinite hf, fun _ => lt, fun e => absurd e hk⟩

/-- A hint, made whole for integers, is an end. -/
theorem isEnd_hint {side : Binary64 → Prop} {whole : Binary64 → Binary64} {v : Binary64}
    (fin : v.isFinite = true) (own : side v) (rounded : (whole v).isFinite = true)
    (small : s.Small → (whole v).IsSmallWhole) :
    s.IsEnd side (if s.kind == .integer then whole v else v) := by
  by_cases hk : s.kind = .integer
  · rw [if_pos (by rw [hk]; rfl)]
    exact ⟨isNaN_of_isFinite rounded, fun ne => absurd hk ne, fun _ => small⟩
  · rw [if_neg (by simpa using hk)]
    exact ⟨isNaN_of_isFinite fin, fun _ => own, fun e => absurd e hk⟩

/-- **The lower end of a range covers the lower bound of the schema.** -/
theorem isEnd_sampledLow (fin : s.Finite) {low : Binary64} (h : s.sampledLow = some low) :
    s.IsEnd Above low ∧ ∀ b ∈ s.minimum, (lowEnd (s.kind == .integer) b).units ≤ low.units := by
  have hint : ∀ x ∈ s.minimumForOptimizer.map fun v => if s.kind == .integer then v.ceil else v,
      s.IsEnd Above x := by
    rintro _ hx
    obtain ⟨v, hv, rfl⟩ := Option.map_eq_some_iff.1 hx
    have hf := fin.lowHint v hv
    exact isEnd_hint hf (isFinite_iff_units.1 hf).1 (units_ceil hf).2 fun small =>
      (isSmallWhole_ceil hf (small.lowHint v hv)).1
  have bound : ∀ y ∈ s.minimum.map (lowEnd (s.kind == .integer)), s.IsEnd Above y := by
    rintro _ hy
    obtain ⟨b, hb, rfl⟩ := Option.map_eq_some_iff.1 hy
    exact isEnd_lowEnd fin hb
  obtain ⟨either, le⟩ := mergeOption_max h (fun x hx => (hint x hx).nan) fun y hy => (bound y hy).nan
  exact ⟨either.elim (hint low) (bound low), fun b hb => le _ (Option.map_eq_some_iff.2 ⟨b, hb, rfl⟩)⟩

/-- **The upper end of a range covers the upper bound of the schema.** -/
theorem isEnd_sampledHigh (fin : s.Finite) {high : Binary64} (h : s.sampledHigh = some high) :
    s.IsEnd Below high ∧ ∀ b ∈ s.maximum, high.units ≤ (highEnd (s.kind == .integer) b).units := by
  have hint : ∀ x ∈ s.maximumForOptimizer.map fun v => if s.kind == .integer then v.floor else v,
      s.IsEnd Below x := by
    rintro _ hx
    obtain ⟨v, hv, rfl⟩ := Option.map_eq_some_iff.1 hx
    have hf := fin.highHint v hv
    exact isEnd_hint hf (isFinite_iff_units.1 hf).2 (units_floor hf).2 fun small =>
      (isSmallWhole_floor hf (small.highHint v hv)).1
  have bound : ∀ y ∈ s.maximum.map (highEnd (s.kind == .integer)), s.IsEnd Below y := by
    rintro _ hy
    obtain ⟨b, hb, rfl⟩ := Option.map_eq_some_iff.1 hy
    exact isEnd_highEnd fin hb
  obtain ⟨either, le⟩ := mergeOption_min h (fun x hx => (hint x hx).nan) fun y hy => (bound y hy).nan
  exact ⟨either.elim (hint high) (bound high),
    fun b hb => le _ (Option.map_eq_some_iff.2 ⟨b, hb, rfl⟩)⟩

/-! ## 3. Values of a range -/

/-- What lies above the end made of a lower bound is not below the bound. -/
theorem below_eq_false_of_lowEnd {b : Bound} {x : Binary64} (nan : x.isNaN = false)
    (hb : b.value.isFinite = true) (small : s.kind = .integer → b.value.IsSmall)
    (whole : s.kind = .integer → ∃ m : Int, x.units = m * unitsPerOne)
    (h : (lowEnd (s.kind == .integer) b).units ≤ x.units) : below x b = false := by
  rw [below_eq_false_iff nan (isNaN_of_isFinite hb)]
  unfold lowEnd at h
  by_cases hk : s.kind = .integer
  · obtain ⟨m, hm⟩ := whole hk
    obtain ⟨low, high⟩ := small hk
    rw [show (s.kind == .integer) = true by rw [hk]; rfl] at h
    cases e : b.exclusive with
    | true =>
        simp only [e] at h
        have lt := lt_add_one_floor hb (Int.le_of_lt low) high
        exact ⟨by omega, fun _ => by omega⟩
    | false =>
        simp only [e] at h
        rw [hm, units_ceil_le_iff hb, ← hm] at h
        exact ⟨h, by simp⟩
  · rw [beq_false_of_ne hk] at h
    cases e : b.exclusive with
    | true =>
        simp only [e] at h
        have lt := (units_lt_nextUp hb).1
        exact ⟨by omega, fun _ => by omega⟩
    | false =>
        simp only [e] at h
        exact ⟨h, by simp⟩

/-- What lies below the end made of an upper bound is not above the bound. -/
theorem above_eq_false_of_highEnd {b : Bound} {x : Binary64} (nan : x.isNaN = false)
    (hb : b.value.isFinite = true) (small : s.kind = .integer → b.value.IsSmall)
    (whole : s.kind = .integer → ∃ m : Int, x.units = m * unitsPerOne)
    (h : x.units ≤ (highEnd (s.kind == .integer) b).units) : above x b = false := by
  rw [above_eq_false_iff nan (isNaN_of_isFinite hb)]
  unfold highEnd at h
  by_cases hk : s.kind = .integer
  · obtain ⟨m, hm⟩ := whole hk
    obtain ⟨low, high⟩ := small hk
    rw [show (s.kind == .integer) = true by rw [hk]; rfl] at h
    cases e : b.exclusive with
    | true =>
        simp only [e] at h
        have lt := sub_one_ceil_lt hb low (Int.le_of_lt high)
        exact ⟨by omega, fun _ => by omega⟩
    | false =>
        simp only [e] at h
        rw [hm, le_units_floor_iff hb, ← hm] at h
        exact ⟨h, by simp⟩
  · rw [beq_false_of_ne hk] at h
    cases e : b.exclusive with
    | true =>
        simp only [e] at h
        have lt := (nextDown_lt_units hb).1
        exact ⟨by omega, fun _ => by omega⟩
    | false =>
        simp only [e] at h
        exact ⟨h, by simp⟩

/-- The numbers between the ends are accepted. -/
theorem fits_between (fin : s.Finite) (small : s.kind = .integer → s.Small)
    (numeric : s.kind.isNumeric = true) (bare : s.enumeration = none) {low high : Binary64}
    (hl : s.sampledLow = some low) (hh : s.sampledHigh = some high) {n : Number} (proper : n.Proper)
    (whole : s.kind = .integer → n.isIntegral = true) (le : low.units ≤ n.toBinary64.units)
    (le' : n.toBinary64.units ≤ high.units) : s.Fits (.number n) := by
  have nan := Number.isNaN_toBinary64 proper
  have units : s.kind = .integer → ∃ m : Int, n.toBinary64.units = m * unitsPerOne := fun hk =>
    (Number.isIntegral_iff proper).1 (whole hk)
  refine ⟨?_, ?_, ?_, by simp [bare]⟩
  · unfold acceptsKind
    cases hk : s.kind with
    | integer => exact whole hk
    | number => rfl
    | _ => rw [hk] at numeric; cases numeric
  · rintro _ ⟨⟩ b hb
    exact below_eq_false_of_lowEnd nan (fin.low b hb) (fun hk => (small hk).low b hb) units
      (Int.le_trans ((isEnd_sampledLow fin hl).2 b hb) le)
  · rintro _ ⟨⟩ b hb
    exact above_eq_false_of_highEnd nan (fin.high b hb) (fun hk => (small hk).high b hb) units
      (Int.le_trans le' ((isEnd_sampledHigh fin hh).2 b hb))

/-- The ends of a range that is not one of integers are finite. -/
theorem isFinite_ends (fin : s.Finite) (hk : s.kind ≠ .integer) {low high : Binary64}
    (hl : s.sampledLow = some low) (hh : s.sampledHigh = some high) (h : high.less low = false) :
    low.isFinite = true ∧ high.isFinite = true := by
  have lower := (isEnd_sampledLow fin hl).1
  have upper := (isEnd_sampledHigh fin hh).1
  have le := (less_eq_false_iff upper.nan lower.nan).1 h
  have above : -(weight infiniteMagnitude : Int) < low.units := lower.side hk
  have below : high.units < weight infiniteMagnitude := upper.side hk
  exact ⟨isFinite_iff_units.2 ⟨above, by omega⟩, isFinite_iff_units.2 ⟨by omega, below⟩⟩

theorem serves_of_compileNumeric (fin : s.Finite) (small : s.kind = .integer → s.Small)
    (numeric : s.kind.isNumeric = true) (bare : s.enumeration = none)
    (h : compileNumeric s path = .ok c) : c.Serves path fun v => v.Proper ∧ s.Fits v := by
  obtain ⟨low, high, hl, hh, le, cases⟩ := compileNumeric_cases h
  have lower := (isEnd_sampledLow fin hl).1
  have upper := (isEnd_sampledHigh fin hh).1
  have le := (less_eq_false_iff upper.nan lower.nan).1 le
  by_cases hk : s.kind = .integer
  · obtain ⟨lowUnits, low1, low2⟩ := (lower.whole hk (small hk)).toInt64
    obtain ⟨highUnits, high1, high2⟩ := (upper.whole hk (small hk)).toInt64
    have between (i : Int) (hi : low.toInt64 ≤ i) (hi' : i ≤ high.toInt64) :
        (Json.int i).Proper ∧ s.Fits (.int i) := by
      have proper : (Number.int i).Proper := ⟨by omega, by omega⟩
      have units : (Number.int i).toBinary64.units = i * unitsPerOne := units_ofInt (by omega)
      refine ⟨proper, fits_between fin small numeric bare hl hh proper (fun _ => rfl) ?_ ?_⟩
      · rw [units, lowUnits]
        exact Int.mul_le_mul_of_nonneg_right hi (Int.le_of_lt unitsPerOne_pos)
      · rw [units, highUnits]
        exact Int.mul_le_mul_of_nonneg_right hi' (Int.le_of_lt unitsPerOne_pos)
    simp only [if_pos hk] at cases
    rcases cases with ⟨_, rfl⟩ | ⟨_, log, rfl⟩
    · refine Or.inl ⟨_, rfl, between _ (Int.le_refl _) ?_⟩
      rw [lowUnits, highUnits] at le
      exact Int.le_of_mul_le_mul_right le unitsPerOne_pos
    · refine Or.inr ⟨_, rfl, fun x hx => ?_⟩
      cases x with
      | int i => exact between i hx.1 hx.2
      | _ => exact hx.elim
  · have between (x : Binary64) (hx : x.isFinite = true) (lx : low.units ≤ x.units)
        (xh : x.units ≤ high.units) : (Json.float x).Proper ∧ s.Fits (.float x) := by
      rw [show Json.float x = .number (.float x) from if_pos hx]
      have proper : (Number.float x).Proper := hx
      exact ⟨proper, fits_between fin small numeric bare hl hh proper (fun e => absurd e hk) lx xh⟩
    simp only [if_neg hk] at cases
    obtain ⟨finite, _⟩ := isFinite_ends fin hk hl hh
      ((less_eq_false_iff upper.nan lower.nan).2 le)
    rcases cases with ⟨_, rfl⟩ | ⟨_, log, rfl⟩
    · exact Or.inl ⟨_, rfl, between low finite (Int.le_refl _) le⟩
    · refine Or.inr ⟨_, rfl, fun x hx => ?_⟩
      cases x with
      | float x =>
          obtain ⟨hx, lx, xh⟩ := hx
          have nan := isNaN_of_isFinite hx
          exact between x hx ((less_eq_false_iff nan lower.nan).1 lx)
            ((less_eq_false_iff upper.nan nan).1 xh)
      | _ => exact hx.elim

/-- **A scalar accepts what it compiles to.** -/
theorem serves_of_compileScalar (proper : s.Proper) (fin : s.Finite)
    (small : s.kind = .integer → s.Small) (h : compileScalar s path = .ok c) :
    c.Serves path fun v => v.Proper ∧ (Schema.scalar s).accepts v = true := by
  simp only [Schema.accepts_scalar_iff]
  rcases compileScalar_forms h with ⟨members, e, h⟩ | ⟨e, h⟩
  · obtain ⟨all, hall, rfl⟩ := Option.map_eq_some_iff.1 e
    refine serves_of_compileChoices h ?_
    have each := @accepts_toJson (.scalar s)
      (all.filter fun v => (({ s with enumeration := none } : Scalar).fault? v).isNone)
    simp only [Schema.accepts_scalar_iff] at each
    refine each fun m hm => ?_
    obtain ⟨hm, fits⟩ := List.mem_filter.1 hm
    have pm := proper all hall m hm
    have fits := fault?_eq_none_iff.1 (Option.isNone_iff_eq_none.1 fits)
    refine ⟨pm, fits.kind, fits.low, fits.high, fun members hms => ?_⟩
    obtain rfl : all = members := by rw [hall] at hms; exact Option.some.inj hms
    exact ⟨m, hm, Json.agrees_refl (isScalar_of_acceptsKind (s := { s with enumeration := none })
      fits.kind) pm⟩
  · have bare : s.enumeration = none := Option.map_eq_none_iff.1 e
    rcases h with ⟨hk, rfl⟩ | ⟨hk, rfl⟩ | ⟨numeric, h⟩
    · refine Or.inr ⟨_, rfl, fun x hx => ?_⟩
      cases x with
      | bool b =>
          exact ⟨trivial, by simp [acceptsKind, hk, Setting.toJson], by simp [Setting.toJson],
            by simp [Setting.toJson], by simp [bare]⟩
      | _ => exact hx.elim
    · exact Or.inl ⟨_, rfl, trivial, by simp [acceptsKind, hk], by simp, by simp, by simp [bare]⟩
    · exact serves_of_compileNumeric fin small numeric bare h

end Scalar

end TypedPipeline
