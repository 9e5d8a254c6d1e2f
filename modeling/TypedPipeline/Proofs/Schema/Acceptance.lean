import TypedPipeline.Schema.Validation
import TypedPipeline.Proofs.Schema.Parts

/-!
# Proofs.Schema.Acceptance: what each form of schema accepts

Whether a value is accepted does not hang on where it stands, only the refusal does. This file fixes:

* that independence (`isOk_validateAt`);
* one law for each form, by which acceptance is used from here on (`accepts_object`,
  `accepts_array`, `accepts_anyOf`, `accepts_allOf`, `accepts_oneOf`, `accepts_scalar`);
* what a scalar asks of a value (`Scalar.Fits`), and that it asks the same of values that agree
  (`Scalar.fits_congr`, `accepts_congr`).
-/

namespace TypedPipeline

theorem Except.isOk_andThen {ε : Type} (x y : Except ε Unit) :
    (x >>= fun _ => y).isOk = (x.isOk && y.isOk) := by
  cases x <;> rfl

theorem Except.isOk_iff {ε α : Type} {x : Except ε α} : x.isOk = true ↔ ∃ a, x = .ok a := by
  cases x <;> simp [Except.isOk, Except.toBool]

theorem Except.bind_eq_ok {ε α β : Type} {x : Except ε α} {f : α → Except ε β} {b : β} :
    (x >>= f) = .ok b ↔ ∃ a, x = .ok a ∧ f a = .ok b := by
  cases x with
  | error e =>
      constructor
      · intro h; cases h
      · rintro ⟨_, h, _⟩; cases h
  | ok a =>
      constructor
      · exact fun h => ⟨a, rfl, h⟩
      · rintro ⟨_, ⟨⟩, h⟩; exact h

namespace Schema

-- validation is opened at one form after the other below
attribute [local simp] validateAt

/-! ## 1. Parts of validation -/

theorem isOk_checkLength (length : Length) (count : Nat) (path : Path) :
    (checkLength length count path).isOk = true ↔
      (∀ n ∈ length.least, n ≤ count) ∧ ∀ n ∈ length.most, count ≤ n := by
  have least : length.least.filter (count < ·) = none ↔ ∀ n ∈ length.least, n ≤ count := by
    simp [Option.filter_eq_none_iff]
  have most : length.most.filter (· < count) = none ↔ ∀ n ∈ length.most, count ≤ n := by
    simp [Option.filter_eq_none_iff]
  rw [← least, ← most]
  unfold checkLength
  cases length.least.filter (count < ·) with
  | some n => exact ⟨fun h => (by cases h), fun h => (by cases h.1)⟩
  | none =>
      cases length.most.filter (· < count) with
      | some n => exact ⟨fun h => (by cases h), fun h => (by cases h.2)⟩
      | none => exact ⟨fun _ => ⟨rfl, rfl⟩, fun _ => rfl⟩

theorem isOk_checkItems {check : Json → Path → Outcome} {accepted : Json → Bool}
    (h : ∀ v p, (check v p).isOk = accepted v) (path : Path) (start : Nat) (items : List Json) :
    (checkItems check path start items).isOk = items.all accepted := by
  induction items generalizing start with
  | nil => rfl
  | cons item rest ih =>
      rw [checkItems, Except.isOk_andThen, h, ih, List.all_cons]

theorem undeclared?_isNone (properties : Keyed Schema) (members : Keyed Json) :
    undeclared? properties members = none ↔ ∀ name ∈ members.names, properties.has name = true := by
  simp [undeclared?, List.find?_eq_none]

theorem validateBranches_eq (branches : List Schema) (v : Json) (path : Path) :
    validateBranches branches v path = branches.map fun b => validateAt b v path := by
  induction branches with
  | nil => rfl
  | cons b rest ih => rw [validateBranches, ih, List.map_cons]

/-- Branches one after the other, up to the first that accepts, say what all of them say. -/
theorem validateSome_eq (branches : List Schema) (v : Json) (path : Path) :
    validateSome branches v path =
      if (validateBranches branches v path).countP (·.isOk) = 0 then
        .error (refusals (validateBranches branches v path))
      else .ok () := by
  induction branches with
  | nil => rfl
  | cons b rest ih =>
      rw [validateSome, validateBranches]
      cases validateAt b v path with
      | ok _ => rw [List.countP_cons_of_pos rfl, if_neg (Nat.succ_ne_zero _)]
      | error e =>
          rw [List.countP_cons_of_neg Bool.false_ne_true, ih]
          by_cases none : (validateBranches rest v path).countP (·.isOk) = 0
          · rw [if_pos none, if_pos none]
            rfl
          · rw [if_neg none, if_neg none]

/-- A union accepts if some branch does, and otherwise chooses among the refusals of all of them. -/
theorem validateAt_anyOf (branches : List Schema) (v : Json) (path : Path) :
    validateAt (.anyOf branches) v path =
      if (validateBranches branches v path).countP (·.isOk) = 0 then
        .error (unionRefusal (refusals (validateBranches branches v path)) path v)
      else .ok () := by
  rw [validateAt, validateSome_eq]
  by_cases none : (validateBranches branches v path).countP (·.isOk) = 0
  · rw [if_pos none, if_pos none]
  · rw [if_neg none, if_neg none]

theorem isOk_validateEvery {branches : List Schema} {v : Json} {path : Path} :
    (validateEvery branches v path).isOk = true ↔
      ∀ b ∈ branches, (validateAt b v path).isOk = true := by
  induction branches with
  | nil => simp [validateEvery, Except.isOk, Except.toBool]
  | cons b rest ih =>
      rw [validateEvery, Except.isOk_andThen, Bool.and_eq_true, ih, List.forall_mem_cons]

theorem isOk_validateSome {branches : List Schema} {v : Json} {path : Path} :
    (validateSome branches v path).isOk = true ↔
      ∃ b ∈ branches, (validateAt b v path).isOk = true := by
  induction branches with
  | nil => simp [validateSome, Except.isOk, Except.toBool]
  | cons b rest ih =>
      simp only [validateSome, List.mem_cons, exists_eq_or_imp, ← ih]
      cases validateAt b v path with
      | ok _ => simp [Except.isOk, Except.toBool]
      | error e => cases validateSome rest v path <;> simp [Except.isOk, Except.toBool]

theorem isOk_oneBranch (outcomes : List Outcome) (path : Path) (v : Json) :
    (oneBranch outcomes path v).isOk = (outcomes.countP (·.isOk) == 1) := by
  unfold oneBranch
  split
  · rename_i h; rw [h]; rfl
  · rename_i h; rw [h]; rfl
  · rename_i h _
    rw [eq_comm, beq_eq_false_iff_ne.2 h]; rfl

/-- A property that is there is accepted, and one that is not is not required. -/
def AcceptsProperty (rules : ObjectRules) (members : Keyed Json) (accepted : Json → Bool)
    (name : String) : Bool :=
  match members.find? name with
  | some v => accepted v
  | none => !rules.requires name

theorem isOk_validateProperties {properties : List (String × Schema)} {rules : ObjectRules}
    {members : Keyed Json} {path : Path} :
    (validateProperties properties rules members path).isOk = true ↔ ∀ p ∈ properties,
      AcceptsProperty rules members (fun v => (validateAt p.2 v (path.property p.1)).isOk) p.1
        = true := by
  induction properties with
  | nil => simp [validateProperties, Except.isOk, Except.toBool]
  | cons head rest ih =>
      obtain ⟨name, s⟩ := head
      rw [validateProperties, List.forall_mem_cons, ← ih, ← Bool.and_eq_true, AcceptsProperty]
      refine Bool.eq_iff_iff.1 ?_
      cases members.find? name with
      | some v => exact Except.isOk_andThen _ _
      | none => cases rules.requires name <;> rfl

theorem isOk_validateAt_object {properties : Keyed Schema} {rules : ObjectRules}
    {members : Keyed Json} {path : Path} :
    (validateAt (.object properties rules) (.object members) path).isOk = true ↔
      (∀ p ∈ properties,
        AcceptsProperty rules members (fun v => (validateAt p.2 v (path.property p.1)).isOk) p.1
          = true) ∧
      (rules.isOpen = false → ∀ name ∈ members.names, properties.has name = true) := by
  rw [validateAt, Except.isOk_andThen, Bool.and_eq_true, isOk_validateProperties]
  refine and_congr_right fun _ => ?_
  cases rules.isOpen with
  | true => simp [Except.isOk, Except.toBool]
  | false =>
      rw [← undeclared?_isNone]
      cases undeclared? properties members <;> simp [Except.isOk, Except.toBool]

theorem isOk_validateAt_anyOf {branches : List Schema} {v : Json} {path : Path} :
    (validateAt (.anyOf branches) v path).isOk = true ↔
      ∃ b ∈ branches, (validateAt b v path).isOk = true := by
  rw [← isOk_validateSome, validateAt]
  cases validateSome branches v path <;> simp [Except.isOk, Except.toBool]

/-! ## 2. Acceptance -/

/-- **Acceptance does not hang on the place.** -/
theorem isOk_validateAt (s : Schema) (v : Json) (path : Path) :
    (validateAt s v path).isOk = s.accepts v := by
  suffices h : ∀ v path path', (validateAt s v path).isOk = true →
      (validateAt s v path').isOk = true from
    Bool.eq_iff_iff.2 ⟨h v path .root, h v .root path⟩
  clear v path
  induction s using Schema.induction with
  | any => intro v path path' _; rfl
  | scalar s =>
      intro v path path'
      simp only [validateAt]
      cases s.fault? v <;> exact id
  | object properties rules ih =>
      intro v path path'
      cases v with
      | object members =>
          intro h
          obtain ⟨each, closed⟩ := isOk_validateAt_object.1 h
          refine isOk_validateAt_object.2 ⟨fun p hp => ?_, closed⟩
          have own := each p hp
          unfold AcceptsProperty at own ⊢
          cases hm : Keyed.find? members p.1 with
          | some v => rw [hm] at own; exact ih p.1 p.2 hp v _ _ own
          | none => rw [hm] at own; exact own
      | _ => exact id
  | array items length ih =>
      intro v path path'
      cases v with
      | array values =>
          have ih : ∀ v p, (validateAt items v p).isOk = (validateAt items v .root).isOk :=
            fun v p => Bool.eq_iff_iff.2 ⟨ih v p .root, ih v .root p⟩
          simp only [validateAt, Except.isOk_andThen, Bool.and_eq_true, isOk_checkLength,
            isOk_checkItems ih]
          exact id
      | _ => exact id
  | anyOf branches ih =>
      intro v path path' h
      obtain ⟨b, hb, hv⟩ := isOk_validateAt_anyOf.1 h
      exact isOk_validateAt_anyOf.2 ⟨b, hb, ih b hb v path path' hv⟩
  | allOf branches ih =>
      intro v path path'
      simp only [validateAt, isOk_validateEvery]
      exact fun h b hb => ih b hb v path path' (h b hb)
  | oneOf branches ih =>
      intro v path path' h
      simp only [validateAt, isOk_oneBranch, validateBranches_eq, List.countP_map] at h ⊢
      rw [← h]
      congr 1
      exact List.countP_congr fun b hb => ⟨ih b hb v path' path, ih b hb v path path'⟩

variable {v : Json}

@[simp] theorem accepts_any : Schema.any.accepts v = true := rfl

theorem accepts_scalar {s : Scalar} : (Schema.scalar s).accepts v = (s.fault? v).isNone := by
  rw [accepts, validate, validateAt]
  cases s.fault? v <;> rfl

theorem accepts_object {properties : List (String × Schema)} {rules : ObjectRules} :
    (Schema.object properties rules).accepts v = true ↔ ∃ members, v = .object members ∧
      (∀ name s, (name, s) ∈ properties → AcceptsProperty rules members s.accepts name = true) ∧
      (rules.isOpen = false → ∀ name ∈ Keyed.names members, Keyed.has properties name = true) := by
  rw [accepts, validate]
  cases v with
  | object members =>
      rw [isOk_validateAt_object]
      simp only [isOk_validateAt, Prod.forall, Json.object.injEq, exists_eq_left']
  | _ => simp [validateAt, Except.isOk, Except.toBool]

/-- A member under a name that is required is there, and accepted. -/
theorem exists_required {properties : Keyed Schema} {rules : ObjectRules} {members : Keyed Json}
    {name : String} {s : Schema} (hs : properties.find? name = some s)
    (hr : name ∈ rules.required)
    (h : ∀ name s, (name, s) ∈ properties → AcceptsProperty rules members s.accepts name = true) :
    ∃ w, members.find? name = some w ∧ s.accepts w = true := by
  have hp := h name s (Keyed.mem_of_find? hs)
  unfold AcceptsProperty at hp
  cases hm : members.find? name with
  | some w => rw [hm] at hp; exact ⟨w, rfl, hp⟩
  | none =>
      rw [hm] at hp
      simp [ObjectRules.requires, hr] at hp

/-- A member under a declared name is accepted. -/
theorem accepts_of_find? {properties : Keyed Schema} {rules : ObjectRules} {members : Keyed Json}
    {name : String} {s : Schema} {w : Json} (hs : properties.find? name = some s)
    (hw : members.find? name = some w)
    (h : ∀ name s, (name, s) ∈ properties → AcceptsProperty rules members s.accepts name = true) :
    s.accepts w = true := by
  have hp := h name s (Keyed.mem_of_find? hs)
  unfold AcceptsProperty at hp
  rw [hw] at hp
  exact hp

/-- What an object schema asks of the place under one name. -/
def AcceptsAt (properties : Keyed Schema) (rules : ObjectRules) (members : Keyed Json)
    (name : String) : Prop :=
  match properties.find? name, members.find? name with
  | some s, some w => s.accepts w = true
  | some _, none => rules.requires name = false
  | none, some _ => rules.isOpen = true
  | none, none => True

/-- **An object is accepted if what stands under each name is.** -/
theorem accepts_object_iff {properties : Keyed Schema} {rules : ObjectRules}
    (h : Keyed.Ascending properties) :
    (Schema.object properties rules).accepts v = true ↔
      ∃ members, v = .object members ∧ ∀ name, AcceptsAt properties rules members name := by
  rw [accepts_object]
  refine exists_congr fun members => and_congr_right fun _ => ?_
  constructor
  · rintro ⟨each, closed⟩ name
    unfold AcceptsAt
    cases hs : properties.find? name with
    | some s =>
        have := each name s (Keyed.mem_of_find? hs)
        unfold AcceptsProperty at this
        cases hw : Keyed.find? members name with
        | some w => simpa only [hw] using this
        | none => simpa only [hw, Bool.not_eq_true'] using this
    | none =>
        cases hw : Keyed.find? members name with
        | none => trivial
        | some w =>
            show rules.isOpen = true
            refine Bool.not_eq_false _ ▸ fun shut => ?_
            have := closed shut name (List.mem_map.2 ⟨_, Keyed.mem_of_find? hw, rfl⟩)
            rw [Keyed.has, hs] at this
            cases this
  · intro at'
    constructor
    · intro name s hs
      have := at' name
      unfold AcceptsAt at this
      rw [Keyed.find?_of_mem (Keyed.nodup_of_ascending h) hs] at this
      unfold AcceptsProperty
      cases hw : Keyed.find? members name with
      | some w => simpa only [hw] using this
      | none => simpa only [hw, Bool.not_eq_true'] using this
    · intro shut name hn
      have := at' name
      unfold AcceptsAt at this
      obtain ⟨w, hw⟩ := Option.isSome_iff_exists.1 (Keyed.has_iff.2 hn)
      cases hs : properties.find? name with
      | some s => rw [Keyed.has, hs]; rfl
      | none => simp [hs, hw, shut] at this

theorem accepts_array {items : Schema} {length : Length} :
    (Schema.array items length).accepts v = true ↔ ∃ values, v = .array values ∧
      ((∀ n ∈ length.least, n ≤ values.length) ∧ ∀ n ∈ length.most, values.length ≤ n) ∧
      ∀ value ∈ values, items.accepts value = true := by
  rw [accepts, validate]
  cases v with
  | array values =>
      simp only [validateAt, Except.isOk_andThen, isOk_checkItems (isOk_validateAt items),
        Bool.and_eq_true, isOk_checkLength, List.all_eq_true, Json.array.injEq, exists_eq_left']
  | _ => simp [validateAt, Except.isOk, Except.toBool]

theorem accepts_anyOf {branches : List Schema} :
    (Schema.anyOf branches).accepts v = true ↔ ∃ b ∈ branches, b.accepts v = true := by
  rw [accepts, validate, isOk_validateAt_anyOf]
  simp only [isOk_validateAt]

theorem accepts_allOf {branches : List Schema} :
    (Schema.allOf branches).accepts v = true ↔ ∀ b ∈ branches, b.accepts v = true := by
  rw [accepts, validate, validateAt, isOk_validateEvery]
  simp only [isOk_validateAt]

theorem accepts_oneOf {branches : List Schema} :
    (Schema.oneOf branches).accepts v = true ↔ branches.countP (·.accepts v) = 1 := by
  rw [accepts, validate, validateAt, isOk_oneBranch, validateBranches_eq, List.countP_map,
    beq_iff_eq]
  simp only [Function.comp_def, isOk_validateAt]

theorem exists_of_accepts_oneOf {branches : List Schema}
    (h : (Schema.oneOf branches).accepts v = true) : ∃ b ∈ branches, b.accepts v = true :=
  List.countP_pos_iff.1 (by rw [accepts_oneOf.1 h]; decide)

/-- What a union accepts is accepted by one of its branches. -/
theorem IsUnion.exists_accepts {u : Schema} {branches : List Schema} (union : IsUnion u branches)
    (h : u.accepts v = true) : ∃ b ∈ branches, b.accepts v = true := by
  rcases union with rfl | rfl
  · exact accepts_anyOf.1 h
  · exact exists_of_accepts_oneOf h

end Schema

/-! ## 3. Scalars -/

namespace Scalar

/-- What a scalar asks of a value: its kind, a place in the range, and membership. -/
structure Fits (s : Scalar) (v : Json) : Prop where
  kind : s.acceptsKind v = true
  low : ∀ n, v = .number n → ∀ b ∈ s.minimum, below n.toBinary64 b = false
  high : ∀ n, v = .number n → ∀ b ∈ s.maximum, above n.toBinary64 b = false
  member : ∀ members ∈ s.enumeration, ∃ m ∈ members, m.agrees v = true

theorem rangeFault?_eq_none_iff {s : Scalar} {v : Json} :
    s.rangeFault? v = none ↔ (∀ n, v = .number n → ∀ b ∈ s.minimum, below n.toBinary64 b = false) ∧
      ∀ n, v = .number n → ∀ b ∈ s.maximum, above n.toBinary64 b = false := by
  unfold rangeFault?
  cases v with
  | number n =>
      simp only [Json.asBinary64?, Json.number.injEq, forall_eq']
      generalize n.toBinary64 = x
      cases s.minimum with
      | none => cases s.maximum with
        | none => simp
        | some high => cases h : above x high <;> simp [Option.filter, h]
      | some low => cases h : below x low with
        | true => simp [Option.filter, h]
        | false => cases s.maximum with
          | none => simp [Option.filter, h]
          | some high => cases h' : above x high <;> simp [Option.filter, h, h']
  | _ => simp [Json.asBinary64?]

theorem fault?_eq_none_iff {s : Scalar} {v : Json} : s.fault? v = none ↔ s.Fits v := by
  have split : s.Fits v ↔ s.acceptsKind v = true ∧ s.rangeFault? v = none ∧
      ∀ members ∈ s.enumeration, ∃ m ∈ members, m.agrees v = true := by
    rw [rangeFault?_eq_none_iff]
    exact ⟨fun h => ⟨h.kind, ⟨h.low, h.high⟩, h.member⟩, fun h => ⟨h.1, h.2.1.1, h.2.1.2, h.2.2⟩⟩
  rw [split, fault?]
  cases s.acceptsKind v with
  | false => simp
  | true =>
      cases s.rangeFault? v with
      | some reason => simp
      | none =>
          cases s.enumeration with
          | none => simp
          | some members => simp

end Scalar

theorem Schema.accepts_scalar_iff {s : Scalar} {v : Json} :
    (Schema.scalar s).accepts v = true ↔ s.Fits v := by
  rw [accepts_scalar, Option.isNone_iff_eq_none, Scalar.fault?_eq_none_iff]

namespace Scalar

open Binary64

variable {s : Scalar} {x y : Binary64} {b : Bound}

theorem below_eq_false_iff (hx : x.isNaN = false) (hb : b.value.isNaN = false) :
    below x b = false ↔ b.value.units ≤ x.units ∧ (b.exclusive = true → x.units ≠ b.value.units) := by
  rw [below, Bool.or_eq_false_iff, less_eq_false_iff hx hb, Bool.and_eq_false_imp,
    equals_eq_false_iff hx hb]

theorem above_eq_false_iff (hx : x.isNaN = false) (hb : b.value.isNaN = false) :
    above x b = false ↔ x.units ≤ b.value.units ∧ (b.exclusive = true → x.units ≠ b.value.units) := by
  rw [above, Bool.or_eq_false_iff, less_eq_false_iff hb hx, Bool.and_eq_false_imp,
    equals_eq_false_iff hx hb]

theorem below_congr (hx : x.isNaN = false) (hy : y.isNaN = false) (h : x.units = y.units) :
    below x b = below y b := by
  rw [Bool.eq_iff_iff]
  simp only [below, Bool.or_eq_true, Bool.and_eq_true, less_iff, equals_iff, hx, hy, h]

theorem above_congr (hx : x.isNaN = false) (hy : y.isNaN = false) (h : x.units = y.units) :
    above x b = above y b := by
  rw [Bool.eq_iff_iff]
  simp only [above, Bool.or_eq_true, Bool.and_eq_true, less_iff, equals_iff, hx, hy, h]

variable {v w : Json}

/-- A scalar accepts scalar values only. -/
theorem isScalar_of_acceptsKind (h : s.acceptsKind v = true) : v.isScalar = true := by
  cases v with
  | array items => cases hk : s.kind <;> simp [acceptsKind, hk, Json.isIntegral] at h
  | object members => cases hk : s.kind <;> simp [acceptsKind, hk, Json.isIntegral] at h
  | _ => rfl

/-- Numbers that agree are of the same kinds. -/
theorem acceptsKind_number {m n : Number} (hm : m.Proper) (hn : n.Proper)
    (h : m.toBinary64.units = n.toBinary64.units) :
    s.acceptsKind (.number m) = true → s.acceptsKind (.number n) = true := by
  unfold acceptsKind
  cases s.kind with
  | integer =>
      simp only [Json.isIntegral, Number.isIntegral_iff hm, Number.isIntegral_iff hn, h]
      exact id
  | _ => exact id

/-- **A scalar asks the same of values that agree.** -/
theorem fits_congr (hw : w.isScalar = true) (pv : v.Proper) (pw : w.Proper)
    (h : v.agrees w = true) (fits : s.Fits v) : s.Fits w := by
  rcases Json.agrees_cases hw h with rfl | ⟨m, n, rfl, rfl, e⟩
  · exact fits
  · have units := (Number.agrees_iff pv pw).1 e
    have nm := Number.isNaN_toBinary64 (x := m) pv
    have nn := Number.isNaN_toBinary64 (x := n) pw
    refine ⟨acceptsKind_number pv pw units fits.kind, ?_, ?_, ?_⟩
    · rintro _ ⟨⟩ b hb
      rw [← below_congr nm nn units]
      exact fits.low _ rfl b hb
    · rintro _ ⟨⟩ b hb
      rw [← above_congr nm nn units]
      exact fits.high _ rfl b hb
    · intro members he
      obtain ⟨k, hk, a⟩ := fits.member members he
      exact ⟨k, hk, Json.agrees_trans a h⟩

end Scalar

namespace Schema

/-- **A schema accepts scalar values that agree alike.** -/
theorem accepts_congr {v w : Json} (hw : w.isScalar = true) (pv : v.Proper) (pw : w.Proper)
    (h : v.agrees w = true) (s : Schema) : s.accepts v = s.accepts w := by
  have hv := Json.isScalar_of_agrees hw h
  induction s using Schema.induction with
  | any => rfl
  | scalar s =>
      rw [Bool.eq_iff_iff, accepts_scalar_iff, accepts_scalar_iff]
      exact ⟨Scalar.fits_congr hw pv pw h, Scalar.fits_congr hv pw pv (Json.agrees_symm hw h)⟩
  | object properties rules _ =>
      rw [Bool.eq_iff_iff, accepts_object, accepts_object]
      constructor
      · rintro ⟨members, rfl, _⟩; cases hv
      · rintro ⟨members, rfl, _⟩; cases hw
  | array items length _ =>
      rw [Bool.eq_iff_iff, accepts_array, accepts_array]
      constructor
      · rintro ⟨values, rfl, _⟩; cases hv
      · rintro ⟨values, rfl, _⟩; cases hw
  | anyOf branches ih =>
      rw [Bool.eq_iff_iff, accepts_anyOf, accepts_anyOf]
      exact exists_congr fun b => and_congr_right fun hb => by rw [ih b hb]
  | allOf branches ih =>
      rw [Bool.eq_iff_iff, accepts_allOf, accepts_allOf]
      exact forall₂_congr fun b hb => by rw [ih b hb]
  | oneOf branches ih =>
      rw [Bool.eq_iff_iff, accepts_oneOf, accepts_oneOf,
        List.countP_congr fun b hb => by rw [ih b hb]]

end Schema

end TypedPipeline
