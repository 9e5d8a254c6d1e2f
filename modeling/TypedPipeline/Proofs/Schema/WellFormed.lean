import TypedPipeline.Schema.WellFormed
import TypedPipeline.Proofs.Schema.Acceptance

/-!
# Proofs.Schema.WellFormed: what the check of a schema establishes

The check walks through a schema and stops at the first fault. This file fixes:

* the invariants of one scalar, one object and one form (`Scalar.Sound`, `ObjectRules.Sound`,
  `SoundPart`);
* that the check passes exactly where they hold everywhere inside (`isWellFormed_iff`);
* what they leave of acceptance: members of enumerations are scalars (`Scalar.Sound.isScalar`);
* what they leave together with finite hints: scalars have finite ranges (`Schema.Sound.finite`), and
  a schema is equal to itself (`same_refl`), which one with a NaN inside would not be.
-/

namespace TypedPipeline

/-! ## 1. Scalars -/

/-- The invariants of one scalar. -/
structure Scalar.Sound (s : Scalar) : Prop where
  low : ∀ b ∈ s.minimum, s.kind.isNumeric = true ∧ b.value.isFinite = true
  high : ∀ b ∈ s.maximum, s.kind.isNumeric = true ∧ b.value.isFinite = true
  range : ∀ a ∈ s.minimum, ∀ b ∈ s.maximum, emptyRange a b = false
  optimizer : s.optimizerMalformation? = none
  log : s.logMalformation? = none
  member : ∀ members ∈ s.enumeration, members ≠ [] ∧ ∀ m ∈ members, s.kind.admits m = true

namespace Scalar

variable {s : Scalar}

theorem boundFault?_eq_none_iff {bound : Option Bound} :
    s.boundFault? bound = none ↔
      ∀ b ∈ bound, s.kind.isNumeric = true ∧ b.value.isFinite = true := by
  cases bound with
  | none => simp [boundFault?]
  | some b => cases h : s.kind.isNumeric <;> cases h' : b.value.isFinite <;> simp [boundFault?, h, h']

theorem rangeMalformation?_eq_none_iff :
    s.rangeMalformation? = none ↔ ∀ a ∈ s.minimum, ∀ b ∈ s.maximum, emptyRange a b = false := by
  unfold rangeMalformation?
  cases s.minimum with
  | none => simp
  | some a => cases s.maximum <;> simp

theorem enumerationMalformation?_eq_none_iff :
    s.enumerationMalformation? = none ↔
      ∀ members ∈ s.enumeration, members ≠ [] ∧ ∀ m ∈ members, s.kind.admits m = true := by
  unfold enumerationMalformation?
  cases s.enumeration with
  | none => simp
  | some members => cases members <;> simp [List.find?_eq_none]

theorem malformation?_eq_none_iff : s.malformation? = none ↔ s.Sound := by
  simp only [malformation?, Option.orElse_eq_orElse, Option.orElse_eq_or, Option.or_eq_none_iff,
    boundFault?_eq_none_iff, rangeMalformation?_eq_none_iff, enumerationMalformation?_eq_none_iff]
  exact ⟨fun h => ⟨h.1, h.2.1, h.2.2.1, h.2.2.2.1, h.2.2.2.2.1, h.2.2.2.2.2⟩,
    fun h => ⟨h.low, h.high, h.range, h.optimizer, h.log, h.member⟩⟩

/-- Only scalar values are of a scalar kind. -/
theorem isScalar_of_admits {kind : ScalarKind} {m : Json} (h : kind.admits m = true) :
    m.isScalar = true := by
  cases m with
  | array items => simp [ScalarKind.admits, ScalarKind.ofValue?] at h
  | object members => simp [ScalarKind.admits, ScalarKind.ofValue?] at h
  | _ => rfl

theorem Sound.isScalar (h : s.Sound) {members : List Json} (he : s.enumeration = some members)
    {m : Json} (hm : m ∈ members) : m.isScalar = true :=
  isScalar_of_admits ((h.member members he).2 m hm)

end Scalar

/-! ## 2. Schemas -/

/-- The invariants of one object schema. -/
structure ObjectRules.Sound (properties : Keyed Schema) (rules : ObjectRules) : Prop where
  required : ∀ name ∈ rules.required, properties.has name = true
  relevant : ∀ names ∈ rules.relevant, ∀ name ∈ names, properties.has name = true
  default : ∀ d ∈ rules.defaults, ∃ s, properties.find? d.1 = some s ∧ s.accepts d.2 = true

namespace Schema

/-- The invariants of one schema, those inside it apart. -/
def SoundPart : Schema → Prop
  | .any => True
  | .scalar s => s.Sound
  | .object properties rules => rules.Sound properties
  | .array _ length => ∀ a ∈ length.least, ∀ b ∈ length.most, a ≤ b
  | .anyOf branches => branches ≠ []
  | .allOf branches => branches ≠ []
  | .oneOf branches => branches ≠ []

/-- The invariants hold everywhere inside. -/
def Sound : Schema → Prop := Every SoundPart

theorem isOk_orMalformed {fault : Option Malformation} {path : Path} :
    (orMalformed fault path).isOk = true ↔ fault = none := by
  cases fault <;> simp [orMalformed, Except.isOk, Except.toBool]

theorem namesMalformation?_eq_none_iff {properties : Keyed Schema} {rules : ObjectRules} :
    namesMalformation? properties rules = none ↔
      (∀ name ∈ rules.required, properties.has name = true) ∧
        ∀ names ∈ rules.relevant, ∀ name ∈ names, properties.has name = true := by
  simp only [namesMalformation?, Option.orElse_eq_orElse, Option.orElse_eq_or,
    Option.or_eq_none_iff, Option.map_eq_none_iff, Option.bind_eq_none_iff, List.find?_eq_none,
    Bool.not_eq_eq_eq_not, Bool.not_true, Bool.not_eq_false]
  rfl

theorem isOk_checkDefaults {properties : Keyed Schema} {path : Path} {defaults : Keyed Json} :
    (checkDefaults properties path defaults).isOk = true ↔
      ∀ d ∈ defaults, ∃ s, properties.find? d.1 = some s ∧ s.accepts d.2 = true := by
  induction defaults with
  | nil => simp [checkDefaults, Except.isOk, Except.toBool]
  | cons d rest ih =>
      obtain ⟨name, value⟩ := d
      rw [checkDefaults, List.forall_mem_cons, ← ih]
      cases properties.find? name with
      | none => simp [Except.isOk, Except.toBool]
      | some s =>
          simp only [Option.some.injEq, exists_eq_left', accepts]
          cases s.validate value <;> simp [Except.isOk, Except.toBool]

theorem isOk_checkProperties {properties : List (String × Schema)} {path : Path} :
    (checkProperties properties path).isOk = true ↔
      ∀ p ∈ properties, (checkWellFormedAt p.2 (path.property p.1)).isOk = true := by
  induction properties with
  | nil => simp [checkProperties, Except.isOk, Except.toBool]
  | cons p rest ih =>
      rw [checkProperties, Except.isOk_andThen, Bool.and_eq_true, ih, List.forall_mem_cons]

theorem isOk_checkBranches {branches : List Schema} {path : Path} :
    (checkBranches branches path).isOk = true ↔
      ∀ b ∈ branches, (checkWellFormedAt b path).isOk = true := by
  induction branches with
  | nil => simp [checkBranches, Except.isOk, Except.toBool]
  | cons b rest ih =>
      rw [checkBranches, Except.isOk_andThen, Bool.and_eq_true, ih, List.forall_mem_cons]

theorem lengthMalformation?_eq_none_iff {length : Length} :
    lengthMalformation? length = none ↔ ∀ a ∈ length.least, ∀ b ∈ length.most, a ≤ b := by
  unfold lengthMalformation?
  cases length.least with
  | none => simp
  | some a => cases length.most <;> simp

theorem isOk_checkUnion {branches : List Schema} {form : String} {path : Path}
    (ih : ∀ b ∈ branches, ∀ path, (checkWellFormedAt b path).isOk = true ↔ b.Sound) :
    ((orMalformed (if branches.isEmpty then some (.noBranch form) else none) path >>= fun _ =>
      checkBranches branches path).isOk = true) ↔ branches ≠ [] ∧ ∀ b ∈ branches, b.Sound := by
  rw [Except.isOk_andThen, Bool.and_eq_true, isOk_orMalformed, isOk_checkBranches]
  refine and_congr ?_ (forall₂_congr fun b hb => ih b hb path)
  cases branches <;> simp

/-- **The check passes exactly where the invariants hold everywhere inside.** -/
theorem isOk_checkWellFormedAt (s : Schema) :
    ∀ path, (checkWellFormedAt s path).isOk = true ↔ s.Sound := by
  induction s using Schema.induction with
  | any => intro path; simp [checkWellFormedAt, Sound, Every, parts, SoundPart, Except.isOk, Except.toBool]
  | scalar s =>
      intro path
      rw [checkWellFormedAt, isOk_orMalformed, Scalar.malformation?_eq_none_iff]
      simp [Sound, Every, parts, SoundPart]
  | object properties rules ih =>
      intro path
      rw [checkWellFormedAt, Except.isOk_andThen, Except.isOk_andThen, Bool.and_eq_true,
        Bool.and_eq_true, isOk_orMalformed, isOk_checkProperties, isOk_checkDefaults,
        namesMalformation?_eq_none_iff, Sound, Every.object_iff]
      constructor
      · rintro ⟨⟨required, relevant⟩, each, default⟩
        exact ⟨⟨required, relevant, default⟩, fun name s hs => (ih name s hs _).1 (each (name, s) hs)⟩
      · rintro ⟨sound, each⟩
        exact ⟨⟨sound.required, sound.relevant⟩, fun p hp => (ih p.1 p.2 hp _).2 (each _ _ hp),
          sound.default⟩
  | array items length ih =>
      intro path
      rw [checkWellFormedAt, Except.isOk_andThen, Bool.and_eq_true, isOk_orMalformed, ih,
        lengthMalformation?_eq_none_iff, Sound, Every.array_iff]
      rfl
  | anyOf branches ih =>
      intro path
      rw [checkWellFormedAt, isOk_checkUnion ih, Sound, Every.anyOf_iff]
      rfl
  | allOf branches ih =>
      intro path
      rw [checkWellFormedAt, isOk_checkUnion ih, Sound, Every.allOf_iff]
      rfl
  | oneOf branches ih =>
      intro path
      rw [checkWellFormedAt, isOk_checkUnion ih, Sound, Every.oneOf_iff]
      rfl

theorem isWellFormed_iff {s : Schema} : s.isWellFormed = true ↔ s.Sound :=
  isOk_checkWellFormedAt s .root

end Schema

/-! ## 3. Finite schemas -/

/-- The bounds and hints are finite. -/
structure Scalar.Finite (s : Scalar) : Prop where
  low : ∀ b ∈ s.minimum, b.value.isFinite = true
  high : ∀ b ∈ s.maximum, b.value.isFinite = true
  lowHint : ∀ x ∈ s.minimumForOptimizer, x.isFinite = true
  highHint : ∀ x ∈ s.maximumForOptimizer, x.isFinite = true

theorem Schema.Sound.finite {s : Scalar} (sound : (Schema.scalar s).Sound)
    (hints : (Schema.scalar s).FiniteHints) : s.Finite :=
  ⟨fun b hb => (sound.self.low b hb).2, fun b hb => (sound.self.high b hb).2, hints.self.1,
    hints.self.2⟩

/-! ## 4. Equality -/

theorem sameOption_refl {α : Type} {eq : α → α → Bool} {o : Option α}
    (h : ∀ a ∈ o, eq a a = true) : sameOption eq o o = true := by
  cases o with
  | none => rfl
  | some a => exact h a rfl

theorem Scalar.same_refl {s : Scalar} (fin : s.Finite) (proper : s.Proper) : s.same s = true := by
  have bound (b : Bound) (h : b.value.isFinite = true) : b.same b = true := by
    simp [Bound.same, Binary64.equals_refl (Binary64.isNaN_of_isFinite h)]
  have hint (x : Binary64) (h : x.isFinite = true) : x.equals x = true :=
    Binary64.equals_refl (Binary64.isNaN_of_isFinite h)
  have members : sameOption Json.sameItems s.enumeration s.enumeration = true :=
    sameOption_refl fun values hv =>
      Json.sameItems_refl values (Json.properItems_iff.2 (proper values hv))
  simp only [Scalar.same, beq_self_eq_true, Bool.and_true, Bool.true_and, Bool.and_eq_true]
  exact ⟨⟨⟨⟨sameOption_refl fun b hb => bound b (fin.low b hb),
    sameOption_refl fun b hb => bound b (fin.high b hb)⟩, members⟩,
    sameOption_refl fun x hx => hint x (fin.lowHint x hx)⟩,
    sameOption_refl fun x hx => hint x (fin.highHint x hx)⟩

namespace Schema

theorem sameBranches_refl {branches : List Schema} (h : ∀ b ∈ branches, b.same b = true) :
    sameBranches branches branches = true := by
  induction branches with
  | nil => rfl
  | cons b rest ih =>
      obtain ⟨first, later⟩ := List.forall_mem_cons.1 h
      rw [sameBranches, first, ih later]
      rfl

theorem sameProperties_refl {properties : List (String × Schema)}
    (h : ∀ name s, (name, s) ∈ properties → s.same s = true) :
    sameProperties properties properties = true := by
  induction properties with
  | nil => rfl
  | cons p rest ih =>
      obtain ⟨name, s⟩ := p
      rw [sameProperties, h name s List.mem_cons_self,
        ih fun name s hs => h name s (List.mem_cons_of_mem _ hs), beq_self_eq_true]
      rfl

/-- **A well-formed schema with finite hints is equal to itself.** -/
theorem same_refl {s : Schema} (sound : s.Sound) (proper : s.Proper) (hints : s.FiniteHints) :
    s.same s = true := by
  induction s using Schema.induction with
  | any => rfl
  | scalar s => exact Scalar.same_refl (sound.finite hints) proper.self
  | object properties rules ih =>
      have each := sameProperties_refl fun name s hs =>
        ih name s hs (sound.property hs) (proper.property hs) (hints.property hs)
      have defaults : Json.sameMembers rules.defaults rules.defaults = true :=
        Json.sameMembers_refl _ (Json.properMembers_iff.2 proper.self.2.values)
      simp [same, each, ObjectRules.same, defaults]
  | array items length ih => simp [same, ih sound.items proper.items hints.items]
  | anyOf branches ih =>
      exact sameBranches_refl fun b hb => ih b hb (sound.anyOf hb) (proper.anyOf hb) (hints.anyOf hb)
  | allOf branches ih =>
      exact sameBranches_refl fun b hb => ih b hb (sound.allOf hb) (proper.allOf hb) (hints.allOf hb)
  | oneOf branches ih =>
      exact sameBranches_refl fun b hb => ih b hb (sound.oneOf hb) (proper.oneOf hb) (hints.oneOf hb)

end Schema

end TypedPipeline
