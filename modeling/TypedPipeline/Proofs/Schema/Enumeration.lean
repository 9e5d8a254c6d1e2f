import TypedPipeline.Schema.Builder
import TypedPipeline.Proofs.Schema.Ranges

/-!
# Proofs.Schema.Enumeration: what an enumeration of literal values accepts

Literal values are listed under their kinds, one branch for each; whole numbers go to the branch of the
other numbers if there are any. This file fixes:

* the kinds that have a branch (`branchKinds`), and the kind of the branch that a value goes to
  (`branchKind`), which admits it (`admits_branchKind`);
* that a branch lists exactly the values that go to it (`mem_membersOf_iff`), and accepts what agrees
  with one of them (`accepts_listedScalar_iff`);
* **that an enumeration accepts what agrees with a listed value and nothing else, and is well formed if
  a value is listed** (`enumeration_accepts_iff`).
-/

namespace TypedPipeline

namespace Schema

variable {values : List Json} {kind : ScalarKind} {m v : Json}

/-! ## 1. Kinds -/

/-- The kinds that have a branch. -/
def branchKinds (values : List Json) : List ScalarKind :=
  if (listedKinds values).contains .number then (listedKinds values).filter (· != .integer)
  else listedKinds values

/-- The kind of the branch that a value goes to. -/
def branchKind (values : List Json) (m : Json) : ScalarKind :=
  if listedKind m = .integer ∧ .number ∈ listedKinds values then .number else listedKind m

/-- The kinds listed are those listed before and those of the values. -/
theorem mem_foldl_listedKinds {kinds : List ScalarKind} :
    kind ∈ values.foldl
        (fun kinds v => if kinds.contains (listedKind v) then kinds else kinds ++ [listedKind v])
        kinds ↔
      kind ∈ kinds ∨ ∃ m ∈ values, listedKind m = kind := by
  induction values generalizing kinds with
  | nil => simp
  | cons first rest ih =>
      rw [List.foldl_cons, ih, List.exists_mem_cons_iff, ← or_assoc]
      refine or_congr_left ?_
      split
      · rename_i there
        exact ⟨Or.inl, fun h => h.elim id fun e => e ▸ List.contains_iff_mem.1 there⟩
      · rw [List.mem_append, List.mem_singleton, eq_comm (a := kind)]

theorem mem_listedKinds : kind ∈ listedKinds values ↔ ∃ m ∈ values, listedKind m = kind := by
  rw [listedKinds, mem_foldl_listedKinds]
  simp

/-- **The kinds that have a branch are those of the branches that values go to.** -/
theorem mem_branchKinds : kind ∈ branchKinds values ↔ ∃ m ∈ values, branchKind values m = kind := by
  unfold branchKinds branchKind
  by_cases numbers : ScalarKind.number ∈ listedKinds values
  · rw [if_pos (List.contains_iff_mem.2 numbers), List.mem_filter, mem_listedKinds, bne_iff_ne]
    constructor
    · intro ⟨⟨m, hm, own⟩, whole⟩
      exact ⟨m, hm, own ▸ if_neg fun h => whole (own ▸ h.1)⟩
    · intro ⟨m, hm, own⟩
      subst own
      split
      · exact ⟨mem_listedKinds.1 numbers, by decide⟩
      · rename_i h
        exact ⟨⟨m, hm, rfl⟩, fun whole => h ⟨whole, numbers⟩⟩
  · rw [if_neg (fun h => numbers (List.contains_iff_mem.1 h)), mem_listedKinds]
    simp only [numbers, and_false, if_false]

/-- A scalar value goes to a branch that may list it. -/
theorem admits_branchKind (scalar : m.isScalar = true) :
    (branchKind values m).admits m = true := by
  obtain ⟨found, hf⟩ : ∃ found, ScalarKind.ofValue? m = some found := by
    cases m with
    | array items => cases scalar
    | object members => cases scalar
    | _ => exact ⟨_, rfl⟩
  have own : listedKind m = found := by rw [listedKind, hf, Option.getD_some]
  rw [branchKind, own, ScalarKind.admits, hf]
  dsimp only
  split
  · rename_i h
    rw [h.1]
    rfl
  · simp

/-! ## 2. Branches -/

theorem mem_membersOf (h : m ∈ membersOf values kind) : m ∈ values := by
  unfold membersOf at h
  split at h
  · rcases List.mem_append.1 h with h | h
    · exact (List.mem_filter.1 h).1
    · exact (List.mem_filter.1 h).1
  · exact (List.mem_filter.1 h).1

/-- **A branch lists the values that go to it.** -/
theorem mem_membersOf_iff (h : kind ∈ branchKinds values) :
    m ∈ membersOf values kind ↔ m ∈ values ∧ branchKind values m = kind := by
  have other (whole : kind = .integer) : ScalarKind.number ∉ listedKinds values := by
    intro numbers
    rw [branchKinds, if_pos (List.contains_iff_mem.2 numbers), List.mem_filter] at h
    exact absurd whole (bne_iff_ne.1 h.2)
  unfold membersOf branchKind
  by_cases number : kind = .number
  · -- there is a number, so every whole number goes to the numbers
    have numbers : ScalarKind.number ∈ listedKinds values := by
      rw [branchKinds] at h
      split at h
      · exact List.contains_iff_mem.1 ‹_›
      · exact number ▸ h
    subst number
    simp only [if_true, List.mem_append, List.mem_filter, beq_iff_eq, ← and_or_left, numbers, and_true]
    refine and_congr_right fun _ => ?_
    split <;> simp_all
  · simp only [number, if_false, List.mem_filter, beq_iff_eq]
    refine and_congr_right fun _ => ?_
    split
    · rename_i joined
      have := joined.1
      refine ⟨fun e => absurd joined.2 (other (e ▸ this)), fun e => absurd e.symm number⟩
    · rfl

/-- The scalar of one kind in an enumeration. -/
def listedScalar (values : List Json) (kind : ScalarKind) : Scalar :=
  { kind, enumeration := some (membersOf values kind) }

/-- **A branch accepts what agrees with a value that goes to it.** -/
theorem accepts_listedScalar_iff (scalars : ∀ m ∈ values, m.isScalar = true)
    (proper : ∀ m ∈ values, m.Proper) (h : kind ∈ branchKinds values) (pv : v.Proper) :
    (Schema.scalar (listedScalar values kind)).accepts v = true ↔
      ∃ m ∈ values, branchKind values m = kind ∧ m.agrees v = true := by
  rw [accepts_scalar_iff]
  constructor
  · intro fits
    obtain ⟨m, hm, agrees⟩ := fits.member _ rfl
    obtain ⟨hm, own⟩ := (mem_membersOf_iff h).1 hm
    exact ⟨m, hm, own, agrees⟩
  · intro ⟨m, hm, own, agrees⟩
    subst own
    have scalar := scalars m hm
    have listed : m ∈ membersOf values (branchKind values m) := (mem_membersOf_iff h).2 ⟨hm, rfl⟩
    have fits : (listedScalar values (branchKind values m)).Fits m :=
      ⟨acceptsKind_of_admits (x := listedScalar values _) (admits_branchKind scalar),
        by simp [listedScalar], by simp [listedScalar], fun members hms => by
          cases hms
          exact ⟨m, listed, Json.agrees_refl scalar (proper m hm)⟩⟩
    exact Scalar.fits_congr (Json.isScalar_of_agrees scalar
      (Json.Proper.agrees_symm (proper m hm) pv agrees)) (proper m hm) pv agrees fits

/-! ## 3. Enumerations -/

/-- An enumeration is its branch, or the union of its branches. -/
theorem enumeration_cases (values : List Json) :
    (∃ kind, branchKinds values = [kind] ∧ enumeration values = .scalar (listedScalar values kind)) ∨
      enumeration values =
        .anyOf ((branchKinds values).map fun kind => .scalar (listedScalar values kind)) := by
  unfold enumeration branchKinds
  dsimp only
  generalize (if (listedKinds values).contains .number then
    (listedKinds values).filter (· != .integer) else listedKinds values) = kinds
  cases kinds with
  | nil => exact Or.inr rfl
  | cons kind rest =>
      cases rest with
      | nil => exact Or.inl ⟨kind, rfl, rfl⟩
      | cons next rest => exact Or.inr rfl

theorem accepts_enumeration_iff :
    (enumeration values).accepts v = true ↔
      ∃ kind ∈ branchKinds values, (Schema.scalar (listedScalar values kind)).accepts v = true := by
  rcases enumeration_cases values with ⟨kind, only, e⟩ | e
  · rw [e, only]
    simp
  · rw [e, accepts_anyOf]
    simp

theorem sound_enumeration (scalars : ∀ m ∈ values, m.isScalar = true) (ne : values ≠ []) :
    (enumeration values).Sound := by
  have branch : ∀ kind ∈ branchKinds values, (listedScalar values kind).Sound := by
    intro kind hk
    obtain ⟨m, hm, own⟩ := mem_branchKinds.1 hk
    refine sound_enumerated
      (List.ne_nil_of_mem ((mem_membersOf_iff hk).2 ⟨hm, own⟩)) fun w hw => ?_
    obtain ⟨listed, rfl⟩ := (mem_membersOf_iff hk).1 hw
    exact admits_branchKind (scalars w listed)
  rcases enumeration_cases values with ⟨kind, only, e⟩ | e
  · rw [e]
    exact every_scalar (branch kind (by rw [only]; exact List.mem_cons_self))
  · obtain ⟨m, hm⟩ := List.exists_mem_of_ne_nil values ne
    have some : branchKinds values ≠ [] := List.ne_nil_of_mem (mem_branchKinds.2 ⟨m, hm, rfl⟩)
    rw [e]
    refine Every.anyOf_iff.2 ⟨fun none => some (List.map_eq_nil_iff.1 none), fun b hb => ?_⟩
    obtain ⟨kind, hk, rfl⟩ := List.mem_map.1 hb
    exact every_scalar (branch kind hk)

/-- **An enumeration accepts what agrees with a listed value, and nothing else**, in whatever order the
    values are listed and however often. It is well formed if a value is listed. -/
theorem enumeration_accepts_iff (scalars : ∀ m ∈ values, m.isScalar = true)
    (proper : ∀ m ∈ values, m.Proper) :
    (∀ v : Json, v.Proper →
      ((enumeration values).accepts v = true ↔ ∃ m ∈ values, m.agrees v = true)) ∧
    (values ≠ [] → (enumeration values).isWellFormed = true) := by
  refine ⟨fun v pv => ?_, fun ne => isWellFormed_iff.2 (sound_enumeration scalars ne)⟩
  rw [accepts_enumeration_iff]
  constructor
  · intro ⟨kind, hk, accepted⟩
    obtain ⟨m, hm, -, agrees⟩ := (accepts_listedScalar_iff scalars proper hk pv).1 accepted
    exact ⟨m, hm, agrees⟩
  · intro ⟨m, hm, agrees⟩
    have hk := mem_branchKinds.2 ⟨m, hm, rfl⟩
    exact ⟨_, hk, (accepts_listedScalar_iff scalars proper hk pv).2 ⟨m, hm, rfl, agrees⟩⟩

/-- Values of every kind: one and two as integers, two also with a point, one and a half, and null
    twice. -/
def mixedValues : List Json :=
  [.null, .int 1, .bool true, .text "a", .number (.float (.ofInt 2)),
    .number (.float (.ofQuotient false (3 * Binary64.unitsPerOne) 2)), .int 2, .null]

/-- One with a point is accepted, for it agrees with one; three is not, nor is a text with that digit. -/
theorem enumeration_accepts_iff_mixedValues :
    ((∀ m ∈ mixedValues, m.isScalar = true) ∧ ∀ m ∈ mixedValues, m.Proper) ∧
      (enumeration mixedValues).isWellFormed = true ∧
      (enumeration mixedValues).accepts (.number (.float (.ofInt 1))) = true ∧
      (enumeration mixedValues).accepts (.int 3) = false ∧
      (enumeration mixedValues).accepts (.text "1") = false := by
  have scalars : ∀ m ∈ mixedValues, m.isScalar = true := by decide
  have proper : ∀ m ∈ mixedValues, m.Proper := by
    simp only [mixedValues, List.forall_mem_cons]
    refine ⟨trivial, ⟨by decide, by decide⟩, trivial, trivial, Binary64.isFinite_ofInt (by decide),
      ?_, ⟨by decide, by decide⟩, trivial, nofun⟩
    exact show Binary64.isFinite _ = true by decide +kernel
  obtain ⟨exact, wellFormed⟩ := enumeration_accepts_iff scalars proper
  refine ⟨⟨scalars, proper⟩, wellFormed (by decide), ?_, ?_, ?_⟩
  · have one : (Json.number (.float (.ofInt 1))).Proper := Binary64.isFinite_ofInt (by decide)
    exact (exact _ one).2 ⟨.int 1, by simp [mixedValues], by decide +kernel⟩
  · rw [Bool.eq_false_iff, Ne, exact (.int 3) ⟨by decide, by decide⟩]
    decide +kernel
  · rw [Bool.eq_false_iff, Ne, exact (.text "1") trivial]
    decide +kernel

end Schema

end TypedPipeline
