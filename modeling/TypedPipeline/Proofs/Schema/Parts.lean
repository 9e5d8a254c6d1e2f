import TypedPipeline.Schema
import TypedPipeline.Proofs.Keyed
import TypedPipeline.Proofs.Json.Agreement

/-!
# Proofs.Schema.Parts: what holds everywhere inside a schema

Most conditions on a schema are conditions on each schema inside it. This file fixes:

* induction over schemas, with a hypothesis for every property and every branch (`induction`);
* the list of all schemas inside a schema, itself included (`parts`), and what holds of all of them
  (`Every`), which the properties, items and branches inherit;
* that a schema is a union (`IsUnion`), an intersection, or has no branches (`IsAtomic`), and when two
  schemas without branches are of one form (`OneForm`);
* the schemas that there are (`Proper`): names ascend wherever they are listed, and literal values
  are proper;
* the conditions that theorems ask for: no intersection inside (`AllOfFree`), every declared
  property required (`RequiresDeclared`), small bounds of integers (`IntegerBounds`), finite hints
  (`FiniteHints`), names without points (`Dotless`).
-/

namespace TypedPipeline

namespace Schema

/-! ## 1. Induction -/

theorem size_le_of_mem_properties {name : String} {s : Schema}
    {properties : List (String × Schema)} (h : (name, s) ∈ properties) :
    s.size ≤ sizeProperties properties := by
  induction properties with
  | nil => simp at h
  | cons head rest ih =>
      obtain ⟨key, first⟩ := head
      rcases List.mem_cons.1 h with e | h
      · cases e; simp [sizeProperties]
      · have := ih h
        simp only [sizeProperties]; omega

theorem size_le_of_mem_branches {s : Schema} {branches : List Schema} (h : s ∈ branches) :
    s.size ≤ sizeBranches branches := by
  induction branches with
  | nil => simp at h
  | cons head rest ih =>
      rcases List.mem_cons.1 h with rfl | h
      · simp [sizeBranches]
      · have := ih h
        simp only [sizeBranches]; omega

theorem size_lt_anyOf {b : Schema} {branches : List Schema} (h : b ∈ branches) :
    b.size < (anyOf branches).size := by
  have := size_le_of_mem_branches h
  simp only [size]; omega

theorem size_lt_allOf {b : Schema} {branches : List Schema} (h : b ∈ branches) :
    b.size < (allOf branches).size := by
  have := size_le_of_mem_branches h
  simp only [size]; omega

theorem size_lt_oneOf {b : Schema} {branches : List Schema} (h : b ∈ branches) :
    b.size < (oneOf branches).size := by
  have := size_le_of_mem_branches h
  simp only [size]; omega

/-- **Induction over schemas.** -/
@[elab_as_elim]
theorem induction {P : Schema → Prop} (any : P .any) (scalar : ∀ s, P (.scalar s))
    (object : ∀ properties rules, (∀ name s, (name, s) ∈ properties → P s) →
      P (.object properties rules))
    (array : ∀ items length, P items → P (.array items length))
    (anyOf : ∀ branches, (∀ b ∈ branches, P b) → P (.anyOf branches))
    (allOf : ∀ branches, (∀ b ∈ branches, P b) → P (.allOf branches))
    (oneOf : ∀ branches, (∀ b ∈ branches, P b) → P (.oneOf branches)) (s : Schema) : P s := by
  induction hn : s.size using Nat.strongRecOn generalizing s with
  | ind n ih =>
      subst hn
      cases s with
      | any => exact any
      | scalar s => exact scalar s
      | object properties rules =>
          refine object _ _ fun name s hs => ih s.size ?_ s rfl
          have := size_le_of_mem_properties hs
          simp only [size]; omega
      | array items length => exact array _ _ (ih items.size (by simp only [size]; omega) items rfl)
      | anyOf branches => exact anyOf _ fun b hb => ih b.size (size_lt_anyOf hb) b rfl
      | allOf branches => exact allOf _ fun b hb => ih b.size (size_lt_allOf hb) b rfl
      | oneOf branches => exact oneOf _ fun b hb => ih b.size (size_lt_oneOf hb) b rfl

/-! ## 2. Parts -/

mutual

/-- A schema and every schema inside it. -/
def parts : Schema → List Schema
  | .any => [.any]
  | .scalar s => [.scalar s]
  | .object properties rules => .object properties rules :: partsOfProperties properties
  | .array items length => .array items length :: items.parts
  | .anyOf branches => .anyOf branches :: partsOfBranches branches
  | .allOf branches => .allOf branches :: partsOfBranches branches
  | .oneOf branches => .oneOf branches :: partsOfBranches branches

def partsOfProperties : List (String × Schema) → List Schema
  | [] => []
  | (_, s) :: rest => s.parts ++ partsOfProperties rest

def partsOfBranches : List Schema → List Schema
  | [] => []
  | s :: rest => s.parts ++ partsOfBranches rest

end

theorem mem_partsOfProperties {t : Schema} {properties : List (String × Schema)} :
    t ∈ partsOfProperties properties ↔ ∃ name s, (name, s) ∈ properties ∧ t ∈ s.parts := by
  induction properties with
  | nil => simp [partsOfProperties]
  | cons head rest ih =>
      obtain ⟨key, first⟩ := head
      simp only [partsOfProperties, List.mem_append, ih, List.mem_cons, Prod.mk.injEq]
      constructor
      · rintro (h | ⟨name, s, hs, h⟩)
        · exact ⟨key, first, Or.inl ⟨rfl, rfl⟩, h⟩
        · exact ⟨name, s, Or.inr hs, h⟩
      · rintro ⟨name, s, ⟨rfl, rfl⟩ | hs, h⟩
        · exact Or.inl h
        · exact Or.inr ⟨name, s, hs, h⟩

theorem mem_partsOfBranches {t : Schema} {branches : List Schema} :
    t ∈ partsOfBranches branches ↔ ∃ b ∈ branches, t ∈ b.parts := by
  induction branches with
  | nil => simp [partsOfBranches]
  | cons head rest ih => simp [partsOfBranches, ih]

theorem self_mem_parts (s : Schema) : s ∈ s.parts := by
  cases s <;> simp [parts]

theorem property_mem_parts {name : String} {s : Schema} {properties : List (String × Schema)}
    {rules : ObjectRules} (h : (name, s) ∈ properties) : s ∈ (object properties rules).parts :=
  List.mem_cons_of_mem _ (mem_partsOfProperties.2 ⟨name, s, h, s.self_mem_parts⟩)

theorem items_mem_parts {s : Schema} {length : Length} : s ∈ (array s length).parts :=
  List.mem_cons_of_mem _ s.self_mem_parts

theorem branch_mem_parts {b : Schema} {branches : List Schema} (h : b ∈ branches) :
    b ∈ partsOfBranches branches := mem_partsOfBranches.2 ⟨b, h, b.self_mem_parts⟩

theorem mem_parts_trans {s t u : Schema} (ht : t ∈ s.parts) (hu : u ∈ t.parts) : u ∈ s.parts := by
  induction s using Schema.induction with
  | any => rw [List.mem_singleton.1 ht] at hu; exact hu
  | scalar s => rw [List.mem_singleton.1 ht] at hu; exact hu
  | object properties rules ih =>
      rcases List.mem_cons.1 ht with rfl | ht
      · exact hu
      · obtain ⟨name, s, hs, ht⟩ := mem_partsOfProperties.1 ht
        exact List.mem_cons_of_mem _ (mem_partsOfProperties.2 ⟨name, s, hs, ih name s hs ht⟩)
  | array items length ih =>
      rcases List.mem_cons.1 ht with rfl | ht
      · exact hu
      · exact List.mem_cons_of_mem _ (ih ht)
  | anyOf branches ih | allOf branches ih | oneOf branches ih =>
      rcases List.mem_cons.1 ht with rfl | ht
      · exact hu
      · obtain ⟨b, hb, ht⟩ := mem_partsOfBranches.1 ht
        exact List.mem_cons_of_mem _ (mem_partsOfBranches.2 ⟨b, hb, ih b hb ht⟩)

/-- What holds of a schema and of every schema inside it. -/
def Every (P : Schema → Prop) (s : Schema) : Prop := ∀ t ∈ s.parts, P t

namespace Every

variable {P : Schema → Prop}

theorem self {s : Schema} (h : Every P s) : P s := h s s.self_mem_parts

theorem of_mem {s t : Schema} (h : Every P s) (ht : t ∈ s.parts) : Every P t :=
  fun u hu => h u (mem_parts_trans ht hu)

theorem property {name : String} {s : Schema} {properties : List (String × Schema)}
    {rules : ObjectRules} (h : Every P (.object properties rules)) (hs : (name, s) ∈ properties) :
    Every P s := fun t ht =>
  h t (List.mem_cons_of_mem _ (mem_partsOfProperties.2 ⟨name, s, hs, ht⟩))

theorem items {s : Schema} {length : Length} (h : Every P (.array s length)) : Every P s :=
  fun t ht => h t (List.mem_cons_of_mem _ ht)

theorem anyOf {b : Schema} {branches : List Schema} (h : Every P (.anyOf branches))
    (hb : b ∈ branches) : Every P b := fun t ht =>
  h t (List.mem_cons_of_mem _ (mem_partsOfBranches.2 ⟨b, hb, ht⟩))

theorem allOf {b : Schema} {branches : List Schema} (h : Every P (.allOf branches))
    (hb : b ∈ branches) : Every P b := fun t ht =>
  h t (List.mem_cons_of_mem _ (mem_partsOfBranches.2 ⟨b, hb, ht⟩))

theorem oneOf {b : Schema} {branches : List Schema} (h : Every P (.oneOf branches))
    (hb : b ∈ branches) : Every P b := fun t ht =>
  h t (List.mem_cons_of_mem _ (mem_partsOfBranches.2 ⟨b, hb, ht⟩))

theorem and_iff {Q : Schema → Prop} {s : Schema} :
    Every (fun t => P t ∧ Q t) s ↔ Every P s ∧ Every Q s :=
  ⟨fun h => ⟨fun t ht => (h t ht).1, fun t ht => (h t ht).2⟩, fun h t ht => ⟨h.1 t ht, h.2 t ht⟩⟩

theorem object_iff {properties : List (String × Schema)} {rules : ObjectRules} :
    Every P (.object properties rules) ↔
      P (.object properties rules) ∧ ∀ name s, (name, s) ∈ properties → Every P s := by
  refine ⟨fun h => ⟨h.self, fun _ _ hs => h.property hs⟩, fun ⟨h, hp⟩ t ht => ?_⟩
  rcases List.mem_cons.1 ht with rfl | ht
  · exact h
  · obtain ⟨name, s, hs, ht⟩ := mem_partsOfProperties.1 ht
    exact hp name s hs t ht

theorem array_iff {s : Schema} {length : Length} :
    Every P (.array s length) ↔ P (.array s length) ∧ Every P s := by
  refine ⟨fun h => ⟨h.self, h.items⟩, fun ⟨h, hs⟩ t ht => ?_⟩
  rcases List.mem_cons.1 ht with rfl | ht
  · exact h
  · exact hs t ht

theorem anyOf_iff {branches : List Schema} :
    Every P (.anyOf branches) ↔ P (.anyOf branches) ∧ ∀ b ∈ branches, Every P b := by
  refine ⟨fun h => ⟨h.self, fun _ hb => h.anyOf hb⟩, fun ⟨h, hb⟩ t ht => ?_⟩
  rcases List.mem_cons.1 ht with rfl | ht
  · exact h
  · obtain ⟨b, hb', ht⟩ := mem_partsOfBranches.1 ht
    exact hb b hb' t ht

theorem allOf_iff {branches : List Schema} :
    Every P (.allOf branches) ↔ P (.allOf branches) ∧ ∀ b ∈ branches, Every P b := by
  refine ⟨fun h => ⟨h.self, fun _ hb => h.allOf hb⟩, fun ⟨h, hb⟩ t ht => ?_⟩
  rcases List.mem_cons.1 ht with rfl | ht
  · exact h
  · obtain ⟨b, hb', ht⟩ := mem_partsOfBranches.1 ht
    exact hb b hb' t ht

theorem oneOf_iff {branches : List Schema} :
    Every P (.oneOf branches) ↔ P (.oneOf branches) ∧ ∀ b ∈ branches, Every P b := by
  refine ⟨fun h => ⟨h.self, fun _ hb => h.oneOf hb⟩, fun ⟨h, hb⟩ t ht => ?_⟩
  rcases List.mem_cons.1 ht with rfl | ht
  · exact h
  · obtain ⟨b, hb', ht⟩ := mem_partsOfBranches.1 ht
    exact hb b hb' t ht

end Every

/-! ## 3. Unions, intersections and forms -/

/-- The schema is a union of these branches. -/
def IsUnion (s : Schema) (branches : List Schema) : Prop := s = .anyOf branches ∨ s = .oneOf branches

/-- A schema without branches. -/
structure IsAtomic (s : Schema) : Prop where
  anyOf : ∀ branches, s ≠ .anyOf branches
  oneOf : ∀ branches, s ≠ .oneOf branches
  allOf : ∀ branches, s ≠ .allOf branches

/-- A schema that says itself of which form its values are. -/
structure IsForm (s : Schema) : Prop where
  any : s ≠ .any
  anyOf : ∀ branches, s ≠ .anyOf branches
  oneOf : ∀ branches, s ≠ .oneOf branches
  allOf : ∀ branches, s ≠ .allOf branches

/-- The two schemas are of one form, and are compared part by part. -/
inductive OneForm : Schema → Schema → Prop where
  | scalars (x y : Scalar) : OneForm (.scalar x) (.scalar y)
  | objects (as : Keyed Schema) (rules : ObjectRules) (bs : Keyed Schema) (others : ObjectRules) :
      OneForm (.object as rules) (.object bs others)
  | arrays (x : Schema) (length : Length) (y : Schema) (length' : Length) :
      OneForm (.array x length) (.array y length')

attribute [simp] OneForm.scalars OneForm.objects OneForm.arrays

section Branches

variable {s c : Schema} {branches : List Schema}

/-- Every schema is a union, an intersection, or has no branches. -/
theorem outer_cases (s : Schema) :
    (∃ branches, IsUnion s branches) ∨ (∃ branches, s = .allOf branches) ∨ s.IsAtomic := by
  cases s with
  | anyOf branches => exact Or.inl ⟨branches, Or.inl rfl⟩
  | oneOf branches => exact Or.inl ⟨branches, Or.inr rfl⟩
  | allOf branches => exact Or.inr (Or.inl ⟨branches, rfl⟩)
  | _ => exact Or.inr (Or.inr ⟨by simp, by simp, by simp⟩)

theorem IsUnion.size_lt (union : IsUnion s branches) (hc : c ∈ branches) : c.size < s.size := by
  rcases union with rfl | rfl
  · exact size_lt_anyOf hc
  · exact size_lt_oneOf hc

theorem IsUnion.mem_parts (union : IsUnion s branches) (hc : c ∈ branches) : c ∈ s.parts := by
  rcases union with rfl | rfl
  · exact List.mem_cons_of_mem _ (branch_mem_parts hc)
  · exact List.mem_cons_of_mem _ (branch_mem_parts hc)

theorem allOf_mem_parts (hc : c ∈ branches) : c ∈ (allOf branches).parts :=
  List.mem_cons_of_mem _ (branch_mem_parts hc)

theorem IsAtomic.cases (atomic : s.IsAtomic) : s = .any ∨ (∃ x, s = .scalar x) ∨
    (∃ properties rules, s = .object properties rules) ∨ ∃ items length, s = .array items length := by
  cases s with
  | anyOf branches => exact absurd rfl (atomic.anyOf branches)
  | oneOf branches => exact absurd rfl (atomic.oneOf branches)
  | allOf branches => exact absurd rfl (atomic.allOf branches)
  | _ => simp

theorem IsForm.isAtomic (form : s.IsForm) : s.IsAtomic := ⟨form.anyOf, form.oneOf, form.allOf⟩

theorem IsAtomic.isForm (atomic : s.IsAtomic) (any : s ≠ .any) : s.IsForm :=
  ⟨any, atomic.anyOf, atomic.oneOf, atomic.allOf⟩

/-- An intersection is no union, and neither is what has no branches. -/
theorem not_isUnion (h : (∃ branches, s = .allOf branches) ∨ s.IsAtomic) (cs : List Schema) :
    ¬IsUnion s cs := by
  rcases h with ⟨branches, rfl⟩ | atomic
  · rintro (e | e) <;> cases e
  · rintro (rfl | rfl)
    · exact atomic.anyOf cs rfl
    · exact atomic.oneOf cs rfl

end Branches

/-! ## 4. Proper schemas -/

end Schema

/-- Literal values are proper. -/
def Scalar.Proper (s : Scalar) : Prop := ∀ members, s.enumeration = some members →
  ∀ m ∈ members, m.Proper

/-- Sets of names ascend, and defaults are proper values under ascending names. -/
structure ObjectRules.Proper (rules : ObjectRules) : Prop where
  required : rules.required.Pairwise (· < ·)
  relevant : ∀ names, rules.relevant = some names → names.Pairwise (· < ·)
  defaults : Keyed.Ascending rules.defaults
  values : ∀ d ∈ rules.defaults, d.2.Proper

/-- Without defaults and names for the optimizer, only the required names have to ascend. -/
theorem ObjectRules.proper_plain_iff {required : Names} {isOpen : Bool} :
    ObjectRules.Proper { required, isOpen } ↔ required.Pairwise (· < ·) :=
  ⟨ObjectRules.Proper.required, fun h => ⟨h, by simp, .nil, by simp⟩⟩

namespace Schema

/-- What the data of a schema guarantees of itself, whatever the schema says. -/
def ProperPart : Schema → Prop
  | .scalar s => s.Proper
  | .object properties rules => Keyed.Ascending properties ∧ rules.Proper
  | _ => True

/-- A schema that there is. -/
def Proper : Schema → Prop := Every ProperPart

/-! ## 5. Conditions of theorems -/

/-- There is no intersection inside. -/
def AllOfFree : Schema → Prop := Every fun
  | .allOf _ => False
  | _ => True

theorem AllOfFree.union_or_atomic {s : Schema} (h : s.AllOfFree) :
    (∃ branches, IsUnion s branches) ∨ s.IsAtomic := by
  rcases s.outer_cases with union | ⟨branches, rfl⟩ | atomic
  · exact Or.inl union
  · exact h.self.elim
  · exact Or.inr atomic

/-- Every object schema inside requires all the properties that it declares. -/
def RequiresDeclared : Schema → Prop := Every fun
  | .object properties rules => ∀ name ∈ Keyed.names properties, rules.requires name = true
  | _ => True

/-- Every property inside has a name of a sort. -/
def AllNames (Q : String → Prop) : Schema → Prop := Every fun
  | .object properties _ => ∀ name ∈ Keyed.names properties, Q name
  | _ => True

/-- Every property has a name without a point. -/
def Dotless : Schema → Prop := AllNames fun name => '.' ∉ name.toList

/-- The bounds that are only used for sampling are finite. -/
def FiniteHints : Schema → Prop := Every fun
  | .scalar s => (∀ x ∈ s.minimumForOptimizer, x.isFinite = true) ∧
      ∀ x ∈ s.maximumForOptimizer, x.isFinite = true
  | _ => True

/-- The bounds of every scalar inside are below `2 ^ 53` in magnitude. -/
def SmallBounds : Schema → Prop := Every fun
  | .scalar s => (∀ b ∈ s.minimum, b.value.IsSmall) ∧ ∀ b ∈ s.maximum, b.value.IsSmall
  | _ => True

/-- The bounds of every integer inside are below `2 ^ 53` in magnitude. -/
def IntegerBounds : Schema → Prop := Every fun
  | .scalar s => s.kind = .integer →
      (∀ b ∈ s.minimum, b.value.IsSmall) ∧ ∀ b ∈ s.maximum, b.value.IsSmall
  | _ => True

/-- The hints of every integer inside are below `2 ^ 53` in magnitude. -/
def IntegerHints : Schema → Prop := Every fun
  | .scalar s => s.kind = .integer →
      (∀ x ∈ s.minimumForOptimizer, x.IsSmall) ∧ ∀ x ∈ s.maximumForOptimizer, x.IsSmall
  | _ => True

end Schema

end TypedPipeline
