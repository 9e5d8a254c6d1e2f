import TypedPipeline.Schema.Domain
import TypedPipeline.Proofs.Schema.Intersection

/-!
# Proofs.Schema.Domain: what the domain of a schema keeps

This file fixes:

* that a schema without intersections is its own domain (`domainPart_of_allOfFree`);
* induction along the domain (`domainInduction`), which goes on into the merge of an intersection,
  and that no intersection is left (`allOfFree_domainPart`);
* that the domain is as regular as the schema and has no names of its own (`regular_domainPart`,
  `allNames_domainPart`): what stands in place of an intersection is merged from its branches, or one
  of them.
-/

namespace TypedPipeline

namespace Schema

theorem domainProperties_eq_map (properties : List (String × Schema)) :
    domainProperties properties = properties.map fun p => (p.1, p.2.domainPart) := by
  induction properties with
  | nil => rw [domainProperties]; rfl
  | cons p rest ih => rw [domainProperties, ih]; rfl

theorem domainBranches_eq_map (branches : List Schema) :
    domainBranches branches = branches.map domainPart := by
  induction branches with
  | nil => rw [domainBranches]; rfl
  | cons b rest ih => rw [domainBranches, ih]; rfl

theorem size_lt_of_intersectAll {branches : List Schema} {m : Schema}
    (h : intersectAll branches = some m) : m.size < (allOf branches).size := by
  rw [intersectAll] at h
  obtain ⟨⟨m, small⟩, _, rfl⟩ := Option.map_eq_some_iff.1 h
  simp only [size]
  omega

/-- The domain of an intersection is that of what its branches merge into, or of the first one. -/
theorem domainPart_allOf (branches : List Schema) :
    (allOf branches).domainPart =
      ((intersectAll branches).getD (branches.head?.getD .any)).domainPart := by
  rw [domainPart.eq_def, intersectAll]
  dsimp only
  cases meetAll branches with
  | some m => rfl
  | none =>
      cases branches with
      | nil =>
          show _ = domainPart .any
          rw [domainPart]
      | cons first rest => rfl

/-- **A schema without intersections is its own domain.** -/
theorem domainPart_of_allOfFree {s : Schema} (h : s.AllOfFree) : s.domainPart = s := by
  induction s using Schema.induction with
  | any => rw [domainPart]
  | scalar s => rw [domainPart]
  | object properties rules ih =>
      rw [domainPart, domainProperties_eq_map]
      have each : properties.map (fun p => (p.1, p.2.domainPart)) = properties.map id :=
        List.map_congr_left fun p hp => by rw [ih p.1 p.2 hp (h.property hp)]; rfl
      rw [each, List.map_id]
  | array items length ih => rw [domainPart, ih h.items]
  | anyOf branches ih =>
      rw [domainPart, domainBranches_eq_map, List.map_congr_left fun b hb => ih b hb (h.anyOf hb),
        List.map_id']
  | oneOf branches ih =>
      rw [domainPart, domainBranches_eq_map, List.map_congr_left fun b hb => ih b hb (h.oneOf hb),
        List.map_id']
  | allOf branches _ => exact h.self.elim

/-- **Induction along the domain.** Where branches are merged, the hypothesis is about the merge,
    which is no part of the schema but smaller than it. -/
@[elab_as_elim]
theorem domainInduction {P : Schema → Prop} (any : P .any) (scalar : ∀ s, P (.scalar s))
    (object : ∀ properties rules, (∀ name s, (name, s) ∈ properties → P s) →
      P (.object properties rules))
    (array : ∀ items length, P items → P (.array items length))
    (anyOf : ∀ branches, (∀ b ∈ branches, P b) → P (.anyOf branches))
    (oneOf : ∀ branches, (∀ b ∈ branches, P b) → P (.oneOf branches))
    (merged : ∀ branches m, intersectAll branches = some m → P m → P (.allOf branches))
    (unmerged : ∀ branches, intersectAll branches = none → P (branches.head?.getD .any) →
      P (.allOf branches)) (s : Schema) : P s := by
  induction hn : s.size using Nat.strongRecOn generalizing s with
  | ind n ih =>
      subst hn
      have branch {branches : List Schema} (lt : sizeBranches branches < s.size) :
          ∀ b ∈ branches, P b := fun b hb =>
        ih b.size (Nat.lt_of_le_of_lt (size_le_of_mem_branches hb) lt) b rfl
      cases s with
      | any => exact any
      | scalar s => exact scalar s
      | object properties rules =>
          refine object _ _ fun name s hs => ih s.size ?_ s rfl
          have := size_le_of_mem_properties hs
          simp only [size]; omega
      | array items length => exact array _ _ (ih items.size (by simp only [size]; omega) items rfl)
      | anyOf branches => exact anyOf _ (branch (by simp only [size]; omega))
      | oneOf branches => exact oneOf _ (branch (by simp only [size]; omega))
      | allOf branches =>
          cases e : intersectAll branches with
          | some m => exact merged _ m e (ih m.size (size_lt_of_intersectAll e) m rfl)
          | none =>
              refine unmerged _ e ?_
              cases branches with
              | nil => exact any
              | cons first rest =>
                  have hb : first ∈ first :: rest := List.mem_cons_self
                  exact branch (by simp only [size]; omega) first hb

theorem mem_domainProperties {name : String} {t : Schema} {properties : List (String × Schema)} :
    (name, t) ∈ domainProperties properties ↔
      ∃ s, (name, s) ∈ properties ∧ s.domainPart = t := by
  rw [domainProperties_eq_map, List.mem_map]
  constructor
  · rintro ⟨⟨_, s⟩, hs, e⟩
    cases e
    exact ⟨s, hs, rfl⟩
  · rintro ⟨s, hs, rfl⟩
    exact ⟨(name, s), hs, rfl⟩

theorem mem_domainBranches {t : Schema} {branches : List Schema} :
    t ∈ domainBranches branches ↔ ∃ b ∈ branches, b.domainPart = t := by
  rw [domainBranches_eq_map, List.mem_map]

section Every

variable {P : Schema → Prop}

theorem every_domainPart_object {properties : List (String × Schema)} {rules : ObjectRules}
    (self : P (.object (domainProperties properties) rules))
    (each : ∀ name s, (name, s) ∈ properties → Every P s.domainPart) :
    Every P (object properties rules).domainPart := by
  rw [domainPart]
  refine Every.object_iff.2 ⟨self, fun name t ht => ?_⟩
  obtain ⟨s, hs, rfl⟩ := mem_domainProperties.1 ht
  exact each name s hs

theorem every_domainPart_array {items : Schema} {length : Length}
    (self : P (.array items.domainPart length)) (each : Every P items.domainPart) :
    Every P (array items length).domainPart := by
  rw [domainPart]
  exact Every.array_iff.2 ⟨self, each⟩

theorem every_domainPart_anyOf {branches : List Schema}
    (self : P (.anyOf (domainBranches branches))) (each : ∀ b ∈ branches, Every P b.domainPart) :
    Every P (anyOf branches).domainPart := by
  rw [domainPart]
  refine Every.anyOf_iff.2 ⟨self, fun t ht => ?_⟩
  obtain ⟨b, hb, rfl⟩ := mem_domainBranches.1 ht
  exact each b hb

theorem every_domainPart_oneOf {branches : List Schema}
    (self : P (.oneOf (domainBranches branches))) (each : ∀ b ∈ branches, Every P b.domainPart) :
    Every P (oneOf branches).domainPart := by
  rw [domainPart]
  refine Every.oneOf_iff.2 ⟨self, fun t ht => ?_⟩
  obtain ⟨b, hb, rfl⟩ := mem_domainBranches.1 ht
  exact each b hb

/-- **What merging keeps, and properties, items and branches inherit, the domain keeps.** -/
theorem every_domainPart (any : P .any)
    (object : ∀ properties rules, P (.object properties rules) →
      P (.object (domainProperties properties) rules))
    (array : ∀ items length, P (.array items length) → P (.array items.domainPart length))
    (anyOf : ∀ branches, P (.anyOf branches) → P (.anyOf (domainBranches branches)))
    (oneOf : ∀ branches, P (.oneOf branches) → P (.oneOf (domainBranches branches)))
    (merged : ∀ branches m, (∀ b ∈ branches, b.Regular ∧ Every P b) →
      intersectAll branches = some m → Every P m)
    {s : Schema} (regular : s.Regular) (h : Every P s) : Every P s.domainPart := by
  induction s using domainInduction with
  | any => rwa [domainPart]
  | scalar s => rwa [domainPart]
  | object properties rules ih =>
      exact every_domainPart_object (object _ _ h.self) fun name s hs =>
        ih name s hs (regular.property hs) (h.property hs)
  | array items length ih =>
      exact every_domainPart_array (array _ _ h.self) (ih regular.items h.items)
  | anyOf branches ih =>
      exact every_domainPart_anyOf (anyOf _ h.self) fun b hb =>
        ih b hb (regular.anyOf hb) (h.anyOf hb)
  | oneOf branches ih =>
      exact every_domainPart_oneOf (oneOf _ h.self) fun b hb =>
        ih b hb (regular.oneOf hb) (h.oneOf hb)
  | merged branches m e ih =>
      rw [domainPart_allOf, e]
      exact ih (regular.isMeetAll e).regular
        (merged branches m (fun b hb => ⟨regular.allOf hb, h.allOf hb⟩) e)
  | unmerged branches e ih =>
      rw [domainPart_allOf, e]
      cases branches with
      | nil => exact ih (every_any trivial) (every_any any)
      | cons first rest => exact ih (regular.allOf (by simp)) (h.allOf (by simp))

end Every

/-- **There is no intersection in the domain.** -/
theorem allOfFree_domainPart (s : Schema) : s.domainPart.AllOfFree := by
  induction s using domainInduction with
  | any =>
      rw [domainPart]
      exact every_any trivial
  | scalar s =>
      rw [domainPart]
      exact every_scalar trivial
  | object properties rules ih => exact every_domainPart_object trivial ih
  | array items length ih => exact every_domainPart_array trivial ih
  | anyOf branches ih => exact every_domainPart_anyOf trivial ih
  | oneOf branches ih => exact every_domainPart_oneOf trivial ih
  | merged branches m e ih => rwa [domainPart_allOf, e]
  | unmerged branches e ih => rwa [domainPart_allOf, e]

theorem names_domainProperties (properties : List (String × Schema)) :
    Keyed.names (domainProperties properties) = Keyed.names properties := by
  rw [domainProperties_eq_map, Keyed.names, Keyed.names, List.map_map]
  rfl

theorem regular_domainPart {s : Schema} (h : s.Regular) : s.domainPart.Regular := by
  refine every_domainPart trivial (fun properties rules hp => ?_) (fun _ _ _ => trivial)
    (fun _ _ => trivial) (fun _ _ => trivial)
    (fun _ _ hb e => regular_of_intersectAll (fun b h => (hb b h).1) e) h h
  obtain ⟨ascending, declared⟩ := hp
  refine ⟨?_, fun name hn => ?_⟩
  · rw [Keyed.Ascending, names_domainProperties]; exact ascending
  · rw [Keyed.has_iff, names_domainProperties]; exact Keyed.has_iff.1 (declared name hn)

theorem allNames_domainPart {s : Schema} {Q : String → Prop} (regular : s.Regular)
    (h : s.AllNames Q) : s.domainPart.AllNames Q := by
  refine every_domainPart trivial (fun properties rules hp => ?_) (fun _ _ _ => trivial)
    (fun _ _ => trivial) (fun _ _ => trivial)
    (fun _ _ hb e => (isMeetAll_of_intersectAll (fun b h => (hb b h).1) e).names Q
      fun b h => (hb b h).2) regular h
  intro name hn
  rw [names_domainProperties] at hn
  exact hp name hn

end Schema

end TypedPipeline
