import TypedPipeline.Proofs.Schema.Domain
import TypedPipeline.Proofs.Schema.Subsumption

/-!
# Proofs.Schema.Relaxation: the domain of a schema accepts what the schema accepts

An intersection whose branches do not merge loses all of them but the first in the domain. This file
fixes:

* when nothing is lost (`hasConstraints_allOf`, `someConstrained_eq_false_iff`);
* that acceptance is monotone in properties, items and the branches of `anyOf` (`Covers.object`,
  `Covers.array`, `Covers.anyOf`), but not in those of `oneOf`, where a value that one more branch
  accepts is refused: these have to accept the same values (`Covers.oneOf`);
* that the domain accepts the same values where nothing is lost (`alike_domainPart`), and all values
  of the schema where nothing is lost below `oneOf` (`covers_domainPart`), both by induction along
  the domain;
* **what the domain is to a well-formed schema** (`domainPart_relaxes`).
-/

namespace TypedPipeline

namespace Schema

/-! ## 1. Constraints -/

theorem someConstrained_eq_false_iff {schemas : List Schema} :
    someConstrained schemas = false ↔ ∀ s ∈ schemas, s.hasConstraints = false := by
  induction schemas with
  | nil => simp [someConstrained]
  | cons s rest ih => rw [someConstrained, Bool.or_eq_false_iff, ih, List.forall_mem_cons]

/-- An intersection is constrained as its merge is, and at any rate if it has none. -/
theorem hasConstraints_allOf (branches : List Schema) :
    (allOf branches).hasConstraints = (intersectAll branches).elim true hasConstraints := by
  rw [hasConstraints.eq_def, intersectAll]
  dsimp only
  cases meetAll branches <;> rfl

theorem hasConstraints_object_eq_false_iff {properties : Keyed Schema} {rules : ObjectRules} :
    (object properties rules).hasConstraints = false ↔
      ∀ name s, (name, s) ∈ properties → s.hasConstraints = false := by
  rw [hasConstraints, someConstrained_eq_false_iff]
  simp only [List.mem_map, Prod.exists, exists_eq_right]
  refine ⟨fun h name s hs => h s ⟨name, hs⟩, ?_⟩
  rintro h s ⟨name, hs⟩
  exact h name s hs

/-- No branch of a `oneOf` inside is constrained. -/
def OneOfUnconstrained : Schema → Prop := Every fun
  | .oneOf branches => ∀ b ∈ branches, b.hasConstraints = false
  | _ => True

theorem OneOfUnconstrained.merged {branches : List Schema} {m : Schema}
    (h : (allOf branches).OneOfUnconstrained) (regular : (allOf branches).Regular)
    (e : intersectAll branches = some m) : m.OneOfUnconstrained :=
  KeptByMerging.of_intersectAll
    ⟨fun _ _ _ => trivial, fun _ _ _ => trivial, fun _ _ => trivial⟩
    (fun _ hb => regular.allOf hb) (fun _ hb => h.allOf hb) e

/-! ## 2. Acceptance part by part -/

/-- The same values are accepted by both. -/
def Alike (a b : Schema) : Prop := ∀ v : Json, v.Proper → (a.accepts v = true ↔ b.accepts v = true)

theorem Covers.refl (s : Schema) : Covers s s := fun _ _ => id

theorem Covers.trans {a b c : Schema} (h : Covers a b) (h' : Covers b c) : Covers a c :=
  fun v pv hv => h' v pv (h v pv hv)

theorem alike_iff {a b : Schema} : Alike a b ↔ Covers a b ∧ Covers b a :=
  ⟨fun h => ⟨fun v pv => (h v pv).1, fun v pv => (h v pv).2⟩,
    fun h v pv => ⟨h.1 v pv, h.2 v pv⟩⟩

/-- Properties of the same names may be relaxed one by one. -/
theorem Covers.object {as bs : Keyed Schema} {rules : ObjectRules} (names : as.names = bs.names)
    (h : ∀ name b, (name, b) ∈ bs → ∃ a, (name, a) ∈ as ∧ Covers a b) :
    Covers (.object as rules) (.object bs rules) := by
  intro v pv hv
  obtain ⟨members, rfl, each, closed⟩ := accepts_object.1 hv
  refine accepts_object.2 ⟨members, rfl, fun name b hb => ?_, fun shut name hn => ?_⟩
  · obtain ⟨a, ha, covers⟩ := h name b hb
    have accepted := each name a ha
    unfold AcceptsProperty at accepted ⊢
    cases hw : Keyed.find? members name with
    | none => rwa [hw] at accepted
    | some w =>
        rw [hw] at accepted
        exact covers w (Json.properMembers_iff.1 pv.2 (name, w) (Keyed.mem_of_find? hw)) accepted
  · rw [Keyed.has_iff, ← names]
    exact Keyed.has_iff.1 (closed shut name hn)

theorem Covers.array {x y : Schema} {length : Length} (h : Covers x y) :
    Covers (.array x length) (.array y length) := by
  intro v pv hv
  obtain ⟨values, rfl, admits, each⟩ := accepts_array.1 hv
  exact accepts_array.2 ⟨values, rfl, admits, fun w hw =>
    h w (Json.properItems_iff.1 pv w hw) (each w hw)⟩

theorem Covers.anyOf {as bs : List Schema} (h : ∀ a ∈ as, ∃ b ∈ bs, Covers a b) :
    Covers (.anyOf as) (.anyOf bs) := by
  intro v pv hv
  obtain ⟨a, ha, accepted⟩ := accepts_anyOf.1 hv
  obtain ⟨b, hb, covers⟩ := h a ha
  exact accepts_anyOf.2 ⟨b, hb, covers v pv accepted⟩

/-- Branches of which exactly one is to accept may only be replaced by branches like them. -/
theorem Alike.oneOf {branches : List Schema} {f : Schema → Schema}
    (h : ∀ b ∈ branches, Alike b (f b)) : Alike (.oneOf branches) (.oneOf (branches.map f)) := by
  intro v pv
  rw [accepts_oneOf, accepts_oneOf, List.countP_map]
  rw [List.countP_congr fun b hb => h b hb v pv]
  rfl

/-- An intersection accepts what its merge accepts. -/
theorem alike_of_intersectAll {branches : List Schema} {m : Schema}
    (regular : (allOf branches).Regular) (e : intersectAll branches = some m) :
    Alike (.allOf branches) m := by
  intro v pv
  rw [accepts_allOf]
  exact ((regular.isMeetAll e).accepts v pv).symm

/-! ## 3. The domain -/

/-- **Where nothing is lost, the domain accepts the same values.** -/
theorem alike_domainPart {s : Schema} (regular : s.Regular) (h : s.hasConstraints = false) :
    Alike s s.domainPart := by
  induction s using domainInduction with
  | any =>
      rw [domainPart]
      exact fun _ _ => Iff.rfl
  | scalar s =>
      rw [domainPart]
      exact fun _ _ => Iff.rfl
  | object properties rules ih =>
      have each (name : String) (s : Schema) (hs : (name, s) ∈ properties) : Alike s s.domainPart :=
        ih name s hs (regular.property hs) (hasConstraints_object_eq_false_iff.1 h name s hs)
      rw [domainPart, alike_iff]
      refine ⟨.object (names_domainProperties _).symm fun name t ht => ?_,
        .object (names_domainProperties _) fun name s hs => ?_⟩
      · obtain ⟨s, hs, rfl⟩ := mem_domainProperties.1 ht
        exact ⟨s, hs, (alike_iff.1 (each name s hs)).1⟩
      · exact ⟨s.domainPart, mem_domainProperties.2 ⟨s, hs, rfl⟩, (alike_iff.1 (each name s hs)).2⟩
  | array items length ih =>
      rw [hasConstraints] at h
      have alike := alike_iff.1 (ih regular.items h)
      rw [domainPart, alike_iff]
      exact ⟨alike.1.array, alike.2.array⟩
  | anyOf branches ih =>
      rw [hasConstraints, someConstrained_eq_false_iff] at h
      have each (b : Schema) (hb : b ∈ branches) : Alike b b.domainPart :=
        ih b hb (regular.anyOf hb) (h b hb)
      rw [domainPart, alike_iff]
      refine ⟨.anyOf fun b hb => ?_, .anyOf fun t ht => ?_⟩
      · exact ⟨b.domainPart, mem_domainBranches.2 ⟨b, hb, rfl⟩, (alike_iff.1 (each b hb)).1⟩
      · obtain ⟨b, hb, rfl⟩ := mem_domainBranches.1 ht
        exact ⟨b, hb, (alike_iff.1 (each b hb)).2⟩
  | oneOf branches ih =>
      rw [hasConstraints, someConstrained_eq_false_iff] at h
      rw [domainPart, domainBranches_eq_map]
      exact .oneOf fun b hb => ih b hb (regular.oneOf hb) (h b hb)
  | merged branches m e ih =>
      rw [hasConstraints_allOf, e] at h
      rw [domainPart_allOf, e]
      exact fun v pv => (alike_of_intersectAll regular e v pv).trans
        (ih (regular.isMeetAll e).regular h v pv)
  | unmerged branches e _ =>
      rw [hasConstraints_allOf, e] at h
      cases h

/-- **Where nothing is lost below a `oneOf`, the domain accepts at least as much.** -/
theorem covers_domainPart {s : Schema} (regular : s.Regular) (h : s.OneOfUnconstrained) :
    Covers s s.domainPart := by
  induction s using domainInduction with
  | any =>
      rw [domainPart]
      exact .refl _
  | scalar s =>
      rw [domainPart]
      exact .refl _
  | object properties rules ih =>
      rw [domainPart]
      refine .object (names_domainProperties _).symm fun name t ht => ?_
      obtain ⟨s, hs, rfl⟩ := mem_domainProperties.1 ht
      exact ⟨s, hs, ih name s hs (regular.property hs) (h.property hs)⟩
  | array items length ih =>
      rw [domainPart]
      exact (ih regular.items h.items).array
  | anyOf branches ih =>
      rw [domainPart]
      refine .anyOf fun b hb => ?_
      exact ⟨b.domainPart, mem_domainBranches.2 ⟨b, hb, rfl⟩, ih b hb (regular.anyOf hb) (h.anyOf hb)⟩
  | oneOf branches _ =>
      rw [domainPart, domainBranches_eq_map]
      exact (alike_iff.1 (Alike.oneOf fun b hb =>
        alike_domainPart (regular.oneOf hb) (h.self b hb))).1
  | merged branches m e ih =>
      rw [domainPart_allOf, e]
      exact (alike_iff.1 (alike_of_intersectAll regular e)).1.trans
        (ih (regular.isMeetAll e).regular (h.merged regular e))
  | unmerged branches e ih =>
      rw [domainPart_allOf, e]
      cases branches with
      | nil => exact fun v pv _ => ih (every_any trivial) (every_any trivial) v pv accepts_any
      | cons first rest =>
          have hb : first ∈ first :: rest := by simp
          exact fun v pv hv => ih (regular.allOf hb) (h.allOf hb) v pv (accepts_allOf.1 hv first hb)

/-- **The domain of a well-formed schema relaxes it.** It has no intersections and is its own domain;
    it accepts the same values if nothing was lost, and at least those of the schema if nothing was
    lost below a `oneOf`. -/
theorem domainPart_relaxes {s : Schema} (wf : s.isWellFormed = true) (proper : s.Proper) :
    s.domainPart.AllOfFree ∧ s.domainPart.domainPart = s.domainPart ∧
      (s.hasConstraints = false →
        ∀ v : Json, v.Proper → (s.domainPart.accepts v = true ↔ s.accepts v = true)) ∧
      (s.OneOfUnconstrained →
        ∀ v : Json, v.Proper → s.accepts v = true → s.domainPart.accepts v = true) := by
  have regular := (isWellFormed_iff.1 wf).regular proper
  have free := s.allOfFree_domainPart
  refine ⟨free, domainPart_of_allOfFree free, fun h v pv => ?_, covers_domainPart regular⟩
  exact (alike_domainPart regular h v pv).symm

/-- An integer from 1 up to 3, or a text, but not both. -/
def upToThreeOrText : Schema := .oneOf [upToThree, .scalar { kind := .string }]

/-- An integer that is 1 or 2 or else at least 5: the two do not merge. -/
def smallOrLarge : Schema :=
  .allOf [.scalar { kind := .integer },
    .anyOf [.scalar { kind := .integer, enumeration := some [.int 1, .int 2] },
      .scalar { kind := .number, minimum := some (.inclusive (.ofInt 5)) }]]

theorem domainPart_relaxes_upToThreeOrText :
    (upToThreeOrText.hasConstraints = false ∧ ∀ v : Json, v.Proper →
      (upToThreeOrText.domainPart.accepts v = true ↔ upToThreeOrText.accepts v = true)) ∧
    smallOrLarge.hasConstraints = true ∧ smallOrLarge.OneOfUnconstrained ∧
      ∀ v : Json, v.Proper → smallOrLarge.accepts v = true →
        smallOrLarge.domainPart.accepts v = true := by
  have free : upToThreeOrText.hasConstraints = false := by
    simp [upToThreeOrText, upToThree, hasConstraints, someConstrained, meetAll, meetOnto, meet,
      Scalar.meet?, ScalarKind.meet?, mergeOption]
  have constrained : smallOrLarge.hasConstraints = true := by
    simp [smallOrLarge, hasConstraints, meetAll, meetOnto, meet]
  have unconstrained : smallOrLarge.OneOfUnconstrained := by
    simp [OneOfUnconstrained, Every, parts, partsOfBranches, smallOrLarge]
  refine ⟨⟨free, (domainPart_relaxes (by decide) ?_).2.2.1 free⟩, constrained, unconstrained,
    (domainPart_relaxes (by decide) ?_).2.2.2 unconstrained⟩
  · simp [Proper, Every, parts, partsOfBranches, ProperPart, Scalar.Proper, upToThreeOrText,
      upToThree]
  · simp [Proper, Every, parts, partsOfBranches, ProperPart, Scalar.Proper, smallOrLarge, Json.int,
      Json.Proper, Number.Proper]

end Schema

end TypedPipeline
