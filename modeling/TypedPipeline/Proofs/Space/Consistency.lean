import TypedPipeline.Proofs.Schema.Harmony
import TypedPipeline.Proofs.Space.Assignment
import TypedPipeline.Proofs.Space.Names

/-!
# Proofs.Space.Consistency: the domain that a space carries

A space carries the schema it comes from and the domain of it, which is merged from the branches of
intersections and is not checked again. This file fixes:

* **what of the invariants the domain has in any case, and that it has all of them where the
  intersections of the schema are in harmony** (`isWellFormed_domain_of_compileSpace`);
* a flag and a count that is fixed to its default (`flagAndCountUpTo`): with a bound that the default
  keeps, the domain is well formed; with one that it exceeds, no sample is ever accepted.
-/

namespace TypedPipeline

open Schema

/-- **Names that are required or have defaults are declared in the domain of a space, bounds are finite
    and those of numbers, no enumeration and no union is empty. The domain is well formed if at every
    place of an intersection that merges, nothing that one branch says is broken by another.** -/
theorem isWellFormed_domain_of_compileSpace {settings : SpaceSettings} {name : String} {schema : Schema}
    {space : Space} (proper : schema.Proper) (h : compileSpace settings name schema = .ok space) :
    Every LastingPart space.frame.domain ∧
      (schema.Harmonious → space.frame.domain.isWellFormed = true) := by
  obtain ⟨sound, c, _, rfl⟩ := compiles_of_compileSpace h
  refine ⟨lasting_domainPart (sound.regular proper) fun t ht => (sound t ht).lasting,
    fun harmonious => isWellFormed_iff.2 ?_⟩
  exact (harmonious.consistent sound proper).sound_domainPart

/-- A count that is not negative. -/
def openCount : Scalar := { kind := .integer, minimum := some (.inclusive (.ofInt 0)) }

def countUpTo (most : Int) : Scalar :=
  { kind := .integer, maximum := some (.inclusive (.ofInt most)) }

/-- A flag to be tuned, and a count of 5 unless something else is said. -/
def flagAndCount : Schema :=
  .object [("count", .scalar openCount), ("flag", .boolean)]
    { relevant := some ["flag"], defaults := [("count", .int 5)] }

/-- The same with a bound for the count from another schema. -/
def flagAndCountUpTo (most : Int) : Schema :=
  .allOf [flagAndCount, .object [("count", .scalar (countUpTo most))] {}]

/-- What the two merge into. -/
def flagAndCountMerged (most : Int) : Schema :=
  .object [("count", .scalar { openCount with maximum := some (.inclusive (.ofInt most)) }),
    ("flag", .boolean)]
    { relevant := some ["flag"], defaults := [("count", .int 5)] }

theorem domainPart_flagAndCountUpTo (most : Int) :
    (flagAndCountUpTo most).domainPart = flagAndCountMerged most := by
  have merged : intersectAll [flagAndCount, .object [("count", .scalar (countUpTo most))] {}] =
      some (flagAndCountMerged most) := by
    simp [intersectAll, meetAll, meetOnto, meet, meetProperties, loneProperty, flagAndCount, openCount,
      countUpTo, Schema.boolean, flagAndCountMerged, Scalar.meet?, ScalarKind.meet?,
      ObjectRules.meet, ObjectRules.meetDefaults, Names.union, mergeOption]
  have free : (flagAndCountMerged most).AllOfFree := by
    simp [AllOfFree, Every, parts, partsOfProperties, flagAndCountMerged, Schema.boolean]
  rw [flagAndCountUpTo, domainPart_allOf, merged]
  exact domainPart_of_allOfFree free

theorem compileSpace_flagAndCountUpTo (name : String) (most : Int)
    (wf : (flagAndCountUpTo most).isWellFormed = true) :
    compileSpace {} name (flagAndCountUpTo most) =
      .ok ⟨⟨name, some (.object [("count", .int 5)]), flagAndCountUpTo most,
        flagAndCountMerged most⟩, [.plain "flag" [.property "flag"] .boolean]⟩ := by
  refine compileSpace_of_compileNode wf (domainPart_flagAndCountUpTo most) ?_
  rw [flagAndCountMerged, compileNode, compileProperties, compileProperties, compileProperties,
    Schema.boolean, compileNode]
  rfl

theorem flagAndCountUpTo_proper (most : Int) : (flagAndCountUpTo most).Proper := by
  have rules : ObjectRules.Proper { relevant := some ["flag"], defaults := [("count", .int 5)] } :=
    ⟨.nil, by simp, List.pairwise_singleton _ _, by simp [Json.int, Json.Proper, Number.Proper]⟩
  have names (count flag : Schema) : Keyed.Ascending [("count", count), ("flag", flag)] :=
    Keyed.ascending_pair.2 (by decide)
  have lone (count : Schema) : Keyed.Ascending [("count", count)] := List.pairwise_singleton _ _
  simp [Proper, Every, parts, partsOfProperties, partsOfBranches, ProperPart, Scalar.Proper, rules,
    ObjectRules.proper_plain_iff, flagAndCountUpTo, flagAndCount, openCount, countUpTo,
    Schema.boolean, names, lone]

/-- Both branches leave open what the other names, and 5 is between 0 and 7. -/
theorem harmonious_flagAndCountUpTo : (flagAndCountUpTo 7).Harmonious := by
  have five : ∀ s ∈ [openCount, countUpTo 7], (scalar s).Keeps (.int 5) := by
    have accepted : ∀ s ∈ [openCount, countUpTo 7], (scalar s).accepts (.int 5) = true := by
      decide +kernel
    exact fun s hs => ⟨accepted s hs, every_scalar trivial⟩
  have range : Scalar.emptyRange (.inclusive (.ofInt 0)) (.inclusive (.ofInt 7)) = false := by
    decide +kernel
  have counts : ∀ s ∈ [openCount, countUpTo 7], ∀ t ∈ [openCount, countUpTo 7], s.Tolerates t := by
    have low : ∀ s ∈ [openCount, countUpTo 7], ∀ a ∈ s.minimum, a = .inclusive (.ofInt 0) := by
      simp [openCount, countUpTo]
    have high : ∀ s ∈ [openCount, countUpTo 7], ∀ b ∈ s.maximum, b = .inclusive (.ofInt 7) := by
      simp [openCount, countUpTo]
    have plain : ∀ s ∈ [openCount, countUpTo 7], s.minimumForOptimizer = none ∧
        s.distribution = .uniform ∧ s.enumeration = none := by
      simp [openCount, countUpTo]
    intro s hs t ht
    obtain ⟨hint, scale, _⟩ := plain s hs
    obtain ⟨_, _, listed⟩ := plain t ht
    refine ⟨fun a ha b hb => ?_, by simp [hint], by simp [scale], by simp [listed]⟩
    rw [low s hs a ha, high t ht b hb, range]
  have flags : boolean.Accords boolean := .scalar ⟨by simp, by simp, by simp, by simp⟩
  simp only [List.mem_cons, List.not_mem_nil, or_false, forall_eq_or_imp, forall_eq] at five counts
  obtain ⟨⟨same, up⟩, down, limits⟩ := counts
  have harmony : Harmony [flagAndCount, .object [("count", .scalar (countUpTo 7))] {}] := by
    refine Harmony.pair_iff.2
      ⟨⟨.object ⟨?_, ?_⟩ ?_, .object ⟨?_, ?_⟩ ?_⟩, .object ⟨?_, ?_⟩ ?_, .object ⟨?_, ?_⟩ ?_⟩
    all_goals
      simp [Keyed.find?_cons, Accords.scalar, same, up, down, limits, flags, five]
  refine Every.allOf_iff.2 ⟨fun _ _ => harmony, ?_⟩
  simp [Every, parts, partsOfProperties, HarmoniousPart, flagAndCount, Schema.boolean,
    Keyed.find?_cons, five.1.2]

/-- A count of 5 is at most 7. -/
theorem isWellFormed_domain_of_compileSpace_flagAndCount :
    (flagAndCountUpTo 7).Proper ∧ (flagAndCountUpTo 7).Harmonious ∧
      ∃ space, compileSpace {} "s" (flagAndCountUpTo 7) = .ok space ∧
        Every LastingPart space.frame.domain ∧ space.frame.domain.isWellFormed = true := by
  have proper := flagAndCountUpTo_proper 7
  have harmonious := harmonious_flagAndCountUpTo
  have made := compileSpace_flagAndCountUpTo "s" 7 (by decide +kernel)
  have ⟨lasting, wellFormed⟩ := isWellFormed_domain_of_compileSpace proper made
  exact ⟨proper, harmonious, _, made, lasting, wellFormed harmonious⟩

/-- A count of 5 is not at most 3: the domain has a default that it refuses, and every sample with it. -/
theorem not_isWellFormed_domain_flagAndCount :
    (flagAndCountUpTo 3).isWellFormed = true ∧
      ∃ space, compileSpace {} "s" (flagAndCountUpTo 3) = .ok space ∧
        space.frame.domain.isWellFormed = false ∧ ∀ sample, (space.apply sample).isOk = false := by
  have wf : (flagAndCountUpTo 3).isWellFormed = true := by decide +kernel
  refine ⟨wf, _, compileSpace_flagAndCountUpTo "s" 3 wf, by decide +kernel, fun sample => ?_⟩
  refine Bool.eq_false_iff.2 fun applied => ?_
  obtain ⟨v, applied⟩ := Except.isOk_iff.1 applied
  obtain ⟨filled, fill, rfl, accepted⟩ := Space.accepts_of_apply applied
  have five : ∃ members, filled.value = .object members ∧
      Keyed.find? members "count" = some (.int 5) := by
    rw [Space.fillDimensions] at fill
    split at fill
    all_goals
      rw [Space.fillDimensions] at fill
      cases fill
      exact ⟨_, rfl, rfl⟩
  obtain ⟨members, value, count⟩ := five
  obtain ⟨_, e, each, _⟩ := accepts_object.1 accepted
  rw [value] at e
  cases e
  have refused : (scalar { openCount with maximum := some (.inclusive (.ofInt 3)) }).accepts (.int 5) =
      false := by decide +kernel
  exact absurd (accepts_of_find? (Keyed.find?_cons _ _ _ _) count each) (by rw [refused]; simp)

end TypedPipeline
