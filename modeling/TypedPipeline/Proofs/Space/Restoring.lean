import TypedPipeline.Proofs.Space.Application
import TypedPipeline.Proofs.Space.Storing

/-!
# Proofs.Space.Restoring: which spaces survive being stored

A space that is compiled can always be restored, but not always as it was: a fixed part of null is
lost. This file fixes:

* equality of spaces that can be stored, which such a space has with itself (`Space.same_refl`) and
  with itself without the fixed parts of null only if there are none (`Space.same_withoutNull_iff`);
* that what the compiler makes can be stored (`storable_of_compiles`);
* **that a compiled space survives exactly if no fixed part in it is null**
  (`restored_iff_nullFree`), and a space that does not.
-/

namespace TypedPipeline

open JsonText

/-! ## 1. Equality -/

theorem Setting.same_refl {x : Setting} (h : x.Storable) : x.same x = true := by
  cases x with
  | float x => exact Binary64.equals_refl (Binary64.isNaN_of_isFinite h)
  | null => rfl
  | _ => simp [same]

theorem Domain.same_refl {d : Domain} (h : d.Storable) : d.same d = true := by
  cases d with
  | float low high logScale =>
      simp [same, Binary64.equals_refl (Binary64.isNaN_of_isFinite h.1),
        Binary64.equals_refl (Binary64.isNaN_of_isFinite h.2)]
  | int low high logScale => simp [same]
  | categorical choices =>
      have each : (choices.zip choices).all (fun p => p.1.same p.2) = true := by
        rw [List.all_eq_true]
        rintro ⟨x, y⟩ hp
        obtain ⟨i, hi, e⟩ := List.mem_iff_getElem.1 hp
        rw [List.getElem_zip] at e
        cases e
        exact Setting.same_refl (h _ (List.getElem_mem _))
      simp [same, each]
  | boolean => rfl

theorem Schema.Storable.same_refl {s : Schema} (h : s.Storable) : s.same s = true :=
  Schema.same_refl h.sound h.proper h.hints

theorem Frame.same_refl {frame : Frame} (h : frame.Storable) : frame.same frame = true := by
  have fixed : sameOption Json.same frame.skeleton frame.skeleton = true :=
    sameOption_refl fun v hv => Json.same_refl v (h.fixed v hv)
  simp [same, fixed, h.schema.same_refl, h.domain.same_refl]

/-- A fixed part of null makes a difference. -/
theorem Frame.nullFree_of_same {frame : Frame} (h : frame.withoutNull.same frame = true) :
    frame.NullFree := by
  intro null
  simp [same, withoutNull, null, unlessNull, sameOption] at h

theorem Frame.withoutNull_of_nullFree {frame : Frame} (h : frame.NullFree) :
    frame.withoutNull = frame := by
  obtain ⟨name, skeleton, schema, domain⟩ := frame
  cases skeleton with
  | none => rfl
  | some v =>
      cases v with
      | null => exact absurd rfl h
      | _ => rfl

namespace Dimension

mutual

theorem same_refl : ∀ {d : Dimension}, d.Storable → d.same d = true
  | .plain _ _ _, h => by simp [same, Domain.same_refl h]
  | .selector _ _ _, h => by simp [same, sameBranches_refl h]

theorem sameList_refl : ∀ {dimensions : List Dimension},
    AllList Domain.Storable Frame.Storable dimensions → sameList dimensions dimensions = true
  | [], _ => rfl
  | _ :: _, h => by simp [sameList, same_refl h.1, sameList_refl h.2]

theorem sameBranches_refl : ∀ {branches : List (String × Frame × List Dimension)},
    AllBranches Domain.Storable Frame.Storable branches → sameBranches branches branches = true
  | [], _ => rfl
  | _ :: _, h => by
      simp [sameBranches, Frame.same_refl h.1, sameList_refl h.2.1, sameBranches_refl h.2.2]

end

mutual

/-- A dimension that is equal to itself without the fixed parts of null has none. -/
theorem nullFree_of_same : ∀ {d : Dimension}, d.withoutNull.same d = true → d.NullFree
  | .plain _ _ _, _ => trivial
  | .selector _ _ _, h => by
      simp only [withoutNull, same, Bool.and_eq_true] at h
      exact nullFree_of_sameBranches h.2

theorem nullFree_of_sameList : ∀ {dimensions : List Dimension},
    sameList (withoutNullList dimensions) dimensions = true →
    AllList (fun _ => True) Frame.NullFree dimensions
  | [], _ => trivial
  | _ :: _, h => by
      simp only [withoutNullList, sameList, Bool.and_eq_true] at h
      exact ⟨nullFree_of_same h.1, nullFree_of_sameList h.2⟩

theorem nullFree_of_sameBranches : ∀ {branches : List (String × Frame × List Dimension)},
    sameBranches (withoutNullBranches branches) branches = true →
    AllBranches (fun _ => True) Frame.NullFree branches
  | [], _ => trivial
  | _ :: _, h => by
      simp only [withoutNullBranches, sameBranches, Bool.and_eq_true] at h
      exact ⟨Frame.nullFree_of_same h.1.1.2, nullFree_of_sameList h.1.2,
        nullFree_of_sameBranches h.2⟩

end

mutual

theorem withoutNull_of_nullFree : ∀ {d : Dimension}, d.NullFree → d.withoutNull = d
  | .plain _ _ _, _ => rfl
  | .selector _ _ _, h => by rw [withoutNull, withoutNullBranches_of_nullFree h]

theorem withoutNullList_of_nullFree : ∀ {dimensions : List Dimension},
    AllList (fun _ => True) Frame.NullFree dimensions → withoutNullList dimensions = dimensions
  | [], _ => rfl
  | _ :: _, h => by
      rw [withoutNullList, withoutNull_of_nullFree h.1, withoutNullList_of_nullFree h.2]

theorem withoutNullBranches_of_nullFree : ∀ {branches : List (String × Frame × List Dimension)},
    AllBranches (fun _ => True) Frame.NullFree branches → withoutNullBranches branches = branches
  | [], _ => rfl
  | _ :: _, h => by
      rw [withoutNullBranches, Frame.withoutNull_of_nullFree h.1,
        withoutNullList_of_nullFree h.2.1, withoutNullBranches_of_nullFree h.2.2]

end

end Dimension

namespace Space

variable {space : Space}

theorem same_refl (h : space.Storable) : space.same space = true := by
  rw [same, Frame.same_refl h.1, Dimension.sameList_refl (Dimension.allList_iff.2 h.2)]
  rfl

theorem withoutNull_of_nullFree (h : space.NullFree) : space.withoutNull = space := by
  rw [withoutNull, Frame.withoutNull_of_nullFree h.1,
    Dimension.withoutNullList_of_nullFree (Dimension.allList_iff.2 h.2)]

/-- **Without its fixed parts of null a space is equal to itself only if there are none.** -/
theorem same_withoutNull_iff (h : space.Storable) :
    space.withoutNull.same space = true ↔ space.NullFree := by
  constructor
  · intro same
    rw [Space.same, Bool.and_eq_true] at same
    exact ⟨Frame.nullFree_of_same same.1,
      Dimension.allList_iff.1 (Dimension.nullFree_of_sameList same.2)⟩
  · intro free
    rw [withoutNull_of_nullFree free]
    exact same_refl h

end Space

/-! ## 2. Compiled spaces -/

theorem isWord_iff {i : Int} : IsWord i ↔ -2 ^ 63 ≤ i ∧ i < 2 ^ 63 := by
  unfold IsWord Binary64.minInt64 Binary64.maxInt64
  omega

theorem Setting.storable_of_ofJson? {v : Json} {x : Setting} (proper : v.Proper)
    (h : ofJson? v = some x) : x.Storable := by
  cases v with
  | number n =>
      simp only [ofJson?] at h
      split at h
      · rename_i i e
        cases h
        cases n with
        | float y => cases e
        | int j =>
            simp only [Number.asInt64?] at e
            split at e
            · rename_i word
              cases e
              exact word
            · cases e
      · cases h
        exact Number.isFinite_toBinary64 proper
  | array items => cases h
  | object members => cases h
  | _ => cases h; trivial

theorem Setting.Storable.proper_toJson {x : Setting} (h : x.Storable) : x.toJson.Proper :=
  Setting.proper_toJson fun i e => by
    subst e
    exact isWord_iff.1 h

/-- The fixed part is a value, and the dimensions can be stored. -/
def Compiled.Storable (c : Compiled) : Prop :=
  (∀ v ∈ c.skeleton, v.Proper) ∧ ∀ d ∈ c.dimensions, d.Storable

variable {settings : SpaceSettings} {path : Path} {c : Compiled}

theorem Compiled.storable_fixed {v : Json} (h : v.Proper) : (Compiled.fixed v).Storable :=
  ⟨by rintro _ ⟨⟩; exact h, by simp [fixed]⟩

theorem Compiled.storable_plain {domain : Domain} (h : domain.Storable) :
    (Compiled.plain path domain).Storable :=
  ⟨by simp [plain], fun d hd => by rw [List.mem_singleton.1 hd]; exact h⟩

theorem storable_of_compileChoices {values : List Json} (proper : ∀ v ∈ values, v.Proper)
    (h : compileChoices (values.filterMap Setting.ofJson?) path = .ok c) : c.Storable := by
  have each : ∀ x ∈ values.filterMap Setting.ofJson?, x.Storable := by
    intro x hx
    obtain ⟨v, hv, e⟩ := List.mem_filterMap.1 hx
    exact Setting.storable_of_ofJson? (proper v hv) e
  rcases compileChoices_cases h with ⟨only, eq, rfl⟩ | rfl
  · exact Compiled.storable_fixed (each only (by rw [eq]; exact List.mem_cons_self)).proper_toJson
  · exact Compiled.storable_plain each

theorem storable_of_compileNumeric {s : Scalar} (fin : s.Finite)
    (h : compileNumeric s path = .ok c) : c.Storable := by
  have word (x : Binary64) : IsWord x.toInt64 := isWord_iff.2 (Binary64.toInt64_bounds x)
  obtain ⟨low, high, hl, hh, le, cases⟩ := compileNumeric_cases h
  by_cases hk : s.kind = .integer
  · simp only [if_pos hk] at cases
    rcases cases with ⟨_, rfl⟩ | ⟨_, log, rfl⟩
    · exact Compiled.storable_fixed (Setting.Storable.proper_toJson (x := .int _) (word low))
    · exact Compiled.storable_plain ⟨word low, word high⟩
  · simp only [if_neg hk] at cases
    obtain ⟨finite, finite'⟩ := Scalar.isFinite_ends fin hk hl hh le
    rcases cases with ⟨_, rfl⟩ | ⟨_, log, rfl⟩
    · exact Compiled.storable_fixed (Setting.Storable.proper_toJson (x := .float _) finite)
    · exact Compiled.storable_plain ⟨finite, finite'⟩

theorem storable_of_compileScalar {s : Scalar} (proper : s.Proper) (fin : s.Finite)
    (h : compileScalar s path = .ok c) : c.Storable := by
  rcases compileScalar_forms h with ⟨members, e, h⟩ | ⟨_, ⟨_, rfl⟩ | ⟨_, rfl⟩ | ⟨_, h⟩⟩
  · obtain ⟨all, hall, rfl⟩ := Option.map_eq_some_iff.1 e
    exact storable_of_compileChoices
      (fun v hv => proper all hall v (List.mem_filter.1 hv).1) h
  · exact Compiled.storable_plain trivial
  · exact Compiled.storable_fixed trivial
  · exact storable_of_compileNumeric fin h

/-- **What the compiler makes of a well-formed schema can be stored.** -/
theorem storable_of_compiles {s : Schema} (h : Compiles settings s path c) (hs : s.Storable) :
    c.Storable := by
  induction h with
  | @scalar s p c h =>
      exact storable_of_compileScalar hs.proper.self (hs.sound.finite hs.hints) h
  | @object properties rules p entries map _ _ ih =>
      have own := hs.proper.self
      have names : entries.map (·.1) = Keyed.names properties := by
        rw [← map, Keyed.names, List.map_map]; rfl
      have each {name : String} {s : Schema} {c : Compiled} (he : (name, s, some c) ∈ entries) :
          c.Storable := by
        have hp : (name, s) ∈ properties := map ▸ List.mem_map_of_mem he
        exact ih name s c he (hs.of_mem (Schema.property_mem_parts hp))
      refine ⟨?_, fun d hd => ?_⟩
      · rintro _ ⟨⟩
        refine ⟨ascending_skeleton rules (by rw [names]; exact own.1),
          Json.properMembers_iff.2 fun m hm => ?_⟩
        obtain ⟨⟨name, s, o⟩, he, there⟩ := List.mem_filterMap.1 hm
        obtain ⟨v, hv, rfl⟩ := Option.map_eq_some_iff.1 there
        cases o with
        | some c => exact (each he).1 v hv
        | none => exact own.2.values _ (Keyed.mem_of_find? hv)
      · obtain ⟨⟨name, s, o⟩, he, hd⟩ := List.mem_flatMap.1 hd
        cases o with
        | some c => exact (each he).2 d hd
        | none => cases hd
  | @array items length p compiled _ _ ih =>
      have each : ∀ c ∈ compiled, c.Storable := by
        intro c hc
        obtain ⟨i, hi⟩ := List.mem_iff_getElem?.1 hc
        exact ih i c hi (hs.of_mem Schema.items_mem_parts)
      refine ⟨?_, fun d hd => ?_⟩
      · rintro _ ⟨⟩
        refine Json.properItems_iff.2 fun v hv => ?_
        obtain ⟨c, hc, rfl⟩ := List.mem_map.1 hv
        cases e : c.skeleton with
        | none => trivial
        | some v => exact (each c hc).1 v e
      · obtain ⟨c, hc, hd⟩ := List.mem_flatMap.1 hd
        exact (each c hc).2 d hd
  | @choice u branches choices p c form hu h =>
      have proper : ∀ leaf ∈ Schema.leaves branches, leaf.Proper := by
        intro leaf hl
        refine (hs.of_mem ?_).proper
        have part := (Schema.mem_leaves hl).2.1
        rcases form with rfl | rfl <;> exact List.mem_cons_of_mem _ part
      obtain ⟨values, rfl, holds⟩ := exists_values proper hu
      exact storable_of_compileChoices (fun v hv => (holds v hv).1) h
  | @union u branches exclusive p c kept fault form _ at' _ _ h ih =>
      have leaf {l : CompiledLeaf} (hl : l ∈ kept) : l.leaf.Storable := by
        refine hs.of_mem ?_
        have part := (Schema.mem_leaves (List.mem_of_getElem? (at' l hl))).2.1
        rcases form with ⟨rfl, _⟩ | ⟨rfl, _⟩ <;> exact List.mem_cons_of_mem _ part
      rcases selectLeaves_cases h with ⟨only, rfl, rfl⟩ | ⟨branches, rfl, _, from'⟩
      · exact ih only List.mem_cons_self (leaf List.mem_cons_self)
      · refine ⟨by simp, fun d hd => ?_⟩
        rw [List.mem_singleton.1 hd]
        refine Dimension.allBranches_iff.2 fun b hb => ?_
        obtain ⟨l, hl, e⟩ := from' b hb
        rw [e]
        obtain ⟨fixed, dimensions⟩ := ih l hl (leaf hl)
        exact ⟨⟨fixed, leaf hl, leaf hl⟩, dimensions⟩

theorem storable_of_compileSpace {name : String} {schema : Schema} {space : Space}
    (proper : schema.Proper) (free : schema.AllOfFree) (hints : schema.FiniteHints)
    (h : compileSpace settings name schema = .ok space) : space.Storable := by
  obtain ⟨sound, c, hc, rfl⟩ := compiles_of_compileSpace h
  rw [Schema.domainPart_of_allOfFree free] at hc ⊢
  have storable : schema.Storable := ⟨sound, proper, hints⟩
  obtain ⟨fixed, dimensions⟩ := storable_of_compiles hc storable
  exact ⟨⟨fixed, storable, storable⟩, dimensions⟩

/-- **A space survives being stored and restored, with the same answer to every sample, exactly if
    no fixed part in it is null.** -/
theorem restored_iff_nullFree {settings : SpaceSettings} {name : String} {schema : Schema}
    {space : Space} (proper : schema.Proper) (free : schema.AllOfFree) (hints : schema.FiniteHints)
    (h : compileSpace settings name schema = .ok space) :
    ∃ restored, Space.restore? (ofJson space.stored) = some restored ∧
      ((restored.same space = true ∧ ∀ sample, restored.apply sample = space.apply sample) ↔
        space.NullFree) := by
  have storable := storable_of_compileSpace proper free hints h
  refine ⟨_, Space.restore?_stored storable, ?_⟩
  rw [← Space.same_withoutNull_iff storable]
  refine ⟨fun both => both.1, fun same => ⟨same, fun sample => ?_⟩⟩
  rw [Space.withoutNull_of_nullFree ((Space.same_withoutNull_iff storable).1 same)]

theorem compileSpace_oneToThree (name : String) :
    compileSpace {} name (.scalar oneToThree) =
      .ok ⟨⟨name, none, .scalar oneToThree, .scalar oneToThree⟩, [.plain "choice" [] (.int 1 3 false)]⟩ := by
  refine compileSpace_of_compileNode (by decide) (by rw [Schema.domainPart]) ?_
  rw [compileNode, compileScalar_oneToThree]
  rfl

theorem restored_iff_nullFree_oneToThree :
    (Schema.Proper (.scalar oneToThree) ∧ Schema.AllOfFree (.scalar oneToThree) ∧
      Schema.FiniteHints (.scalar oneToThree)) ∧
    ∃ space restored, compileSpace {} "s" (.scalar oneToThree) = .ok space ∧
      Space.restore? (ofJson space.stored) = some restored ∧ restored.same space = true ∧
      ∀ sample, restored.apply sample = space.apply sample := by
  have proper : Schema.Proper (.scalar oneToThree) := by
    simp [Schema.Proper, Schema.Every, Schema.parts, Schema.ProperPart, Scalar.Proper, oneToThree]
  have free : Schema.AllOfFree (.scalar oneToThree) := by
    simp [Schema.AllOfFree, Schema.Every, Schema.parts]
  have hints : Schema.FiniteHints (.scalar oneToThree) := by
    simp [Schema.FiniteHints, Schema.Every, Schema.parts, oneToThree]
  obtain ⟨restored, hr, survives⟩ :=
    restored_iff_nullFree proper free hints (compileSpace_oneToThree "s")
  have nullFree : Space.NullFree ⟨⟨"s", none, .scalar oneToThree, .scalar oneToThree⟩,
      [.plain "choice" [] (.int 1 3 false)]⟩ := by
    refine ⟨by simp [Frame.NullFree], fun d hd => ?_⟩
    rw [List.mem_singleton.1 hd]
    trivial
  obtain ⟨same, answers⟩ := survives.2 nullFree
  exact ⟨⟨proper, free, hints⟩, _, restored, compileSpace_oneToThree "s", hr, same, answers⟩

/-! ## 3. Null under a key -/

/-- An object with an integer from 1 to 3, or null, under a key. -/
def nullable : Schema := .object [("x", oneToThreeOrNull)] { required := ["x"] }

/-- Its space. -/
def nullableSpace : Space :=
  ⟨⟨"s", some (.object []), nullable, nullable⟩, [oneToThreeOrNullSelector [.property "x"]]⟩

theorem nullable_storable : nullable.Storable := by
  refine ⟨Schema.isWellFormed_iff.1 (by decide), ?_, ?_⟩
  · simp [Schema.Proper, Schema.Every, Schema.parts, Schema.partsOfBranches,
      Schema.partsOfProperties, Schema.ProperPart, Scalar.Proper, nullable, oneToThreeOrNull,
      oneToThree]
    exact ⟨List.pairwise_singleton _ _, List.pairwise_singleton _ _, by simp, .nil, by simp⟩
  · simp [Schema.FiniteHints, Schema.Every, Schema.parts, Schema.partsOfBranches,
      Schema.partsOfProperties, nullable, oneToThreeOrNull, oneToThree]

theorem nullable_allOfFree : nullable.AllOfFree := by
  simp [Schema.AllOfFree, Schema.Every, Schema.parts, Schema.partsOfBranches,
    Schema.partsOfProperties, nullable, oneToThreeOrNull]

theorem compileSpace_nullable : compileSpace {} "s" nullable = .ok nullableSpace := by
  refine compileSpace_of_compileNode (by decide)
    (Schema.domainPart_of_allOfFree nullable_allOfFree) ?_
  rw [nullable, compileNode, compileProperties, compileNode_oneToThreeOrNull]
  rfl

/-- **Null is lost**: the space is restored, but not as it was, and a sample that chooses null can be
    applied no longer, for nothing is put under the key. -/
theorem nullable_loses_null :
    nullable.Proper ∧ nullable.AllOfFree ∧ nullable.FiniteHints ∧
    compileSpace {} "s" nullable = .ok nullableSpace ∧
    ∃ restored, Space.restore? (ofJson nullableSpace.stored) = some restored ∧
      restored.same nullableSpace = false ∧
      (nullableSpace.apply [("x", .text "0")]).isOk = true ∧
      (restored.apply [("x", .text "0")]).isOk = false := by
  obtain ⟨_, proper, hints⟩ := nullable_storable
  have storable := storable_of_compileSpace proper nullable_allOfFree hints compileSpace_nullable
  exact ⟨proper, nullable_allOfFree, hints, compileSpace_nullable, nullableSpace.withoutNull,
    Space.restore?_stored storable, by decide +kernel, by decide +kernel, by decide +kernel⟩

end TypedPipeline
