import TypedPipeline.Space.Placement
import TypedPipeline.Proofs.Schema.Acceptance

/-!
# Proofs.Schema.Refusal: where a value is refused

A refusal names a place inside the value. This file fixes:

* following a path through a value (`placed?_append`);
* what it is for a refusal to point into a value (`Invalid.PointsInto`): every step of its path is
  there, but for the last one if that is a property which is missing;
* checks that say the same of a value wherever it stands, about places inside it (`Anchored`). What
  validation is put together from keeps this: one check after the other (`Anchored.andThen`), a check
  of something inside (`Anchored.inside`), and the choice among the refusals of a union, which
  compares how far they got beyond the place of the union itself (`unionRefusal_under`);
* **that validation is anchored in the value** (`anchored_validateAt`), so a refusal at a place is the
  refusal at the root moved there, and points at something real (`refusal_moved`).
-/

namespace TypedPipeline

/-! ## 1. Places -/

theorem Json.placed?_append (v : Json) (p q : Path) :
    v.placed? (p ++ q) = (v.placed? p).bind fun w => w.placed? q := by
  induction p generalizing v with
  | nil => rfl
  | cons step rest ih =>
      cases step with
      | property name =>
          simp only [List.cons_append, placed?, ih, Option.bind_assoc]
      | index position =>
          simp only [List.cons_append, placed?, ih, Option.bind_assoc]
      | items => exact ih v

namespace Invalid

/-- A refusal points into a value: its path goes from property to property and from position to
    position. Where it ends there is something, or it is a property that is missing. -/
inductive PointsInto (v : Json) : Invalid → Prop
  | there {path : Path} {reason : Reason} : Segment.items ∉ path → (v.placed? path).isSome = true →
      reason ≠ .missingProperty → PointsInto v ⟨path, reason⟩
  | missing {path : Path} {name : String} {members : Keyed Json} : Segment.items ∉ path →
      v.placed? path = some (.object members) → members.find? name = none →
      PointsInto v ⟨path.property name, .missingProperty⟩

/-- The same refusal, of a value that stands at a place. -/
def under (path : Path) (e : Invalid) : Invalid := { e with path := path ++ e.path }

theorem length_under (path : Path) (e : Invalid) :
    (e.under path).path.length = path.length + e.path.length := List.length_append

variable {v w : Json} {e : Invalid}

/-- A refusal of something inside a value points into the value. -/
theorem PointsInto.outwards {step : Segment} (hw : v.placed? [step] = some w) (real : step ≠ .items)
    (h : PointsInto w e) : PointsInto v (e.under [step]) := by
  have through (q : Path) : v.placed? ([step] ++ q) = w.placed? q := by
    rw [Json.placed?_append, hw]
    rfl
  cases h with
  | there steps found other =>
      exact .there (by simp [steps, real.symm]) (by rw [through]; exact found) other
  | @missing path name members steps found absent =>
      have e : (⟨path.property name, .missingProperty⟩ : Invalid).under [step] =
          ⟨Path.property ([step] ++ path) name, .missingProperty⟩ := by simp [under, Path.property]
      rw [e]
      exact .missing (by simp [steps, real.symm]) (by rw [through]; exact found) absent

end Invalid

theorem Scalar.fault?_ne_missing {s : Scalar} {v : Json} {reason : Invalid.Reason}
    (h : s.fault? v = some reason) : reason ≠ .missingProperty := by
  rintro rfl
  unfold fault? at h
  split at h
  · cases h
  · split at h
    · rename_i range
      cases h
      unfold rangeFault? at range
      split at range
      · cases range
      · split at range <;> cases range
    · split at h
      · cases h
      · split at h <;> cases h

namespace Schema

/-! ## 2. The refusal of a union -/

variable {v : Json} {errors : List Invalid}

theorem deepest?_under (path : Path) (errors : List Invalid) :
    deepest? (errors.map (Invalid.under path)) = (deepest? errors).map (Invalid.under path) := by
  induction errors with
  | nil => rfl
  | cons first rest ih =>
      rw [List.map_cons, deepest?, deepest?, ih]
      cases deepest? rest with
      | none => rfl
      | some later =>
          simp only [Option.map_some, Invalid.length_under, Nat.add_lt_add_iff_left]
          split <;> rfl

theorem mem_of_deepest? {e : Invalid} (h : deepest? errors = some e) : e ∈ errors := by
  induction errors generalizing e with
  | nil => cases h
  | cons first rest ih =>
      rw [deepest?] at h
      cases hr : deepest? rest with
      | none =>
          rw [hr] at h
          cases h
          exact List.mem_cons_self
      | some later =>
          rw [hr] at h
          dsimp only at h
          split at h
          · cases h
            exact List.mem_cons_of_mem _ (ih hr)
          · cases h
            exact List.mem_cons_self

/-- **The choice among refusals moves with them**: it compares lengths beyond the union's own place. -/
theorem unionRefusal_under (path : Path) (v : Json) (errors : List Invalid) :
    unionRefusal (errors.map (Invalid.under path)) path v =
      (unionRefusal errors .root v).under path := by
  have here (reason : Invalid.Reason) :
      (⟨path, reason⟩ : Invalid) = Invalid.under path ⟨.root, reason⟩ := by
    simp [Invalid.under, Path.root]
  unfold unionRefusal
  rw [deepest?_under, List.length_map]
  cases deepest? errors with
  | none => exact here _
  | some e =>
      have deeper : path.length < (e.under path).path.length ↔ Path.root.length < e.path.length := by
        rw [Invalid.length_under, Path.root, List.length_nil]
        omega
      simp only [Option.map_some, deeper]
      split
      · rfl
      · exact here _

theorem points_unionRefusal (h : ∀ e ∈ errors, e.PointsInto v) :
    (unionRefusal errors .root v).PointsInto v := by
  have whole : Invalid.PointsInto v ⟨.root, .noAlternative v errors.length⟩ :=
    .there (by simp [Path.root]) rfl (by simp)
  unfold unionRefusal
  split
  · split
    · exact h _ (mem_of_deepest? ‹_›)
    · exact whole
  · exact whole

/-! ## 3. Checks that are anchored -/

/-- What a check says does not hang on where the value stands: the refusal at a place is the one at
    the root moved there, and that one points into the value. -/
structure Anchored (v : Json) (check : Path → Outcome) : Prop where
  moves : ∀ path, check path = (check .root).mapError (Invalid.under path)
  points : ∀ e, check .root = .error e → e.PointsInto v

namespace Anchored

variable {w : Json} {check check' : Path → Outcome}

theorem of_eq (e : ∀ path, check' path = check path) (h : Anchored v check) : Anchored v check' :=
  (funext e : check' = check) ▸ h

theorem ok : Anchored v fun _ => .ok () := ⟨fun _ => rfl, fun _ h => (by cases h)⟩

/-- A refusal of the value as a whole. -/
theorem refuse {reason : Invalid.Reason} (h : reason ≠ .missingProperty) :
    Anchored v fun path => .error ⟨path, reason⟩ := by
  refine ⟨fun path => ?_, fun e h' => ?_⟩
  · simp [Except.mapError, Invalid.under, Path.root]
  · cases h'
    exact .there (by simp [Path.root]) rfl h

theorem andThen (h : Anchored v check) (h' : Anchored v check') :
    Anchored v fun path => check path >>= fun _ => check' path := by
  refine ⟨fun path => ?_, fun e refused => ?_⟩
  · rw [h.moves path, h'.moves path]
    cases check .root <;> rfl
  · cases hc : check .root with
    | error first =>
        simp only [hc] at refused
        cases refused
        exact h.points _ hc
    | ok _ =>
        simp only [hc] at refused
        exact h'.points _ refused

/-- A check of something inside a value is a check of the value. -/
theorem inside {step : Segment} (hw : v.placed? [step] = some w) (real : step ≠ .items)
    (h : Anchored w check) : Anchored v fun path => check (path ++ [step]) := by
  refine ⟨fun path => ?_, fun e refused => ?_⟩
  · rw [h.moves (path ++ [step]), h.moves (.root ++ [step])]
    cases check .root with
    | ok _ => rfl
    | error e => simp [Except.mapError, Invalid.under, Path.root]
  · rw [h.moves (.root ++ [step])] at refused
    cases hc : check .root with
    | ok _ => rw [hc] at refused; cases refused
    | error e =>
        rw [hc] at refused
        cases refused
        exact (h.points _ hc).outwards hw real

end Anchored

/-! ## 4. Validation -/

variable {branches : List Schema} {path : Path}

theorem anchored_checkItems {check : Json → Path → Outcome} {done items : List Json}
    (h : ∀ item ∈ items, Anchored item (check item)) :
    Anchored (.array (done ++ items)) fun path => checkItems check path done.length items := by
  induction items generalizing done with
  | nil => exact .ok
  | cons item rest ih =>
      obtain ⟨first, later⟩ := List.forall_mem_cons.1 h
      have here : (Json.array (done ++ item :: rest)).placed? [.index done.length] = some item := by
        simp [Json.placed?, Json.asArray?]
      have others := @ih (done ++ [item]) later
      rw [List.append_assoc, List.singleton_append, List.length_append, List.length_singleton] at others
      exact (first.inside here (by simp)).andThen others

theorem anchored_checkLength (length : Length) (count : Nat) :
    Anchored v fun path => checkLength length count path := by
  unfold checkLength
  cases length.least.filter (count < ·) with
  | some least => exact .refuse (by simp)
  | none =>
      cases length.most.filter (· < count) with
      | some most => exact .refuse (by simp)
      | none => exact .ok

theorem anchored_validateProperties {properties : List (String × Schema)} {rules : ObjectRules}
    {members : Keyed Json} (h : ∀ name s, (name, s) ∈ properties → ∀ v, Anchored v (validateAt s v)) :
    Anchored (.object members) (validateProperties properties rules members) := by
  induction properties with
  | nil => exact .ok
  | cons head rest ih =>
      obtain ⟨name, s⟩ := head
      have later := ih fun name s hs => h name s (List.mem_cons_of_mem _ hs)
      cases found : members.find? name with
      | some value =>
          have here : (Json.object members).placed? [.property name] = some value := by
            simp [Json.placed?, Json.member?, Json.asObject?, found]
          have first := (h name s List.mem_cons_self value).inside here (by simp)
          exact .of_eq (fun path => by rw [validateProperties, found]; rfl) (first.andThen later)
      | none =>
          cases required : rules.requires name with
          | false => exact .of_eq (fun path => by rw [validateProperties, found, required]; rfl) later
          | true =>
              have refused (path : Path) : validateProperties ((name, s) :: rest) rules members path =
                  .error ⟨path.property name, .missingProperty⟩ := by
                rw [validateProperties, found, required]
                rfl
              refine ⟨fun path => ?_, fun e he => ?_⟩
              · rw [refused, refused]
                simp [Except.mapError, Invalid.under, Path.root, Path.property]
              · rw [refused] at he
                cases he
                exact .missing (by simp [Path.root]) rfl found

/-- A property that is not declared is there, so its refusal points at something. -/
theorem anchored_undeclared (properties : Keyed Schema) (rules : ObjectRules) (members : Keyed Json) :
    Anchored (.object members) fun path =>
      if rules.isOpen then .ok ()
      else match undeclared? properties members with
        | some name => .error ⟨path.property name, .forbiddenProperty⟩
        | none => .ok () := by
  cases rules.isOpen with
  | true => exact .ok
  | false =>
      cases found : undeclared? properties members with
      | none => exact .ok
      | some name =>
          obtain ⟨w, hw⟩ := Option.isSome_iff_exists.1
            (Keyed.has_iff.2 (List.mem_of_find?_eq_some found))
          have there : (Json.object members).placed? [.property name] = some w := by
            simp [Json.placed?, Json.member?, Json.asObject?, hw]
          exact (@Anchored.refuse w _ (by simp)).inside there (by simp)

theorem refusals_mapError (f : Invalid → Invalid) (outcomes : List Outcome) :
    refusals (outcomes.map (·.mapError f)) = (refusals outcomes).map f := by
  induction outcomes with
  | nil => rfl
  | cons first rest ih =>
      cases first with
      | ok _ => exact ih
      | error e => exact congrArg (f e :: ·) ih

theorem mem_refusals {outcomes : List Outcome} {e : Invalid} (h : e ∈ refusals outcomes) :
    .error e ∈ outcomes := by
  induction outcomes with
  | nil => cases h
  | cons first rest ih =>
      cases first with
      | ok _ => exact List.mem_cons_of_mem _ (ih h)
      | error e' =>
          rcases List.mem_cons.1 h with rfl | h
          · exact List.mem_cons_self
          · exact List.mem_cons_of_mem _ (ih h)

theorem countP_mapError (f : Invalid → Invalid) (outcomes : List Outcome) :
    (outcomes.map (·.mapError f)).countP (·.isOk) = outcomes.countP (·.isOk) := by
  rw [List.countP_map]
  refine List.countP_congr fun o _ => ?_
  cases o <;> rfl

/-- What the branches say moves, and points into the value. -/
theorem anchored_branches (h : ∀ b ∈ branches, Anchored v (validateAt b v)) :
    (∀ path, validateBranches branches v path =
      (validateBranches branches v .root).map (·.mapError (Invalid.under path))) ∧
    (unionRefusal (refusals (validateBranches branches v .root)) .root v).PointsInto v := by
  refine ⟨fun path => ?_, points_unionRefusal fun e he => ?_⟩
  · rw [validateBranches_eq, validateBranches_eq, List.map_map]
    exact List.map_congr_left fun b hb => (h b hb).moves path
  · rw [validateBranches_eq] at he
    obtain ⟨b, hb, refused⟩ := List.mem_map.1 (mem_refusals he)
    exact (h b hb).points e refused

theorem anchored_anyOf (h : ∀ b ∈ branches, Anchored v (validateAt b v)) :
    Anchored v (validateAt (.anyOf branches) v) := by
  obtain ⟨moved, points⟩ := anchored_branches h
  generalize validateBranches branches v .root = outcomes at moved points
  have answer (path : Path) : validateAt (.anyOf branches) v path =
      if outcomes.countP (·.isOk) = 0 then
        .error ((unionRefusal (refusals outcomes) .root v).under path)
      else .ok () := by
    rw [validateAt_anyOf, moved path, countP_mapError, refusals_mapError, unionRefusal_under]
  refine .of_eq answer ?_
  split
  · exact ⟨fun _ => rfl, fun e refused => by cases refused; exact points⟩
  · exact .ok

theorem anchored_oneOf (h : ∀ b ∈ branches, Anchored v (validateAt b v)) :
    Anchored v (validateAt (.oneOf branches) v) := by
  obtain ⟨moved, points⟩ := anchored_branches h
  generalize validateBranches branches v .root = outcomes at moved points
  have answer (path : Path) : validateAt (.oneOf branches) v path =
      oneBranch (outcomes.map (·.mapError (Invalid.under path))) path v := by
    rw [validateAt, moved path]
  refine .of_eq answer ?_
  simp only [oneBranch, countP_mapError, refusals_mapError, unionRefusal_under]
  split
  · exact .ok
  · exact ⟨fun _ => rfl, fun e refused => by cases refused; exact points⟩
  · exact .refuse (by simp)

theorem anchored_validateEvery (h : ∀ b ∈ branches, Anchored v (validateAt b v)) :
    Anchored v (validateEvery branches v) := by
  induction branches with
  | nil => exact .ok
  | cons b rest ih =>
      obtain ⟨first, later⟩ := List.forall_mem_cons.1 h
      exact first.andThen (ih later)

/-- **Validation is anchored in the value.** -/
theorem anchored_validateAt (s : Schema) (v : Json) : Anchored v (validateAt s v) := by
  induction s using Schema.induction generalizing v with
  | any => exact .ok
  | scalar s =>
      cases fault : s.fault? v with
      | none => exact .of_eq (fun path => by rw [validateAt, fault]) .ok
      | some reason =>
          exact .of_eq (fun path => by rw [validateAt, fault]) (.refuse (Scalar.fault?_ne_missing fault))
  | object properties rules ih =>
      cases v with
      | object members =>
          have declared := @anchored_validateProperties properties rules members ih
          exact .of_eq (fun path => by unfold validateAt; rfl)
            (declared.andThen (anchored_undeclared properties rules members))
      | _ => exact .refuse (by simp)
  | array items length ih =>
      cases v with
      | array values =>
          have each := @anchored_checkItems _ [] values fun item _ => ih item
          exact (anchored_checkLength length values.length).andThen each
      | _ => exact .refuse (by simp)
  | anyOf branches ih => exact anchored_anyOf fun b hb => ih b hb v
  | allOf branches ih =>
      exact .of_eq (fun path => by rw [validateAt]) (anchored_validateEvery fun b hb => ih b hb v)
  | oneOf branches ih => exact anchored_oneOf fun b hb => ih b hb v

/-- **A value is accepted at a place if it is accepted, and otherwise refused for the same reason at the
    same place below. Every step of the way there exists in the value, but for a last one to a property
    that is missing.** -/
theorem refusal_moved (s : Schema) (v : Json) (path : Path) :
    (s.validateAt v path).isOk = (s.validate v).isOk ∧
    ∀ e, s.validateAt v path = .error e → ∃ q, e.path = path ++ q ∧
      s.validate v = .error ⟨q, e.reason⟩ ∧ Invalid.PointsInto v ⟨q, e.reason⟩ := by
  have anchored := anchored_validateAt s v
  rw [anchored.moves path]
  cases refused : s.validate v with
  | ok _ =>
      rw [validate] at refused
      rw [refused]
      exact ⟨rfl, fun e h => by cases h⟩
  | error first =>
      rw [validate] at refused
      rw [refused]
      refine ⟨rfl, fun e h => ?_⟩
      cases h
      exact ⟨first.path, rfl, rfl, anchored.points first refused⟩

/-- Either nothing, or steps each of which is an object with a count. -/
def countedStepsOrNull : Schema :=
  .anyOf [.scalar { kind := .null },
    .array (.object [("count", .scalar { kind := .integer })] { required := ["count"] }) {}]

theorem refusal_moved_countedSteps :
    countedStepsOrNull.validateAt (.array [.object [("count", .int 1)], .object []])
        (Path.root.property "plan") =
      .error ⟨[.property "plan", .index 1, .property "count"], .missingProperty⟩ ∧
    ∃ q, [.property "plan", .index 1, .property "count"] = Path.root.property "plan" ++ q ∧
      countedStepsOrNull.validate (.array [.object [("count", .int 1)], .object []]) =
        .error ⟨q, .missingProperty⟩ ∧
      Invalid.PointsInto (.array [.object [("count", .int 1)], .object []]) ⟨q, .missingProperty⟩ :=
  have refused : countedStepsOrNull.validateAt (.array [.object [("count", .int 1)], .object []])
      (Path.root.property "plan") =
        .error ⟨[.property "plan", .index 1, .property "count"], .missingProperty⟩ := by rfl
  ⟨refused, (refusal_moved _ _ _).2 _ refused⟩

end Schema

end TypedPipeline
