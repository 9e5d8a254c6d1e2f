import TypedPipeline.Proofs.Schema.Acceptance

/-!
# Proofs.Schema.Congruence: values that agree are accepted alike

A schema looks at numbers in double precision, and at the names of objects, so it cannot tell values
that agree apart. This file fixes:

* the place at which a value is refused (`Outcome.refusedAt`), and that a sequence of checks refuses
  where its first refusal does;
* that the refusal of a union is at a place which hangs only on the places of the refusals it is
  chosen from (`path_unionRefusal`);
* **that values which agree are refused at the same place, or not at all** (`refusedAt_validateAt`),
  and so accepted alike (`accepts_eq_of_agrees`).
-/

namespace TypedPipeline

namespace Schema

/-! ## 1. Places of refusals -/

/-- The place at which a value is refused, if it is. -/
def Outcome.refusedAt : Outcome → Option Path
  | .ok _ => none
  | .error e => some e.path

theorem Outcome.refusedAt_andThen (first later : Outcome) :
    Outcome.refusedAt (first >>= fun _ => later) = first.refusedAt.or later.refusedAt := by
  cases first <;> rfl

theorem Outcome.isOk_eq_refusedAt (o : Outcome) : o.isOk = o.refusedAt.isNone := by
  cases o <;> rfl

theorem path_deepest? {errors errors' : List Invalid}
    (h : errors.map (·.path) = errors'.map (·.path)) :
    (deepest? errors).map (·.path) = (deepest? errors').map (·.path) := by
  induction errors generalizing errors' with
  | nil =>
      cases errors' with
      | nil => rfl
      | cons e rest => cases h
  | cons e rest ih =>
      cases errors' with
      | nil => cases h
      | cons e' rest' =>
          obtain ⟨first, later⟩ : e.path = e'.path ∧ rest.map (·.path) = rest'.map (·.path) :=
            List.cons.inj h
          have chosen := ih later
          rw [deepest?, deepest?]
          cases hr : deepest? rest with
          | none =>
              rw [hr] at chosen
              rw [Option.map_eq_none_iff.1 chosen.symm]
              exact congrArg some first
          | some d =>
              rw [hr] at chosen
              obtain ⟨d', hd', deep⟩ := Option.map_eq_some_iff.1 chosen.symm
              rw [hd']
              dsimp only at deep ⊢
              rw [first, deep]
              split
              · exact congrArg some deep.symm
              · exact congrArg some first

/-- **The refusal of a union is at a place that hangs on the places of its refusals alone.** -/
theorem path_unionRefusal {errors errors' : List Invalid} (path : Path) (v w : Json)
    (h : errors.map (·.path) = errors'.map (·.path)) :
    (unionRefusal errors path v).path = (unionRefusal errors' path w).path := by
  have count : errors.length = errors'.length := by simpa using congrArg List.length h
  have chosen := path_deepest? h
  unfold unionRefusal
  rw [count]
  cases hd : deepest? errors with
  | none =>
      rw [hd] at chosen
      rw [Option.map_eq_none_iff.1 chosen.symm]
  | some d =>
      rw [hd] at chosen
      obtain ⟨d', hd', e⟩ := Option.map_eq_some_iff.1 chosen.symm
      rw [hd']
      dsimp only
      rw [e]
      split
      · exact e.symm
      · rfl

/-! ## 2. Parts of validation -/

variable {v w : Json} {path : Path} {branches : List Schema}

/-- A scalar asks the same of proper values that agree. -/
theorem isNone_fault?_congr (s : Scalar) (pv : v.Proper) (pw : w.Proper) (h : v.agrees w = true) :
    (s.fault? v).isNone = (s.fault? w).isNone := by
  have onward {v w : Json} (pv : v.Proper) (pw : w.Proper) (h : v.agrees w = true)
      (fits : s.Fits v) : s.Fits w := by
    have hv := Scalar.isScalar_of_acceptsKind fits.kind
    have hw := Json.isScalar_of_agrees hv (pv.agrees_symm pw h)
    exact Scalar.fits_congr hw pv pw h fits
  rw [Bool.eq_iff_iff, Option.isNone_iff_eq_none, Option.isNone_iff_eq_none,
    Scalar.fault?_eq_none_iff, Scalar.fault?_eq_none_iff]
  exact ⟨onward pv pw h, onward pw pv (pv.agrees_symm pw h)⟩

theorem refusedAt_checkItems {check : Json → Path → Outcome} {xs ys : List Json} {start : Nat}
    (h : List.Forall₂ (fun x y => ∀ p, (check x p).refusedAt = (check y p).refusedAt) xs ys) :
    (checkItems check path start xs).refusedAt = (checkItems check path start ys).refusedAt := by
  induction h generalizing start with
  | nil => rfl
  | cons first _ later =>
      rw [checkItems, checkItems, Outcome.refusedAt_andThen, Outcome.refusedAt_andThen, first, later]

/-- What the properties of an object schema ask of two objects with the same names. -/
theorem refusedAt_validateProperties {properties : List (String × Schema)} {rules : ObjectRules}
    {xs ys : Keyed Json} (h : ∀ name s, (name, s) ∈ properties →
      (xs.find? name = none ∧ ys.find? name = none) ∨ ∃ x y, xs.find? name = some x ∧
        ys.find? name = some y ∧ ∀ p, (validateAt s x p).refusedAt = (validateAt s y p).refusedAt) :
    (validateProperties properties rules xs path).refusedAt =
      (validateProperties properties rules ys path).refusedAt := by
  induction properties with
  | nil => rfl
  | cons head rest ih =>
      obtain ⟨name, s⟩ := head
      have later := ih fun name s hs => h name s (List.mem_cons_of_mem _ hs)
      rw [validateProperties, validateProperties]
      rcases h name s List.mem_cons_self with ⟨absent, absent'⟩ | ⟨x, y, hx, hy, first⟩
      · rw [absent, absent']
        cases rules.requires name with
        | true => rfl
        | false => exact later
      · rw [hx, hy]
        dsimp only
        rw [Outcome.refusedAt_andThen, Outcome.refusedAt_andThen, first, later]

theorem refusedAt_validateEvery
    (h : ∀ b ∈ branches, (validateAt b v path).refusedAt = (validateAt b w path).refusedAt) :
    (validateEvery branches v path).refusedAt = (validateEvery branches w path).refusedAt := by
  induction branches with
  | nil => rfl
  | cons b rest ih =>
      obtain ⟨first, later⟩ := List.forall_mem_cons.1 h
      rw [validateEvery, validateEvery, Outcome.refusedAt_andThen, Outcome.refusedAt_andThen, first,
        ih later]

/-- The places of the refusals among outcomes. -/
theorem paths_refusals (outcomes : List Outcome) :
    (refusals outcomes).map (·.path) = outcomes.filterMap Outcome.refusedAt := by
  induction outcomes with
  | nil => rfl
  | cons first rest ih =>
      cases first with
      | ok _ => exact ih
      | error e => exact congrArg (e.path :: ·) ih

/-- Branches that refuse at the same places leave the same number of branches that accept, and the
    same places of refusals. -/
theorem branches_congr
    (h : ∀ b ∈ branches, (validateAt b v path).refusedAt = (validateAt b w path).refusedAt) :
    (validateBranches branches v path).countP (·.isOk) =
        (validateBranches branches w path).countP (·.isOk) ∧
      (refusals (validateBranches branches v path)).map (·.path) =
        (refusals (validateBranches branches w path)).map (·.path) := by
  rw [paths_refusals, paths_refusals, validateBranches_eq, validateBranches_eq]
  constructor
  · rw [List.countP_map, List.countP_map]
    refine List.countP_congr fun b hb => ?_
    rw [Function.comp_apply, Function.comp_apply, Outcome.isOk_eq_refusedAt,
      Outcome.isOk_eq_refusedAt, h b hb]
  · rw [List.filterMap_map, List.filterMap_map]
    exact List.filterMap_congr h

/-! ## 3. Values that agree -/

/-- **Proper values that agree are refused at the same place, or not at all.** -/
theorem refusedAt_validateAt (s : Schema) (pv : v.Proper) (pw : w.Proper) (h : v.agrees w = true)
    (path : Path) : (validateAt s v path).refusedAt = (validateAt s w path).refusedAt := by
  induction s using Schema.induction generalizing v w path with
  | any => rfl
  | scalar s =>
      have same := isNone_fault?_congr s pv pw h
      rw [validateAt, validateAt]
      cases hv : s.fault? v <;> cases hw : s.fault? w <;> simp_all [Outcome.refusedAt]
  | object properties rules ih =>
      have outside {v : Json} (hv : v.isScalar = true) :
          (validateAt (.object properties rules) v path).refusedAt = some path := by
        cases v <;> first | rfl | cases hv
      rcases Json.form_of_agrees h with ⟨hv, hw⟩ | ⟨xs, ys, rfl, rfl⟩ | ⟨xs, ys, rfl, rfl⟩
      · rw [outside hv, outside hw]
      · rfl
      · have names := Json.names_eq_of_agrees pv.1 pw.1 h
        have declared := @refusedAt_validateProperties path properties rules xs ys
          fun name s hs => by
            refine (Json.find?_of_agrees pv.1 pw.1 h name).imp_right ?_
            rintro ⟨x, y, hx, hy, a⟩
            exact ⟨x, y, hx, hy, fun p => ih name s hs
              (Json.properMembers_iff.1 pv.2 _ (Keyed.mem_of_find? hx))
              (Json.properMembers_iff.1 pw.2 _ (Keyed.mem_of_find? hy)) a p⟩
        rw [validateAt, validateAt, Outcome.refusedAt_andThen, Outcome.refusedAt_andThen, declared,
          undeclared?, undeclared?, names]
  | array items length ih =>
      have outside {v : Json} (hv : v.isScalar = true) :
          (validateAt (.array items length) v path).refusedAt = some path := by
        cases v <;> first | rfl | cases hv
      rcases Json.form_of_agrees h with ⟨hv, hw⟩ | ⟨xs, ys, rfl, rfl⟩ | ⟨xs, ys, rfl, rfl⟩
      · rw [outside hv, outside hw]
      · have each := Json.agrees_array_iff.1 h
        have items := @refusedAt_checkItems path (validateAt items) xs ys 0 ?_
        · rw [validateAt, validateAt, Outcome.refusedAt_andThen, Outcome.refusedAt_andThen,
            each.length_eq, items]
        · replace pv : Json.ProperItems xs := pv
          replace pw : Json.ProperItems ys := pw
          clear h
          induction each with
          | nil => exact .nil
          | cons first _ later => exact .cons (ih pv.1 pw.1 first) (later pv.2 pw.2)
      · rfl
  | anyOf branches ih =>
      obtain ⟨count, paths⟩ := branches_congr fun b hb => ih b hb pv pw h path
      rw [validateAt_anyOf, validateAt_anyOf, count]
      split
      · exact congrArg some (path_unionRefusal path v w paths)
      · rfl
  | allOf branches ih =>
      rw [validateAt, validateAt]
      exact refusedAt_validateEvery fun b hb => ih b hb pv pw h path
  | oneOf branches ih =>
      obtain ⟨count, paths⟩ := branches_congr fun b hb => ih b hb pv pw h path
      rw [validateAt, validateAt, oneBranch, oneBranch, count]
      split
      · rfl
      · exact congrArg some (path_unionRefusal path v w paths)
      · rfl

/-- **Values that are equal with numbers compared in double precision are accepted alike, and where
    both are refused they are refused at the same place.** -/
theorem accepts_eq_of_agrees (s : Schema) (pv : v.Proper) (pw : w.Proper) (h : v.agrees w = true) :
    s.accepts v = s.accepts w ∧
    ∀ e e', s.validate v = .error e → s.validate w = .error e' → e.path = e'.path := by
  have same := refusedAt_validateAt s pv pw h .root
  refine ⟨?_, fun e e' refused refused' => ?_⟩
  · rw [accepts, accepts, Outcome.isOk_eq_refusedAt, Outcome.isOk_eq_refusedAt, validate, validate,
      same]
  · rw [validate] at refused refused'
    rw [refused, refused'] at same
    exact Option.some.inj same

/-- Counts that are at most three, or that are the greatest number below which all are exact. -/
def fewOrLimit : Schema :=
  .object [("counts", .array (.anyOf [.scalar { kind := .integer, maximum := some ⟨.ofInt 3, false⟩ },
    .scalar { kind := .integer, enumeration := some [.int (2 ^ 53)] }]) {})] { required := ["counts"] }

def countsWritten (last : Number) : Json := .object [("counts", .array [.int 1, .number last])]

theorem accepts_eq_of_agrees_limit :
    (countsWritten (.int (2 ^ 53 + 1))).Proper ∧
    (countsWritten (.float (.ofInt (2 ^ 53)))).Proper ∧
    (countsWritten (.int (2 ^ 53 + 1))).agrees (countsWritten (.float (.ofInt (2 ^ 53)))) = true ∧
    fewOrLimit.accepts (countsWritten (.int (2 ^ 53 + 1))) =
      fewOrLimit.accepts (countsWritten (.float (.ofInt (2 ^ 53)))) := by
  have proper : (countsWritten (.int (2 ^ 53 + 1))).Proper := by
    refine ⟨?_, ⟨?_, ?_, trivial⟩, trivial⟩ <;>
      simp [Keyed.Ascending, Keyed.names, Json.Proper, Json.int, Number.Proper]
  have proper' : (countsWritten (.float (.ofInt (2 ^ 53)))).Proper := by
    refine ⟨?_, ⟨?_, ?_, trivial⟩, trivial⟩ <;>
      simp [Keyed.Ascending, Keyed.names, Json.Proper, Json.int, Number.Proper]
    decide
  have agrees : (countsWritten (.int (2 ^ 53 + 1))).agrees
      (countsWritten (.float (.ofInt (2 ^ 53)))) = true := by decide
  exact ⟨proper, proper', agrees, (accepts_eq_of_agrees fewOrLimit proper proper' agrees).1⟩

end Schema

end TypedPipeline
