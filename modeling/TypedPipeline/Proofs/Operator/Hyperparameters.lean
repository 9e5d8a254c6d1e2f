import TypedPipeline.Proofs.Operator.Construction
import TypedPipeline.Proofs.Schema.Disjointness
import TypedPipeline.Proofs.Schema.Domain
import TypedPipeline.Proofs.Space.Unions

/-!
# Proofs.Operator.Hyperparameters: what composites may be set to

The hyperparameters of a composite are put together from those of its children, under one key for
each child. This file fixes:

* that every child has a key of its own (`keyedChildren_names`, `keyedChildren_children`);
* the object of all parts (`accepts_closedKeyedObject_iff`): it accepts the objects whose names are
  exactly the keys, and whose members are accepted by the parts;
* the selection of one child (`accepts_selecting_iff`), and that selections under different keys are
  disjoint, whatever is selected (`areDisjoint_selecting`);
* **what the hyperparameters of a composite accept** (`hyperparameters_of_composite`). The branches of
  a choice are kept apart, and are so in its domain as well, so that no overlap is ever found among
  them (`KeptApart`).
-/

namespace TypedPipeline

variable {children : List Operator} {part : Operator → Schema} {key : String} {child : Operator}
  {v : Json}

/-! ## 1. A key for each child -/

/-- The children under their keys. -/
def keyedChildren (children : List Operator) : List (String × Operator) :=
  (childKeys children).zip children

theorem length_childKeys (children : List Operator) :
    (childKeys children).length = children.length := by
  rw [childKeys, keysAfter_length, List.length_map]

theorem keyedChildren_names (children : List Operator) :
    (keyedChildren children).map (·.1) = childKeys children :=
  List.map_fst_zip (Nat.le_of_eq (length_childKeys children))

/-- No child is without a key. -/
theorem keyedChildren_children (children : List Operator) :
    (keyedChildren children).map (·.2) = children :=
  List.map_snd_zip (Nat.le_of_eq (length_childKeys children).symm)

theorem nodup_childKeys (children : List Operator) : (childKeys children).Nodup :=
  (keysAfter_nodup [] _).1

/-! ## 2. The object of all parts -/

/-- The parts of the children under their keys. -/
def keyedParts (children : List Operator) (part : Operator → Schema) : List (String × Schema) :=
  (keyedChildren children).map fun c => (c.1, part c.2)

theorem keyedParts_names : Keyed.names (keyedParts children part) = childKeys children := by
  rw [Keyed.names, keyedParts, List.map_map, ← keyedChildren_names]
  rfl

theorem foldl_required (entries : List (String × Operator)) (object : ObjectParts) :
    entries.foldl (fun object child => object.required child.1 (part child.2)) object =
      { properties := (entries.map fun c => (c.1, part c.2)).foldl (fun o e => o.put e.1 e.2)
          object.properties
        rules := { object.rules with
          required := (entries.map (·.1)).foldl Names.insert object.rules.required } } := by
  induction entries generalizing object with
  | nil => rfl
  | cons first rest ih =>
      rw [List.foldl_cons, ih]
      rfl

/-- Every part is a property, and every key is required. -/
theorem keyedObject_eq : keyedObject children part =
    { properties := Keyed.ofList (keyedParts children part)
      rules := { required := Names.ofList (childKeys children) } } := by
  rw [keyedObject, ← keyedChildren, foldl_required, keyedChildren_names]
  rfl

theorem closedKeyedObject_eq : closedKeyedObject children part =
    .object (Keyed.ofList (keyedParts children part))
      { required := Names.ofList (childKeys children), isOpen := false } := by
  rw [closedKeyedObject, keyedObject_eq]
  rfl

/-- What stands under a key is the part of the child, and nothing stands under other names. -/
theorem find?_keyedParts {name : String} {s : Schema} :
    (Keyed.ofList (keyedParts children part)).find? name = some s ↔
      ∃ child, (name, child) ∈ keyedChildren children ∧ part child = s := by
  have nodup : (Keyed.names (keyedParts children part)).Nodup := by
    rw [keyedParts_names]
    exact nodup_childKeys children
  rw [Keyed.find?_ofList nodup]
  constructor
  · intro h
    obtain ⟨⟨_, child⟩, hc, e⟩ := List.mem_map.1 (Keyed.mem_of_find? h)
    cases e
    exact ⟨child, hc, rfl⟩
  · intro h
    obtain ⟨child, hc, rfl⟩ := h
    exact Keyed.find?_of_mem nodup (List.mem_map.2 ⟨_, hc, rfl⟩)

/-- An object that has a member for each child, under its key, and no other, and each member is
    accepted by the part of its child. -/
def SetsEach (children : List Operator) (part : Operator → Schema) (v : Json) : Prop :=
  ∃ members, v = .object members ∧
    (∀ name, name ∈ Keyed.names members ↔ name ∈ childKeys children) ∧
    ∀ key child, (key, child) ∈ keyedChildren children →
      ∃ w, Keyed.find? members key = some w ∧ (part child).accepts w = true

theorem mem_childKeys_iff :
    key ∈ childKeys children ↔ ∃ child, (key, child) ∈ keyedChildren children := by
  rw [← keyedChildren_names]
  simp

/-- The object of all parts accepts one member for each child. -/
theorem accepts_closedKeyedObject_iff :
    (closedKeyedObject children part).accepts v = true ↔ SetsEach children part v := by
  rw [closedKeyedObject_eq, Schema.accepts_object]
  refine exists_congr fun members => and_congr_right fun _ => ?_
  constructor
  · intro h
    obtain ⟨each, closed⟩ := h
    have there (key : String) (child : Operator) (hc : (key, child) ∈ keyedChildren children) :
        ∃ w, Keyed.find? members key = some w ∧ (part child).accepts w = true :=
      Schema.exists_required (find?_keyedParts.2 ⟨child, hc, rfl⟩)
        (Names.mem_ofList.2 (mem_childKeys_iff.2 ⟨child, hc⟩)) each
    refine ⟨fun name => ⟨fun hn => ?_, fun hn => ?_⟩, there⟩
    · obtain ⟨s, hs⟩ := Option.isSome_iff_exists.1 (closed rfl name hn)
      obtain ⟨child, hc, _⟩ := find?_keyedParts.1 hs
      exact mem_childKeys_iff.2 ⟨child, hc⟩
    · obtain ⟨child, hc⟩ := mem_childKeys_iff.1 hn
      obtain ⟨w, hw, _⟩ := there name child hc
      exact List.mem_map.2 ⟨_, Keyed.mem_of_find? hw, rfl⟩
  · intro h
    obtain ⟨names, each⟩ := h
    have nodup := Keyed.nodup_of_ascending (Keyed.ascending_ofList (keyedParts children part))
    refine ⟨fun name s hs => ?_, fun _ name hn => ?_⟩
    · obtain ⟨child, hc, rfl⟩ := find?_keyedParts.1 (Keyed.find?_of_mem nodup hs)
      obtain ⟨w, hw, acc⟩ := each name child hc
      rw [Schema.AcceptsProperty, hw]
      exact acc
    · obtain ⟨child, hc⟩ := mem_childKeys_iff.1 ((names name).1 hn)
      rw [Keyed.has, find?_keyedParts.2 ⟨child, hc, rfl⟩]
      rfl

/-! ## 3. The selection of one child -/

/-- The schema that takes objects with this key alone. -/
def selecting (key : String) (inner : Schema) : Schema :=
  .object [(key, inner)] { required := [key], isOpen := false }

theorem domainPart_selecting {inner : Schema} :
    (selecting key inner).domainPart = selecting key inner.domainPart := by
  simp [selecting, Schema.domainPart, Schema.domainProperties]

/-- The member under the key is what is selected. -/
theorem accepts_selecting_iff {inner : Schema} (pv : v.Proper) :
    (selecting key inner).accepts v = true ↔
      ∃ w, v = .object [(key, w)] ∧ inner.accepts w = true := by
  have there : Keyed.find? [(key, inner)] key = some inner := by rw [Keyed.find?_cons, if_pos rfl]
  rw [selecting, Schema.accepts_object]
  constructor
  · intro h
    obtain ⟨members, rfl, each, closed⟩ := h
    obtain ⟨w, hw, acc⟩ := Schema.exists_required there List.mem_cons_self each
    have only : ∀ other ∈ Keyed.names members, other = key := fun other ho => by
      simpa [Keyed.names] using Keyed.has_iff.1 (closed rfl other ho)
    rw [Keyed.eq_singleton pv.1 hw only]
    exact ⟨w, rfl, acc⟩
  · intro h
    obtain ⟨w, rfl, acc⟩ := h
    refine ⟨_, rfl, fun name s hs => ?_, fun _ name hn => ?_⟩
    · cases List.mem_singleton.1 hs
      simpa [Schema.AcceptsProperty, Keyed.find?_cons] using acc
    · rw [Keyed.has_iff]
      exact hn

/-- Selections under different keys are disjoint: each requires a key that the other forbids. -/
theorem areDisjoint_selecting {key other : String} (ne : key ≠ other) (inner inner' : Schema) :
    (selecting key inner).areDisjoint (selecting other inner') = true := by
  rw [selecting, selecting, Schema.areDisjoint, Bool.or_eq_true]
  refine Or.inl (Schema.somePropertyDisjoint_iff.2 ⟨key, List.mem_cons_self, Or.inl ⟨?_, rfl⟩⟩)
  rw [Keyed.find?_cons, if_neg ne.symm]
  rfl

theorem apart_selecting {key other : String} (ne : key ≠ other) (inner inner' : Schema) :
    Schema.Apart (selecting key inner) (selecting other inner') := by
  intro v pv hv hv'
  obtain ⟨w, rfl, _⟩ := (accepts_selecting_iff pv).1 hv
  obtain ⟨w', e, _⟩ := (accepts_selecting_iff pv).1 hv'
  cases e
  exact ne rfl

/-! ## 4. Alternatives that are kept apart -/

/-- Branches that nothing is found to be common to: any two are disjoint, and so are the leaves that
    are compiled for them, of which any may be kept. -/
structure KeptApart (branches : List Schema) : Prop where
  disjoint : branches.Pairwise fun a b => a.areDisjoint b = true ∧ b.areDisjoint a = true
  noOverlap : ∀ kept, overlap? (Schema.leaves branches) kept
    (Schema.exclusivePairs true branches) = none

/-- The branches select one key each. -/
def selections (entries : List (String × Schema)) : List Schema := entries.map fun e => selecting e.1 e.2

variable {entries : List (String × Schema)}

theorem leaves_selections : Schema.leaves (selections entries) = selections entries := by
  induction entries with
  | nil => simp [selections, Schema.leaves]
  | cons e rest ih =>
      rw [selections, List.map_cons, selecting, Schema.leaves, ← selections, ih]
      all_goals simp

theorem nestedPairs_selections (start : Nat) : Schema.nestedPairs start (selections entries) = [] := by
  induction entries generalizing start with
  | nil => simp [selections, Schema.nestedPairs]
  | cons e rest ih =>
      rw [selections, List.map_cons, selecting, Schema.nestedPairs, ← selections, ih]
      all_goals simp

theorem leafGroups_selections (start : Nat) :
    Schema.leafGroups start (selections entries) =
      (List.range' start entries.length).map fun i => [i] := by
  induction entries generalizing start with
  | nil => rfl
  | cons e rest ih => exact congrArg ([start] :: ·) (ih (start + 1))

/-- Pairs across groups of one position each are pairs of two positions, the first one earlier. -/
theorem of_mem_crossPairs {positions : List Nat} (h : positions.Pairwise (· < ·)) {x y : Nat}
    (hp : (x, y) ∈ Schema.crossPairs (positions.map fun i => [i])) :
    x < y ∧ x ∈ positions ∧ y ∈ positions := by
  induction positions with
  | nil => cases hp
  | cons first rest ih =>
      obtain ⟨least, h⟩ := List.pairwise_cons.1 h
      rw [List.map_cons, Schema.crossPairs, List.mem_append] at hp
      rcases hp with hp | hp
      · obtain ⟨sibling, hs, hp⟩ := List.mem_flatMap.1 hp
        obtain ⟨i, hi, rfl⟩ := List.mem_map.1 hs
        have hp : (x, y) ∈ [(first, i)] := hp
        cases List.mem_singleton.1 hp
        exact ⟨least _ hi, List.mem_cons_self, List.mem_cons_of_mem _ hi⟩
      · obtain ⟨lt, hx, hy⟩ := ih h hp
        exact ⟨lt, List.mem_cons_of_mem _ hx, List.mem_cons_of_mem _ hy⟩

/-- **Selections under keys that differ are kept apart.** -/
theorem keptApart_selections (h : (Keyed.names entries).Nodup) : KeptApart (selections entries) := by
  have disjoint : (selections entries).Pairwise fun a b =>
      a.areDisjoint b = true ∧ b.areDisjoint a = true := by
    refine List.pairwise_map.2 ((List.pairwise_map.1 h).imp fun ne => ?_)
    exact ⟨areDisjoint_selecting ne _ _, areDisjoint_selecting (Ne.symm ne) _ _⟩
  refine ⟨disjoint, fun kept => List.find?_eq_none.2 fun p hp => ?_⟩
  obtain ⟨x, y⟩ := p
  rw [Schema.exclusivePairs, nestedPairs_selections, List.nil_append, if_pos rfl,
    leafGroups_selections] at hp
  obtain ⟨lt, _, hy⟩ := of_mem_crossPairs List.pairwise_lt_range' hp
  have inside : y < (selections entries).length := by
    rw [selections, List.length_map]
    simpa using hy
  have apart := (List.pairwise_iff_getElem.1 disjoint x y (Nat.lt_trans lt inside) inside lt).1
  rw [leaves_selections, List.getElem?_eq_getElem (Nat.lt_trans lt inside),
    List.getElem?_eq_getElem inside, Option.getD_some, Option.getD_some, apart]
  simp

/-- Exactly one selection accepts an object with the key of one of them alone. -/
theorem accepts_oneOf_selections_iff (h : (Keyed.names entries).Nodup) (pv : v.Proper) :
    (Schema.oneOf (selections entries)).accepts v = true ↔
      ∃ key inner w, (key, inner) ∈ entries ∧ v = .object [(key, w)] ∧ inner.accepts w = true := by
  constructor
  · intro hv
    obtain ⟨b, hb, acc⟩ := Schema.exists_of_accepts_oneOf hv
    obtain ⟨⟨key, inner⟩, he, rfl⟩ := List.mem_map.1 hb
    obtain ⟨w, e, acc⟩ := (accepts_selecting_iff pv).1 acc
    exact ⟨key, inner, w, he, e, acc⟩
  · intro hv
    obtain ⟨key, inner, w, he, e, acc⟩ := hv
    have apart : (selections entries).Pairwise Schema.Apart :=
      List.pairwise_map.2 ((List.pairwise_map.1 h).imp fun ne => apart_selecting ne _ _)
    exact Schema.accepts_oneOf_of_mem apart (List.mem_map.2 ⟨_, he, rfl⟩) pv
      ((accepts_selecting_iff pv).2 ⟨w, e, acc⟩)

/-! ## 5. What composites may be set to -/

/-- An object that has one member alone, under the key of a child that may be set to it. -/
def SetsOne (children : List Operator) (v : Json) : Prop :=
  ∃ key child w, (key, child) ∈ keyedChildren children ∧ v = .object [(key, w)] ∧
    (hyperparametersOf child).accepts w = true

theorem nodup_keyedParts : (Keyed.names (keyedParts children part)).Nodup := by
  rw [keyedParts_names]
  exact nodup_childKeys children

/-- The hyperparameters of a choice select one of its children. -/
theorem map_selectionOf : ((childKeys children).zip children).map selectionOf =
    selections (keyedParts children hyperparametersOf) := by
  rw [selections, keyedParts, List.map_map]
  rfl

/-- In the domain the same children are selected. -/
theorem domainPart_selections : (Schema.oneOf (selections (keyedParts children part))).domainPart =
    .oneOf (selections (keyedParts children fun child => (part child).domainPart)) := by
  rw [Schema.domainPart, Schema.domainBranches_eq_map, selections, selections, keyedParts, keyedParts,
    List.map_map, List.map_map, List.map_map]
  exact congrArg _ (List.map_congr_left fun c _ => domainPart_selecting)

theorem accepts_selections_iff (pv : v.Proper) :
    (Schema.oneOf (selections (keyedParts children hyperparametersOf))).accepts v = true ↔
      SetsOne children v := by
  rw [accepts_oneOf_selections_iff nodup_keyedParts pv]
  constructor
  · intro h
    obtain ⟨key, inner, w, he, e, acc⟩ := h
    obtain ⟨⟨_, child⟩, hc, same⟩ := List.mem_map.1 he
    cases same
    exact ⟨_, child, w, hc, e, acc⟩
  · intro h
    obtain ⟨key, child, w, hc, e, acc⟩ := h
    exact ⟨key, _, w, List.mem_map.2 ⟨_, hc, rfl⟩, e, acc⟩

/-- **What a composite may be set to.** Each child has a key of its own. Steps, and operators side by
    side, are set all at once, with one member for each child; of alternatives one is set. The
    selections of a choice are kept apart, and so are those in its domain. -/
theorem hyperparameters_of_composite {kind : Operator → Prop} {combinator : Combinator}
    {signature : Signature} {name : String}
    (made : (Operator.composite name combinator children signature).MadeFrom kind) :
    ((childKeys children).Nodup ∧ (keyedChildren children).map (·.2) = children) ∧
    (combinator ≠ .choice → ∀ v : Json, signature.hyperparameters.accepts v = true ↔
      SetsEach children hyperparametersOf v) ∧
    (combinator = .choice →
      (∀ v : Json, v.Proper →
        (signature.hyperparameters.accepts v = true ↔ SetsOne children v)) ∧
      (∃ branches, signature.hyperparameters = .oneOf branches ∧ KeptApart branches) ∧
      ∃ branches, signature.hyperparameters.domainPart = .oneOf branches ∧ KeptApart branches) := by
  have derived := made.isCombination.derived
  refine ⟨⟨nodup_childKeys children, keyedChildren_children children⟩, fun all v => ?_,
    fun one => ?_⟩
  · rw [hyperparameters_of_derive derived all]
    exact accepts_closedKeyedObject_iff
  · subst one
    obtain ⟨_, _, rfl⟩ := derive_choice_iff.1 derived
    dsimp only
    rw [map_selectionOf, domainPart_selections]
    exact ⟨fun v => accepts_selections_iff, ⟨_, rfl, keptApart_selections nodup_keyedParts⟩,
      ⟨_, rfl, keptApart_selections nodup_keyedParts⟩⟩

/-- Two leaves of one name have different keys, and the second one is selected under its own. -/
theorem hyperparameters_of_composite_namesakes : ∃ signature,
    (plainLeaf "KNN").orElse (plainLeaf "KNN") =
      .ok (.composite "choice" .choice [plainLeaf "KNN", plainLeaf "KNN"] signature) ∧
    signature.hyperparameters.accepts (.object [("KNN_1", .null)]) = true ∧
    signature.hyperparameters.accepts (.object [("KNN", .null), ("KNN_1", .null)]) = false := by
  obtain ⟨signature, made, _⟩ :=
    Operator.orElse_of_any (plainLeaf "KNN") (plainLeaf "KNN") rfl rfl rfl rfl
  have leaf : (plainLeaf "KNN").MadeFrom fun _ => True := .leaf rfl trivial
  have law :=
    ((hyperparameters_of_composite (.combination (by simpa using leaf) made)).2.2 rfl).1
  have keys : childKeys [plainLeaf "KNN", plainLeaf "KNN"] = ["KNN", "KNN_1"] := by decide +kernel
  have keyed : keyedChildren [plainLeaf "KNN", plainLeaf "KNN"] =
      [("KNN", plainLeaf "KNN"), ("KNN_1", plainLeaf "KNN")] := by
    rw [keyedChildren, keys]
    rfl
  refine ⟨signature, made, (law _ ?_).2 ?_, Bool.not_eq_true _ ▸ fun h => ?_⟩
  · simp [Json.Proper, Json.ProperMembers, Keyed.Ascending, Keyed.names]
  · refine ⟨"KNN_1", plainLeaf "KNN", .null, ?_, rfl, Schema.accepts_any⟩
    simp [keyed]
  · have pv : Json.Proper (.object [("KNN", .null), ("KNN_1", .null)]) := by
      exact ⟨Keyed.ascending_pair.2 (by decide), by simp [Json.ProperMembers, Json.Proper]⟩
    obtain ⟨_, _, _, _, e, _⟩ := (law _ pv).1 h
    cases e

end TypedPipeline
