import TypedPipeline.Proofs.Operator.Hyperparameters

/-!
# Proofs.Operator.Keys: which keys children get

The children of a composite get their keys one after the other. This file fixes:

* what the key of a child is, given the keys before it (`KeyFor`), whatever names look like keys
  themselves (`keyFor_freeKey`);
* which keys are taken when a child gets its own: those of the children before it
  (`getElem?_keysAfter`);
* the properties of the object that is built with the keys (`perm_keyedObject`,
  `find?_keyedObject`);
* **that every child has one key, which is its own and the first that is free, and that nothing is
  lost of the parts that are put together under the keys** (`keys_of_children`).
-/

namespace TypedPipeline

variable {taken names : List String} {children : List Operator} {part : Operator → Schema}

/-! ## 1. One key -/

/-- The key for a name after earlier keys: the name itself, or if it is one of them, the name with the
    smallest number behind it that is none of them. That number is not above their count. -/
inductive KeyFor (earlier : List String) (name : String) : String → Prop where
  | own : name ∉ earlier → KeyFor earlier name name
  | numbered {number : Nat} : name ∈ earlier → 0 < number → number ≤ earlier.length →
      numberedKey name number ∉ earlier →
      (∀ smaller, 0 < smaller → smaller < number → numberedKey name smaller ∈ earlier) →
      KeyFor earlier name (numberedKey name number)

theorem candidateKey_of_pos {base : String} {number : Nat} (h : 0 < number) :
    candidateKey base number = numberedKey base number := by
  match number with
  | number + 1 => rfl

theorem keyFor_freeKey (taken : List String) (name : String) :
    KeyFor taken name (freeKey taken name) := by
  obtain ⟨found, le, e, free, before⟩ := freeKey_spec taken name
  rw [e]
  rcases Nat.eq_zero_or_pos found with rfl | pos
  · exact .own free
  · rw [candidateKey_of_pos pos] at free ⊢
    refine .numbered (before 0 pos) pos le free fun smaller pos' lt => ?_
    rw [← candidateKey_of_pos pos']
    exact before smaller lt

/-- Each name gets its key after those before it. -/
theorem getElem?_keysAfter {i : Nat} {name : String} (h : names[i]? = some name) :
    (keysAfter taken names)[i]? =
      some (freeKey (taken ++ (keysAfter taken names).take i) name) := by
  induction names generalizing taken i with
  | nil => simp at h
  | cons first rest ih =>
      rw [keysAfter]
      cases i with
      | zero =>
          cases h
          simp
      | succ i =>
          rw [List.getElem?_cons_succ] at h ⊢
          rw [ih h, List.take_succ_cons, List.append_assoc, List.singleton_append]

/-! ## 2. The object of all parts -/

/-- The names of the properties are the keys. -/
theorem perm_keyedObject :
    (Keyed.names (keyedObject children part).properties).Perm (childKeys children) := by
  rw [keyedObject_eq]
  have ascending := Keyed.ascending_ofList (keyedParts children part)
  refine (List.perm_ext_iff_of_nodup (Keyed.nodup_of_ascending ascending)
    (nodup_childKeys children)).2 fun key => ?_
  rw [← Keyed.has_iff, mem_childKeys_iff, Keyed.has, Option.isSome_iff_exists]
  constructor
  · intro h
    obtain ⟨s, hs⟩ := h
    obtain ⟨child, hc, _⟩ := find?_keyedParts.1 hs
    exact ⟨child, hc⟩
  · intro h
    obtain ⟨child, hc⟩ := h
    exact ⟨part child, find?_keyedParts.2 ⟨child, hc, rfl⟩⟩

/-- Under the key of a child is its part. -/
theorem find?_keyedObject {i : Nat} {child : Operator} {key : String}
    (hc : children[i]? = some child) (hk : (childKeys children)[i]? = some key) :
    (keyedObject children part).properties.find? key = some (part child) := by
  rw [keyedObject_eq]
  refine find?_keyedParts.2 ⟨child, ?_, rfl⟩
  refine List.mem_of_getElem? (i := i) ?_
  rw [keyedChildren, List.getElem?_zip_eq_some]
  exact ⟨hk, hc⟩

/-! ## 3. All keys -/

/-- **Every child has a key of its own, the first that is free after those before it**, and the object
    that is built with the keys has one property for each child, its part under its key. -/
theorem keys_of_children (children : List Operator) (part : Operator → Schema) :
    (childKeys children).length = children.length ∧ (childKeys children).Nodup ∧
    (keyedObject children part).properties.length = children.length ∧
    (Keyed.names (keyedObject children part).properties).Perm (childKeys children) ∧
    ∀ i child key, children[i]? = some child → (childKeys children)[i]? = some key →
      KeyFor ((childKeys children).take i) child.name key ∧
      (keyedObject children part).properties.find? key = some (part child) := by
  have count := length_childKeys children
  have properties := @perm_keyedObject children part
  refine ⟨count, nodup_childKeys children, ?_, properties, fun i child key hc hk => ⟨?_, ?_⟩⟩
  · rw [← count, ← properties.length_eq, Keyed.names, List.length_map]
  · have name : (children.map (·.name))[i]? = some child.name := by
      rw [List.getElem?_map, hc]
      rfl
    have own := @getElem?_keysAfter [] _ _ _ name
    rw [List.nil_append] at own
    cases hk.symm.trans own
    exact keyFor_freeKey _ _
  · exact find?_keyedObject hc hk

/-- The name of the third leaf is taken, and so is what it would be with a one behind it. -/
theorem keys_of_children_lookalike :
    childKeys [plainLeaf "KNN", plainLeaf "KNN_1", plainLeaf "KNN"] = ["KNN", "KNN_1", "KNN_2"] ∧
    KeyFor ["KNN", "KNN_1"] "KNN" "KNN_2" ∧
    (keyedObject [plainLeaf "KNN", plainLeaf "KNN_1", plainLeaf "KNN"] inputOf).properties.find?
      "KNN_2" = some .any := by
  have keys : childKeys [plainLeaf "KNN", plainLeaf "KNN_1", plainLeaf "KNN"] =
      ["KNN", "KNN_1", "KNN_2"] := by decide +kernel
  obtain ⟨_, _, _, _, each⟩ :=
    keys_of_children [plainLeaf "KNN", plainLeaf "KNN_1", plainLeaf "KNN"] inputOf
  have third := each 2 (plainLeaf "KNN") "KNN_2" rfl (by rw [keys]; rfl)
  rw [keys] at third
  exact ⟨keys, third⟩

end TypedPipeline
