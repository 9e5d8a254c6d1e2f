import TypedPipeline.Space.Placement
import TypedPipeline.Proofs.Keyed

/-!
# Proofs.Space.Placement: many writes at places

A value is filled by writes one after the other (`placeAll`). Writes below one property, or one
position, are writes to what stands there. This file fixes:

* the writes below a place (`nested`);
* what writes below one property and below one position come to (`placeAll_property`,
  `placeAll_index`);
* **what writes below several properties, or below each position, come to** (`placeAll_properties`,
  `placeAll_items`).
-/

namespace TypedPipeline

namespace Json

/-- A place, and the value that is put there. -/
abbrev Write := Path × Json

/-- Put values at their places, one after the other. -/
def placeAll (target : Json) (writes : List Write) : Json :=
  writes.foldl (fun t w => t.place w.1 w.2) target

/-- The same writes, below a place. -/
def nested (p : Path) (writes : List Write) : List Write := writes.map fun w => (p ++ w.1, w.2)

theorem placeAll_append (target : Json) (xs ys : List Write) :
    target.placeAll (xs ++ ys) = (target.placeAll xs).placeAll ys := List.foldl_append

@[simp] theorem nested_nil (p : Path) : nested p [] = [] := rfl

@[simp] theorem nested_root (writes : List Write) : nested [] writes = writes := by
  simp [nested]

theorem nested_append (p : Path) (xs ys : List Write) :
    nested p (xs ++ ys) = nested p xs ++ nested p ys := List.map_append

theorem nested_nested (p q : Path) (writes : List Write) :
    nested p (nested q writes) = nested (p ++ q) writes := by
  simp [nested]

/-! ## 1. Objects -/

/-- Writes below a property are writes to what is under its name. -/
theorem placeAll_property (members : Keyed Json) (name : String) {writes : List Write}
    (h : writes ≠ []) :
    (Json.object members).placeAll (nested [.property name] writes) =
      .object (members.put name (((members.find? name).getD .null).placeAll writes)) := by
  induction writes generalizing members with
  | nil => exact absurd rfl h
  | cons w rest ih =>
      have step : (Json.object members).placeAll (nested [.property name] (w :: rest)) =
          (Json.object (members.put name (((members.find? name).getD .null).place w.1 w.2))).placeAll
            (nested [.property name] rest) := rfl
      rw [step]
      by_cases hr : rest = []
      · subst hr; rfl
      · rw [ih _ hr, Keyed.find?_put, if_pos rfl, Keyed.put_put]
        rfl

/-- **Writes nested properties of different names come to the writes under each name.** -/
theorem placeAll_properties {members : Keyed Json} (ascending : Keyed.Ascending members)
    {parts : List (String × List Write)} (distinct : (parts.map (·.1)).Nodup) :
    ∃ members' : Keyed Json, Keyed.Ascending members' ∧
      (Json.object members).placeAll (parts.flatMap fun x => nested [.property x.1] x.2) =
        .object members' ∧
      (∀ name writes, (name, writes) ∈ parts → members'.find? name =
        if writes = [] then members.find? name
        else some (((members.find? name).getD .null).placeAll writes)) ∧
      ∀ name, name ∉ parts.map (·.1) → members'.find? name = members.find? name := by
  induction parts generalizing members with
  | nil => exact ⟨members, ascending, rfl, by simp, by simp⟩
  | cons part rest ih =>
      obtain ⟨name, writes⟩ := part
      obtain ⟨fresh, distinct⟩ := List.nodup_cons.1 distinct
      obtain ⟨first, asc, eq, here, other⟩ : ∃ first : Keyed Json, Keyed.Ascending first ∧
          (Json.object members).placeAll (nested [.property name] writes) = .object first ∧
          first.find? name = (if writes = [] then members.find? name
            else some (((members.find? name).getD .null).placeAll writes)) ∧
          ∀ n, name ≠ n → first.find? n = members.find? n := by
        by_cases hw : writes = []
        · subst hw
          exact ⟨members, ascending, rfl, rfl, fun _ _ => rfl⟩
        · refine ⟨_, Keyed.ascending_put ascending _ _, placeAll_property members name hw, ?_, ?_⟩
          · rw [Keyed.find?_put, if_pos rfl, if_neg hw]
          · intro n ne
            rw [Keyed.find?_put, if_neg ne]
      obtain ⟨members', asc', eq', each, others⟩ := ih asc distinct
      refine ⟨members', asc', ?_, ?_, ?_⟩
      · rw [List.flatMap_cons, placeAll_append, eq, eq']
      · intro n ws hm
        rcases List.mem_cons.1 hm with e | hm
        · cases e
          rw [others name fresh, here]
        · have ne : name ≠ n := by
            rintro rfl
            exact fresh (List.mem_map.2 ⟨_, hm, rfl⟩)
          rw [each n ws hm, other n ne]
      · intro n hn
        rw [List.map_cons, List.mem_cons, not_or] at hn
        rw [others n hn.2, other n (Ne.symm hn.1)]

/-! ## 2. Arrays -/

theorem modifyItem_append (change : Json → Json) (done : List Json) (item : Json)
    (rest : List Json) :
    modifyItem change done.length (done ++ item :: rest) = done ++ change item :: rest := by
  induction done with
  | nil => rfl
  | cons d done ih => rw [List.length_cons, List.cons_append, modifyItem, ih, List.cons_append]

/-- Writes below a position are writes to the item there. -/
theorem placeAll_index (done : List Json) (item : Json) (rest : List Json) (writes : List Write) :
    (Json.array (done ++ item :: rest)).placeAll (nested [.index done.length] writes) =
      .array (done ++ item.placeAll writes :: rest) := by
  induction writes generalizing item with
  | nil => rfl
  | cons w ws ih =>
      have step : (Json.array (done ++ item :: rest)).placeAll (nested [.index done.length] (w :: ws)) =
          (Json.array (modifyItem (fun x => x.place w.1 w.2) done.length
            (done ++ item :: rest))).placeAll (nested [.index done.length] ws) := rfl
      rw [step, modifyItem_append, ih]
      rfl

/-- **Writes below the positions in turn come to the writes to each item.** -/
theorem placeAll_items {done : List Json} {parts : List (Json × List Write)} :
    (Json.array (done ++ parts.map (·.1))).placeAll
        ((parts.zipIdx done.length).flatMap fun x => nested [.index x.2] x.1.2) =
      .array (done ++ parts.map fun x => x.1.placeAll x.2) := by
  induction parts generalizing done with
  | nil => rfl
  | cons part rest ih =>
      rw [List.zipIdx_cons, List.flatMap_cons, placeAll_append, List.map_cons, placeAll_index]
      have := @ih (done ++ [part.1.placeAll part.2])
      simp only [List.append_assoc, List.cons_append, List.nil_append, List.length_append,
        List.length_singleton] at this
      rw [this, List.map_cons]

end Json

end TypedPipeline
