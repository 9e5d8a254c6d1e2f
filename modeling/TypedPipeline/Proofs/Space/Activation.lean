import TypedPipeline.Space

/-!
# Proofs.Space.Activation: the dimensions that count together

Which dimensions of a space count depends on the branches that its selectors choose. This file fixes:

* the lists of dimensions that count together (`Activates`), one for each way of choosing branches;
* that they are put together as the dimensions are (`activates_append`, `activates_flatMap`);
* that a branch is chosen by its label if no other has it (`branch?_of_mem`).
-/

namespace TypedPipeline

/-- Under some choice of branches, these of the dimensions count: all the plain ones, and after each
    selector what counts of the branch with the label it chooses. -/
inductive Activates : List Dimension → List Dimension → Prop where
  | nil : Activates [] []
  | plain {name path domain rest active} : Activates rest active →
      Activates (.plain name path domain :: rest) (.plain name path domain :: active)
  | selector {name path branches rest label inner active} (chosen : Branch) :
      (Dimension.selector name path branches).branch? label = some chosen →
      Activates chosen.2.2 inner → Activates rest active →
      Activates (.selector name path branches :: rest)
        (.selector name path branches :: (inner ++ active))

theorem activates_append {xs ys active : List Dimension} (h : Activates (xs ++ ys) active) :
    ∃ a b, active = a ++ b ∧ Activates xs a ∧ Activates ys b := by
  induction xs generalizing active with
  | nil => exact ⟨[], active, rfl, .nil, h⟩
  | cons d rest ih =>
      cases h with
      | plain h =>
          obtain ⟨a, b, rfl, ha, hb⟩ := ih h
          exact ⟨_, b, rfl, .plain ha, hb⟩
      | selector chosen hc hi h =>
          obtain ⟨a, b, rfl, ha, hb⟩ := ih h
          exact ⟨_, b, by simp, .selector chosen hc hi ha, hb⟩

/-- What holds of what counts of each piece, and goes on from piece to piece, holds of the whole. -/
theorem activates_flatMap {α : Type} {P : List α → List Dimension → Prop} {f : α → List Dimension}
    (nil : P [] []) (cons : ∀ x xs a b, Activates (f x) a → P xs b → P (x :: xs) (a ++ b))
    {xs : List α} {active : List Dimension} (h : Activates (xs.flatMap f) active) : P xs active := by
  induction xs generalizing active with
  | nil => cases h; exact nil
  | cons x rest ih =>
      obtain ⟨a, b, rfl, ha, hb⟩ := activates_append h
      exact cons x rest a b ha (ih hb)

/-- Nothing counts where there are no dimensions. -/
theorem activates_nil {active : List Dimension} (h : Activates [] active) : active = [] := by
  cases h; rfl

/-- Where no two branches have one label, each is found by its own. -/
theorem branch?_of_mem {name : String} {path : Path} {branches : List Branch}
    (distinct : (branches.map (·.1)).Nodup) {b : Branch} (hb : b ∈ branches) :
    (Dimension.selector name path branches).branch? b.1 = some b := by
  rw [Dimension.branch?]
  induction branches with
  | nil => cases hb
  | cons first rest ih =>
      obtain ⟨fresh, distinct⟩ := List.nodup_cons.1 distinct
      rw [List.find?_cons]
      rcases List.mem_cons.1 hb with rfl | hb
      · rw [beq_self_eq_true]
      · have ne : first.1 ≠ b.1 := fun e => fresh (List.mem_map.2 ⟨b, hb, e.symm⟩)
        rw [beq_eq_false_iff_ne.2 ne]
        exact ih distinct hb

end TypedPipeline
