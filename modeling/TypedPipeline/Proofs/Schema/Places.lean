import TypedPipeline.Proofs.Schema.Domain

/-!
# Proofs.Schema.Places: what a schema says of one place

What is demanded of the value at a place may be said in several branches of an intersection, and of
several intersections inside each other. This file fixes:

* the schemas that stand at a place, one for each branch that reaches so far (`StandsAt`). Branches of
  unions are alternatives, so a union is taken as it is;
* **that what merging keeps is kept place by place** (`KeptByMerging.at_place`): what all schemas at a
  place of two have, those at the place of their merge have.
-/

namespace TypedPipeline

namespace Schema

/-- One schema at a place inside another. -/
inductive StandsAt : Schema → Path → Schema → Prop
  | self (s : Schema) : StandsAt s [] s
  | branch {branches : List Schema} {b x : Schema} {p : Path} : b ∈ branches → StandsAt b p x →
      StandsAt (.allOf branches) p x
  | property {properties : Keyed Schema} {rules : ObjectRules} {name : String} {s x : Schema}
      {p : Path} : properties.find? name = some s → StandsAt s p x →
      StandsAt (.object properties rules) (.property name :: p) x
  | items {s x : Schema} {length : Length} {p : Path} : StandsAt s p x →
      StandsAt (.array s length) (.items :: p) x

/-- Every schema at a place has something. -/
def AllAt (P : Schema → Prop) (s : Schema) (p : Path) : Prop := ∀ x, StandsAt s p x → P x

theorem StandsAt.mem_parts {s x : Schema} {p : Path} (h : StandsAt s p x) : x ∈ s.parts := by
  induction h with
  | self s => exact s.self_mem_parts
  | branch hb _ ih => exact List.mem_cons_of_mem _ (mem_partsOfBranches.2 ⟨_, hb, ih⟩)
  | property found _ ih =>
      exact List.mem_cons_of_mem _ (mem_partsOfProperties.2 ⟨_, _, Keyed.mem_of_find? found, ih⟩)
  | items _ ih => exact List.mem_cons_of_mem _ ih

namespace KeptByMerging

variable {P : Schema → Prop} {a b m : Schema} {branches : List Schema}

/-- The induction is along the merge, for all places at once. -/
theorem placeSteps (kept : KeptByMerging P) :
    MergeSteps (fun a b m => a.Regular → b.Regular → ∀ p, AllAt P a p → AllAt P b p → AllAt P m p)
      (fun branches m => (∀ b ∈ branches, b.Regular) → ∀ p, (∀ b ∈ branches, AllAt P b p) →
        AllAt P m p) where
  symm h rb ra p pb pa := h ra rb p pa pb
  any _ _ _ _ _ ps := ps
  allOf {branches _ _ _} e hall h ra rb p pa pb := by
    have regular : ∀ c ∈ branches, c.Regular := fun _ hc => ra.allOf hc
    exact h (regular_of_intersectAll regular e) rb p
      (hall regular p fun c hc x hx => pa x (.branch hc hx)) pb
  scalar h _ _ p pa pb x hx := by
    cases hx
    exact kept.scalar h (pa _ (.self _)) (pb _ (.self _))
  object h ih ra rb p pa pb x hx := by
    have merges := merges_meetProperties ra.self.1 rb.self.1 h
    cases hx with
    | self => exact kept.object merges (pa _ (.self _)) (pb _ (.self _))
    | @property _ _ name s _ p found inside =>
        have at' := merges.at' name
        rw [found] at at'
        rcases at'.cases with ⟨y, z, hy, hz, e⟩ | ⟨hy, _⟩ | ⟨_, hz⟩
        · exact ih name y z s hy hz e (ra.property (Keyed.mem_of_find? hy))
            (rb.property (Keyed.mem_of_find? hz)) p (fun x hx => pa x (.property hy hx))
            (fun x hx => pb x (.property hz hx)) x inside
        · exact pa x (.property hy inside)
        · exact pb x (.property hz inside)
  array h ra rb p pa pb x hx := by
    cases hx with
    | self => exact kept.array (pa _ (.self _)) (pb _ (.self _))
    | items inside =>
        exact h ra.items rb.items _ (fun x hx => pa x (.items hx)) (fun x hx => pb x (.items hx)) x
          inside
  single s _ _ hs := hs s (by simp)
  cons {a b _ _ _} e h hall regular p hs := by
    have ra : a.Regular := regular a (by simp)
    have rb : b.Regular := regular b (by simp)
    exact hall (List.forall_mem_cons.2
      ⟨regular_of_intersect ra rb e, fun c hc => regular c (by simp [hc])⟩) p
      (List.forall_mem_cons.2 ⟨h ra rb p (hs a (by simp)) (hs b (by simp)),
        fun c hc => hs c (by simp [hc])⟩)

/-- **What merging keeps is kept at every place.** -/
theorem at_place (kept : KeptByMerging P) (ra : a.Regular) (rb : b.Regular)
    (e : intersect a b = some m) {p : Path} (pa : AllAt P a p) (pb : AllAt P b p) : AllAt P m p :=
  kept.placeSteps.of_intersect e ra rb p pa pb

/-- The same for any number of branches. -/
theorem at_place_all (kept : KeptByMerging P) (regular : ∀ b ∈ branches, b.Regular)
    (e : intersectAll branches = some m) {p : Path} (h : ∀ b ∈ branches, AllAt P b p) :
    AllAt P m p :=
  kept.placeSteps.of_intersectAll e regular p h

end KeptByMerging

end Schema

end TypedPipeline
