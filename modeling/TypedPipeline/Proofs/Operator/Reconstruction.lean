import TypedPipeline.Operator.Registry
import TypedPipeline.Proofs.Operator.Construction

/-!
# Proofs.Operator.Reconstruction: descriptions lose nothing

A description keeps the combinators, the names that were given and the names of the leaves. This file
fixes that the operator it describes comes back from it, if the registry has the leaves under their own
names (`Registry.reconstruct_describe`): no check that was passed before fails, no operator is spliced
that was kept, and a composite without a name of its own has the default one again.
-/

namespace TypedPipeline

variable {r : Registry} {children : List Operator}

/-- The registry has the leaf under its own name. -/
def Registry.Holds (r : Registry) (leaf : Operator) : Prop := r.get leaf.name = .ok leaf

/-- If every child comes back, then so do all of them together. -/
theorem Registry.reconstructAll_describeAll
    (h : ∀ child ∈ children, r.reconstruct child.describe = .ok child) :
    r.reconstructAll (Operator.describeAll children) = .ok children := by
  induction children with
  | nil => simp [Operator.describeAll, reconstructAll]
  | cons first rest ih =>
      obtain ⟨hf, hr⟩ := List.forall_mem_cons.1 h
      rw [Operator.describeAll, reconstructAll, hf, ih hr]
      rfl

/-- A composite comes back with its children: it is combined again under the default name, and then
    given the name that the description shows. -/
theorem IsCombination.reconstruct {kind : Operator → Prop} {combinator : Combinator}
    {signature : Signature} {name : String}
    (h : IsCombination kind combinator children signature)
    (ih : ∀ child ∈ children, r.reconstruct child.describe = .ok child) :
    r.reconstruct (Operator.composite name combinator children signature).describe =
      .ok (.composite name combinator children signature) := by
  rw [Operator.describe, Registry.reconstruct, Registry.reconstructAll_describeAll ih]
  change (combinator.combine children >>= _) = _
  rw [h.combine]
  by_cases default : name = combinator.defaultName
  · rw [if_pos default, default]
    rfl
  · rw [if_neg default]
    rfl

/-- **Reconstruction is inverse to description**: an operator that is made from leaves of the registry
    comes back from its description as it was, with its name, its tree, its signatures and hence its
    written form. -/
theorem Registry.reconstruct_describe {op : Operator} (h : op.MadeFrom r.Holds) :
    r.reconstruct op.describe = .ok op := by
  refine Operator.MadeFrom.induction (fun op isLeaf held => ?_)
    (fun _ _ _ _ combination ih => combination.reconstruct ih) op h
  cases op with
  | leaf name handle signature => rw [Operator.describe, reconstruct]; exact held
  | composite _ _ _ _ => cases isLeaf

/-- A registry of three leaves. -/
def threeLeaves : Registry where
  operators := [("KNN", plainLeaf "KNN"), ("LR", plainLeaf "LR"), ("Scale", plainLeaf "Scale")]

/-- A choice with a name of its own is kept inside another choice, and comes back as it was. -/
theorem Registry.reconstruct_describe_namedChoice : ∃ models op,
    (plainLeaf "KNN").orElse (plainLeaf "LR") = .ok models ∧
      (models.rename "models").orElse (plainLeaf "Scale") = .ok op ∧
      op.MadeFrom threeLeaves.Holds ∧ threeLeaves.reconstruct op.describe = .ok op := by
  obtain ⟨inner, hm, any⟩ :=
    Operator.orElse_of_any (plainLeaf "KNN") (plainLeaf "LR") rfl rfl rfl rfl
  obtain ⟨outer, ho, _⟩ := Operator.orElse_of_any
    (.composite "models" .choice [plainLeaf "KNN", plainLeaf "LR"] inner) (plainLeaf "Scale")
    any rfl (by simp [Combinator.spliced, Combinator.defaultName]) rfl
  have held (name : String) (h : threeLeaves.get name = .ok (plainLeaf name)) :
      (plainLeaf name).MadeFrom threeLeaves.Holds := .leaf rfl h
  have models : Operator.MadeFrom threeLeaves.Holds _ :=
    .combination (by simpa using ⟨held "KNN" rfl, held "LR" rfl⟩) hm
  have named : Operator.MadeFrom threeLeaves.Holds (.composite "models" .choice _ inner) :=
    models.renamed rfl
  have made : Operator.MadeFrom threeLeaves.Holds _ :=
    .combination (by simpa using ⟨named, held "Scale" rfl⟩) ho
  exact ⟨_, _, hm, ho, made, reconstruct_describe made⟩

end TypedPipeline
