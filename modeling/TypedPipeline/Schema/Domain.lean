import TypedPipeline.Schema.Intersection

/-!
# Schema.Domain: a schema without intersections

An optimizer samples from the domain of a schema, in which no intersection is left. This file fixes:

* the domain (`domainPart`): every intersection is replaced by the schema its branches merge into, or
  by its first branch if they do not merge;
* whether that loses anything (`hasConstraints`): the branches of some intersection do not merge.

Both go on into the schema that has just been merged; they end because it is smaller than the
intersection it replaces.
-/

namespace TypedPipeline

namespace Schema

mutual

/-- The schema with every intersection merged, or reduced to its first branch. -/
def domainPart (s : Schema) : Schema :=
  match s with
  | .any => .any
  | .scalar x => .scalar x
  | .object properties rules => .object (domainProperties properties) rules
  | .array items length => .array items.domainPart length
  | .anyOf branches => .anyOf (domainBranches branches)
  | .oneOf branches => .oneOf (domainBranches branches)
  | .allOf branches =>
    match meetAll branches with
    | some ⟨merged, _⟩ => merged.domainPart
    | none =>
      match branches with
      | [] => .any
      | first :: _ => first.domainPart
termination_by 2 * s.size
decreasing_by all_goals (simp only [size, sizeBranches]; omega)

def domainProperties (properties : List (String × Schema)) : List (String × Schema) :=
  match properties with
  | [] => []
  | (name, s) :: rest =>
    have := s.size_pos
    (name, s.domainPart) :: domainProperties rest
termination_by 2 * sizeProperties properties + 1
decreasing_by all_goals (simp only [sizeProperties]; omega)

def domainBranches (branches : List Schema) : List Schema :=
  match branches with
  | [] => []
  | s :: rest =>
    have := s.size_pos
    s.domainPart :: domainBranches rest
termination_by 2 * sizeBranches branches + 1
decreasing_by all_goals (simp only [sizeBranches]; omega)

end

mutual

/-- The branches of some intersection inside cannot be merged. -/
def hasConstraints (s : Schema) : Bool :=
  match s with
  | .any => false
  | .scalar _ => false
  | .object properties _ => someConstrained (properties.map (·.2))
  | .array items _ => items.hasConstraints
  | .anyOf branches => someConstrained branches
  | .oneOf branches => someConstrained branches
  | .allOf branches =>
    match meetAll branches with
    | some ⟨merged, _⟩ => merged.hasConstraints
    | none => true
termination_by 2 * s.size
decreasing_by all_goals (simp only [size]; first | omega | (rw [sizeBranches_map]; omega))

def someConstrained (schemas : List Schema) : Bool :=
  match schemas with
  | [] => false
  | s :: rest =>
    have := s.size_pos
    s.hasConstraints || someConstrained rest
termination_by 2 * sizeBranches schemas + 1
decreasing_by all_goals (simp only [sizeBranches]; omega)

end

end Schema

end TypedPipeline
