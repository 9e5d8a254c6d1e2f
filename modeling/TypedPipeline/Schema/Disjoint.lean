import TypedPipeline.Schema.Validation

/-!
# Schema.Disjoint: two schemas with no value in common

This file fixes a test that is never wrong when it says yes: `areDisjoint a b` rules out a value that
both accept, and a no says only that none was ruled out. Unions are disjoint from a schema when all
their branches are, intersections when one of theirs is, and forms that describe different kinds of
values always are.
-/

namespace TypedPipeline

namespace Scalar

/-- Everything under `upper` lies below everything above `lower`. -/
def rangeBelow : (upper lower : Option Bound) → Bool
  | some u, some l => u.value.less l.value || (u.value.equals l.value && (u.exclusive || l.exclusive))
  | _, _ => false

/-- The other scalar refuses every one of the members. -/
def refusesAll (s : Scalar) (members : List Json) : Bool :=
  members.all fun member => (s.fault? member).isSome

def areDisjoint (x y : Scalar) : Bool :=
  if !(x.kind = y.kind || (x.kind.isNumeric && y.kind.isNumeric)) then true
  else match x.effectiveEnumeration, y.effectiveEnumeration with
    | some members, _ => y.refusesAll members
    | none, some members => x.refusesAll members
    | none, none =>
      x.kind.isNumeric && (rangeBelow x.maximum y.minimum || rangeBelow y.maximum x.minimum)

end Scalar

namespace Length

/-- Some length is too long for one and too short for the other. -/
def areDisjoint (x y : Length) : Bool :=
  let shorter (most least : Option Nat) : Bool :=
    match most, least with
    | some h, some l => h < l
    | _, _ => false
  shorter x.most y.least || shorter y.most x.least

/-- An array of both lengths has an item. -/
def forcesItem (x y : Length) : Bool := 1 ≤ Nat.max (x.least.getD 0) (y.least.getD 0)

end Length

namespace Schema

mutual

/-- No value is accepted by both, as far as the structure shows. -/
def areDisjoint (a b : Schema) : Bool :=
  match a, b with
  | .any, _ => false
  | _, .any => false
  | .anyOf branches, b => allDisjoint branches b
  | .oneOf branches, b => allDisjoint branches b
  | a, .anyOf branches => allDisjoint branches a
  | a, .oneOf branches => allDisjoint branches a
  | .allOf branches, b => someDisjoint branches b
  | a, .allOf branches => someDisjoint branches a
  | .scalar x, .scalar y => x.areDisjoint y
  | .object as rules, .object bs others =>
    somePropertyDisjoint rules.required as bs others
      || somePropertyDisjoint others.required bs as rules
  | .array x length, .array y length' =>
    length.areDisjoint length' || (length.forcesItem length' && x.areDisjoint y)
  | _, _ => true
termination_by 2 * (a.size + b.size)
decreasing_by all_goals (simp only [size]; omega)

def allDisjoint (branches : List Schema) (other : Schema) : Bool :=
  match branches with
  | [] => true
  | branch :: rest =>
    have := branch.size_pos
    branch.areDisjoint other && allDisjoint rest other
termination_by 2 * (sizeBranches branches + other.size) + 1
decreasing_by all_goals (simp only [sizeBranches]; omega)

def someDisjoint (branches : List Schema) (other : Schema) : Bool :=
  match branches with
  | [] => false
  | branch :: rest =>
    have := branch.size_pos
    branch.areDisjoint other || someDisjoint rest other
termination_by 2 * (sizeBranches branches + other.size) + 1
decreasing_by all_goals (simp only [sizeBranches]; omega)

/-- One of the names that the first side requires is forbidden on the other side, or declared with
    disjoint schemas on both. -/
def somePropertyDisjoint (required : List String) (as bs : List (String × Schema))
    (others : ObjectRules) : Bool :=
  required.any fun name =>
    match ha : Keyed.find? as name, hb : Keyed.find? bs name with
    | _, none => !others.isOpen
    | some a, some b =>
      have := size_le_of_find? ha
      have := size_le_of_find? hb
      a.areDisjoint b
    | none, some _ => false
termination_by 2 * (sizeProperties as + sizeProperties bs) + 1
decreasing_by omega

end

end Schema

end TypedPipeline
