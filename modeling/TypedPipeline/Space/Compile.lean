import TypedPipeline.Space
import TypedPipeline.Space.Settings
import TypedPipeline.Schema.Domain
import TypedPipeline.Schema.Disjoint

/-!
# Space.Compile: from a schema to its search space

Compilation walks through the domain of a schema. This file fixes:

* scalars (`compileScalar`): an enumeration becomes a choice among its members, a range a numeric
  dimension, and a single value no dimension at all;
* the leaves of a union (`leaves`): unions directly inside it share its place, so their branches are
  its branches. Two leaves that an exclusive union keeps apart must have no value in common
  (`exclusivePairs`), or a sample made for one could be taken for the other;
* unions of enumerations, which become one choice (`enumeratedUnion?`);
* schemas (`compileNode`): a property without a domain is fixed to its default, or left out if it is
  not required; arrays have a fixed length; other unions become a selector between those of their
  branches that have a domain;
* the space of a schema (`compileSpace`).
-/

namespace TypedPipeline

/-- The dimensions of a schema, and the fixed part of its values if there is one. -/
structure Compiled where
  dimensions : List Dimension
  skeleton : Option Json

namespace Compiled

def fixed (value : Json) : Compiled := ⟨[], some value⟩

def plain (path : Path) (domain : Domain) : Compiled :=
  ⟨[.plain (dimensionName path) path domain], none⟩

end Compiled

abbrev Compilation := Except Fault Compiled

/-! ## 1. Scalars -/

/-- A choice among members; a single one is fixed. -/
def compileChoices (choices : List Setting) (path : Path) : Compilation :=
  match choices with
  | [] => .error (.unbounded path .noMember)
  | [only] => .ok (.fixed only.toJson)
  | choices => .ok (.plain path (.categorical choices))

namespace Scalar

/-- The least value of a dimension with this lower bound. -/
def lowEnd (integer : Bool) (b : Bound) : Binary64 :=
  match integer, b.exclusive with
  | true, true => b.value.floor.add (.ofInt 1)
  | true, false => b.value.ceil
  | false, true => b.value.nextUp
  | false, false => b.value

/-- The greatest value of a dimension with this upper bound. -/
def highEnd (integer : Bool) (b : Bound) : Binary64 :=
  match integer, b.exclusive with
  | true, true => b.value.ceil.sub (.ofInt 1)
  | true, false => b.value.floor
  | false, true => b.value.nextDown
  | false, false => b.value

/-- The lower end of the dimension: the greater of what the schema and the hint say. -/
def sampledLow (s : Scalar) : Option Binary64 :=
  let integer := s.kind == .integer
  mergeOption Binary64.max (s.minimumForOptimizer.map fun v => if integer then v.ceil else v)
    (s.minimum.map (lowEnd integer))

/-- The upper end of the dimension: the smaller of what the schema and the hint say. -/
def sampledHigh (s : Scalar) : Option Binary64 :=
  let integer := s.kind == .integer
  mergeOption Binary64.min (s.maximumForOptimizer.map fun v => if integer then v.floor else v)
    (s.maximum.map (highEnd integer))

end Scalar

def compileNumeric (s : Scalar) (path : Path) : Compilation :=
  match s.sampledLow, s.sampledHigh with
  | some low, some high =>
    if high.less low then .error (.unbounded path (.emptyRange low high))
    else if low.equals high then
      .ok (.fixed (if s.kind = .integer then .int low.toInt64 else .float low))
    else
      let logScale := s.distribution == .logUniform && Binary64.zero.less low
      if s.kind = .integer then .ok (.plain path (.int low.toInt64 high.toInt64 logScale))
      else .ok (.plain path (.float low high logScale))
  | _, _ => .error (.unbounded path .missingBound)

def compileScalar (s : Scalar) (path : Path) : Compilation :=
  match s.effectiveEnumeration with
  | some members => compileChoices (members.filterMap Setting.ofJson?) path
  | none =>
    match s.kind with
    | .boolean => .ok (.plain path .boolean)
    | .null => .ok (.fixed .null)
    | .string => .error (.unbounded path .freeText)
    | .number | .integer => compileNumeric s path

/-! ## 2. The leaves of a union -/

namespace Schema

/-- The branches of a union, with the branches of a union among them in its place. -/
def leaves : List Schema → List Schema
  | [] => []
  | .anyOf inner :: rest => leaves inner ++ leaves rest
  | .oneOf inner :: rest => leaves inner ++ leaves rest
  | leaf :: rest => leaf :: leaves rest

/-- How many leaves a branch has. -/
def leafCount : Schema → Nat
  | .anyOf inner => (leaves inner).length
  | .oneOf inner => (leaves inner).length
  | _ => 1

/-- The positions of each branch's leaves, from `start` on. -/
def leafGroups : (start : Nat) → List Schema → List (List Nat)
  | _, [] => []
  | start, branch :: rest =>
    List.range' start branch.leafCount :: leafGroups (start + branch.leafCount) rest

/-- The pairs of positions that lie in two different groups. -/
def crossPairs : List (List Nat) → List (Nat × Nat)
  | [] => []
  | group :: rest =>
    rest.flatMap (fun sibling => group.flatMap fun x => sibling.map fun y => (x, y))
      ++ crossPairs rest

/-- The pairs of leaves that exclusive unions among the branches keep apart. -/
def nestedPairs : (start : Nat) → List Schema → List (Nat × Nat)
  | _, [] => []
  | start, .anyOf inner :: rest =>
    nestedPairs start inner ++ nestedPairs (start + (leaves inner).length) rest
  | start, .oneOf inner :: rest =>
    nestedPairs start inner ++ crossPairs (leafGroups start inner)
      ++ nestedPairs (start + (leaves inner).length) rest
  | start, _ :: rest => nestedPairs (start + 1) rest

/-- The pairs of leaves of which a value may be accepted by one only. -/
def exclusivePairs (exclusive : Bool) (branches : List Schema) : List (Nat × Nat) :=
  nestedPairs 0 branches ++ if exclusive then crossPairs (leafGroups 0 branches) else []

/-- The members of a leaf that is an enumeration or null. -/
def leafMembers? : Schema → Option (List Json)
  | .scalar s =>
    match s.effectiveEnumeration with
    | some members => some members
    | none => if s.kind = .null then some [.null] else none
  | _ => none

/-- The list with one more value, unless one that agrees with it is there. -/
def addMember (values : List Json) (value : Json) : List Json :=
  if values.any (·.agrees value) then values else values ++ [value]

/-- The choice that a union of enumerations is: the members of its leaves that it accepts itself. An
    exclusive union does not accept members that two branches share. -/
def enumeratedUnion? (branches : List Schema) (union : Schema) : Option (List Setting) := do
  let members ← (leaves branches).mapM leafMembers?
  let values := members.flatten.foldl addMember []
  return (values.filter union.accepts).filterMap Setting.ofJson?

/-- The label of a branch: the one property it has, if that is required, or else its position. -/
def branchLabel (branch : Schema) (position : Nat) : String :=
  match branch with
  | .object [(name, _)] rules => if rules.requires name then name else toString position
  | _ => toString position

end Schema

/-! ## 3. Unions -/

/-- A leaf that has a domain: its position, its label, the leaf and what it compiles to. -/
structure CompiledLeaf where
  position : Nat
  label : String
  leaf : Schema
  compiled : Compiled

/-- The leaves that have a domain, and the first fault of those that have none. -/
def sortLeaves : (position : Nat) → List (Schema × Compilation) → List CompiledLeaf × Option Fault
  | _, [] => ([], none)
  | position, (leaf, outcome) :: rest =>
    let (compiled, fault) := sortLeaves (position + 1) rest
    match outcome with
    | .ok c => (⟨position, leaf.branchLabel position, leaf, c⟩ :: compiled, fault)
    | .error e => (compiled, some e)

/-- The first pair that a value could be common to, of those with a leaf that is kept. -/
def overlap? (leaves : List Schema) (kept : List Nat) (pairs : List (Nat × Nat)) :
    Option (Nat × Nat) :=
  pairs.find? fun p =>
    (kept.contains p.1 || kept.contains p.2)
      && !((leaves[p.1]?.getD .any).areDisjoint (leaves[p.2]?.getD .any))

/-- The labels as they are if no two are equal, and otherwise the positions among what is kept. -/
def distinctLabels (labels : List String) : List String :=
  if labels.Nodup then labels else (List.range labels.length).map toString

/-- The selector between leaves; a single one needs none. -/
def selectLeaves (compiled : List CompiledLeaf) (fault : Option Fault) (path : Path) : Compilation :=
  match compiled with
  | [] => .error (fault.getD (.unbounded path .noBranch))
  | [only] => .ok only.compiled
  | compiled =>
    let branches := (distinctLabels (compiled.map (·.label))).zipWith
      (fun label c =>
        (label, (⟨label, c.compiled.skeleton, c.leaf, c.leaf⟩ : Frame), c.compiled.dimensions))
      compiled
    .ok ⟨[.selector (dimensionName path) path branches], none⟩

/-- A union that is not one choice: the selector between its leaves, if no value is common to two of
    them that it keeps apart. -/
def compileLeaves (exclusive : Bool) (branches : List Schema)
    (outcomes : List (Schema × Compilation)) (path : Path) : Compilation :=
  let (compiled, fault) := sortLeaves 0 outcomes
  match overlap? (Schema.leaves branches) (compiled.map (·.position))
      (Schema.exclusivePairs exclusive branches) with
  | some (x, y) => .error (.unbounded path (.overlap x y))
  | none => selectLeaves compiled fault path

/-! ## 4. Objects and arrays -/

/-- What a property adds to an object: dimensions, and its fixed part if it has one. -/
structure PropertyPart where
  dimensions : List Dimension
  skeleton : Option Json

namespace ObjectRules

/-- A property that is not compiled at all: it is not to be tuned, and has a default or is not
    required. -/
def passesOver (rules : ObjectRules) (name : String) : Bool :=
  !rules.tunes name && ((rules.defaults.find? name).isSome || !rules.requires name)

/-- A property that is not tuned: its default, or nothing. -/
def untuned (rules : ObjectRules) (name : String) : PropertyPart := ⟨[], rules.defaults.find? name⟩

/-- A property that is compiled. One without a domain is not tuned, unless it is required and has no
    default. -/
def partOf (rules : ObjectRules) (name : String) : Compilation → Except Fault PropertyPart
  | .ok c => .ok ⟨c.dimensions, c.skeleton⟩
  | .error e =>
    if (rules.defaults.find? name).isSome || !rules.requires name then .ok (rules.untuned name)
    else .error e

end ObjectRules

/-- The number of items of arrays of one length only. -/
def fixedLength? (length : Length) : Option Nat :=
  match length.least, length.most with
  | some least, some most => if least = most then some most else none
  | _, _ => none

def joinItems (items : List Compiled) : Compiled :=
  ⟨items.flatMap (·.dimensions), some (.array (items.map fun c => c.skeleton.getD .null))⟩

/-- The items at the positions from `start` on, each compiled for its own place. -/
def compileItems (item : Path → Compilation) (path : Path) :
    (start count : Nat) → Except Fault (List Compiled)
  | _, 0 => .ok []
  | start, count + 1 => do
    let first ← item (path.index start)
    return first :: (← compileItems item path (start + 1) count)

/-! ## 5. Schemas -/

mutual

/-- The dimensions and the fixed part of a schema in whose domain no intersection is left, as it is in a
    domain part (`Schema.allOfFree_domainPart`). An intersection would have to be compiled by its domain
    part again. Since none is met, it is a fault here, so that the recursion follows the form of the
    schema alone. -/
def compileNode (settings : SpaceSettings) : Schema → Path → Compilation
  | .any, path => .error (.unbounded path .unconstrained)
  | .scalar s, path => compileScalar s path
  | .object properties rules, path => do
    let (dimensions, skeleton) ← compileProperties settings properties rules path
    return ⟨dimensions, some (.object skeleton)⟩
  | .array items length, path =>
    match fixedLength? length with
    | none => .error (.unbounded path .openLength)
    | some count => joinItems <$> compileItems (compileNode settings items) path 0 count
  | .anyOf branches, path =>
    match Schema.enumeratedUnion? branches (.anyOf branches) with
    | some choices => compileChoices choices path
    | none => do compileLeaves false branches (← leafOutcomes settings branches path) path
  | .oneOf branches, path =>
    match Schema.enumeratedUnion? branches (.oneOf branches) with
    | some choices => compileChoices choices path
    | none => do compileLeaves true branches (← leafOutcomes settings branches path) path
  | .allOf _, path => .error (.unbounded path .unconstrained)

/-- The properties of an object in turn. -/
def compileProperties (settings : SpaceSettings) : List (String × Schema) → ObjectRules → Path →
    Except Fault (List Dimension × List (String × Json))
  | [], _, _ => .ok ([], [])
  | (name, property) :: rest, rules, path => do
    let part ←
      if rules.passesOver name then .ok (rules.untuned name)
      else rules.partOf name (compileNode settings property (path.property name))
    let (dimensions, skeleton) ← compileProperties settings rest rules path
    return (part.dimensions ++ dimensions,
      (part.skeleton.map fun value => (name, value)).toList ++ skeleton)

/-- The leaves of a union, each with what it compiles to. The first fault ends it unless leaves that
    have no domain may be dropped. -/
def leafOutcomes (settings : SpaceSettings) : List Schema → Path →
    Except Fault (List (Schema × Compilation))
  | [], _ => .ok []
  | .anyOf inner :: rest, path => do
    return (← leafOutcomes settings inner path) ++ (← leafOutcomes settings rest path)
  | .oneOf inner :: rest, path => do
    return (← leafOutcomes settings inner path) ++ (← leafOutcomes settings rest path)
  | leaf :: rest, path =>
    match compileNode settings leaf path, settings.dropBranches with
    | .error e, false => .error e
    | outcome, _ => do return (leaf, outcome) :: (← leafOutcomes settings rest path)

end

/-- The space of a schema, under a name. -/
def compileSpace (settings : SpaceSettings) (name : String) (schema : Schema) :
    Except Fault Space := do
  match schema.checkWellFormed with
  | .error e => .error (.malformed e)
  | .ok _ =>
    let domain := schema.domainPart
    let compiled ← compileNode settings domain .root
    return ⟨⟨name, compiled.skeleton, schema, domain⟩, compiled.dimensions⟩

end TypedPipeline
