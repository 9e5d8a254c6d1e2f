import TypedPipeline.Space
import TypedPipeline.Space.Placement
import TypedPipeline.Fault

/-!
# Space.Apply: from a sample to a value

A sample gives settings to dimensions by name. This file fixes:

* how the value is filled (`fillDimensions`): the fixed part first, then every dimension that counts
  puts its setting at its place; a selector puts the fixed part of the branch it chooses there, and
  the dimensions of that branch follow;
* what a sample may not do: lack the choice of a selector that counts, choose a branch that is not
  there, or set something that is no dimension at all. Settings for dimensions of branches that are
  not chosen are passed over;
* the answer (`Space.apply`): the value, if the domain of the space and then its schema accept it.
-/

namespace TypedPipeline

/-- Settings under the names of dimensions. -/
abbrev Sample := Keyed Setting

/-- A value in the making, and the names of the dimensions that have been set. -/
structure Filling where
  value : Json
  used : List String

/-- Put a value at a place and note which dimension it was for. -/
def Filling.set (f : Filling) (name : String) (path : Path) (value : Json) : Filling :=
  ⟨f.value.place path value, name :: f.used⟩

/-- The fixed part of a branch goes to the place of its selector, if it has one. -/
def Filling.enter (f : Filling) (name : String) (path : Path) (skeleton : Option Json) : Filling :=
  match skeleton with
  | some value => f.set name path value
  | none => { f with used := name :: f.used }

namespace Space

def refusal (name : String) (origin : Origin) (path : Path) (reason : Invalid.Reason) : Fault :=
  .hyperparameters name origin ⟨path, reason⟩

mutual

/-- Fill in the settings of the dimensions, in order. Faults carry the name of the space. -/
def fillDimensions (space : String) (sample : Sample) :
    List Dimension → Filling → Except Fault Filling
  | [], f => .ok f
  | .plain name path _ :: rest, f =>
    match sample.find? name with
    | none => fillDimensions space sample rest f
    | some setting => fillDimensions space sample rest (f.set name path setting.toJson)
  | .selector name path branches :: rest, f =>
    match sample.find? name with
    | none => .error (refusal space .optimizer path (.missingSelector name))
    | some setting =>
      match fillBranch sample name path setting.asText? branches f with
      | none =>
        .error (refusal space .optimizer path
          (.unknownBranch setting.toJson (branches.map (·.1))))
      | some outcome => do
        let f ← outcome
        fillDimensions space sample rest f

/-- Fill in the first branch with the label chosen; `none` if there is none. -/
def fillBranch (sample : Sample) (selector : String) (path : Path) (chosen : Option String) :
    List (String × Frame × List Dimension) → Filling → Option (Except Fault Filling)
  | [], _ => none
  | (label, frame, dimensions) :: rest, f =>
    if chosen = some label then
      some (fillDimensions frame.name sample dimensions (f.enter selector path frame.skeleton))
    else fillBranch sample selector path chosen rest f

end

/-- The first name in a sample that no dimension of the space carries. -/
def unknownName? (space : Space) (sample : Sample) (used : List String) : Option String :=
  (sample.names.filter fun name => !used.contains name).find? fun name =>
    !(space.allDimensions.any fun d => d.name == name)

/-- The value is accepted by a schema; if not, the fault is of the given origin. -/
def acceptedBy (space : Space) (schema : Schema) (origin : Origin) (value : Json) :
    Except Fault Unit :=
  match schema.validate value with
  | .ok _ => .ok ()
  | .error e => .error (.hyperparameters space.frame.name origin e)

/-- The value that a sample describes. -/
def apply (space : Space) (sample : Sample) : Except Fault Json := do
  let start : Filling := ⟨space.frame.skeleton.getD .null, []⟩
  let filled ← fillDimensions space.frame.name sample space.dimensions start
  match space.unknownName? sample filled.used with
  | some name =>
    .error (refusal space.frame.name .optimizer ((Path.parse? name).getD .root)
      (.unknownDimension name))
  | none => do
    space.acceptedBy space.frame.domain .optimizer filled.value
    space.acceptedBy space.frame.schema .constraint filled.value
    return filled.value

end Space

end TypedPipeline
