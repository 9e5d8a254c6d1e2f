import TypedPipeline.Schema.Builder
import TypedPipeline.Json.Writer
import TypedPipeline.Text.Quoted

/-!
# Schema.Validation: which values a schema accepts

This file fixes:

* the ways in which a value is refused and their wording (`Invalid`, `Invalid.Reason`);
* validation (`validateAt`, `validate`): properties are looked at in the order of their names, and
  the first refusal is the answer; of the branches of a union the refusal that got furthest into
  the value is;
* the members of an enumeration that the scalar itself accepts (`Scalar.effectiveEnumeration`).

Numbers are compared in double precision throughout, so a value is accepted whatever kind of number
it is written with.
-/

namespace TypedPipeline

namespace Invalid

/-- Why a value is refused. -/
inductive Reason where
  | wrongKind (expected : String) (found : Json)
  | belowMinimum (value : Json) (bound : Bound)
  | aboveMaximum (value : Json) (bound : Bound)
  | notMember (value : Json) (members : List Json)
  | missingProperty
  | forbiddenProperty
  | tooFewItems (count least : Nat)
  | tooManyItems (count most : Nat)
  | noAlternative (value : Json) (count : Nat)
  | severalAlternatives (count : Nat)
  /-- A sample gives a value to a dimension the space does not have. -/
  | unknownDimension (name : String)
  /-- A sample lacks the choice between branches. -/
  | missingSelector (name : String)
  /-- A sample chooses a branch that is not there. -/
  | unknownBranch (chosen : Json) (labels : List String)

/-- A value in a few words. -/
def describe : Json → String
  | .null => "null"
  | .bool b => s!"boolean {b}"
  | .number n => s!"number {n.text}"
  | .text s => "string \"" ++ s ++ "\""
  | .array items => s!"array of {items.length} items"
  | .object _ => "object"

def Reason.text : Reason → String
  | .wrongKind expected found => s!"expected {expected}, got {describe found}"
  | .belowMinimum value bound =>
    let relation := if bound.exclusive then "must be greater than" else "is below minimum"
    s!"{value.compact} {relation} {bound.value.messageText}"
  | .aboveMaximum value bound =>
    let relation := if bound.exclusive then "must be less than" else "is above maximum"
    s!"{value.compact} {relation} {bound.value.messageText}"
  | .notMember value members => s!"{value.compact} is not one of {(Json.array members).compact}"
  | .missingProperty => "required property is missing"
  | .forbiddenProperty => "property is not permitted"
  | .tooFewItems count least => s!"array has {count} items, fewer than minItems {least}"
  | .tooManyItems count most => s!"array has {count} items, more than maxItems {most}"
  | .noAlternative value count => s!"{describe value} matches none of {count} alternatives"
  | .severalAlternatives count =>
    s!"value matches {count} alternatives of oneOf, expected exactly one"
  | .unknownDimension name => "'" ++ name ++ "' is not a dimension of this search space"
  | .missingSelector name => "selector '" ++ name ++ "' is missing"
  | .unknownBranch chosen labels =>
    s!"{chosen.compact} is not one of the branches {Quoted.listText labels}"

end Invalid

/-- A refused value: the place inside it, and why. -/
structure Invalid where
  path : Path
  reason : Invalid.Reason

namespace Invalid

def text (e : Invalid) : String := e.path.text ++ ": " ++ e.reason.text

end Invalid

/-! ## 1. Scalars -/

namespace Scalar

def acceptsKind (s : Scalar) (value : Json) : Bool :=
  match s.kind, value with
  | .number, .number _ => true
  | .integer, value => value.isIntegral
  | .string, .text _ => true
  | .boolean, .bool _ => true
  | .null, .null => true
  | _, _ => false

/-- A number below a lower bound. -/
def below (x : Binary64) (bound : Bound) : Bool :=
  x.less bound.value || (bound.exclusive && x.equals bound.value)

/-- A number above an upper bound. -/
def above (x : Binary64) (bound : Bound) : Bool :=
  bound.value.less x || (bound.exclusive && x.equals bound.value)

/-- The bound that a number breaks, the lower one first. -/
def rangeFault? (s : Scalar) (value : Json) : Option Invalid.Reason :=
  match value.asBinary64? with
  | none => none
  | some x =>
    match s.minimum.filter (below x), s.maximum.filter (above x) with
    | some bound, _ => some (.belowMinimum value bound)
    | none, some bound => some (.aboveMaximum value bound)
    | none, none => none

/-- Kind, range and enumeration, in this order. -/
def fault? (s : Scalar) (value : Json) : Option Invalid.Reason :=
  if !s.acceptsKind value then some (.wrongKind s.kind.name value)
  else match s.rangeFault? value with
    | some reason => some reason
    | none => match s.enumeration with
      | none => none
      | some members =>
        if members.any (·.agrees value) then none else some (.notMember value members)

/-- The members of the enumeration that the kind and the range accept. -/
def effectiveEnumeration (s : Scalar) : Option (List Json) :=
  let bare := { s with enumeration := none }
  s.enumeration.map fun members => members.filter fun v => (bare.fault? v).isNone

end Scalar

/-! ## 2. Schemas -/

namespace Schema

abbrev Outcome := Except Invalid Unit

/-- The first of the refusals that got furthest. -/
def deepest? : List Invalid → Option Invalid
  | [] => none
  | first :: rest =>
    match deepest? rest with
    | none => some first
    | some later => if first.path.length < later.path.length then some later else some first

/-- The refusals among outcomes. -/
def refusals : List Outcome → List Invalid
  | [] => []
  | .ok _ :: rest => refusals rest
  | .error e :: rest => e :: refusals rest

/-- The refusal of a union all of whose branches refuse: that of the branch which got furthest into
    the value, if one got inside it at all or there is one branch only. -/
def unionRefusal (errors : List Invalid) (path : Path) (value : Json) : Invalid :=
  match deepest? errors with
  | some e =>
    if path.length < e.path.length || errors.length == 1 then e
    else ⟨path, .noAlternative value errors.length⟩
  | none => ⟨path, .noAlternative value errors.length⟩

/-- Exactly one branch accepts. -/
def oneBranch (outcomes : List Outcome) (path : Path) (value : Json) : Outcome :=
  match outcomes.countP (·.isOk) with
  | 1 => .ok ()
  | 0 => .error (unionRefusal (refusals outcomes) path value)
  | n => .error ⟨path, .severalAlternatives n⟩

/-- The number of items is in bounds. -/
def checkLength (length : Length) (count : Nat) (path : Path) : Outcome :=
  match length.least.filter (count < ·), length.most.filter (· < count) with
  | some least, _ => .error ⟨path, .tooFewItems count least⟩
  | none, some most => .error ⟨path, .tooManyItems count most⟩
  | none, none => .ok ()

/-- Every item in turn, each at its position. -/
def checkItems (check : Json → Path → Outcome) (path : Path) : (start : Nat) → List Json → Outcome
  | _, [] => .ok ()
  | start, item :: rest => do
    check item (path.index start)
    checkItems check path (start + 1) rest

/-- The first member that is not declared. -/
def undeclared? (properties : Keyed Schema) (members : Keyed Json) : Option String :=
  members.names.find? fun name => !properties.has name

mutual

/-- The value, standing at `path` inside a larger one, is accepted. -/
def validateAt : Schema → Json → Path → Outcome
  | .any, _, _ => .ok ()
  | .scalar s, value, path =>
    match s.fault? value with
    | some reason => .error ⟨path, reason⟩
    | none => .ok ()
  | .object properties rules, value, path =>
    match value with
    | .object members => do
      validateProperties properties rules members path
      if rules.isOpen then .ok ()
      else match undeclared? properties members with
        | some name => .error ⟨path.property name, .forbiddenProperty⟩
        | none => .ok ()
    | _ => .error ⟨path, .wrongKind "object" value⟩
  | .array items length, value, path =>
    match value with
    | .array values => do
      checkLength length values.length path
      checkItems (validateAt items) path 0 values
    | _ => .error ⟨path, .wrongKind "array" value⟩
  | .allOf branches, value, path => validateEvery branches value path
  | .anyOf branches, value, path =>
    match validateSome branches value path with
    | .ok _ => .ok ()
    | .error errors => .error (unionRefusal errors path value)
  | .oneOf branches, value, path => oneBranch (validateBranches branches value path) path value

/-- The declared properties in turn: one that is there is accepted, one that is not is not
    required. -/
def validateProperties : List (String × Schema) → ObjectRules → Keyed Json → Path → Outcome
  | [], _, _, _ => .ok ()
  | (name, property) :: rest, rules, members, path => do
    match members.find? name with
    | some value => validateAt property value (path.property name)
    | none =>
      if rules.requires name then .error ⟨path.property name, .missingProperty⟩ else .ok ()
    validateProperties rest rules members path

/-- Every branch accepts; the first refusal ends it. -/
def validateEvery : List Schema → Json → Path → Outcome
  | [], _, _ => .ok ()
  | branch :: rest, value, path => do
    validateAt branch value path
    validateEvery rest value path

/-- Some branch accepts, which ends it; otherwise the refusals of all of them. -/
def validateSome : List Schema → Json → Path → Except (List Invalid) Unit
  | [], _, _ => .error []
  | branch :: rest, value, path =>
    match validateAt branch value path with
    | .ok _ => .ok ()
    | .error e =>
      match validateSome rest value path with
      | .ok _ => .ok ()
      | .error errors => .error (e :: errors)

/-- What each branch says. -/
def validateBranches : List Schema → Json → Path → List Outcome
  | [], _, _ => []
  | branch :: rest, value, path => validateAt branch value path :: validateBranches rest value path

end

/-- The value is accepted. -/
def validate (schema : Schema) (value : Json) : Outcome := schema.validateAt value .root

def accepts (schema : Schema) (value : Json) : Bool := (schema.validate value).isOk

end Schema

end TypedPipeline
