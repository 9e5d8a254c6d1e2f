import TypedPipeline.Schema.Validation

/-!
# Schema.WellFormed: the invariants of a schema

Schemas put together in code, or read from a document, may contradict themselves. This file fixes:

* everything that can be wrong with a schema or with the document it is read from (`Malformation`),
  and the wording;
* the check (`Schema.checkWellFormed`): names in rules are declared, ranges and lengths are not
  inverted, bounds and enumerations suit their kind, log-scaled ranges are positive, defaults satisfy
  their properties, unions have branches. The first fault in reading order is the answer.
-/

namespace TypedPipeline

/-- What is wrong with a schema or with its document. -/
inductive Malformation where
  -- invariants
  | undeclaredRequired (name : String)
  | undeclaredRelevant (name : String)
  | undeclaredDefault (name : String)
  | badDefault (value : Json) (reason : Invalid.Reason)
  | invertedLength (least most : Nat)
  | noBranch (form : String)
  | boundOnKind (kind : ScalarKind)
  | infiniteBound
  | invertedRange (low high : Binary64)
  | invertedOptimizerRange (low high : Binary64)
  | logOnKind (kind : ScalarKind)
  | logFromNonPositive (low : Binary64)
  | emptyEnumeration
  | memberOfOtherKind (member : Json) (kind : ScalarKind)
  -- documents
  | falseSchema
  | notASchema (document : Json)
  | negation
  | notAnArray (keyword : String)
  | referenceNotText
  | unsupportedReference (reference : String)
  | cyclicReference (name : String)
  | undefinedReference (reference : String)
  | typeNameNotText
  | invalidType (document : Json)
  | unknownType (name : String)
  | noTypeAdmits
  | propertiesNotObject
  | entryNotText (keyword : String)
  | invalidAdditional (document : Json)
  | notANumber (keyword : String)
  | notANumberOrBoolean (keyword : String)
  | unknownDistribution (name : String)
  | notACount (keyword : String)

namespace Malformation

private def named (name : String) : String := "'" ++ name ++ "'"

def text : Malformation → String
  | .undeclaredRequired name => s!"required property {named name} is not declared in properties"
  | .undeclaredRelevant name => s!"relevantToOptimizer names undeclared property {named name}"
  | .undeclaredDefault name => s!"default given for undeclared property {named name}"
  | .badDefault value reason =>
    s!"default {value.compact} does not satisfy its schema: {reason.text}"
  | .invertedLength least most => s!"minItems {least} exceeds maxItems {most}"
  | .noBranch form => s!"{form} must have at least one branch"
  | .boundOnKind kind => s!"range bound on non-numeric kind {kind.name}"
  | .infiniteBound => "range bound must be finite"
  | .invertedRange low high => s!"minimum {low.messageText} exceeds maximum {high.messageText}"
  | .invertedOptimizerRange low high =>
    s!"minimumForOptimizer {low.messageText} exceeds maximumForOptimizer {high.messageText}"
  | .logOnKind _ => "log distribution on non-numeric kind"
  | .logFromNonPositive low =>
    s!"log distribution needs a positive lower bound, got {low.messageText}"
  | .emptyEnumeration => "enum must not be empty"
  | .memberOfOtherKind member kind =>
    s!"enum member {member.compact} is not of kind {kind.name}"
  | .falseSchema => "the 'false' schema is not supported"
  | .notASchema document => s!"expected a schema object, got {document.compact}"
  | .negation => "the 'not' keyword is not supported"
  | .notAnArray keyword => s!"{keyword} must be an array"
  | .referenceNotText => "$ref must be a string"
  | .unsupportedReference reference => s!"unsupported $ref {named reference}"
  | .cyclicReference name => s!"cyclic $ref through definition {named name}"
  | .undefinedReference reference => s!"undefined $ref {named reference}"
  | .typeNameNotText => "type names must be strings"
  | .invalidType document => s!"invalid type {document.compact}"
  | .unknownType name => s!"unknown type {named name}"
  | .noTypeAdmits => "no type admits the enum members"
  | .propertiesNotObject => "properties must be an object"
  | .entryNotText keyword => s!"{keyword} entries must be strings"
  | .invalidAdditional document => s!"invalid additionalProperties {document.compact}"
  | .notANumber keyword => s!"{keyword} must be a number"
  | .notANumberOrBoolean keyword => s!"{keyword} must be a number or boolean"
  | .unknownDistribution name => s!"unknown distribution {named name}"
  | .notACount keyword => s!"{keyword} must be a non-negative integer"

end Malformation

/-- A malformed schema or document: the place, and what is wrong there. -/
structure Malformed where
  path : Path
  reason : Malformation

/-! ## 1. Scalars -/

namespace Scalar

/-- Both bounds are there and no number lies between them. -/
def emptyRange (low high : Bound) : Bool :=
  high.value.less low.value || (low.value.equals high.value && (low.exclusive || high.exclusive))

/-- A bound stands on a numeric kind and is finite. -/
def boundFault? (s : Scalar) (bound : Option Bound) : Option Malformation :=
  match bound with
  | none => none
  | some b =>
    if !s.kind.isNumeric then some (.boundOnKind s.kind)
    else if !b.value.isFinite then some .infiniteBound
    else none

def rangeMalformation? (s : Scalar) : Option Malformation :=
  match s.minimum, s.maximum with
  | some low, some high =>
    if emptyRange low high then some (.invertedRange low.value high.value) else none
  | _, _ => none

def optimizerMalformation? (s : Scalar) : Option Malformation :=
  match s.minimumForOptimizer, s.maximumForOptimizer with
  | some low, some high => if high.less low then some (.invertedOptimizerRange low high) else none
  | _, _ => none

/-- A log-scaled range starts above zero; at zero only if zero itself is excluded. -/
def logMalformation? (s : Scalar) : Option Malformation :=
  if s.distribution = .uniform then none
  else if !s.kind.isNumeric then some (.logOnKind s.kind)
  else match s.minimumForOptimizer <|> s.minimum.map (·.value) with
    | none => none
    | some low =>
      let excluded := match s.minimum with
        | some b => b.exclusive
        | none => false
      if low.less .zero || (low.equals .zero && !excluded) then some (.logFromNonPositive low)
      else none

def enumerationMalformation? (s : Scalar) : Option Malformation :=
  match s.enumeration with
  | none => none
  | some [] => some .emptyEnumeration
  | some members =>
    (members.find? fun m => !s.kind.admits m).map fun m => .memberOfOtherKind m s.kind

/-- The first thing that is wrong with a scalar. -/
def malformation? (s : Scalar) : Option Malformation :=
  s.boundFault? s.minimum <|> s.boundFault? s.maximum <|> s.rangeMalformation?
    <|> s.optimizerMalformation? <|> s.logMalformation? <|> s.enumerationMalformation?

end Scalar

/-! ## 2. Schemas -/

namespace Schema

/-- The first name in the rules that no property carries. -/
def namesMalformation? (properties : Keyed Schema) (rules : ObjectRules) : Option Malformation :=
  let undeclared (names : Names) := names.find? fun name => !properties.has name
  (undeclared rules.required).map .undeclaredRequired
    <|> (rules.relevant.bind undeclared).map .undeclaredRelevant

/-- Every default is that of a declared property and satisfies it. -/
def checkDefaults (properties : Keyed Schema) (path : Path) : Keyed Json → Except Malformed Unit
  | [] => .ok ()
  | (name, value) :: rest =>
    match properties.find? name with
    | none => .error ⟨path, .undeclaredDefault name⟩
    | some schema =>
      match schema.validate value with
      | .error e => .error ⟨path.property name, .badDefault value e.reason⟩
      | .ok _ => checkDefaults properties path rest

def lengthMalformation? (length : Length) : Option Malformation :=
  match length.least, length.most with
  | some least, some most => if most < least then some (.invertedLength least most) else none
  | _, _ => none

/-- No fault, or a fault at a place. -/
def orMalformed (fault : Option Malformation) (path : Path) : Except Malformed Unit :=
  match fault with
  | some reason => .error ⟨path, reason⟩
  | none => .ok ()

mutual

/-- The invariants of a schema that stands at `path`. -/
def checkWellFormedAt : Schema → Path → Except Malformed Unit
  | .any, _ => .ok ()
  | .scalar s, path => orMalformed s.malformation? path
  | .object properties rules, path => do
    orMalformed (namesMalformation? properties rules) path
    checkProperties properties path
    checkDefaults properties path rules.defaults
  | .array items length, path => do
    orMalformed (lengthMalformation? length) path
    checkWellFormedAt items path.items
  | .anyOf branches, path => do
    orMalformed (if branches.isEmpty then some (.noBranch "anyOf") else none) path
    checkBranches branches path
  | .allOf branches, path => do
    orMalformed (if branches.isEmpty then some (.noBranch "allOf") else none) path
    checkBranches branches path
  | .oneOf branches, path => do
    orMalformed (if branches.isEmpty then some (.noBranch "oneOf") else none) path
    checkBranches branches path

def checkProperties : List (String × Schema) → Path → Except Malformed Unit
  | [], _ => .ok ()
  | (name, property) :: rest, path => do
    checkWellFormedAt property (path.property name)
    checkProperties rest path

def checkBranches : List Schema → Path → Except Malformed Unit
  | [], _ => .ok ()
  | branch :: rest, path => do
    checkWellFormedAt branch path
    checkBranches rest path

end

def checkWellFormed (schema : Schema) : Except Malformed Unit := schema.checkWellFormedAt .root

def isWellFormed (schema : Schema) : Bool := schema.checkWellFormed.isOk

end Schema

end TypedPipeline
