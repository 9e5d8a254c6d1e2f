import TypedPipeline.Schema

/-!
# Schema.Builder: putting schemas together

Schemas made in code, without a document and without a check of their invariants. This file fixes:

* scalars and their ranges (`numberRange`, `integerRange`, `Scalar.withMinimum`, …);
* objects, one property at a time (`ObjectParts`);
* the enumeration of literal values (`enumeration`): one scalar per kind of value, in the order in
  which the kinds are met; whole numbers join the other numbers if there are any.
-/

namespace TypedPipeline

namespace Scalar

def withMinimum (s : Scalar) (value : Binary64) : Scalar := { s with minimum := some ⟨value, false⟩ }

def withMaximum (s : Scalar) (value : Binary64) : Scalar := { s with maximum := some ⟨value, false⟩ }

def withExclusiveMinimum (s : Scalar) (value : Binary64) : Scalar :=
  { s with minimum := some ⟨value, true⟩ }

def withExclusiveMaximum (s : Scalar) (value : Binary64) : Scalar :=
  { s with maximum := some ⟨value, true⟩ }

def withEnumeration (s : Scalar) (members : List Json) : Scalar :=
  { s with enumeration := some members }

def logUniform (s : Scalar) : Scalar := { s with distribution := .logUniform }

def withOptimizerRange (s : Scalar) (low high : Binary64) : Scalar :=
  { s with minimumForOptimizer := some low, maximumForOptimizer := some high }

end Scalar

/-- An object schema in the making: open, and without properties to begin with. -/
structure ObjectParts where
  properties : Keyed Schema := []
  rules : ObjectRules := {}

namespace ObjectParts

def required (o : ObjectParts) (name : String) (schema : Schema) : ObjectParts :=
  { properties := o.properties.put name schema
    rules := { o.rules with required := o.rules.required.insert name } }

def optional (o : ObjectParts) (name : String) (schema : Schema) : ObjectParts :=
  { o with properties := o.properties.put name schema }

/-- Require a name without declaring it. -/
def requireName (o : ObjectParts) (name : String) : ObjectParts :=
  { o with rules := { o.rules with required := Names.insert o.rules.required name } }

def closed (o : ObjectParts) : ObjectParts := { o with rules := { o.rules with isOpen := false } }

def withDefault (o : ObjectParts) (name : String) (value : Json) : ObjectParts :=
  { o with rules := { o.rules with defaults := o.rules.defaults.put name value } }

def withRelevant (o : ObjectParts) (names : List String) : ObjectParts :=
  { o with rules := { o.rules with relevant := some (Names.ofList names) } }

def schema (o : ObjectParts) : Schema := .object o.properties o.rules

end ObjectParts

namespace Schema

def number : Schema := .scalar { kind := .number }

def integer : Schema := .scalar { kind := .integer }

def string : Schema := .scalar { kind := .string }

def boolean : Schema := .scalar { kind := .boolean }

def null : Schema := .scalar { kind := .null }

/-- A number in `[low, high]`. -/
def numberRange (low high : Binary64) : Schema :=
  .scalar ((Scalar.withMinimum { kind := .number } low).withMaximum high)

/-- An integer in `[low, high]`. -/
def integerRange (low high : Int) : Schema :=
  .scalar ((Scalar.withMinimum { kind := .integer } (.ofInt low)).withMaximum (.ofInt high))

def arrayOf (items : Schema) : Schema := .array items {}

/-! ## Enumerations -/

/-- The kind under which a literal value is listed. -/
def listedKind (value : Json) : ScalarKind := (ScalarKind.ofValue? value).getD .string

/-- The kinds of the values, each once, in the order in which they are met. -/
def listedKinds (values : List Json) : List ScalarKind :=
  values.foldl (fun kinds v => if kinds.contains (listedKind v) then kinds else kinds ++ [listedKind v])
    []

/-- The values listed under a kind: its own, and after the numbers the whole numbers. -/
def membersOf (values : List Json) (kind : ScalarKind) : List Json :=
  let own := values.filter fun v => listedKind v == kind
  if kind = .number then own ++ values.filter fun v => listedKind v == .integer else own

/-- The literal values, and no others: one enumeration, or a union of one for each kind. -/
def enumeration (values : List Json) : Schema :=
  let kinds := listedKinds values
  let kinds := if kinds.contains .number then kinds.filter (· != .integer) else kinds
  match kinds.map fun kind => .scalar { kind, enumeration := some (membersOf values kind) } with
  | [only] => only
  | branches => .anyOf branches

end Schema

end TypedPipeline
