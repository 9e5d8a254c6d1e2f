import TypedPipeline.Schema.Builder
import TypedPipeline.Json.Writer

/-!
# Schema.Document: the written form of a schema

A schema is written as a JSON document whose members say its form and its limits; what is at its
default is left out. This file fixes the members of each form, in ascending order of their names
(`members`), and the document made of them (`toDocument`). The default of a property is written into
the document of the property itself.
-/

namespace TypedPipeline

namespace Schema

/-- The members that are there. -/
def present (entries : List (String × Option Json)) : List (String × Json) :=
  entries.filterMap fun e => e.2.map fun value => (e.1, value)

/-- The value of a bound, if it is of the given sort. -/
def boundMember (bound : Option Bound) (exclusive : Bool) : Option Json :=
  match bound with
  | some b => if b.exclusive == exclusive then some (.float b.value) else none
  | none => none

mutual

/-- The members of a schema's document, with the default that belongs to it. -/
def members (default : Option Json) : Schema → List (String × Json)
  | .any => present [("default", default)]
  | .scalar s => present [
      ("default", default),
      ("distribution", if s.distribution = .logUniform then some (.text "loguniform") else none),
      ("enum", s.enumeration.map .array),
      ("exclusiveMaximum", boundMember s.maximum true),
      ("exclusiveMinimum", boundMember s.minimum true),
      ("maximum", boundMember s.maximum false),
      ("maximumForOptimizer", s.maximumForOptimizer.map .float),
      ("minimum", boundMember s.minimum false),
      ("minimumForOptimizer", s.minimumForOptimizer.map .float),
      ("type", some (.text s.kind.name))]
  | .object properties rules => present [
      ("additionalProperties", some (.bool rules.isOpen)),
      ("default", default),
      ("properties", some (.object (propertyDocuments rules.defaults properties))),
      ("relevantToOptimizer", rules.relevant.map .texts),
      ("required", if rules.required.isEmpty then none else some (.texts rules.required)),
      ("type", some (.text "object"))]
  | .array items length => present [
      ("default", default),
      ("items", some (.object (members none items))),
      ("maxItems", length.most.map .nat),
      ("minItems", length.least.map .nat),
      ("type", some (.text "array"))]
  | .allOf branches => present [("allOf", some (.array (documents branches))), ("default", default)]
  | .anyOf branches => present [("anyOf", some (.array (documents branches))), ("default", default)]
  | .oneOf branches => present [("default", default), ("oneOf", some (.array (documents branches)))]

def propertyDocuments (defaults : Keyed Json) : List (String × Schema) → List (String × Json)
  | [] => []
  | (name, property) :: rest =>
    (name, .object (members (defaults.find? name) property)) :: propertyDocuments defaults rest

def documents : List Schema → List Json
  | [] => []
  | branch :: rest => .object (members none branch) :: documents rest

end

/-- The document of a schema. -/
def toDocument (schema : Schema) : Json := .object (members none schema)

/-- The document as compact text. -/
def text (schema : Schema) : String := schema.toDocument.compact

end Schema

end TypedPipeline
