import TypedPipeline.Operator.Builder
import TypedPipeline.Operator.Combine
import TypedPipeline.Operator.Description
import TypedPipeline.Schema.Reader

/-!
# Operator.Registry: operators under their names

A registry holds operators under their names, each name once. This file fixes:

* registering and look-up, and their faults;
* the operator that a description describes (`reconstruct`): its leaves are looked up, and every
  combination is checked again;
* catalogs (`Catalog`), documents that list leaves with their schemas, and the registry of one.
-/

namespace TypedPipeline

/-! ## 1. Registries -/

structure Registry where
  operators : Keyed Operator := []

namespace Registry

def names (r : Registry) : List String := Keyed.names r.operators

def has (r : Registry) (name : String) : Bool := r.operators.has name

/-- Put an operator under its own name, which has to be free. -/
def register (r : Registry) (op : Operator) : Except Fault Registry :=
  if r.has op.name then .error (.duplicateOperator op.name)
  else .ok ⟨r.operators.put op.name op⟩

def get (r : Registry) (name : String) : Except Fault Operator :=
  match r.operators.find? name with
  | some op => .ok op
  | none => .error (.operatorNotFound name)

mutual

/-- The operator of a description, checked anew at every combination. -/
def reconstruct (r : Registry) : Description → Except Fault Operator
  | .leaf name => r.get name
  | .composite combinator name children => do
    let op ← combinator.combine (← reconstructAll r children)
    return match name with
      | some name => op.rename name
      | none => op

def reconstructAll (r : Registry) : List Description → Except Fault (List Operator)
  | [] => .ok []
  | child :: rest => do
    let op ← reconstruct r child
    return op :: (← reconstructAll r rest)

end

end Registry

/-! ## 2. Catalogs -/

/-- A list of leaves. -/
abbrev Catalog := List LeafParts

namespace Catalog

/-- A schema in a catalog, below the catalog itself, its list and the entry. -/
def readSchema? (t : JsonText) : Option Schema := do
  match Schema.ofDocument (← t.toJson? (JsonText.maxLevels - 3)) with
  | .ok schema => return schema
  | .error _ => none

def entryFields : List ShapeField :=
  [{ name := "name" }, { name := "input", defaulted := true },
    { name := "output", defaulted := true }, { name := "hyperparams", defaulted := true }]

/-- An entry; a schema that is absent or null is the usual one. -/
def readEntry? (t : JsonText) : Option LeafParts := do
  match ← t.record? entryFields with
  | [some name, input, output, hyperparameters] =>
    let usual : LeafParts := { name := ← name.string? }
    let schema (given : Option JsonText) (otherwise : Schema) : Option Schema := do
      return (← JsonText.optional? readSchema? given).getD otherwise
    return { usual with
      input := ← schema input usual.input
      output := ← schema output usual.output
      hyperparameters := ← schema hyperparameters usual.hyperparameters }
  | _ => none

/-- The catalog in a text. -/
def read? (t : JsonText) : Option Catalog := do
  match ← t.record? [{ name := "operators" }] with
  | [some operators] => (← operators.items?).mapM readEntry?
  | _ => none

/-- The registry of the leaves, built and registered in turn. -/
def registry (catalog : Catalog) : Except Fault Registry :=
  catalog.foldlM (fun r parts => do r.register (← parts.build)) {}

end Catalog

end TypedPipeline
