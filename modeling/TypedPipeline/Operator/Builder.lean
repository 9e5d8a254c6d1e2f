import TypedPipeline.Operator
import TypedPipeline.Schema.Builder

/-!
# Operator.Builder: making leaves

A leaf takes and gives anything and has no hyperparameters, unless it says otherwise. It is made
(`LeafParts.build`) only under a name that is not empty and with well-formed schemas; the name is
looked at first, then the input, the output and the hyperparameters.
-/

namespace TypedPipeline

/-- A leaf in the making. -/
structure LeafParts where
  name : String
  input : Schema := .any
  output : Schema := .any
  hyperparameters : Schema := (ObjectParts.closed {}).schema
  handle : Option Handle := none

namespace LeafParts

/-- The fault of a schema that is not well formed. -/
def checkSchema (s : Schema) : Except Fault Unit :=
  match s.checkWellFormed with
  | .ok _ => .ok ()
  | .error e => .error (.malformed e)

def build (parts : LeafParts) : Except Fault Operator := do
  if parts.name = "" then throw (.setting .noOperatorName)
  checkSchema parts.input
  checkSchema parts.output
  checkSchema parts.hyperparameters
  return .leaf parts.name parts.handle ⟨parts.input, parts.output, parts.hyperparameters⟩

end LeafParts

end TypedPipeline
