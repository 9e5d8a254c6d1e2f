import TypedPipeline.Operator
import TypedPipeline.Space.Compile

/-!
# Operator.Hyperparameters: what an operator may be set to

This file fixes how hyperparameters are checked against the signature of an operator
(`validateHyperparameters`), how a leaf with a handle is configured with them (`configure`), and the
space they are sampled from (`compileSpace`), which has the name of the operator.
-/

namespace TypedPipeline

namespace Operator

/-- Hyperparameters that come from `origin` are accepted by the signature. -/
def validateHyperparameters (op : Operator) (value : Json) (origin : Origin) : Except Fault Unit :=
  match op.signature.hyperparameters.validate value with
  | .ok _ => .ok ()
  | .error e => .error (.hyperparameters op.name origin e)

/-- The handle, configured with hyperparameters of a user that have been accepted; nothing for an
    operator without a handle. -/
def configure (op : Operator) (value : Json) : Except Fault (Option Handle) := do
  op.validateHyperparameters value .user
  return op.handle?.map fun _ => { configured := some value }

def compileSpace (op : Operator) (settings : SpaceSettings) : Except Fault Space :=
  TypedPipeline.compileSpace settings op.name op.signature.hyperparameters

end Operator

end TypedPipeline
