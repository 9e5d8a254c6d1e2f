import TypedPipeline.Operator.Keys
import TypedPipeline.Schema.Union
import TypedPipeline.Schema.Builder

/-!
# Operator.Combine: operators out of operators

A composite has the signature that its combinator derives from its children. This file fixes:

* when operators can be combined: neighbours in a sequence fit (`checkEdges`), and the inputs of any
  two alternatives fit one way or the other (`checkAlternatives`);
* the signatures (`Combinator.derive`), in which the parts of the children stand under their keys;
* combining (`Combinator.combine`): children that are combinations of the same kind, and have not
  been given a name, are first replaced by their own children;
* the signature derived again from the children (`Operator.rederive`).
-/

namespace TypedPipeline

/-! ## 1. What can be combined -/

/-- A step fits the next one. -/
def checkEdge (producer consumer : Operator) : Except Fault Unit :=
  match producer.signature.output.checkSubsumption consumer.signature.input with
  | .ok _ => .ok ()
  | .error e => .error (.mismatch { e with reason := .edge producer.text consumer.text e.reason })

/-- Every step fits the next one. -/
def checkEdges : List Operator → Except Fault Unit
  | producer :: consumer :: rest => do
    checkEdge producer consumer
    checkEdges (consumer :: rest)
  | _ => .ok ()

/-- The input of one alternative fits that of the other, one way or the other. -/
def checkPair (first second : Operator) : Except Fault Unit :=
  let a := first.signature.input
  let b := second.signature.input
  match a.checkSubsumption b with
  | .ok _ => .ok ()
  | .error e =>
    if b.isSubsumedBy a then .ok ()
    else .error (.mismatch ⟨.root, .alternativeInputs first.text second.text e.text, a, b⟩)

/-- The inputs of any two alternatives fit one way or the other. -/
def checkAlternatives : List Operator → Except Fault Unit
  | [] => .ok ()
  | first :: rest => do
    rest.forM (checkPair first)
    checkAlternatives rest

/-! ## 2. Signatures -/

/-- An object with a required property for each child, under its key. -/
def keyedObject (children : List Operator) (part : Operator → Schema) : ObjectParts :=
  ((childKeys children).zip children).foldl
    (fun object child => object.required child.1 (part child.2)) {}

/-- The hyperparameters that select a child: an object with its key alone. -/
def selectionOf (child : String × Operator) : Schema :=
  ((ObjectParts.required {} child.1 child.2.signature.hyperparameters).closed).schema

/-- The parts of all children, each under its key, and nothing else. -/
def closedKeyedObject (children : List Operator) (part : Operator → Schema) : Schema :=
  (keyedObject children part).closed.schema

/-- What an operator takes. -/
def inputOf (op : Operator) : Schema := op.signature.input

/-- What an operator gives. -/
def outputOf (op : Operator) : Schema := op.signature.output

/-- What the hyperparameters of an operator may be. -/
def hyperparametersOf (op : Operator) : Schema := op.signature.hyperparameters

/-- The signature of steps: it takes what the first one takes and gives what the last one gives. -/
def deriveSequential (first : Operator) (rest : List Operator) : Except Fault Signature := do
  let steps := first :: rest
  checkEdges steps
  return {
    input := inputOf first
    output := outputOf (rest.getLastD first)
    hyperparameters := closedKeyedObject steps hyperparametersOf }

/-- The signature of alternatives: it takes and gives what any of them does, and its hyperparameters
    select exactly one of them. -/
def deriveChoice (branches : List Operator) : Except Fault Signature := do
  checkAlternatives branches
  return {
    input := Schema.unionOf (branches.map inputOf)
    output := Schema.unionOf (branches.map outputOf)
    hyperparameters := .oneOf (((childKeys branches).zip branches).map selectionOf) }

/-- The signature of operators side by side: the input may hold more than their parts. -/
def deriveParallel (branches : List Operator) : Signature where
  input := (keyedObject branches inputOf).schema
  output := closedKeyedObject branches outputOf
  hyperparameters := closedKeyedObject branches hyperparametersOf

namespace Combinator

/-- The signature of a combination, of at least one child. -/
def derive (combinator : Combinator) : List Operator → Except Fault Signature
  | [] => .error (.emptyComposition combinator.defaultName)
  | first :: rest =>
    match combinator with
    | .sequential => deriveSequential first rest
    | .choice => deriveChoice (first :: rest)
    | .parallel => .ok (deriveParallel (first :: rest))

/-! ## 3. Combining -/

/-- The operators that stand for a child: its own children, if it is a combination of the same kind
    that has not been given a name. -/
def spliced (combinator : Combinator) (child : Operator) : List Operator :=
  match child with
  | .leaf _ _ _ => [child]
  | .composite name inner children _ =>
    if inner = combinator ∧ name = combinator.defaultName then children else [child]

/-- The combination of operators, under the default name. -/
def combine (combinator : Combinator) (operators : List Operator) : Except Fault Operator := do
  let children := operators.flatMap combinator.spliced
  return .composite combinator.defaultName combinator children (← combinator.derive children)

end Combinator

namespace Operator

/-- The signature derived again from the children alone; a leaf keeps its own. -/
def rederive : Operator → Except Fault Signature
  | .leaf _ _ signature => .ok signature
  | .composite _ combinator children _ => combinator.derive children

/-- First one operator, then another. -/
def andThen (first second : Operator) : Except Fault Operator :=
  Combinator.sequential.combine [first, second]

/-- One of two operators. -/
def orElse (first second : Operator) : Except Fault Operator :=
  Combinator.choice.combine [first, second]

/-- Two operators side by side. -/
def beside (first second : Operator) : Except Fault Operator :=
  Combinator.parallel.combine [first, second]

end Operator

end TypedPipeline
