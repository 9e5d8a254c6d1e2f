import TypedPipeline.Fault

/-!
# Operator: typed units of work and their combinations

An operator has a name and a signature: what it takes, what it gives, and what its hyperparameters
may be. A leaf is opaque beyond that; a composite combines other operators. This file fixes:

* the three combinators (`Combinator`), their default names and how tightly they bind;
* operators as trees (`Operator`), their depth and their number of leaves;
* the written form (`Operator.text`): children between the marks of their combinator, in parentheses
  where they are composites that do not bind tighter than it.
-/

namespace TypedPipeline

/-! ## 1. Combinators -/

/-- A way to make one operator of several. -/
inductive Combinator where
  /-- One after the other: each takes what the one before it gives. -/
  | sequential
  /-- Exactly one of them is selected. -/
  | choice
  /-- All of them side by side, each on a part of the input. -/
  | parallel
  deriving DecidableEq

namespace Combinator

/-- The name of a combination that has not been given one. -/
def defaultName : Combinator → String
  | .sequential => "pipeline"
  | .choice => "choice"
  | .parallel => "parallel"

/-- The mark between the children in the written form. -/
def separator : Combinator → String
  | .sequential => " >> "
  | .choice => " | "
  | .parallel => " & "

/-- How tightly the combinator binds its children; more is tighter. -/
def binding : Combinator → Nat
  | .choice => 1
  | .parallel => 2
  | .sequential => 3

end Combinator

/-! ## 2. Operators -/

/-- What an operator takes, what it gives, and what its hyperparameters may be. -/
structure Signature where
  input : Schema
  output : Schema
  hyperparameters : Schema

def Signature.same (a b : Signature) : Bool :=
  a.input.same b.input && a.output.same b.output && a.hyperparameters.same b.hyperparameters

/-- A grip on an algorithm, and the hyperparameters it was last configured with. -/
structure Handle where
  configured : Option Json := none

/-- A typed unit of work. -/
inductive Operator where
  | leaf (name : String) (handle : Option Handle) (signature : Signature)
  | composite (name : String) (combinator : Combinator) (children : List Operator)
    (signature : Signature)

namespace Operator

def name : Operator → String
  | .leaf name _ _ => name
  | .composite name _ _ _ => name

def signature : Operator → Signature
  | .leaf _ _ signature => signature
  | .composite _ _ _ signature => signature

def isLeaf : Operator → Bool
  | .leaf _ _ _ => true
  | .composite _ _ _ _ => false

def handle? : Operator → Option Handle
  | .leaf _ handle _ => handle
  | .composite _ _ _ _ => none

def combinator? : Operator → Option Combinator
  | .leaf _ _ _ => none
  | .composite _ combinator _ _ => some combinator

/-- What a composite combines; a leaf has none. -/
def children : Operator → List Operator
  | .leaf _ _ _ => []
  | .composite _ _ children _ => children

/-- The same operator under another name. -/
def rename (op : Operator) (name : String) : Operator :=
  match op with
  | .leaf _ handle signature => .leaf name handle signature
  | .composite _ combinator children signature => .composite name combinator children signature

/-! ## 3. Measures -/

mutual

/-- The levels of nested composites. -/
def depth : Operator → Nat
  | .leaf _ _ _ => 0
  | .composite _ _ children _ => depthBelow children

/-- The depth of an operator with these children. -/
def depthBelow : List Operator → Nat
  | [] => 0
  | child :: rest => max (child.depth + 1) (depthBelow rest)

end

mutual

def leafCount : Operator → Nat
  | .leaf _ _ _ => 1
  | .composite _ _ children _ => leafCountBelow children

def leafCountBelow : List Operator → Nat
  | [] => 0
  | child :: rest => child.leafCount + leafCountBelow rest

end

/-! ## 4. The written form -/

/-- A child that is put in parentheses under a combinator. -/
def needsParentheses (parent : Combinator) : Operator → Bool
  | .leaf _ _ _ => false
  | .composite _ combinator _ _ => combinator.binding ≤ parent.binding

mutual

def text : Operator → String
  | .leaf name _ _ => name
  | .composite _ combinator children _ =>
    String.intercalate combinator.separator (childTexts combinator children)

/-- The children as they are written under a combinator. -/
def childTexts (parent : Combinator) : List Operator → List String
  | [] => []
  | child :: rest =>
    (if child.needsParentheses parent then "(" ++ child.text ++ ")" else child.text)
      :: childTexts parent rest

end

end Operator

end TypedPipeline
