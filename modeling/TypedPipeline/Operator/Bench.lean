import TypedPipeline.Operator.Registry

/-!
# Operator.Bench: operators under labels

A bench holds operators under labels, beside a registry. Each operator made there is issued under a
number of its own, and one that is put under a further label, or registered and looked up again,
keeps its number. Two labels stand for one and the same operator if their numbers agree, which says
more than that the operators look alike.
-/

namespace TypedPipeline

/-- An operator and the number it was issued under. -/
structure Issued where
  number : Nat
  operator : Operator

structure Bench where
  operators : Keyed Issued := []
  registry : Registry := {}
  /-- The numbers of the operators in the registry. -/
  registered : Keyed Nat := []
  /-- The number that is issued next. -/
  next : Nat := 0

namespace Bench

def find? (b : Bench) (label : String) : Option Issued := b.operators.find? label

/-- A new operator, under the number that is issued next. -/
def issue (b : Bench) (op : Operator) : Issued := ⟨b.next, op⟩

/-- Put an operator under a label, or by its own name. -/
def place (b : Bench) (label : Option String) (issued : Issued) : Bench :=
  { b with
    operators := b.operators.put (label.getD issued.operator.name) issued
    next := max b.next (issued.number + 1) }

/-- Both are one and the same operator. -/
def isSame (first second : Issued) : Bool := first.number == second.number

def register (b : Bench) (issued : Issued) : Except Fault Bench := do
  return { b with
    registry := ← b.registry.register issued.operator
    registered := b.registered.put issued.operator.name issued.number }

/-- Replace the registry, whose operators are all new. -/
def stock (b : Bench) (registry : Registry) : Bench :=
  let names := registry.names
  { b with
    registry
    registered := names.zipIdx.foldl (fun numbers e => numbers.put e.1 (b.next + e.2)) []
    next := b.next + names.length }

/-- The operator of a description. A leaf alone is the registered operator itself. -/
def reconstruct (b : Bench) (description : Description) : Except Fault Issued := do
  let op ← b.registry.reconstruct description
  match description with
  | .leaf name => return ⟨(b.registered.find? name).getD b.next, op⟩
  | .composite _ _ _ => return b.issue op

end Bench

end TypedPipeline
