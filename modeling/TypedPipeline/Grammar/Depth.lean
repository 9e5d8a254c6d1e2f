import TypedPipeline.Grammar
import TypedPipeline.Grammar.Settings

/-!
# Grammar.Depth: how deep derivations go

Without a bound of its own an expansion goes as deep as the longest derivation, which exists if no
name can be reached from itself. This file fixes:

* the search for a name that is reached from itself (`findCycle`): depth first from the start, the
  last reference first. A name is fresh until it is visited, and then on the current chain until all
  of its references have been looked at;
* the length of the longest derivation (`longest`), by rounds: each computes the lengths from those
  of the round before, and a chain of names without a cycle is no longer than the list of rules;
* the bound that settings give (`depthBound`).
-/

namespace TypedPipeline

namespace Grammar

/-! ## 1. Cycles -/

/-- The names that a name refers to, the last one first, and each of them once where it is referred to
    several times in a row. -/
def successors (g : Grammar) (name : String) : List String :=
  ((g.productions name).flatMap Expr.references).eraseReps.reverse

/-- All names that are referred to. -/
def allReferences (g : Grammar) : List String :=
  g.rules.flatMap fun rule => rule.2.flatMap Expr.references

/-- The names other than one of them. -/
def without (names : List String) (name : String) : List String := names.filter (· ≠ name)

theorem length_without_lt {names : List String} {name : String} (h : name ∈ names) :
    (without names name).length < names.length :=
  List.length_filter_lt_length_iff_exists.2 ⟨name, h, by simp⟩

/-- A chain of names, the latest first, each with the references still to be looked at. -/
abbrev Chain := List (String × List String)

/-- The number of entries and references on a chain. -/
def Chain.size : Chain → Nat
  | [] => 0
  | (_, waiting) :: rest => 1 + waiting.length + Chain.size rest

/-- The first name met that is on the current chain already. -/
def findCycleFrom (g : Grammar) (fresh : List String) (chain : Chain) : Option String :=
  match chain with
  | [] => none
  | (_, []) :: rest => findCycleFrom g fresh rest
  | (name, next :: waiting) :: rest =>
    if next ∈ chain.map (·.1) then some next
    else if next ∈ fresh then
      findCycleFrom g (without fresh next) ((next, g.successors next) :: (name, waiting) :: rest)
    else findCycleFrom g fresh ((name, waiting) :: rest)
termination_by (fresh.length, Chain.size chain)
decreasing_by
  · exact .right _ (by simp [Chain.size])
  · rename_i h
    exact .left _ _ (length_without_lt h)
  · exact .right _ (by simp [Chain.size])

/-- A name that can be reached from itself and from the start. -/
def findCycle (g : Grammar) : Option String :=
  g.findCycleFrom g.allReferences [(g.start, g.successors g.start)]

/-! ## 2. The longest derivation -/

/-- The length under a name; one without productions has none. -/
def lengthOf (lengths : Keyed Nat) (name : String) : Nat := (lengths.find? name).getD 0

mutual

/-- How far a production reaches, given how far the names do. -/
def extent (lengths : Keyed Nat) : Expr → Nat
  | .terminal op => op.depth
  | .nonterminal name => lengthOf lengths name
  | .combine _ children => 1 + extentOf lengths children

def extentOf (lengths : Keyed Nat) : List Expr → Nat
  | [] => 0
  | child :: rest => max (extent lengths child) (extentOf lengths rest)

end

/-- One more than the furthest reach of the productions. -/
def furthest (lengths : Keyed Nat) (productions : List Expr) : Nat :=
  productions.foldl (fun most production => max most (1 + extent lengths production)) 0

/-- The lengths of derivations with at most this many names on a chain. -/
def lengths (g : Grammar) : (rounds : Nat) → Keyed Nat
  | 0 => []
  | rounds + 1 =>
    let before := g.lengths rounds
    g.rules.map fun rule => (rule.1, furthest before rule.2)

/-- The length of the longest derivation from the start, if no name is reached from itself. -/
def longest (g : Grammar) : Nat := lengthOf (g.lengths g.rules.length) g.start

/-! ## 3. The bound -/

/-- The bound of the settings, or else the longest derivation. -/
def depthBound (g : Grammar) (settings : ExpansionSettings) : Except Fault Nat :=
  match settings.maxDepth with
  | some bound => .ok bound
  | none =>
    match g.findCycle with
    | some name => .error (.unboundedRecursion name)
    | none => .ok g.longest

end Grammar

end TypedPipeline
