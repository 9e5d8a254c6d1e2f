import TypedPipeline.Grammar.Derivation

/-!
# Grammar.Language: the derivations of a grammar, all at once

The trees that a name derives under a depth bound, defined by recursion on the grammar instead of a
search: those of its productions in their order, and for a combination one tree for each choice of
trees for its children, the leftmost child varying slowest.
-/

namespace TypedPipeline

/-- One of each list in turn, the first list varying slowest. -/
def choices {α : Type} : List (List α) → List (List α)
  | [] => [[]]
  | first :: rest => first.flatMap fun a => (choices rest).map (a :: ·)

namespace Expr

mutual

/-- The trees of a production at a depth, given those of the names. -/
def derived (bound : Nat) (names : String → Nat → List Derivation) :
    Expr → (depth : Nat) → List Derivation
  | .terminal op, depth => if depth + op.depth ≤ bound then [.operator op] else []
  | .nonterminal name, depth => if depth ≤ bound then names name depth else []
  | .combine combinator children, depth =>
    if depth ≤ bound then
      (choices (derivedAll bound names children (depth + 1))).map (.combine combinator)
    else []

def derivedAll (bound : Nat) (names : String → Nat → List Derivation) :
    List Expr → (depth : Nat) → List (List Derivation)
  | [], _ => []
  | child :: rest, depth => child.derived bound names depth :: derivedAll bound names rest depth

end

end Expr

namespace Grammar

/-- The trees of a name at a depth, with this many levels below it. -/
def derivedWithin (g : Grammar) (bound : Nat) :
    (levels : Nat) → (name : String) → (depth : Nat) → List Derivation
  | 0, _, _ => []
  | levels + 1, name, depth =>
    (g.productions name).flatMap fun production =>
      production.derived bound (g.derivedWithin bound levels) (depth + 1)

/-- The trees that a name at a depth derives. -/
def derived (g : Grammar) (bound : Nat) (name : String) (depth : Nat) : List Derivation :=
  g.derivedWithin bound (bound - depth) name depth

/-- The operators that the start derives, without those that do not check. -/
def language (g : Grammar) (bound : Nat) : List Operator :=
  (g.derived bound g.start 0).filterMap fun t => t.operator?.toOption

end Grammar

end TypedPipeline
