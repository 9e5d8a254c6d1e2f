import TypedPipeline.Grammar.Expansion
import TypedPipeline.Proofs.Grammar.Completion

/-!
# Proofs.Grammar.Enumeration: an expansion lists the language of a grammar

An expansion takes one tree after the other from a stack and goes on with what it opens. This file
fixes:

* the operators that a stack leads to (`ahead`), which is what a search keeps: it finds the first of
  them and leaves trees that lead to the others, or there are none (`ahead_eq_found`);
* the operators that an expansion will still give (`Expansion.upcoming`), how one result shortens
  them (`upcoming_of_next_some`), and that all results together give them (`filterMap_collect`);
* **that the expansion of a grammar gives the operators of its language, each derivation once and in
  order, up to the count that is wanted** (`Grammar.operators_expand`).
-/

namespace TypedPipeline

/-! ## 1. Searching -/

/-- The operators that the trees on a stack lead to, in order. -/
def ahead (g : Grammar) (bound : Nat) (stack : List Derivation) : List Operator :=
  (stack.flatMap (Derivation.completions g bound)).filterMap fun t => t.operator?.toOption

variable {g : Grammar} {bound : Nat}

theorem ahead_append (stack stack' : List Derivation) :
    ahead g bound (stack ++ stack') = ahead g bound stack ++ ahead g bound stack' := by
  rw [ahead, List.flatMap_append, List.filterMap_append]
  rfl

theorem ahead_cons (t : Derivation) (rest : List Derivation) :
    ahead g bound (t :: rest) = ahead g bound [t] ++ ahead g bound rest :=
  ahead_append [t] rest

theorem ahead_of_complete {t : Derivation} (h : t.Complete) :
    ahead g bound [t] = t.operator?.toOption.toList := by
  rw [ahead, List.flatMap_singleton, Derivation.completions_of_complete t h, List.filterMap_cons]
  cases t.operator? <;> rfl

/-- Opening the leftmost pending name of a tree leaves the operators that it leads to. -/
theorem ahead_openAll {t : Derivation} {name : String} {depth : Nat}
    (h : t.leftmost? = some (name, depth)) (tally : Tally) :
    ahead g bound (Derivation.openAll bound t depth (g.productions name) tally).1 =
      ahead g bound [t] := by
  rw [ahead, Derivation.flatMap_completions_openAll t h, ahead, List.flatMap_singleton]

/-- A pending name without productions leads nowhere. -/
theorem ahead_of_isEmpty {t : Derivation} {name : String} {depth : Nat}
    (h : t.leftmost? = some (name, depth)) (none : (g.productions name).isEmpty = true) :
    ahead g bound [t] = [] := by
  rw [← ahead_openAll h {}, List.isEmpty_iff.1 none]
  rfl

/-- The operator that a search has found, and those that the trees left lead to. -/
def found (g : Grammar) (bound : Nat) : Option (Operator × List Derivation) → List Operator
  | none => []
  | some (op, rest) => op :: ahead g bound rest

/-- **A search finds the first operator that the stack leads to, and leaves the others.** -/
theorem ahead_eq_found (stack : List Derivation) (tally : Tally) :
    ahead g bound stack = found g bound (search g bound stack tally).1 := by
  fun_induction search g bound stack tally with
  | case1 tally => rfl
  | case2 tally t rest leftmost op made =>
      rw [ahead_cons, ahead_of_complete leftmost, made]
      rfl
  | case3 tally t rest leftmost fault refused ih =>
      rw [ahead_cons, ahead_of_complete leftmost, refused]
      exact ih
  | case4 tally t rest name depth leftmost empty ih =>
      rw [ahead_cons, ahead_of_isEmpty leftmost empty]
      exact ih
  | case5 tally t rest name depth leftmost _ opened ih =>
      rw [ahead_cons, ← ahead_openAll leftmost tally, ← ahead_append]
      exact ih

/-! ## 2. Expansions -/

/-- The first members of a list; without a limit all of them. -/
def upTo {α : Type} : (limit : Option Nat) → List α → List α
  | none, list => list
  | some n, list => list.take n

theorem upTo_nil {α : Type} (limit : Option Nat) : upTo limit ([] : List α) = [] := by
  cases limit <;> simp [upTo]

theorem upTo_cons {α : Type} {limit : Option Nat} (h : limit ≠ some 0) (a : α) (rest : List α) :
    upTo limit (a :: rest) = a :: upTo (limit.map (· - 1)) rest := by
  cases limit with
  | none => rfl
  | some n =>
      cases n with
      | zero => exact absurd rfl h
      | succ n => rfl

namespace Expansion

/-- The operators that an expansion will still give. -/
def upcoming (e : Expansion) : List Operator :=
  if e.isDone then [] else upTo e.remaining (ahead e.grammar e.bound e.stack)

variable {e after : Expansion}

/-- One result, if it is an operator, is the first of those that were to come. -/
theorem upcoming_of_next_some {result : Except Fault Operator} (h : e.next = (some result, after)) :
    e.upcoming = result.toOption.toList ++ after.upcoming := by
  unfold next at h
  split at h
  · cases h
  · rename_i live
    obtain ⟨going, wanted⟩ := not_or.1 live
    have going : e.isDone = false := by simpa using going
    have coming : ahead e.grammar e.bound e.stack = _ := ahead_eq_found e.stack e.tally
    split at h
    · rename_i op rest tally searched
      cases h
      rw [searched] at coming
      simp only [upcoming, going, coming, found, upTo_cons wanted]
      rfl
    · rename_i tally searched
      simp only at h
      split at h
      · cases h
        rw [searched] at coming
        simp only [upcoming, going, coming, found, upTo_nil]
        rfl
      · cases h

/-- An expansion ends when no operators are to come. -/
theorem upcoming_of_next_none (h : e.next = (none, after)) : e.upcoming = [] := by
  unfold next at h
  split at h
  · rename_i ended
    rcases ended with done | full
    · rw [upcoming, if_pos done]
    · rw [upcoming, full]
      simp [upTo]
  · have coming : ahead e.grammar e.bound e.stack = _ := ahead_eq_found e.stack e.tally
    split at h
    · cases h
    · rename_i tally searched
      rw [searched] at coming
      rw [upcoming, coming, found, upTo_nil, ite_self]

/-- **All results together give the operators that are to come.** -/
theorem filterMap_collect (e : Expansion) :
    e.collect.1.filterMap Except.toOption = e.upcoming := by
  fun_induction collect e with
  | case1 e after h => exact (upcoming_of_next_none h).symm
  | case2 e result after h less results last collected ih =>
      rw [collected] at ih
      rw [upcoming_of_next_some h, ← ih]
      cases result <;> rfl

end Expansion

/-! ## 3. Grammars -/

namespace Grammar

/-- What the start leads to is the language. -/
theorem ahead_start (g : Grammar) (bound : Nat) :
    ahead g bound [.pending g.start 0] = g.language bound := by
  rw [ahead, List.flatMap_singleton]
  rfl

/-- **Whatever the grammar, its expansion gives the operators of its language in order, one for
    each derivation, up to the count that is wanted.** The derivations are those of the recursion:
    the trees of a name are the trees of its productions one level below. -/
theorem operators_expand {g : Grammar} {settings : ExpansionSettings} {bound : Nat}
    (h : g.depthBound settings = .ok bound) :
    (∀ name depth, g.derived bound name depth =
        (g.productions name).flatMap fun p => p.derived bound (g.derived bound) (depth + 1)) ∧
      ∃ e, g.expand settings = .ok e ∧
        e.collect.1.filterMap Except.toOption = upTo settings.maxCount (g.language bound) := by
  refine ⟨g.derived_eq, ⟨g, bound, [.pending g.start 0], settings.maxCount, {}, false⟩, ?_, ?_⟩
  · rw [expand, h]
    rfl
  · rw [Expansion.filterMap_collect, Expansion.upcoming, if_neg Bool.false_ne_true, ahead_start]

/-- Chains of one operator, with a production whose steps do not fit and one without a rule. -/
def chains : Grammar where
  start := "chain"
  rules := [("chain",
    [.terminal (.leaf "a" none ⟨.any, .any, .any⟩),
      .combine .sequential
        [.nonterminal "chain", .terminal (.leaf "a" none ⟨.any, .any, .any⟩)],
      .combine .sequential
        [.terminal (.leaf "n" none ⟨.any, .scalar { kind := .integer }, .any⟩),
          .terminal (.leaf "t" none ⟨.scalar { kind := .string }, .any, .any⟩)],
      .nonterminal "missing"])]

theorem operators_expand_chains :
    chains.depthBound { maxDepth := some 5, maxCount := some 2 } = .ok 5 ∧
      ∃ e, chains.expand { maxDepth := some 5, maxCount := some 2 } = .ok e ∧
        (e.collect.1.filterMap Except.toOption).map Operator.text = ["a", "a >> a"] := by
  have bounded : chains.depthBound { maxDepth := some 5, maxCount := some 2 } = .ok 5 := rfl
  obtain ⟨_, e, expanded, operators⟩ := operators_expand bounded
  refine ⟨bounded, e, expanded, ?_⟩
  rw [operators]
  decide +kernel

end Grammar

end TypedPipeline
