import TypedPipeline.Grammar.Weight
import TypedPipeline.Grammar.Depth

/-!
# Grammar.Expansion: the pipelines of a grammar, one after the other

An expansion searches depth first for the operators that a grammar derives: the productions of the
leftmost pending name are tried in their order, and trees whose combinations do not check are passed
over. Everything that leads nowhere is counted. This file fixes:

* the search for the next operator (`search`);
* expansions as state (`Expansion`) and their `next` result. If the search ends without an operator,
  although derivations were given up, the last result says so;
* the list of all results (`collect`), the pipelines of a grammar (`enumerate`), and the same with
  each production of the start expanded on its own (`enumerateApart`).
-/

namespace TypedPipeline

/-! ## 1. Searching -/

/-- The first operator that trees on a stack lead to, the trees left after it, and the count of what
    was met on the way. -/
def search (g : Grammar) (bound : Nat) (stack : List Derivation) (tally : Tally) :
    Option (Operator × List Derivation) × Tally :=
  match stack with
  | [] => (none, tally)
  | t :: rest =>
    match _hl : t.leftmost? with
    | none =>
      match t.operator? with
      | .ok op => (some (op, rest), { tally with yielded := tally.yielded + 1 })
      | .error _ => search g bound rest (tally.record .illTyped)
    | some (name, depth) =>
      if (g.productions name).isEmpty then search g bound rest (tally.record .noProduction)
      else
        let opened := Derivation.openAll bound t depth (g.productions name) tally
        search g bound (opened.1 ++ rest) opened.2
termination_by Derivation.weightOnStack g bound stack
decreasing_by
  · have := t.weight_pos g bound
    simp only [Derivation.weightOnStack]; omega
  · have := t.weight_pos g bound
    simp only [Derivation.weightOnStack]; omega
  · have := Derivation.weightOnStack_openAll_lt g bound _hl tally
    simp only [Derivation.weightOnStack, Derivation.weightOnStack_append]; omega

/-- The trees left after an operator weigh less than those the search began with. -/
theorem weightOnStack_search_lt {g : Grammar} {bound : Nat} {stack rest : List Derivation}
    {tally tally' : Tally} {op : Operator}
    (h : search g bound stack tally = (some (op, rest), tally')) :
    Derivation.weightOnStack g bound rest < Derivation.weightOnStack g bound stack := by
  fun_induction search g bound stack tally with
  | case1 => simp at h
  | case2 tally t others hl op' hop =>
    simp only [Prod.mk.injEq, Option.some.injEq] at h
    obtain ⟨⟨_, rfl⟩, _⟩ := h
    have := Derivation.weight_pos g bound t
    simp only [Derivation.weightOnStack]; omega
  | case3 tally t others hl e he ih =>
    have := ih h
    simp only [Derivation.weightOnStack]; omega
  | case4 tally t others name depth hl hempty ih =>
    have := ih h
    simp only [Derivation.weightOnStack]; omega
  | case5 tally t others name depth hl hne opened ih =>
    have h1 := ih h
    have h2 := Derivation.weightOnStack_openAll_lt g bound hl tally
    rw [Derivation.weightOnStack_append] at h1
    simp only [Derivation.weightOnStack]
    simp only [opened] at h1
    omega

/-! ## 2. Expansions -/

/-- A search in progress. -/
structure Expansion where
  grammar : Grammar
  bound : Nat
  /-- The trees still to be searched, in order. -/
  stack : List Derivation
  /-- The number of operators still wanted; `none` wants all. -/
  remaining : Option Nat
  tally : Tally := {}
  isDone : Bool := false

namespace Expansion

/-- The next operator, or the fault that ends an expansion without any. -/
def next (e : Expansion) : Option (Except Fault Operator) × Expansion :=
  if e.isDone = true ∨ e.remaining = some 0 then (none, e)
  else match search e.grammar e.bound e.stack e.tally with
    | (some (op, rest), tally) =>
      (some (.ok op), { e with stack := rest, tally, remaining := e.remaining.map (· - 1) })
    | (none, tally) =>
      let ended := { e with stack := [], tally, isDone := true }
      if tally.yielded = 0 ∧ 0 < tally.failures then
        (some (.error (.grammar (.noDerivation e.grammar.start tally))), ended)
      else (none, ended)

/-- A bound on the results that are still to come. -/
def work (e : Expansion) : Nat :=
  Derivation.weightOnStack e.grammar e.bound e.stack + if e.isDone then 0 else 1

theorem work_next_lt {e after : Expansion} {result : Except Fault Operator}
    (h : e.next = (some result, after)) : after.work < e.work := by
  unfold next at h
  split at h
  · simp at h
  · rename_i hlive
    have hd : e.isDone = false := by
      cases hd : e.isDone
      · rfl
      · simp [hd] at hlive
    split at h
    · rename_i op rest tally hs
      simp only [Prod.mk.injEq] at h
      obtain ⟨_, rfl⟩ := h
      have := weightOnStack_search_lt hs
      simp only [work, hd]; omega
    · simp only at h
      split at h
      · simp only [Prod.mk.injEq] at h
        obtain ⟨_, rfl⟩ := h
        simp only [work, hd, Derivation.weightOnStack, ↓reduceIte]
        simp only [Bool.false_eq_true, ↓reduceIte]; omega
      · simp at h

/-- All results, and the expansion after them. -/
def collect (e : Expansion) : List (Except Fault Operator) × Expansion :=
  match h : e.next with
  | (none, after) => ([], after)
  | (some result, after) =>
    have := work_next_lt h
    let (results, last) := collect after
    (result :: results, last)
termination_by e.work

end Expansion

/-! ## 3. Enumerations -/

/-- The sum of two counts. -/
def Tally.merge (s t : Tally) : Tally where
  yielded := s.yielded + t.yielded
  tooDeep := s.tooDeep + t.tooDeep
  noProduction := s.noProduction + t.noProduction
  illTyped := s.illTyped + t.illTyped

namespace Grammar

/-- The expansion of the start symbol. -/
def expand (g : Grammar) (settings : ExpansionSettings) : Except Fault Expansion := do
  let bound ← g.depthBound settings
  return {
    grammar := g
    bound
    stack := [.pending g.start 0]
    remaining := settings.maxCount }

/-- The operators that one production of the start leads to, and the count of what was met. -/
def enumerateProduction (g : Grammar) (bound : Nat) (maxCount : Option Nat) (production : Expr) :
    List Operator × Tally :=
  match Derivation.instantiate bound production 0 with
  | .ok t =>
    let expansion : Expansion := { grammar := g, bound, stack := [t], remaining := maxCount }
    let (results, last) := expansion.collect
    (results.filterMap Except.toOption, last.tally)
  | .error failure => ([], Tally.record {} failure)

/-- Each production of the start expanded on its own, and the results put together in order. -/
def enumerateApart (g : Grammar) (settings : ExpansionSettings) : Except Fault (List Operator) := do
  let bound ← g.depthBound settings
  let productions := g.productions g.start
  let found := productions.map (g.enumerateProduction bound settings.maxCount)
  let initial := if productions.isEmpty then Tally.record {} .noProduction else {}
  let tally := found.foldl (fun tally part => tally.merge part.2) initial
  let pipelines := found.flatMap (·.1)
  if pipelines.isEmpty ∧ 0 < tally.failures then
    throw (.grammar (.noDerivation g.start tally))
  return match settings.maxCount with
    | some count => pipelines.take count
    | none => pipelines

/-- The pipelines that the start derives, in the order of the productions. -/
def enumerate (g : Grammar) (settings : ExpansionSettings) : Except Fault (List Operator) := do
  if settings.isParallel then g.enumerateApart settings
  else
    let expansion ← g.expand settings
    expansion.collect.1.mapM id

end Grammar

end TypedPipeline
