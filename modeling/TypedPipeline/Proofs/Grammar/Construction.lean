import TypedPipeline.Grammar.Derivation

/-!
# Proofs.Grammar.Construction: the tree of a production

A production is turned into a tree part by part, with the parts under construction on a stack. This
file fixes what the tree is, without the stack:

* the nodes of a production and the depths they stand at (`Expr.nodes`); a production fits a bound if
  they all do, and so does whatever is inside its operators (`Expr.Fits`);
* its tree (`Expr.tree`), with the children in their order and every name at its depth;
* the turns of the loop counted out (`Derivation.constructWithin`): a construction is over after as
  many turns as are known beforehand (`Derivation.constructWithin_eq`);
* **that the tree is built exactly if the production fits, and that too great a depth is the only
  failure** (`Derivation.instantiate_eq`).
-/

namespace TypedPipeline

/-! ## 1. Nodes and trees -/

namespace Expr

mutual

/-- The nodes from the root down, each with its depth if the root stands at the depth given. -/
def nodes : Expr → (depth : Nat) → List (Expr × Nat)
  | .terminal op, depth => [(.terminal op, depth)]
  | .nonterminal name, depth => [(.nonterminal name, depth)]
  | .combine combinator children, depth =>
    (.combine combinator children, depth) :: nodesOf children (depth + 1)

/-- The nodes of children at a depth. -/
def nodesOf : List Expr → (depth : Nat) → List (Expr × Nat)
  | [], _ => []
  | child :: rest, depth => child.nodes depth ++ nodesOf rest depth

end

/-- The levels inside a node itself: those of its operator. -/
def nesting : Expr → Nat
  | .terminal op => op.depth
  | _ => 0

/-- Every node lies within the bound, and so do the levels inside it. -/
def Fits (bound : Nat) (e : Expr) (depth : Nat) : Prop :=
  ∀ node ∈ e.nodes depth, node.2 ≤ bound ∧ node.2 + node.1.nesting ≤ bound

instance (bound : Nat) (e : Expr) (depth : Nat) : Decidable (e.Fits bound depth) :=
  inferInstanceAs (Decidable (∀ node ∈ e.nodes depth, _))

mutual

/-- The tree of a production whose root stands at a depth. -/
def tree : Expr → (depth : Nat) → Derivation
  | .terminal op, _ => .operator op
  | .nonterminal name, depth => .pending name depth
  | .combine combinator children, depth => .combine combinator (trees children (depth + 1))

/-- The trees of children at a depth. -/
def trees : List Expr → (depth : Nat) → List Derivation
  | [], _ => []
  | child :: rest, depth => child.tree depth :: trees rest depth

end

theorem fits_combine {bound depth : Nat} {combinator : Combinator} {children : List Expr} :
    (combine combinator children).Fits bound depth ↔
      depth ≤ bound ∧ ∀ child ∈ children, child.Fits bound (depth + 1) := by
  have below (list : List Expr) : (∀ node ∈ nodesOf list (depth + 1),
      node.2 ≤ bound ∧ node.2 + node.1.nesting ≤ bound) ↔
        ∀ child ∈ list, child.Fits bound (depth + 1) := by
    induction list with
    | nil => simp [nodesOf]
    | cons child rest ih => rw [nodesOf, List.forall_mem_append, ih, List.forall_mem_cons, Fits]
  rw [Fits, nodes, List.forall_mem_cons, below children]
  simp [nesting]

theorem fits_terminal {bound depth : Nat} {op : Operator} :
    (terminal op).Fits bound depth ↔ depth ≤ bound ∧ depth + op.depth ≤ bound := by
  simp [Fits, nodes, nesting]

theorem fits_nonterminal {bound depth : Nat} {name : String} :
    (nonterminal name).Fits bound depth ↔ depth ≤ bound := by
  simp [Fits, nodes, nesting]

end Expr

/-! ## 2. Placing by recursion -/

namespace Derivation

mutual

/-- A production has its tree if it fits, and is too deep otherwise. -/
theorem place_eq (bound : Nat) (e : Expr) (depth : Nat) :
    place bound e depth = if e.Fits bound depth then .ok (e.tree depth) else .error .tooDeep := by
  by_cases deep : bound < depth
  · have outside : ¬ e.Fits bound depth := by
      intro fits
      have le : depth ≤ bound := by
        cases e with
        | terminal op => exact (Expr.fits_terminal.1 fits).1
        | nonterminal name => exact Expr.fits_nonterminal.1 fits
        | combine combinator children => exact (Expr.fits_combine.1 fits).1
      omega
    rw [place.eq_def, if_pos deep, if_neg outside]
  · have le : depth ≤ bound := Nat.le_of_not_lt deep
    cases e with
    | terminal op =>
        rw [place, if_neg deep, Expr.tree]
        by_cases nested : bound < depth + op.depth
        · rw [if_pos nested, if_neg]
          intro fits
          have := (Expr.fits_terminal.1 fits).2
          omega
        · rw [if_neg nested, if_pos (Expr.fits_terminal.2 ⟨le, Nat.le_of_not_lt nested⟩)]
    | nonterminal name =>
        rw [place, if_neg deep, Expr.tree, if_pos (Expr.fits_nonterminal.2 le)]
    | combine combinator children =>
        have inside : (Expr.combine combinator children).Fits bound depth ↔
            ∀ child ∈ children, child.Fits bound (depth + 1) := by
          rw [Expr.fits_combine, and_iff_right le]
        rw [place, if_neg deep, placeAll_eq bound children (depth + 1), Expr.tree]
        by_cases all : ∀ child ∈ children, child.Fits bound (depth + 1)
        · rw [if_pos all, if_pos (inside.2 all)]
        · rw [if_neg all, if_neg (fun fits => all (inside.1 fits))]

/-- Children have their trees if each of them fits. -/
theorem placeAll_eq (bound : Nat) (children : List Expr) (depth : Nat) :
    placeAll bound children depth =
      if ∀ child ∈ children, child.Fits bound depth then .ok (Expr.trees children depth)
      else .error .tooDeep := by
  cases children with
  | nil => rw [placeAll, if_pos (by simp), Expr.trees]
  | cons child rest =>
      have split : (∀ e ∈ child :: rest, e.Fits bound depth) ↔
          child.Fits bound depth ∧ ∀ e ∈ rest, e.Fits bound depth := List.forall_mem_cons
      rw [placeAll, place_eq bound child depth, placeAll_eq bound rest depth, Expr.trees]
      by_cases here : child.Fits bound depth
      · by_cases later : ∀ e ∈ rest, e.Fits bound depth
        · rw [if_pos here, if_pos later, if_pos (split.2 ⟨here, later⟩)]
        · rw [if_pos here, if_neg later, if_neg (fun all => later (split.1 all).2)]
      · rw [if_neg here, if_neg (fun all => here (split.1 all).1)]

end

/-! ## 3. The turns of the loop -/

theorem Frame.turns_pos (frame : Frame) : 0 < frame.turns := by
  obtain ⟨part, depth, built, next⟩ := frame
  cases part with
  | combine combinator children =>
      rw [Frame.turns_combine]
      omega
  | _ => exact Nat.one_pos

/-- A construction that takes no more than this many turns; `none` if it is not over by then. -/
def constructWithin (bound : Nat) : (turns : Nat) → Construction →
    Option (Except Failure Derivation)
  | _, ⟨[], some t⟩ => some (.ok t)
  | _, ⟨[], none⟩ => some (.error .noProduction)
  | 0, _ => none
  | turns + 1, ⟨frame :: rest, finished⟩ =>
    match turn bound frame ⟨rest, finished⟩ with
    | .ok inner => constructWithin bound turns inner
    | .error failure => some (.error failure)

/-- **A construction is over after the turns that it takes.** -/
theorem constructWithin_eq {bound turns : Nat} {c : Construction} (enough : c.turns ≤ turns) :
    constructWithin bound turns c = some (construct bound c) := by
  induction turns generalizing c with
  | zero =>
      obtain ⟨_ | ⟨frame, rest⟩, finished⟩ := c
      · cases finished <;> rw [constructWithin, construct]
      · have all : Construction.turns ⟨frame :: rest, finished⟩ =
            frame.turns + Construction.turns ⟨rest, finished⟩ := rfl
        have := frame.turns_pos
        omega
  | succ turns ih =>
      obtain ⟨_ | ⟨frame, rest⟩, finished⟩ := c
      · cases finished <;> rw [constructWithin, construct]
      · refine Eq.trans ?_ (congrArg some (construct_push bound frame ⟨rest, finished⟩).symm)
        rw [constructWithin]
        cases taken : turn bound frame ⟨rest, finished⟩ with
        | error failure => rfl
        | ok inner =>
            have less : inner.turns + 1 = Construction.turns ⟨frame :: rest, finished⟩ :=
              turns_turn taken
            exact ih (by omega)

/-- **A production becomes its tree exactly if it fits the bound.** Whatever it is, the loop is over
    after a number of turns known beforehand, and the only failure is that something is too deep. -/
theorem instantiate_eq (bound : Nat) (production : Expr) (depth : Nat) :
    constructWithin bound (turns production) { stack := [{ part := production, depth := depth + 1 }] } =
      some (instantiate bound production depth) ∧
    (instantiate bound production depth =
      if production.Fits bound (depth + 1) then .ok (production.tree (depth + 1))
      else .error .tooDeep) ∧
    instantiate bound production depth ≠ .error .noProduction := by
  have value := (instantiate_eq_place bound production depth).trans (place_eq bound production _)
  refine ⟨constructWithin_eq ?_, value, ?_⟩
  · rw [← Frame.turns_start production (depth + 1)]
    exact Nat.le_refl _
  · rw [value]
    split <;> simp

end Derivation

end TypedPipeline
