import TypedPipeline.Operator.Combine
import TypedPipeline.Proofs.Schema.Acceptance

/-!
# Proofs.Operator.Construction: the operators that there are

An operator is a leaf, a combination of operators, or a combination under a name of its own. This file
fixes:

* the operators that are made in these ways from leaves of some kind (`Operator.MadeFrom`);
* what a derived signature is (`derive_choice_iff`, `hyperparameters_of_derive`), and that alternatives
  which take anything can always be combined (`Combinator.combine_choice_of_any`);
* what holds of every composite among them (`IsCombination`): its signature is the one that its
  combinator derives from its children, and its children stand for themselves, that is none of them
  is a combination of the same kind without a name;
* the induction along the tree of such an operator (`Operator.MadeFrom.induction`). An induction along
  the way it was made would not reach the children, since combining replaces some of its operators by
  theirs.
-/

namespace TypedPipeline

/-- The operator is made from leaves that are `kind`, by combining and by giving names to what has
    been combined. -/
inductive Operator.MadeFrom (kind : Operator → Prop) : Operator → Prop where
  | leaf {op} : op.isLeaf = true → kind op → MadeFrom kind op
  | combination {combinator : Combinator} {ops : List Operator} {op} :
      (∀ part ∈ ops, MadeFrom kind part) → combinator.combine ops = .ok op → MadeFrom kind op
  | renamed {op} {name : String} : MadeFrom kind op → op.isLeaf = false →
      MadeFrom kind (op.rename name)

/-- What a composite is made up of, and how it came to its signature. -/
structure IsCombination (kind : Operator → Prop) (combinator : Combinator)
    (children : List Operator) (signature : Signature) : Prop where
  derived : combinator.derive children = .ok signature
  made : ∀ child ∈ children, child.MadeFrom kind
  kept : ∀ child ∈ children, combinator.spliced child = [child]

variable {kind : Operator → Prop} {combinator : Combinator} {children ops : List Operator}
  {op : Operator} {signature : Signature} {name : String}

/-- Alternatives that can be combined have the union of what they take and of what they give, and
    their hyperparameters select one of them. -/
theorem derive_choice_iff : Combinator.choice.derive children = .ok signature ↔
    children ≠ [] ∧ checkAlternatives children = .ok () ∧ signature =
      { input := Schema.unionOf (children.map inputOf)
        output := Schema.unionOf (children.map outputOf)
        hyperparameters := .oneOf (((childKeys children).zip children).map selectionOf) } := by
  cases children with
  | nil => simp [Combinator.derive]
  | cons first rest =>
      simp only [Combinator.derive, deriveChoice, Except.bind_eq_ok, ne_eq, reduceCtorEq,
        not_false_eq_true, true_and]
      constructor
      · intro h
        obtain ⟨_, checked, e⟩ := h
        cases e
        exact ⟨checked, rfl⟩
      · intro h
        obtain ⟨checked, rfl⟩ := h
        exact ⟨(), checked, rfl⟩

/-- The hyperparameters of steps, and of operators side by side, have a part for each child. -/
theorem hyperparameters_of_derive (h : combinator.derive children = .ok signature)
    (all : combinator ≠ .choice) :
    signature.hyperparameters = closedKeyedObject children hyperparametersOf := by
  cases children with
  | nil => simp [Combinator.derive] at h
  | cons first rest =>
      cases combinator with
      | sequential =>
          obtain ⟨_, _, e⟩ := Except.bind_eq_ok.1 h
          cases e
          rfl
      | choice => exact absurd rfl all
      | parallel =>
          cases h
          rfl

/-- A combination has the default name, and the signature derived from the spliced operators. -/
theorem Combinator.combine_eq_ok (h : combinator.combine ops = .ok op) :
    ∃ signature, combinator.derive (ops.flatMap combinator.spliced) = .ok signature ∧
      op = .composite combinator.defaultName combinator (ops.flatMap combinator.spliced)
        signature := by
  obtain ⟨signature, derived, e⟩ := Except.bind_eq_ok.1 h
  cases e
  exact ⟨signature, derived, rfl⟩

/-- What stands for an operator is the operator itself, or a child of it where it is a combination of
    the same kind. -/
theorem Combinator.mem_spliced {child : Operator} (h : child ∈ combinator.spliced op) :
    (child = op ∧ combinator.spliced op = [op]) ∨
      ∃ name children signature, op = .composite name combinator children signature ∧
        child ∈ children := by
  cases op with
  | leaf name handle signature => exact Or.inl ⟨List.mem_singleton.1 h, rfl⟩
  | composite name inner children signature =>
      unfold spliced at h ⊢
      dsimp only at h ⊢
      split at h
      · rename_i e
        obtain ⟨rfl, _⟩ := e
        exact Or.inr ⟨name, children, signature, rfl, h⟩
      · exact Or.inl ⟨List.mem_singleton.1 h, by rw [if_neg ‹_›]⟩

/-- Combining does not make leaves, and a name is not given to one. -/
theorem Operator.MadeFrom.kind_of_isLeaf (h : op.MadeFrom kind) (isLeaf : op.isLeaf = true) :
    kind op := by
  cases h with
  | leaf _ hk => exact hk
  | combination _ combined =>
      obtain ⟨_, _, rfl⟩ := Combinator.combine_eq_ok combined
      cases isLeaf
  | @renamed inner _ _ notLeaf =>
      cases inner with
      | leaf _ _ _ => cases notLeaf
      | composite _ _ _ _ => cases isLeaf

/-- **A composite is a combination of its children as they are.** -/
theorem Operator.MadeFrom.isCombination
    (h : (composite name combinator children signature).MadeFrom kind) :
    IsCombination kind combinator children signature := by
  generalize e : composite name combinator children signature = op at h
  induction h generalizing name combinator children signature with
  | leaf isLeaf _ => subst e; cases isLeaf
  | combination made combined ih =>
      obtain ⟨derivedSignature, derived, e'⟩ := Combinator.combine_eq_ok combined
      cases e.trans e'
      refine ⟨derived, fun child hc => ?_, fun child hc => ?_⟩
      · obtain ⟨part, hp, hc⟩ := List.mem_flatMap.1 hc
        rcases Combinator.mem_spliced hc with ⟨rfl, _⟩ | ⟨_, _, _, rfl, inside⟩
        · exact made child hp
        · exact (ih _ hp rfl).made child inside
      · obtain ⟨part, hp, hc⟩ := List.mem_flatMap.1 hc
        rcases Combinator.mem_spliced hc with ⟨rfl, kept⟩ | ⟨_, _, _, rfl, inside⟩
        · exact kept
        · exact (ih _ hp rfl).kept child inside
  | @renamed inner newName _ notLeaf ih =>
      cases inner with
      | leaf _ _ _ => cases notLeaf
      | composite _ _ _ _ =>
          cases e
          exact ih rfl

/-- What holds of the leaves, and of a combination whenever it holds of its children, holds of every
    operator that is made. -/
theorem Operator.MadeFrom.induction {motive : Operator → Prop}
    (leaf : ∀ op, op.isLeaf = true → kind op → motive op)
    (composite : ∀ name combinator children signature,
      IsCombination kind combinator children signature → (∀ child ∈ children, motive child) →
      motive (.composite name combinator children signature)) :
    ∀ op : Operator, op.MadeFrom kind → motive op
  | .leaf _ _ _, h => leaf _ rfl (h.kind_of_isLeaf rfl)
  | .composite name combinator children signature, h =>
      composite name combinator children signature h.isCombination fun child hc =>
        induction leaf composite child (h.isCombination.made child hc)

/-- Operators that stand for themselves are combined as they are. -/
theorem Combinator.flatMap_spliced (kept : ∀ op ∈ ops, combinator.spliced op = [op]) :
    ops.flatMap combinator.spliced = ops := by
  rw [List.flatMap_def, List.map_congr_left kept, ← List.flatMap_def, List.flatMap_singleton']

/-- Children are combined as they are. -/
theorem IsCombination.combine (h : IsCombination kind combinator children signature) :
    combinator.combine children =
      .ok (.composite combinator.defaultName combinator children signature) := by
  rw [Combinator.combine, Combinator.flatMap_spliced h.kept, h.derived]
  rfl

/-- A leaf that takes and gives anything. -/
def plainLeaf (name : String) : Operator := .leaf name none ⟨.any, .any, .any⟩

/-- Two checks pass one after the other if both do. -/
theorem bind_unit_eq_ok_iff {ε : Type} {first second : Except ε Unit} :
    (first >>= fun _ => second) = .ok () ↔ first = .ok () ∧ second = .ok () := by
  rw [Except.bind_eq_ok]
  exact ⟨fun ⟨_, both⟩ => both, fun both => ⟨(), both⟩⟩

/-- A check of every member in turn passes if each one does. -/
theorem forM_eq_ok_iff {α ε : Type} {check : α → Except ε Unit} {members : List α} :
    members.forM check = .ok () ↔ ∀ a ∈ members, check a = .ok () := by
  induction members with
  | nil => exact ⟨fun _ => by simp, fun _ => rfl⟩
  | cons a rest ih => exact bind_unit_eq_ok_iff.trans (by rw [List.forall_mem_cons, ih])

theorem any_checkSubsumption_any : Schema.any.checkSubsumption .any = .ok () := by
  rw [Schema.checkSubsumption, Schema.checkSubsumptionAt]

/-- The inputs of alternatives that take anything fit each other. -/
theorem checkAlternatives_of_any (any : ∀ child ∈ children, inputOf child = .any) :
    checkAlternatives children = .ok () := by
  induction children with
  | nil => rfl
  | cons first rest ih =>
      obtain ⟨hf, any⟩ := List.forall_mem_cons.1 any
      have pair (second : Operator) (h : second ∈ rest) : checkPair first second = .ok () := by
        have hs := any second h
        unfold inputOf at hf hs
        simp only [checkPair, hf, hs, any_checkSubsumption_any]
      rw [checkAlternatives, forM_eq_ok_iff.2 pair]
      exact ih any

/-- Alternatives that take anything, and stand for themselves, make a choice. -/
theorem Combinator.combine_choice_of_any (ne : ops ≠ []) (any : ∀ op ∈ ops, inputOf op = .any)
    (kept : ∀ op ∈ ops, Combinator.choice.spliced op = [op]) : ∃ signature,
      Combinator.choice.combine ops = .ok (.composite "choice" .choice ops signature) ∧
        signature.input = Schema.unionOf (ops.map inputOf) ∧
        signature.output = Schema.unionOf (ops.map outputOf) := by
  obtain ⟨signature, derived, parts⟩ : ∃ signature,
      Combinator.choice.derive ops = .ok signature ∧
        signature.input = Schema.unionOf (ops.map inputOf) ∧
        signature.output = Schema.unionOf (ops.map outputOf) :=
    ⟨_, derive_choice_iff.2 ⟨ne, checkAlternatives_of_any any, rfl⟩, rfl, rfl⟩
  refine ⟨signature, ?_, parts⟩
  rw [combine, flatMap_spliced kept, derived]
  rfl

/-- Two alternatives that take anything make a choice that takes anything. -/
theorem Operator.orElse_of_any (first second : Operator) (hf : first.signature.input = .any)
    (hs : second.signature.input = .any) (kept : Combinator.choice.spliced first = [first])
    (kept' : Combinator.choice.spliced second = [second]) : ∃ signature : Signature,
      first.orElse second = .ok (.composite "choice" .choice [first, second] signature) ∧
        signature.input = .any := by
  obtain ⟨signature, combined, input, _⟩ := Combinator.combine_choice_of_any
    (List.cons_ne_nil first [second]) (by simp [inputOf, hf, hs]) (by simp [kept, kept'])
  refine ⟨signature, combined, input.trans ?_⟩
  simp [inputOf, hf, hs, Schema.unionOf, Schema.flattenUnions, Schema.keep, Schema.replaceCovered,
    Schema.isSubsumedBy, any_checkSubsumption_any, Except.isOk, Except.toBool]

end TypedPipeline
