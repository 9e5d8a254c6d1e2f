import Mathlib.Data.List.Chain
import TypedPipeline.Proofs.Operator.Construction

/-!
# Proofs.Operator.Associativity: how operators are grouped does not matter

Each step of putting operators together checks what it combines, and the next one takes the result apart
again, as long as that has not been given a name. This file fixes:

* when operators can be combined as they are, as a condition on neighbours or on pairs
  (`Combinator.Joins`), which some in a row meet if all do (`Joins.row`);
* that a combination stands for what it was made of (`Combinator.spliced_of_combine`), so that to
  combine some operators in a row first changes nothing (`Combinator.combine_group`);
* **that combining is associative** (`Combinator.pair_assoc`).
-/

namespace TypedPipeline

variable {kind : Operator → Prop} {combinator : Combinator} {before part after ops group : List Operator}
  {op : Operator}

/-! ## 1. What can be combined -/

theorem checkEdges_eq_ok_iff :
    checkEdges ops = .ok () ↔
      ops.IsChain fun producer consumer => checkEdge producer consumer = .ok () := by
  fun_induction checkEdges ops with
  | case1 producer consumer rest ih => rw [bind_unit_eq_ok_iff, List.isChain_cons_cons, ih]
  | case2 ops short =>
      rcases ops with _ | ⟨first, _ | ⟨second, rest⟩⟩
      · simp
      · simp
      · exact absurd rfl (short first second rest)

theorem checkAlternatives_eq_ok_iff :
    checkAlternatives ops = .ok () ↔ ops.Pairwise fun a b => checkPair a b = .ok () := by
  induction ops with
  | nil => exact ⟨fun _ => .nil, fun _ => rfl⟩
  | cons first rest ih =>
      rw [checkAlternatives, bind_unit_eq_ok_iff, forM_eq_ok_iff, List.pairwise_cons, ih]

namespace Combinator

/-- The operators can be combined as they are. -/
structure Joins (combinator : Combinator) (ops : List Operator) : Prop where
  present : ops ≠ []
  edges : combinator = .sequential →
    ops.IsChain fun producer consumer => checkEdge producer consumer = .ok ()
  inputs : combinator = .choice → ops.Pairwise fun a b => checkPair a b = .ok ()

/-- **They have a signature exactly if they can.** -/
theorem exists_derive_iff : (∃ signature, combinator.derive ops = .ok signature) ↔
    combinator.Joins ops := by
  cases ops with
  | nil =>
      constructor
      · rintro ⟨_, h⟩
        cases h
      · intro h
        exact absurd rfl h.present
  | cons first rest =>
      have present : first :: rest ≠ [] := List.cons_ne_nil first rest
      cases combinator with
      | sequential =>
          rw [derive, deriveSequential]
          constructor
          · rintro ⟨_, h⟩
            obtain ⟨_, checked, _⟩ := Except.bind_eq_ok.1 h
            exact ⟨present, fun _ => checkEdges_eq_ok_iff.1 checked, by simp⟩
          · intro h
            exact ⟨_, Except.bind_eq_ok.2 ⟨(), checkEdges_eq_ok_iff.2 (h.edges rfl), rfl⟩⟩
      | choice =>
          constructor
          · rintro ⟨_, h⟩
            obtain ⟨_, checked, _⟩ := derive_choice_iff.1 h
            exact ⟨present, by simp, fun _ => checkAlternatives_eq_ok_iff.1 checked⟩
          · intro h
            exact ⟨_, derive_choice_iff.2
              ⟨present, checkAlternatives_eq_ok_iff.2 (h.inputs rfl), rfl⟩⟩
      | parallel => exact ⟨fun _ => ⟨present, by simp, by simp⟩, fun _ => ⟨_, rfl⟩⟩

/-- **Some in a row can be combined if all can.** -/
theorem Joins.row (h : combinator.Joins (before ++ part ++ after)) (present : part ≠ []) :
    combinator.Joins part where
  present := present
  edges sequential := (h.edges sequential).left_of_append.right_of_append
  inputs choice := (List.pairwise_append.1 (List.pairwise_append.1 (h.inputs choice)).1).2.1

/-! ## 2. What is combined -/

/-- A combination depends on what stands for the operators. -/
theorem combine_congr {ops' : List Operator}
    (h : ops.flatMap combinator.spliced = ops'.flatMap combinator.spliced) :
    combinator.combine ops = combinator.combine ops' := by
  rw [combine, combine, h]

/-- Something stands for every operator. -/
theorem spliced_ne_nil (h : op.MadeFrom kind) : combinator.spliced op ≠ [] := by
  cases op with
  | leaf name handle signature => exact List.cons_ne_nil _ _
  | composite name inner children signature =>
      have present : children ≠ [] := (exists_derive_iff.1 ⟨_, h.isCombination.derived⟩).present
      unfold spliced
      dsimp only
      split
      · exact present
      · exact List.cons_ne_nil _ _

/-- For a combination those stand that it was made of. -/
theorem spliced_of_combine (h : combinator.combine ops = .ok op) :
    combinator.spliced op = ops.flatMap combinator.spliced := by
  obtain ⟨signature, _, rfl⟩ := combine_eq_ok h
  exact if_pos ⟨rfl, rfl⟩

/-- **To combine some operators in a row first changes nothing**, neither whether all can be combined nor
    what comes of it. -/
theorem combine_group (before after : List Operator) (made : ∀ op ∈ group, op.MadeFrom kind)
    (some : group ≠ []) :
    (combinator.combine group >>= fun grouped => combinator.combine (before ++ grouped :: after)) =
        .ok op ↔
      combinator.combine (before ++ group ++ after) = .ok op := by
  -- what the group makes is taken apart again, so the same operators stand for both lists
  have regroup {grouped : Operator} (h : combinator.combine group = .ok grouped) :
      combinator.combine (before ++ grouped :: after) =
        combinator.combine (before ++ group ++ after) :=
    combine_congr (by simp [spliced_of_combine h])
  constructor
  · intro h
    obtain ⟨grouped, first, h⟩ := Except.bind_eq_ok.1 h
    exact (regroup first).symm.trans h
  · intro h
    obtain ⟨signature, derived, _⟩ := combine_eq_ok h
    have present : group.flatMap combinator.spliced ≠ [] := by
      obtain ⟨first, hf⟩ := List.exists_mem_of_ne_nil _ some
      obtain ⟨x, hx⟩ := List.exists_mem_of_ne_nil (combinator.spliced first)
        (spliced_ne_nil (made first hf))
      exact List.ne_nil_of_mem (List.mem_flatMap.2 ⟨first, hf, hx⟩)
    -- the operators of the group are some in a row of all that were combined
    rw [List.flatMap_append, List.flatMap_append] at derived
    obtain ⟨inner, derived'⟩ := exists_derive_iff.2 ((exists_derive_iff.1 ⟨_, derived⟩).row present)
    have first : combinator.combine group =
        .ok (.composite combinator.defaultName combinator (group.flatMap combinator.spliced) inner) := by
      rw [combine, derived']
      rfl
    exact Except.bind_eq_ok.2 ⟨_, first, (regroup first).trans h⟩

/-- Two operators combined by the operation of the combinator. -/
def pair : Combinator → Operator → Operator → Except Fault Operator
  | .sequential => Operator.andThen
  | .choice => Operator.orElse
  | .parallel => Operator.beside

theorem pair_eq_combine (a b : Operator) : combinator.pair a b = combinator.combine [a, b] := by
  cases combinator <;> rfl

/-- **Combining is associative.** Whatever the operators and the combinator: to combine the first two
    and then the third, or the first with what the last two make, gives an operator exactly if to combine
    all three at once does, and it is the same operator, with its name, its children, its signature and
    all that is read off it. -/
theorem pair_assoc {a b c : Operator} (ha : a.MadeFrom kind) (hb : b.MadeFrom kind)
    (hc : c.MadeFrom kind) :
    ((combinator.pair a b >>= fun ab => combinator.pair ab c) = .ok op ↔
        combinator.combine [a, b, c] = .ok op) ∧
      ((combinator.pair b c >>= fun bc => combinator.pair a bc) = .ok op ↔
        combinator.combine [a, b, c] = .ok op) := by
  simp only [pair_eq_combine]
  have first : ∀ op ∈ [a, b], op.MadeFrom kind := by simp [ha, hb]
  have last : ∀ op ∈ [b, c], op.MadeFrom kind := by simp [hb, hc]
  exact ⟨combine_group [] [c] first (List.cons_ne_nil a [b]),
    combine_group [a] [] last (List.cons_ne_nil b [c])⟩

/-- Two leaves and a choice with a name of its own, grouped either way. -/
theorem pair_assoc_models : ∃ models op,
    (plainLeaf "KNN").orElse (plainLeaf "LR") = .ok models ∧
      ((plainLeaf "Tree").MadeFrom (fun _ => True) ∧ (plainLeaf "SVM").MadeFrom (fun _ => True) ∧
        (models.rename "models").MadeFrom fun _ => True) ∧
      (choice.pair (plainLeaf "Tree") (plainLeaf "SVM") >>= fun first =>
        choice.pair first (models.rename "models")) = .ok op ∧
      (choice.pair (plainLeaf "SVM") (models.rename "models") >>= fun rest =>
        choice.pair (plainLeaf "Tree") rest) = .ok op ∧
      op.name = "choice" ∧ op.text = "Tree | SVM | (KNN | LR)" := by
  obtain ⟨inner, combined, any⟩ :=
    Operator.orElse_of_any (plainLeaf "KNN") (plainLeaf "LR") rfl rfl rfl rfl
  have leaf (name : String) : (plainLeaf name).MadeFrom (fun _ => True) := .leaf rfl trivial
  have models : Operator.MadeFrom (fun _ => True) _ :=
    .combination (by simpa using ⟨leaf "KNN", leaf "LR"⟩) combined
  have named : Operator.MadeFrom (fun _ => True)
      (.composite "models" .choice [plainLeaf "KNN", plainLeaf "LR"] inner) := models.renamed rfl
  obtain ⟨signature, all, _⟩ := combine_choice_of_any
    (List.cons_ne_nil (plainLeaf "Tree") [plainLeaf "SVM", .composite "models" .choice _ inner])
    (by simpa [inputOf, plainLeaf, Operator.signature] using any)
    (by simp [spliced, plainLeaf, defaultName])
  obtain ⟨left, right⟩ := pair_assoc (leaf "Tree") (leaf "SVM") named
  exact ⟨_, _, combined, ⟨leaf "Tree", leaf "SVM", named⟩, left.2 all, right.2 all, rfl, rfl⟩

end Combinator

end TypedPipeline
