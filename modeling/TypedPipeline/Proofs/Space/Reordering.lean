import TypedPipeline.Proofs.Schema.Symmetry
import TypedPipeline.Proofs.Space.Names
import TypedPipeline.Proofs.Space.Unions

/-!
# Proofs.Space.Reordering: the order of branches and the test for overlaps

The compiler asks of two leaves that a union keeps apart whether they are disjoint, and asks it in one
order only. This file fixes:

* branches in another order, those of unions directly among them included (`Reordered`); they have the
  same leaves (`Reordered.perm_leaves`);
* what the test for overlaps looks at, without positions: a relation holds between all leaves of two
  branches that are kept apart (`CrossApart`, `NestedApart`), which no order changes if it is symmetric;
* that the test finds no pair exactly if this holds of the leaves (`overlap?_eq_none_iff`);
* **that the test for disjointness has no first side, and so no order of branches changes whether an
  overlap is found** (`overlap?_isSome_comm`).
-/

namespace TypedPipeline

namespace Schema

variable {R : Schema → Schema → Prop} {all branches branches' xs ys : List Schema} {start : Nat}

/-! ## 1. Other orders -/

/-- The same branches in another order, also inside the unions that stand directly among them. -/
inductive Reordered : List Schema → List Schema → Prop where
  | nil : Reordered [] []
  | cons (b : Schema) {rest rest' : List Schema} :
      Reordered rest rest' → Reordered (b :: rest) (b :: rest')
  | swap (b c : Schema) (rest : List Schema) : Reordered (b :: c :: rest) (c :: b :: rest)
  | anyOf {inner inner' : List Schema} (rest : List Schema) :
      Reordered inner inner' → Reordered (.anyOf inner :: rest) (.anyOf inner' :: rest)
  | oneOf {inner inner' : List Schema} (rest : List Schema) :
      Reordered inner inner' → Reordered (.oneOf inner :: rest) (.oneOf inner' :: rest)
  | trans {xs ys zs : List Schema} : Reordered xs ys → Reordered ys zs → Reordered xs zs

namespace Reordered

/-- Every permutation of the branches is such an order. -/
theorem of_perm (h : xs.Perm ys) : Reordered xs ys := by
  induction h with
  | nil => exact .nil
  | cons b _ ih => exact .cons b ih
  | swap b c rest => exact .swap c b rest
  | trans _ _ ih ih' => exact .trans ih ih'

theorem symm (h : Reordered xs ys) : Reordered ys xs := by
  induction h with
  | nil => exact .nil
  | cons b _ ih => exact .cons b ih
  | swap b c rest => exact .swap c b rest
  | anyOf rest _ ih => exact .anyOf rest ih
  | oneOf rest _ ih => exact .oneOf rest ih
  | trans _ _ ih ih' => exact .trans ih' ih

/-- **Branches in another order have the same leaves.** -/
theorem perm_leaves (h : Reordered xs ys) : (leaves xs).Perm (leaves ys) := by
  induction h with
  | nil => exact .refl _
  | @cons b rest rest' _ ih =>
      rw [leaves_cons b rest, leaves_cons b rest']
      exact ih.append_left _
  | swap b c rest =>
      rw [leaves_cons b (c :: rest), leaves_cons c rest, leaves_cons c (b :: rest), leaves_cons b rest,
        ← List.append_assoc, ← List.append_assoc]
      exact List.perm_append_comm.append_right _
  | anyOf rest _ ih | oneOf rest _ ih =>
      rw [leaves, leaves]
      exact ih.append_right _
  | trans _ _ ih ih' => exact ih.trans ih'

end Reordered

/-! ## 2. Leaves kept apart, without positions -/

/-- The relation holds between every leaf of a branch and every leaf of a later one. -/
def CrossApart (R : Schema → Schema → Prop) : List Schema → Prop
  | [] => True
  | b :: rest => (∀ l ∈ leaves [b], ∀ l' ∈ leaves rest, R l l') ∧ CrossApart R rest

/-- It holds so inside every exclusive union that stands among the branches, however deep in unions. -/
def NestedApart (R : Schema → Schema → Prop) : List Schema → Prop
  | [] => True
  | .anyOf inner :: rest => NestedApart R inner ∧ NestedApart R rest
  | .oneOf inner :: rest => (NestedApart R inner ∧ CrossApart R inner) ∧ NestedApart R rest
  | _ :: rest => NestedApart R rest

theorem nestedApart_cons (b : Schema) (rest : List Schema) :
    NestedApart R (b :: rest) ↔ NestedApart R [b] ∧ NestedApart R rest := by
  cases b <;> simp [NestedApart]

/-- A relation that is symmetric between the leaves. -/
def SymmetricOn (R : Schema → Schema → Prop) (items : List Schema) : Prop :=
  ∀ l ∈ items, ∀ l' ∈ items, R l l' → R l' l

theorem SymmetricOn.mono (h : SymmetricOn R ys) (sub : xs ⊆ ys) : SymmetricOn R xs :=
  fun l hl l' hl' => h l (sub hl) l' (sub hl')

namespace Reordered

/-- **No order of branches changes whether a symmetric relation holds between their leaves.** -/
theorem crossApart (h : Reordered xs ys) (symm : SymmetricOn R (leaves xs))
    (apart : CrossApart R xs) : CrossApart R ys := by
  induction h with
  | nil => exact apart
  | @cons b rest rest' later ih =>
      rw [leaves_cons b rest] at symm
      refine ⟨fun l hl l' hl' => apart.1 l hl l' (later.perm_leaves.mem_iff.2 hl'), ?_⟩
      exact ih (symm.mono (List.subset_append_right _ _)) apart.2
  | swap b c rest =>
      obtain ⟨hb, hc, hr⟩ := apart
      rw [leaves_cons b (c :: rest), leaves_cons c rest] at symm
      rw [leaves_cons c rest] at hb
      refine ⟨fun l hl l' hl' => ?_, fun l hl l' hl' => ?_, hr⟩
      · rw [leaves_cons b rest] at hl'
        obtain hl' | hl' := List.mem_append.1 hl'
        · -- the two branches that have changed places
          exact symm l' (List.mem_append_left _ hl') l
            (List.mem_append_right _ (List.mem_append_left _ hl))
            (hb l' hl' l (List.mem_append_left _ hl))
        · exact hc l hl l' hl'
      · exact hb l hl l' (List.mem_append_right _ hl')
  | anyOf rest inside _ | oneOf rest inside _ =>
      refine ⟨fun l hl l' hl' => apart.1 l ?_ l' hl', apart.2⟩
      simp only [leaves, List.append_nil] at hl ⊢
      exact inside.perm_leaves.mem_iff.2 hl
  | trans first _ ih ih' =>
      exact ih' (symm.mono first.perm_leaves.symm.subset) (ih symm apart)

/-- **Nor does it inside unions.** -/
theorem nestedApart (h : Reordered xs ys) (symm : SymmetricOn R (leaves xs))
    (apart : NestedApart R xs) : NestedApart R ys := by
  induction h with
  | nil => exact apart
  | @cons b rest rest' _ ih =>
      rw [nestedApart_cons b rest] at apart
      rw [nestedApart_cons b rest']
      rw [leaves_cons b rest] at symm
      exact ⟨apart.1, ih (symm.mono (List.subset_append_right _ _)) apart.2⟩
  | swap b c rest =>
      rw [nestedApart_cons b (c :: rest), nestedApart_cons c rest] at apart
      rw [nestedApart_cons c (b :: rest), nestedApart_cons b rest]
      exact ⟨apart.2.1, apart.1, apart.2.2⟩
  | anyOf rest _ ih =>
      rw [leaves] at symm
      rw [NestedApart] at apart ⊢
      exact ⟨ih (symm.mono (List.subset_append_left _ _)) apart.1, apart.2⟩
  | oneOf rest inside ih =>
      rw [leaves] at symm
      rw [NestedApart] at apart ⊢
      have symm := symm.mono (List.subset_append_left _ _)
      exact ⟨⟨ih symm apart.1.1, inside.crossApart symm apart.1.2⟩, apart.2⟩
  | trans first _ ih ih' =>
      exact ih' (symm.mono first.perm_leaves.symm.subset) (ih symm apart)

end Reordered

/-! ## 3. Positions -/

/-- The leaf at a position. -/
def leafAt (all : List Schema) (i : Nat) : Schema := all[i]?.getD .any

section Window

variable {P : Schema → Prop} {b : Schema}

/-- The positions of a branch are those of its leaves. -/
theorem forall_range_iff (window : Window all start [b]) :
    (∀ i ∈ List.range' start b.leafCount, P (leafAt all i)) ↔ ∀ l ∈ leaves [b], P l := by
  have at' {i : Nat} {l : Schema} (h : (leaves [b])[i]? = some l) : leafAt all (start + i) = l := by
    rw [leafAt, window i l h, Option.getD_some]
  constructor
  · intro h l hl
    obtain ⟨i, lt, e⟩ := List.mem_iff_getElem.1 hl
    rw [length_leaves_singleton] at lt
    have here := h (start + i) (List.mem_range'_1.2 ⟨by omega, by omega⟩)
    rwa [at' (List.getElem?_eq_some_iff.2 ⟨_, e⟩)] at here
  · intro h i hi
    obtain ⟨le, lt⟩ := List.mem_range'_1.1 hi
    have inside : i - start < (leaves [b]).length := by rw [length_leaves_singleton]; omega
    have here := at' (List.getElem?_eq_getElem inside)
    rw [show start + (i - start) = i by omega] at here
    rw [here]
    exact h _ (List.getElem_mem inside)

/-- So are the positions in the groups of all branches. -/
theorem forall_groups_iff (window : Window all start branches) :
    (∀ g ∈ leafGroups start branches, ∀ i ∈ g, P (leafAt all i)) ↔ ∀ l ∈ leaves branches, P l := by
  induction branches generalizing start with
  | nil => simp [leafGroups, leaves]
  | cons b rest ih =>
      obtain ⟨first, later⟩ := @Window.append all [b] rest start window
      rw [length_leaves_singleton] at later
      rw [leafGroups, List.forall_mem_cons, ih later, forall_range_iff first, leaves_cons b rest,
        List.forall_mem_append]

end Window

/-- **The pairs of positions between branches are the pairs of their leaves.** -/
theorem forall_crossPairs_iff (window : Window all start branches) :
    (∀ p ∈ crossPairs (leafGroups start branches), R (leafAt all p.1) (leafAt all p.2)) ↔
      CrossApart R branches := by
  induction branches generalizing start with
  | nil => simp [leafGroups, crossPairs, CrossApart]
  | cons b rest ih =>
      obtain ⟨first, later⟩ := @Window.append all [b] rest start window
      rw [length_leaves_singleton] at later
      have between : (∀ p ∈ (leafGroups (start + b.leafCount) rest).flatMap (fun sibling =>
            (List.range' start b.leafCount).flatMap fun x => sibling.map fun y => (x, y)),
            R (leafAt all p.1) (leafAt all p.2)) ↔
          ∀ i ∈ List.range' start b.leafCount,
            ∀ g ∈ leafGroups (start + b.leafCount) rest, ∀ j ∈ g, R (leafAt all i) (leafAt all j) := by
        simp only [List.mem_flatMap, List.mem_map]
        constructor
        · intro h i hi g hg j hj
          exact h (i, j) ⟨g, hg, i, hi, j, hj, rfl⟩
        · intro h p hp
          obtain ⟨g, hg, i, hi, j, hj, rfl⟩ := hp
          exact h i hi g hg j hj
      rw [leafGroups, crossPairs, List.forall_mem_append, ih later, CrossApart, between,
        forall_range_iff (P := fun l => ∀ g ∈ leafGroups (start + b.leafCount) rest, ∀ j ∈ g,
          R l (leafAt all j)) first]
      simp only [forall_groups_iff later]

/-- **The pairs inside unions are the pairs of leaves there.** -/
theorem forall_nestedPairs_iff (start : Nat) (branches : List Schema)
    (window : Window all start branches) :
    (∀ p ∈ nestedPairs start branches, R (leafAt all p.1) (leafAt all p.2)) ↔
      NestedApart R branches := by
  induction start, branches using nestedPairs.induct with
  | case1 => simp [nestedPairs, NestedApart]
  | case2 start inner rest ihInner ihRest =>
      obtain ⟨first, later⟩ := @Window.append all [.anyOf inner] rest start window
      have inside : Window all start inner := by simpa [Window, leaves] using first
      rw [length_leaves_singleton] at later
      rw [nestedPairs, List.forall_mem_append, ihInner inside, ihRest later, NestedApart]
  | case3 start inner rest ihInner ihRest =>
      obtain ⟨first, later⟩ := @Window.append all [.oneOf inner] rest start window
      have inside : Window all start inner := by simpa [Window, leaves] using first
      rw [length_leaves_singleton] at later
      rw [nestedPairs, List.forall_mem_append, List.forall_mem_append, ihInner inside,
        forall_crossPairs_iff inside, ihRest later, NestedApart]
  | case4 start b rest notAny notOne ih =>
      obtain ⟨-, later⟩ := @Window.append all [b] rest start window
      have single : leaves [b] = [b] := by
        rw [leaves, leaves]
        · exact notAny
        · exact notOne
      rw [single] at later
      rw [nestedPairs, ih later, NestedApart]
      all_goals assumption

/-! ## 4. The test for overlaps -/

end Schema

variable {settings : SpaceSettings} {path : Path} {branches branches' : List Schema}
  {outcomes outcomes' : List (Schema × Compilation)} {exclusive : Bool}

/-- The positions that are kept are those of outcomes that are right. -/
theorem mem_positions_sortLeaves {start i : Nat} :
    i ∈ (sortLeaves start outcomes).1.map (·.position) ↔
      start ≤ i ∧ ∃ o, outcomes[i - start]? = some o ∧ o.2.isOk = true := by
  induction outcomes generalizing start with
  | nil => simp [sortLeaves]
  | cons first rest ih =>
      obtain ⟨leaf, outcome⟩ := first
      have later : (start + 1 ≤ i ∧ ∃ o, rest[i - (start + 1)]? = some o ∧ o.2.isOk = true) ↔
          start < i ∧ ∃ o, ((leaf, outcome) :: rest)[i - start]? = some o ∧ o.2.isOk = true := by
        refine and_congr_right fun lt => ?_
        rw [show i - start = i - (start + 1) + 1 by omega, List.getElem?_cons_succ]
      rw [sortLeaves]
      cases outcome with
      | ok c =>
          simp only [List.map_cons, List.mem_cons, ih, later]
          constructor
          · intro h
            obtain rfl | ⟨lt, o, ho⟩ := h
            · exact ⟨Nat.le_refl _, (leaf, .ok c), by simp, rfl⟩
            · exact ⟨Nat.le_of_lt lt, o, ho⟩
          · intro h
            obtain ⟨le, o, ho⟩ := h
            obtain rfl | lt := Nat.eq_or_lt_of_le le
            · exact Or.inl rfl
            · exact Or.inr ⟨lt, o, ho⟩
      | error e =>
          simp only [ih, later]
          constructor
          · intro h
            exact ⟨Nat.le_of_lt h.1, h.2⟩
          · intro h
            obtain ⟨le, o, ho, right⟩ := h
            obtain rfl | lt := Nat.eq_or_lt_of_le le
            · simp only [Nat.sub_self, List.getElem?_cons_zero, Option.some.injEq] at ho
              subst ho
              cases right
            · exact ⟨lt, o, ho, right⟩

/-- The leaf has a domain. -/
def HasDomain (settings : SpaceSettings) (path : Path) (leaf : Schema) : Prop :=
  (compileNode settings leaf path).isOk = true

/-- A position is kept if its leaf has a domain. -/
theorem mem_kept_iff (h : leafOutcomes settings branches path = .ok outcomes) (i : Nat) :
    i ∈ (sortLeaves 0 outcomes).1.map (·.position) ↔
      HasDomain settings path (Schema.leafAt (Schema.leaves branches) i) := by
  obtain ⟨map, each, -⟩ := Compiles.leafOutcomes_spec h
  rw [mem_positions_sortLeaves, Nat.sub_zero, Schema.leafAt, ← map, List.getElem?_map]
  cases e : outcomes[i]? with
  | none =>
      have refused : ¬ HasDomain settings path .any := by
        rw [HasDomain, compileNode]
        exact Bool.false_ne_true
      simp [refused]
  | some o =>
      have own := each o (List.mem_of_getElem? e)
      simp [HasDomain, own]

/-- What the test asks of two leaves that are kept apart. -/
def Separated (settings : SpaceSettings) (path : Path) (l l' : Schema) : Prop :=
  HasDomain settings path l ∨ HasDomain settings path l' → l.areDisjoint l' = true

/-- **The test finds no overlap exactly if all leaves that are kept apart are separated.** -/
theorem overlap?_eq_none_iff (h : leafOutcomes settings branches path = .ok outcomes) :
    overlap? (Schema.leaves branches) ((sortLeaves 0 outcomes).1.map (·.position))
        (Schema.exclusivePairs exclusive branches) = none ↔
      Schema.NestedApart (Separated settings path) branches ∧
        (exclusive = true → Schema.CrossApart (Separated settings path) branches) := by
  have window : Schema.Window (Schema.leaves branches) 0 branches := fun i l hl => by
    rw [Nat.zero_add]; exact hl
  have each (p : Nat × Nat) : ¬ ((((sortLeaves 0 outcomes).1.map (·.position)).contains p.1 ||
        ((sortLeaves 0 outcomes).1.map (·.position)).contains p.2) &&
        !((Schema.leaves branches)[p.1]?.getD .any).areDisjoint
          ((Schema.leaves branches)[p.2]?.getD .any)) = true ↔
      Separated settings path (Schema.leafAt (Schema.leaves branches) p.1)
        (Schema.leafAt (Schema.leaves branches) p.2) := by
    rw [Separated, ← mem_kept_iff h, ← mem_kept_iff h]
    simp only [Bool.and_eq_true, Bool.or_eq_true, List.contains_iff_mem, Bool.not_eq_true', not_and,
      Bool.not_eq_false]
    rfl
  rw [overlap?, List.find?_eq_none]
  simp only [each]
  rw [Schema.exclusivePairs, List.forall_mem_append, Schema.forall_nestedPairs_iff 0 branches window]
  refine and_congr_right fun _ => ?_
  cases exclusive with
  | false => simp
  | true =>
      rw [if_pos rfl, Schema.forall_crossPairs_iff window]
      exact ⟨fun apart _ => apart, fun apart => apart rfl⟩

theorem Except.isOk_map_pure {ε α β : Type} (x : Except ε α) (f : α → β) :
    (x >>= fun a => pure (f a)).isOk = x.isOk := by
  cases x <;> rfl

theorem Except.isOk_map₂_pure {ε α β γ : Type} (x : Except ε α) (y : Except ε β) (f : α → β → γ) :
    (x >>= fun a => y >>= fun b => pure (f a b)).isOk = (x.isOk && y.isOk) := by
  cases x <;> cases y <;> rfl

/-- The compiler comes to the test if leaves without a domain are dropped, or there are none. -/
theorem isOk_leafOutcomes_iff :
    (leafOutcomes settings branches path).isOk = true ↔
      settings.dropBranches = true ∨
        ∀ leaf ∈ Schema.leaves branches, HasDomain settings path leaf := by
  induction branches using Schema.leaves.induct with
  | case1 => simp [leafOutcomes, Schema.leaves, Except.isOk, Except.toBool]
  | case2 inner rest ihi ihr | case3 inner rest ihi ihr =>
      rw [Schema.leaves, List.forall_mem_append, or_and_left, ← ihi, ← ihr, leafOutcomes,
        Except.isOk_map₂_pure, Bool.and_eq_true]
  | case4 leaf rest notAny notOne ih =>
      rw [Schema.leaves, List.forall_mem_cons, or_and_left, ← ih, leafOutcomes, HasDomain]
      · cases compileNode settings leaf path with
        | ok c =>
            rw [Except.isOk_map_pure]
            simp [Except.isOk, Except.toBool]
        | error e =>
            cases settings.dropBranches with
            | false => simp [Except.isOk, Except.toBool]
            | true =>
                rw [Except.isOk_map_pure]
                simp
      all_goals assumption

theorem symmetricOn_separated (each : ∀ b ∈ branches, b.Testable) :
    Schema.SymmetricOn (Separated settings path) (Schema.leaves branches) := by
  have testable : ∀ l ∈ Schema.leaves branches, l.Testable := by
    intro l hl
    obtain ⟨b, hb, part⟩ := Schema.mem_partsOfBranches.1 (Schema.mem_leaves hl).2.1
    exact (each b hb).of_mem part
  intro l hl l' hl' separated either
  rw [Schema.Testable.areDisjoint_comm (testable l' hl') (testable l hl)]
  exact separated either.symm

/-- **The test for disjointness has no first side, and no order of branches changes whether the
    compiler finds an overlap.** Of two well-formed schemas without intersections the test says the same
    in both orders. Branches of a union in another order, also inside the unions directly among them,
    have the compiler come to the test for overlaps alike, and then it finds one alike. -/
theorem overlap?_isSome_comm :
    (∀ a b : Schema, a.isWellFormed = true → a.Proper → a.AllOfFree → b.isWellFormed = true →
      b.Proper → b.AllOfFree → a.areDisjoint b = b.areDisjoint a) ∧
    ∀ (settings : SpaceSettings) (path : Path) (exclusive : Bool) (branches branches' : List Schema),
      Schema.Reordered branches branches' →
      (∀ b ∈ branches, b.isWellFormed = true ∧ b.Proper ∧ b.AllOfFree) →
      (leafOutcomes settings branches path).isOk = (leafOutcomes settings branches' path).isOk ∧
      ∀ outcomes outcomes', leafOutcomes settings branches path = .ok outcomes →
        leafOutcomes settings branches' path = .ok outcomes' →
        (overlap? (Schema.leaves branches) ((sortLeaves 0 outcomes).1.map (·.position))
            (Schema.exclusivePairs exclusive branches)).isSome =
          (overlap? (Schema.leaves branches') ((sortLeaves 0 outcomes').1.map (·.position))
            (Schema.exclusivePairs exclusive branches')).isSome := by
  refine ⟨fun a b wa pa fa wb pb fb => ?_,
    fun settings path exclusive branches branches' other each => ⟨?_, fun outcomes outcomes' h h' => ?_⟩⟩
  · exact Schema.Testable.areDisjoint_comm ⟨Schema.isWellFormed_iff.1 wa, pa, fa⟩
      ⟨Schema.isWellFormed_iff.1 wb, pb, fb⟩
  · rw [Bool.eq_iff_iff, isOk_leafOutcomes_iff, isOk_leafOutcomes_iff]
    simp only [other.perm_leaves.mem_iff]
  · have testable : ∀ b ∈ branches, b.Testable := fun b hb =>
      ⟨Schema.isWellFormed_iff.1 (each b hb).1, (each b hb).2.1, (each b hb).2.2⟩
    have symm : Schema.SymmetricOn (Separated settings path) (Schema.leaves branches) :=
      symmetricOn_separated testable
    have symm' : Schema.SymmetricOn (Separated settings path) (Schema.leaves branches') :=
      symm.mono other.perm_leaves.symm.subset
    rw [Bool.eq_iff_iff, ← not_iff_not, Bool.not_eq_true, Bool.not_eq_true, Option.isSome_eq_false_iff,
      Option.isSome_eq_false_iff, Option.isNone_iff_eq_none, Option.isNone_iff_eq_none,
      overlap?_eq_none_iff h, overlap?_eq_none_iff h']
    constructor
    · intro ⟨nested, cross⟩
      exact ⟨other.nestedApart symm nested, fun ex => other.crossApart symm (cross ex)⟩
    · intro ⟨nested, cross⟩
      exact ⟨other.symm.nestedApart symm' nested, fun ex => other.symm.crossApart symm' (cross ex)⟩

/-- An integer from 1 to 3 or a truth value, and beside them a number above 3. -/
def fewOrMany : List Schema :=
  [.oneOf [.scalar oneToThree, .scalar { kind := .boolean }],
    .scalar { kind := .number, minimum := some ⟨.ofInt 3, true⟩, maximum := some ⟨.ofInt 5, false⟩ }]

/-- The same the other way round, inside the union as well. -/
def manyOrFew : List Schema :=
  [.scalar { kind := .number, minimum := some ⟨.ofInt 3, true⟩, maximum := some ⟨.ofInt 5, false⟩ },
    .oneOf [.scalar { kind := .boolean }, .scalar oneToThree]]

theorem overlap?_isSome_comm_fewOrMany :
    (Schema.Reordered fewOrMany manyOrFew ∧
      ∀ b ∈ fewOrMany, b.isWellFormed = true ∧ b.Proper ∧ b.AllOfFree) ∧
    (Schema.oneOf fewOrMany).areDisjoint (.oneOf manyOrFew) =
      (Schema.oneOf manyOrFew).areDisjoint (.oneOf fewOrMany) ∧
    (leafOutcomes {} manyOrFew .root).isOk = true ∧
    ∀ outcomes outcomes', leafOutcomes {} fewOrMany .root = .ok outcomes →
      leafOutcomes {} manyOrFew .root = .ok outcomes' →
      (overlap? (Schema.leaves fewOrMany) ((sortLeaves 0 outcomes).1.map (·.position))
          (Schema.exclusivePairs true fewOrMany)).isSome =
        (overlap? (Schema.leaves manyOrFew) ((sortLeaves 0 outcomes').1.map (·.position))
          (Schema.exclusivePairs true manyOrFew)).isSome := by
  have other : Schema.Reordered fewOrMany manyOrFew :=
    .trans (.oneOf _ (.swap _ _ [])) (.swap _ _ [])
  have proper : (Schema.oneOf fewOrMany).Proper ∧ (Schema.oneOf manyOrFew).Proper := by
    simp [Schema.Proper, Schema.Every, Schema.parts, Schema.partsOfBranches, Schema.ProperPart,
      Scalar.Proper, fewOrMany, manyOrFew, oneToThree]
  have free : (Schema.oneOf fewOrMany).AllOfFree ∧ (Schema.oneOf manyOrFew).AllOfFree := by
    simp [Schema.AllOfFree, Schema.Every, Schema.parts, Schema.partsOfBranches, fewOrMany, manyOrFew]
  have sound : (Schema.oneOf fewOrMany).isWellFormed = true ∧
      (Schema.oneOf manyOrFew).isWellFormed = true := by decide +kernel
  have each : ∀ b ∈ fewOrMany, b.isWellFormed = true ∧ b.Proper ∧ b.AllOfFree := fun b hb =>
    ⟨Schema.isWellFormed_iff.2 ((Schema.isWellFormed_iff.1 sound.1).oneOf hb), proper.1.oneOf hb,
      free.1.oneOf hb⟩
  obtain ⟨symmetric, order⟩ := overlap?_isSome_comm
  obtain ⟨alike, found⟩ := order {} .root true fewOrMany manyOrFew other each
  have dropped : (leafOutcomes {} fewOrMany .root).isOk = true := isOk_leafOutcomes_iff.2 (Or.inl rfl)
  exact ⟨⟨other, each⟩, symmetric _ _ sound.1 proper.1 free.1 sound.2 proper.2 free.2,
    alike.symm.trans dropped, found⟩

end TypedPipeline
