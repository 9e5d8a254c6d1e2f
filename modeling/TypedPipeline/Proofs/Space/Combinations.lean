import Mathlib.Data.List.Lex
import TypedPipeline.Space.Grid
import TypedPipeline.Proofs.Keyed
import TypedPipeline.Proofs.Space.Dependence

/-!
# Proofs.Space.Combinations: the combinations of branches and their numbers

A combination chooses a branch for each selector that counts. This file fixes:

* the combinations (`Combines`), with the positions of the branches that they choose, the labels of
  these and the dimensions that count; the labels determine the rest (`Combines.ext`);
* the list of them, which has each (`mem_combinations`), in the order of the positions
  (`combinations_pairwise`);
* that the count of a space is the length of this list, cut off at the largest number
  (`productCount_eq`), and that the number of a grid is its index in it (`getElem?_combinations`);
* that a sample with the choices of a combination fills in the dimensions that count in it
  (`fillDimensions_of_chooses`), and that the samples of a grid have its choices
  (`Grid.find?_sampleWith`);
* **that numbers and combinations correspond** (`Space.gridAt_corresponds`).
-/

namespace TypedPipeline

/-- The plain dimension that a dimension is. -/
def Dimension.plain? : Dimension → Option PlainDimension
  | .plain name path domain => some ⟨name, path, domain⟩
  | .selector _ _ _ => none

/-- The labels of the branches of a dimension. -/
def Dimension.labels : Dimension → List String
  | .plain _ _ _ => []
  | .selector _ _ branches => branches.map (·.1)

/-! ## 1. Combinations -/

/-- One way to choose a branch for each selector that counts: the positions of these branches, the
    selectors with their labels, and all dimensions that count, each in order. -/
structure Combination where
  positions : List Nat
  selections : List (String × String)
  active : List Dimension

namespace Combination

instance : Append Combination :=
  ⟨fun a b => ⟨a.positions ++ b.positions, a.selections ++ b.selections, a.active ++ b.active⟩⟩

@[simp] theorem selections_append (a b : Combination) :
    (a ++ b).selections = a.selections ++ b.selections := rfl

@[simp] theorem active_append (a b : Combination) : (a ++ b).active = a.active ++ b.active := rfl

/-- The grid of a combination. -/
def grid (c : Combination) : Grid := ⟨c.selections, c.active.filterMap Dimension.plain?⟩

theorem grid_append (a b : Combination) : (a ++ b).grid = a.grid.append b.grid := by
  rw [grid, active_append, List.filterMap_append]
  rfl

end Combination

/-- The combinations of the dimensions: a plain one counts and chooses nothing; a selector chooses one
    of its branches, whose dimensions count with it. -/
inductive Combines : List Dimension → Combination → Prop where
  | nil : Combines [] ⟨[], [], []⟩
  | plain {name path domain rest c} : Combines rest c →
      Combines (.plain name path domain :: rest) (⟨[], [], [.plain name path domain]⟩ ++ c)
  | selector {name path branches rest position inner c} (chosen : Branch) :
      branches[position]? = some chosen → Combines chosen.2.2 inner → Combines rest c →
      Combines (.selector name path branches :: rest)
        (⟨[position], [(name, chosen.1)], [.selector name path branches]⟩ ++ inner ++ c)

/-- No selector, in any branch, has two branches of one label. -/
def DistinctLabels (ds : List Dimension) : Prop :=
  ∀ d ∈ Dimension.nestedList ds, d.labels.Nodup

@[simp] theorem distinctLabels_selector {name : String} {path : Path} {branches : List Branch}
    {rest : List Dimension} :
    DistinctLabels (.selector name path branches :: rest) ↔
      (branches.map (·.1)).Nodup ∧ (∀ b ∈ branches, DistinctLabels b.2.2) ∧ DistinctLabels rest := by
  have nested (bs : List Branch) : (∀ d ∈ Dimension.nestedBranches bs, d.labels.Nodup) ↔
      ∀ b ∈ bs, DistinctLabels b.2.2 := by
    induction bs with
    | nil => simp [Dimension.nestedBranches]
    | cons b bs ih =>
        rw [Dimension.nestedBranches, List.forall_mem_append, ih, List.forall_mem_cons]
        rfl
  rw [DistinctLabels, Dimension.nestedList, List.forall_mem_append, Dimension.withNested,
    List.forall_mem_cons, nested, and_assoc]
  rfl

@[simp] theorem distinctLabels_nil : DistinctLabels [] := fun d hd => by
  rw [Dimension.nestedList] at hd
  cases hd

@[simp] theorem distinctLabels_plain {name : String} {path : Path} {domain : Domain}
    {rest : List Dimension} :
    DistinctLabels (.plain name path domain :: rest) ↔ DistinctLabels rest := by
  rw [DistinctLabels, Dimension.nestedList, List.forall_mem_append, Dimension.withNested,
    List.forall_mem_singleton]
  exact and_iff_right List.nodup_nil

/-- **A combination is determined by the labels that it chooses**, also with something after them. -/
theorem Combines.ext {ds : List Dimension} {a b : Combination} (ha : Combines ds a)
    (hb : Combines ds b) (distinct : DistinctLabels ds) {xs ys : List (String × String)}
    (e : a.selections ++ xs = b.selections ++ ys) : a = b ∧ xs = ys := by
  induction ha generalizing b xs ys with
  | nil => cases hb; exact ⟨rfl, e⟩
  | plain _ ih =>
      cases hb with
      | plain hb =>
          obtain ⟨rfl, rest⟩ := ih hb (distinctLabels_plain.1 distinct) e
          exact ⟨rfl, rest⟩
  | @selector name path branches rest position inner c chosen at' _ _ ihi ih =>
      cases hb with
      | @selector _ _ _ _ position' inner' c' chosen' at'' hi hb =>
          obtain ⟨labels, inside, later⟩ := distinctLabels_selector.1 distinct
          simp only [Combination.selections_append, List.cons_append, List.nil_append,
            List.append_assoc, List.cons.injEq, Prod.mk.injEq, true_and] at e
          obtain ⟨label, e⟩ := e
          -- the labels are distinct, so the one chosen tells the branch
          have same : position = position' := by
            refine (List.getElem?_inj (by simpa using (List.getElem?_eq_some_iff.1 at').1) labels).1 ?_
            rw [List.getElem?_map, List.getElem?_map, at', at'']
            exact congrArg some label
          subst same
          obtain rfl : chosen = chosen' := Option.some.inj (at'.symm.trans at'')
          obtain ⟨rfl, after⟩ := ihi hi (inside _ (List.mem_of_getElem? at')) e
          obtain ⟨rfl, rest⟩ := ih hb later after
          exact ⟨rfl, rest⟩

/-! ## 2. The list of combinations -/

mutual

/-- All combinations, earlier selectors varying slowest. -/
def combinations : List Dimension → List Combination
  | [] => [⟨[], [], []⟩]
  | .plain name path domain :: rest =>
    (combinations rest).map (⟨[], [], [.plain name path domain]⟩ ++ ·)
  | .selector name path branches :: rest =>
    (branchCombinations name (.selector name path branches) 0 branches).flatMap fun a =>
      (combinations rest).map (a ++ ·)

/-- All combinations of a selector by itself: those of one branch after the other, from the branch at
    a position on. -/
def branchCombinations (name : String) (selector : Dimension) :
    (position : Nat) → List (String × Frame × List Dimension) → List Combination
  | _, [] => []
  | position, (label, _, dimensions) :: rest =>
    (combinations dimensions).map (⟨[position], [(name, label)], [selector]⟩ ++ ·) ++
      branchCombinations name selector (position + 1) rest

end

mutual

/-- The number of combinations, however large. -/
def combinationCount : List Dimension → Nat
  | [] => 1
  | .plain _ _ _ :: rest => combinationCount rest
  | .selector _ _ branches :: rest => branchCount branches * combinationCount rest
termination_by ds => sizeOf ds

/-- The number of combinations in all branches together, however large. -/
def branchCount : List (String × Frame × List Dimension) → Nat
  | [] => 0
  | (_, _, dimensions) :: rest => combinationCount dimensions + branchCount rest
termination_by branches => sizeOf branches

end

mutual

theorem length_combinations (ds : List Dimension) :
    (combinations ds).length = combinationCount ds := by
  cases ds with
  | nil => simp [combinations, combinationCount]
  | cons d rest =>
      cases d with
      | plain name path domain =>
          rw [combinations, List.length_map, combinationCount, length_combinations rest]
      | selector name path branches =>
          rw [combinations, Grid.length_flatMap_of_length (fun a => List.length_map _),
            combinationCount, length_combinations rest, length_branchCombinations _ _ branches]

theorem length_branchCombinations (name : String) (selector : Dimension)
    (branches : List (String × Frame × List Dimension)) (position : Nat) :
    (branchCombinations name selector position branches).length = branchCount branches := by
  match branches with
  | [] => simp [branchCombinations, branchCount]
  | (label, frame, dimensions) :: rest =>
      rw [branchCombinations, List.length_append, List.length_map, branchCount,
        length_combinations dimensions, length_branchCombinations name selector rest]

end

/-! ### Every combination is in it -/

theorem mem_branchCombinations_of_mem {name : String} {selector : Dimension}
    {branches : List Branch} {start position : Nat} {chosen : Branch} {inner : Combination}
    (h : branches[position]? = some chosen) (hi : inner ∈ combinations chosen.2.2) :
    ⟨[start + position], [(name, chosen.1)], [selector]⟩ ++ inner ∈
      branchCombinations name selector start branches := by
  induction branches generalizing start position with
  | nil => cases h
  | cons b rest ih =>
      rw [branchCombinations, List.mem_append]
      cases position with
      | zero =>
          obtain rfl : b = chosen := Option.some.inj h
          exact .inl (List.mem_map.2 ⟨inner, hi, rfl⟩)
      | succ position =>
          have := @ih (start + 1) position h
          rw [Nat.add_right_comm] at this
          exact .inr this

theorem Combines.mem_combinations {ds : List Dimension} {c : Combination} (h : Combines ds c) :
    c ∈ combinations ds := by
  induction h with
  | nil => rw [combinations]; exact List.mem_singleton_self _
  | plain _ ih => rw [combinations]; exact List.mem_map.2 ⟨_, ih, rfl⟩
  | @selector name path branches rest position inner c chosen at' _ _ ihi ih =>
      rw [combinations, List.mem_flatMap]
      refine ⟨_, ?_, List.mem_map.2 ⟨c, ih, rfl⟩⟩
      have := @mem_branchCombinations_of_mem name (.selector name path branches) _ 0 _ _ _ at' ihi
      rwa [Nat.zero_add] at this

mutual

theorem combines_of_mem (ds : List Dimension) {c : Combination} (h : c ∈ combinations ds) :
    Combines ds c := by
  cases ds with
  | nil =>
      rw [combinations, List.mem_singleton] at h
      exact h ▸ .nil
  | cons d rest =>
      cases d with
      | plain name path domain =>
          rw [combinations, List.mem_map] at h
          obtain ⟨c, hc, rfl⟩ := h
          exact .plain (combines_of_mem rest hc)
      | selector name path branches =>
          rw [combinations, List.mem_flatMap] at h
          obtain ⟨a, ha, h⟩ := h
          obtain ⟨c, hc, rfl⟩ := List.mem_map.1 h
          obtain ⟨position, chosen, inner, at', hi, rfl⟩ := exists_of_mem_branches branches ha
          rw [Nat.zero_add]
          exact .selector chosen at' hi (combines_of_mem rest hc)

theorem exists_of_mem_branches {name : String} {selector : Dimension}
    (branches : List (String × Frame × List Dimension)) {start : Nat} {a : Combination}
    (h : a ∈ branchCombinations name selector start branches) :
    ∃ (position : Nat) (chosen : Branch) (inner : Combination),
      branches[position]? = some chosen ∧ Combines chosen.2.2 inner ∧
        a = ⟨[start + position], [(name, chosen.1)], [selector]⟩ ++ inner := by
  match branches with
  | [] => rw [branchCombinations] at h; cases h
  | (label, frame, dimensions) :: rest =>
      rw [branchCombinations, List.mem_append] at h
      rcases h with h | h
      · obtain ⟨inner, hi, rfl⟩ := List.mem_map.1 h
        exact ⟨0, (label, frame, dimensions), inner, rfl, combines_of_mem dimensions hi, rfl⟩
      · obtain ⟨position, chosen, inner, at', hi, rfl⟩ := exists_of_mem_branches rest h
        exact ⟨position + 1, chosen, inner, at', hi, by rw [Nat.add_right_comm]; rfl⟩

end

theorem mem_combinations {ds : List Dimension} {c : Combination} :
    c ∈ combinations ds ↔ Combines ds c :=
  ⟨combines_of_mem ds, Combines.mem_combinations⟩

/-! ### They are in order -/

/-- Two lists of positions differ, and the first of them is lower where they first do. -/
def Before (a b : List Nat) : Prop :=
  ∃ (common : List Nat) (x y : Nat) (u v : List Nat),
    a = common ++ x :: u ∧ b = common ++ y :: v ∧ x < y

theorem Before.append_left {a b : List Nat} (h : Before a b) (p : List Nat) :
    Before (p ++ a) (p ++ b) := by
  obtain ⟨common, x, y, u, v, rfl, rfl, lt⟩ := h
  exact ⟨p ++ common, x, y, u, v, by simp, by simp, lt⟩

theorem Before.append_right {a b : List Nat} (h : Before a b) (s t : List Nat) :
    Before (a ++ s) (b ++ t) := by
  obtain ⟨common, x, y, u, v, rfl, rfl, lt⟩ := h
  exact ⟨common, x, y, u ++ s, v ++ t, by simp, by simp, lt⟩

theorem Before.lt {a b : List Nat} (h : Before a b) : a < b := by
  obtain ⟨common, x, y, u, v, rfl, rfl, lt⟩ := h
  exact List.Lex.append_left _ (.rel lt) common

/-- What comes from the branches from a position on has none before it. -/
theorem position_of_mem_branches {name : String} {selector : Dimension} {branches : List Branch}
    {start : Nat} {a : Combination} (h : a ∈ branchCombinations name selector start branches) :
    ∃ position rest, start ≤ position ∧ a.positions = position :: rest := by
  obtain ⟨position, chosen, inner, -, -, rfl⟩ := exists_of_mem_branches branches h
  exact ⟨start + position, inner.positions, Nat.le_add_right .., rfl⟩

mutual

/-- **The list is in the order of the positions.** -/
theorem combinations_pairwise (ds : List Dimension) :
    (combinations ds).Pairwise fun a b => Before a.positions b.positions := by
  cases ds with
  | nil => rw [combinations]; exact List.pairwise_singleton ..
  | cons d rest =>
      cases d with
      | plain name path domain =>
          rw [combinations, List.pairwise_map]
          exact combinations_pairwise rest
      | selector name path branches =>
          rw [combinations, List.pairwise_flatMap]
          refine ⟨fun a _ => List.pairwise_map.2 ?_, ?_⟩
          · exact (combinations_pairwise rest).imp fun h => h.append_left a.positions
          · refine (branches_pairwise name _ branches 0).imp fun h x hx y hy => ?_
            obtain ⟨c, -, rfl⟩ := List.mem_map.1 hx
            obtain ⟨c', -, rfl⟩ := List.mem_map.1 hy
            exact h.append_right c.positions c'.positions

theorem branches_pairwise (name : String) (selector : Dimension)
    (branches : List (String × Frame × List Dimension)) (start : Nat) :
    (branchCombinations name selector start branches).Pairwise
      fun a b => Before a.positions b.positions := by
  match branches with
  | [] => rw [branchCombinations]; exact .nil
  | (label, frame, dimensions) :: rest =>
      rw [branchCombinations, List.pairwise_append]
      refine ⟨List.pairwise_map.2 ?_, branches_pairwise name selector rest _, fun a ha b hb => ?_⟩
      · exact (combinations_pairwise dimensions).imp fun h => h.append_left [start]
      · obtain ⟨inner, -, rfl⟩ := List.mem_map.1 ha
        obtain ⟨position, later, lt, e⟩ := position_of_mem_branches hb
        exact ⟨[], start, position, inner.positions, later, rfl, e, lt⟩

end

/-! ## 3. Numbers -/

theorem addCount_min (a b : Nat) :
    addCount (min a maxCount) (min b maxCount) = min (a + b) maxCount := by
  show min _ _ = _
  omega

theorem mulCount_min (a b : Nat) :
    mulCount (min a maxCount) (min b maxCount) = min (a * b) maxCount := by
  show min _ _ = _
  rcases Nat.eq_zero_or_pos a with rfl | ha
  · simp
  rcases Nat.eq_zero_or_pos b with rfl | hb
  · simp
  have left : ∀ {n}, n ≤ a * n := Nat.le_mul_of_pos_left _ ha
  rcases Nat.le_total a maxCount with la | la
  · rcases Nat.le_total b maxCount with lb | lb
    · rw [Nat.min_eq_left la, Nat.min_eq_left lb]
    · rw [Nat.min_eq_left la, Nat.min_eq_right lb, Nat.min_eq_right left,
        Nat.min_eq_right (lb.trans left)]
  · have pos : 0 < min b maxCount := Nat.lt_min.2 ⟨hb, by decide⟩
    rw [Nat.min_eq_right la, Nat.min_eq_right (Nat.le_mul_of_pos_right _ pos),
      Nat.min_eq_right (la.trans (Nat.le_mul_of_pos_right _ hb))]

mutual

/-- **The count of a list of dimensions is that of its combinations, cut off.** -/
theorem productCount_eq (ds : List Dimension) :
    Dimension.productCount ds = min (combinationCount ds) maxCount := by
  cases ds with
  | nil => rw [Dimension.productCount, combinationCount]; decide
  | cons d rest =>
      cases d with
      | plain name path domain =>
          rw [Dimension.productCount, Dimension.choiceCount, productCount_eq rest, combinationCount]
          exact (mulCount_min 1 _).trans (by rw [Nat.one_mul])
      | selector name path branches =>
          rw [Dimension.productCount, Dimension.choiceCount, productCount_eq rest,
            sumCounts_eq branches, mulCount_min, combinationCount]
termination_by sizeOf ds

theorem sumCounts_eq (branches : List (String × Frame × List Dimension)) :
    Dimension.sumCounts branches = min (branchCount branches) maxCount := by
  match branches with
  | [] => rw [Dimension.sumCounts, branchCount]; decide
  | (label, frame, dimensions) :: rest =>
      rw [Dimension.sumCounts, productCount_eq dimensions, sumCounts_eq rest, addCount_min,
        branchCount]
termination_by sizeOf branches

end

/-- What is at an index of a product, later factors varying fastest. -/
theorem getElem?_product {α β γ : Type} (f : α → β → γ) {ys : List β} (pos : 0 < ys.length)
    (xs : List α) (i : Nat) :
    (xs.flatMap fun x => ys.map (f x))[i]? =
      xs[i / ys.length]?.bind fun x => ys[i % ys.length]?.map (f x) := by
  induction xs generalizing i with
  | nil => simp
  | cons x rest ih =>
      rw [List.flatMap_cons]
      rcases Nat.lt_or_ge i ys.length with lt | ge
      · rw [List.getElem?_append_left (by simpa using lt), Nat.div_eq_of_lt lt, Nat.mod_eq_of_lt lt,
          List.getElem?_map]
        rfl
      · rw [List.getElem?_append_right (by simpa using ge), List.length_map, ih,
          ← Nat.mod_eq_sub_mod ge, Nat.div_eq_sub_div pos ge, List.getElem?_cons_succ]

/-- Below the largest number, a stride that is cut off divides as the full one. -/
theorem div_mod_min {i n : Nat} (h : i < maxCount) :
    i / min n maxCount = i / n ∧ i % min n maxCount = i % n := by
  rcases Nat.le_total n maxCount with le | le
  · rw [Nat.min_eq_left le]
    exact ⟨rfl, rfl⟩
  · have lt : i < n := Nat.lt_of_lt_of_le h le
    rw [Nat.min_eq_right le, Nat.div_eq_of_lt h, Nat.div_eq_of_lt lt, Nat.mod_eq_of_lt h,
      Nat.mod_eq_of_lt lt]
    exact ⟨rfl, rfl⟩

/-- What goes before each combination goes before the grid of each. -/
theorem map_grid_append {cs : List Combination} {i : Nat} {g : Grid}
    (h : cs[i]?.map Combination.grid = some g) (lead : Combination) :
    (cs.map (lead ++ ·))[i]?.map Combination.grid = some (lead.grid.append g) := by
  obtain ⟨c, hc, rfl⟩ := Option.map_eq_some_iff.1 h
  rw [List.getElem?_map, hc]
  exact congrArg some (Combination.grid_append lead c)

mutual

/-- **The number of a grid is the index of its combination.** -/
theorem getElem?_combinations (ds : List Dimension) {i : Nat} (lt : i < combinationCount ds)
    (small : i < maxCount) :
    (combinations ds)[i]?.map Combination.grid = some (Space.decodeDimensions ds i) := by
  cases ds with
  | nil =>
      rw [combinationCount, Nat.lt_one_iff] at lt
      subst lt
      rw [combinations, Space.decodeDimensions]
      rfl
  | cons d rest =>
      cases d with
      | plain name path domain =>
          rw [combinationCount] at lt
          rw [combinations, Space.decodeDimensions]
          exact map_grid_append (getElem?_combinations rest lt small) _
      | selector name path branches =>
          rw [combinationCount] at lt
          have pos : 0 < combinationCount rest := by
            rcases Nat.eq_zero_or_pos (combinationCount rest) with z | pos
            · rw [z, Nat.mul_zero] at lt; cases lt
            · exact pos
          -- the digit is an index among the selector's own combinations, the remainder among the rest
          have digit : i / combinationCount rest < branchCount branches :=
            Nat.div_lt_of_lt_mul (by rwa [Nat.mul_comm])
          obtain ⟨a, ha, ea⟩ := Option.map_eq_some_iff.1 <|
            getElem?_branchCombinations name (.selector name path branches) rfl branches 0 digit
              (Nat.lt_of_le_of_lt (Nat.div_le_self ..) small)
          obtain ⟨c, hc, ec⟩ := Option.map_eq_some_iff.1 <|
            getElem?_combinations rest (Nat.mod_lt i pos) (Nat.lt_of_le_of_lt (Nat.mod_le ..) small)
          obtain ⟨div, mod⟩ := @div_mod_min i (combinationCount rest) small
          rw [combinations, getElem?_product _ (by rwa [length_combinations]), length_combinations,
            ha, hc, Space.decodeDimensions, productCount_eq, div, mod, ← ea, ← ec]
          exact congrArg some (Combination.grid_append a c)

theorem getElem?_branchCombinations (name : String) (selector : Dimension)
    (chooses : selector.plain? = none) (branches : List (String × Frame × List Dimension))
    {i : Nat} (position : Nat) (lt : i < branchCount branches) (small : i < maxCount) :
    (branchCombinations name selector position branches)[i]?.map Combination.grid =
      some (Space.decodeBranch name branches i) := by
  have lead (label : String) : Combination.grid ⟨[position], [(name, label)], [selector]⟩ =
      ⟨[(name, label)], []⟩ := by
    simp [Combination.grid, chooses]
  match branches with
  | [] => rw [branchCount] at lt; cases lt
  | [(label, frame, dimensions)] =>
      rw [branchCount, branchCount, Nat.add_zero] at lt
      rw [branchCombinations, Space.decodeBranch, List.getElem?_append_left
        (by rwa [List.length_map, length_combinations]), ← lead]
      exact map_grid_append (getElem?_combinations dimensions lt small) _
  | (label, frame, dimensions) :: next :: rest =>
      rw [branchCount] at lt
      rw [branchCombinations, Space.decodeBranch, productCount_eq]
      by_cases here : i < combinationCount dimensions
      · rw [if_pos (Nat.lt_min.2 ⟨here, small⟩), List.getElem?_append_left
          (by rwa [List.length_map, length_combinations]), ← lead]
        exact map_grid_append (getElem?_combinations dimensions here small) _
      · -- a branch that is passed over has fewer combinations than the number, so none are cut off
        have le : combinationCount dimensions ≤ i := Nat.le_of_not_lt here
        have whole : min (combinationCount dimensions) maxCount = combinationCount dimensions :=
          Nat.min_eq_left (le.trans small.le)
        rw [whole, if_neg here,
          List.getElem?_append_right (by simpa [length_combinations] using le), List.length_map,
          length_combinations]
        exact getElem?_branchCombinations name selector chooses (next :: rest) (position + 1)
          (by omega) (Nat.lt_of_le_of_lt (Nat.sub_le ..) small)

end

/-! ## 4. Samples with the choices of a combination -/

/-- The sample gives each of the selectors the label chosen. -/
def Chooses (sample : Sample) (selections : List (String × String)) : Prop :=
  ∀ p ∈ selections, sample.find? p.1 = some (.text p.2)

namespace Space

variable {sample : Sample}

theorem activeInBranch_of_branch? {name label : String} {path : Path} {branches : List Branch}
    {b : Branch} (h : (Dimension.selector name path branches).branch? label = some b) :
    activeInBranch sample (some label) branches = activeUnder sample b.2.2 := by
  rw [Dimension.branch?] at h
  induction branches with
  | nil => cases h
  | cons first rest ih =>
      rw [List.find?_cons] at h
      rw [activeInBranch]
      by_cases here : first.1 = label
      · rw [beq_iff_eq.2 here] at h
        rw [if_pos (congrArg some here.symm), Option.some.inj h]
      · rw [beq_false_of_ne here] at h
        rw [if_neg fun e => here (Option.some.inj e).symm]
        exact ih h

/-- **Under a sample with the choices of a combination, what counts is what counts in that, and a
    filling succeeds.** -/
theorem fillDimensions_of_chooses {ds : List Dimension} {c : Combination} (h : Combines ds c)
    (distinct : DistinctLabels ds) (chooses : Chooses sample c.selections) :
    activeUnder sample ds = c.active ∧
      ∀ space f, ∃ f', fillDimensions space sample ds f = .ok f' := by
  induction h with
  | nil => exact ⟨by rw [activeUnder], fun space f => ⟨f, by rw [fillDimensions]⟩⟩
  | @plain name path domain rest c _ ih =>
      obtain ⟨active, fills⟩ := ih (distinctLabels_plain.1 distinct) chooses
      refine ⟨by rw [activeUnder, active]; rfl, fun space f => ?_⟩
      rw [fillDimensions]
      cases sample.find? name with
      | none => exact fills space f
      | some setting => exact fills space _
  | @selector name path branches rest position inner c chosen at' _ _ ihi ih =>
      obtain ⟨labels, inside, later⟩ := distinctLabels_selector.1 distinct
      have mem : chosen ∈ branches := List.mem_of_getElem? at'
      obtain ⟨both, outer⟩ := List.forall_mem_append.1 chooses
      obtain ⟨here, within⟩ := List.forall_mem_cons.1 both
      have here : sample.find? name = some (.text chosen.1) := here
      have found : (Dimension.selector name path branches).branch? chosen.1 = some chosen :=
        branch?_of_mem labels mem
      obtain ⟨activei, fillsi⟩ := ihi (inside chosen mem) within
      obtain ⟨active, fills⟩ := ih later outer
      refine ⟨?_, fun space f => ?_⟩
      · rw [activeUnder, here, Option.bind_some, Setting.asText?, activeInBranch_of_branch? found,
          activei, active]
        rfl
      · obtain ⟨f', entered⟩ := fillsi chosen.2.1.name (f.enter name path chosen.2.1.skeleton)
        rw [fillDimensions, here]
        dsimp only [Setting.asText?]
        rw [fillBranch_eq found, entered]
        exact fills space f'

end Space

/-- What a combination chooses and lists counts together. -/
theorem Combines.activates {ds : List Dimension} {c : Combination} (h : Combines ds c)
    (distinct : DistinctLabels ds) : Activates ds c.active := by
  induction h with
  | nil => exact .nil
  | plain _ ih => exact .plain (ih (distinctLabels_plain.1 distinct))
  | @selector name path branches rest position inner c chosen at' _ _ ihi ih =>
      obtain ⟨labels, inside, later⟩ := distinctLabels_selector.1 distinct
      have mem : chosen ∈ branches := List.mem_of_getElem? at'
      exact .selector chosen (branch?_of_mem labels mem) (ihi (inside chosen mem)) (ih later)

/-- The names of its grid are those of the dimensions that count. -/
theorem Combines.perm_names {ds : List Dimension} {c : Combination} (h : Combines ds c) :
    (c.grid.selections.map (·.1) ++ c.grid.plain.map (·.name)).Perm (c.active.map Dimension.name) := by
  induction h with
  | nil => exact .nil
  | plain _ ih => exact List.perm_middle.trans (ih.cons _)
  | selector chosen _ _ _ ihi ih =>
      refine List.perm_iff_count.2 fun n => ?_
      have inner := ihi.count_eq n
      have outer := ih.count_eq n
      simp only [Combination.grid, List.count_append] at inner outer
      simp only [Combination.grid, Combination.selections_append, Combination.active_append,
        List.filterMap_append, List.filterMap_cons, List.filterMap_nil, Dimension.plain?,
        List.map_append, List.map_cons, List.map_nil, Dimension.name, List.count_append,
        List.count_nil]
      omega

/-- The sample of a grid, with settings for its plain dimensions in turn. -/
def Grid.sampleWith (g : Grid) (settings : List Setting) : Sample :=
  Keyed.ofList (g.selections.map (fun p => (p.1, .text p.2)) ++
    (g.plain.zip settings).map fun e => (e.1.name, e.2))

/-- If no two names of a grid are equal, its sample has every choice and every setting. -/
theorem Grid.find?_sampleWith {g : Grid}
    (distinct : (g.selections.map (·.1) ++ g.plain.map (·.name)).Nodup) (settings : List Setting) :
    Chooses (g.sampleWith settings) g.selections ∧
      ∀ e ∈ g.plain.zip settings, (g.sampleWith settings).find? e.1.name = some e.2 := by
  have first : ((g.plain.zip settings).map (·.1)).Sublist g.plain := by
    rw [List.zip_eq_zip_take_min, List.map_fst_zip (by simp)]
    exact List.take_sublist ..
  have once : (Keyed.names (g.selections.map (fun p => (p.1, Setting.text p.2)) ++
      (g.plain.zip settings).map fun e => (e.1.name, e.2))).Nodup := by
    refine distinct.sublist ?_
    rw [Keyed.names, List.map_append, List.map_map, List.map_map]
    refine .append (.refl _) ?_
    have := first.map (·.name)
    rwa [List.map_map] at this
  have found {e : String × Setting} (he : e ∈ g.selections.map (fun p => (p.1, Setting.text p.2)) ++
      (g.plain.zip settings).map fun e => (e.1.name, e.2)) :
      (g.sampleWith settings).find? e.1 = some e.2 :=
    (Keyed.find?_ofList once).trans (Keyed.find?_of_mem once he)
  exact ⟨fun p hp => found (List.mem_append_left _ (List.mem_map_of_mem hp)),
    fun e he => found (List.mem_append_right _ (List.mem_map_of_mem he))⟩

/-! ## 5. The correspondence -/

namespace Space

variable {space : Space}

/-- The grid of a number is that of the combination with this index. -/
theorem exists_combination {i : Nat} (h : i < space.gridCount) :
    ∃ c, (combinations space.dimensions)[i]? = some c ∧ Combines space.dimensions c ∧
      space.gridAt i = c.grid := by
  rw [gridCount, productCount_eq] at h
  obtain ⟨lt, small⟩ := Nat.lt_min.1 h
  obtain ⟨c, at', e⟩ := Option.map_eq_some_iff.1 (getElem?_combinations space.dimensions lt small)
  exact ⟨c, at', mem_combinations.1 (List.mem_of_getElem? at'), e.symm⟩

/-- The combination with an index is the only one with the labels of the grid of this number. -/
theorem getElem?_of_selections {i : Nat} (h : i < space.gridCount) {c : Combination}
    (hc : Combines space.dimensions c) (distinct : DistinctLabels space.dimensions)
    (e : (space.gridAt i).selections = c.selections) :
    (combinations space.dimensions)[i]? = some c := by
  obtain ⟨b, at', hb, grid⟩ := exists_combination h
  have same : b.selections = c.selections := (congrArg Grid.selections grid).symm.trans e
  obtain ⟨rfl, -⟩ := hb.ext hc distinct (congrArg (· ++ []) same)
  exact at'

/-- The combinations at two indices are in the order of these. -/
theorem before_of_lt {i j : Nat} {a b : Combination}
    (ha : (combinations space.dimensions)[i]? = some a)
    (hb : (combinations space.dimensions)[j]? = some b) (lt : i < j) :
    Before a.positions b.positions := by
  obtain ⟨hi, rfl⟩ := List.getElem?_eq_some_iff.1 ha
  obtain ⟨hj, rfl⟩ := List.getElem?_eq_some_iff.1 hb
  exact List.pairwise_iff_getElem.1 (combinations_pairwise _) i j hi hj lt

/-- Grids with the same choices have the same number. -/
theorem gridAt_inj (distinct : DistinctLabels space.dimensions) {i j : Nat}
    (hi : i < space.gridCount) (hj : j < space.gridCount)
    (e : (space.gridAt i).selections = (space.gridAt j).selections) : i = j := by
  obtain ⟨c, at', hc, grid⟩ := exists_combination hj
  have at'' := getElem?_of_selections hi hc distinct (e.trans (congrArg Grid.selections grid))
  rcases Nat.lt_trichotomy i j with lt | eq | gt
  · exact absurd (before_of_lt at'' at' lt).lt (List.lt_irrefl _)
  · exact eq
  · exact absurd (before_of_lt at' at'' gt).lt (List.lt_irrefl _)

/-- Where nothing is cut off, every combination has a number. -/
theorem exists_number (full : combinationCount space.dimensions ≤ maxCount) {c : Combination}
    (hc : Combines space.dimensions c) : ∃ i, i < space.gridCount ∧ space.gridAt i = c.grid := by
  obtain ⟨i, lt, rfl⟩ := List.mem_iff_getElem.1 hc.mem_combinations
  have inside : i < space.gridCount := by
    rw [gridCount, productCount_eq, Nat.min_eq_left full, ← length_combinations]
    exact lt
  obtain ⟨c, at', -, grid⟩ := exists_combination inside
  obtain ⟨_, rfl⟩ := List.getElem?_eq_some_iff.1 at'
  exact ⟨i, inside, grid⟩

/-- **Numbers and combinations correspond, whatever the space, if no selector has two branches of one
    label.** Each number below the count, which is that of the combinations cut off at the largest
    number, has the grid of a combination, and no two have the same choices; the positions of the
    branches grow with the numbers. Where nothing is cut off, each combination has one number. Under a
    sample with the choices of a grid its plain dimensions are those that count, and a filling visits
    what counts; if no two dimensions that count together share a name, the samples of a grid have
    its choices and the settings that are given. -/
theorem gridAt_corresponds (space : Space) (distinct : DistinctLabels space.dimensions) :
    space.gridCount = min (combinationCount space.dimensions) maxCount ∧
    (∀ i < space.gridCount, ∃ c, Combines space.dimensions c ∧ space.gridAt i = c.grid) ∧
    (∀ i j, i < space.gridCount → j < space.gridCount →
      (space.gridAt i).selections = (space.gridAt j).selections → i = j) ∧
    (∀ i j a b, i < j → j < space.gridCount →
      Combines space.dimensions a → space.gridAt i = a.grid →
      Combines space.dimensions b → space.gridAt j = b.grid → a.positions < b.positions) ∧
    (combinationCount space.dimensions ≤ maxCount → ∀ c, Combines space.dimensions c →
      ∃! i, i < space.gridCount ∧ space.gridAt i = c.grid) ∧
    (∀ i < space.gridCount, ∀ sample : Sample, Chooses sample (space.gridAt i).selections →
      (activeUnder sample space.dimensions).filterMap Dimension.plain? = (space.gridAt i).plain ∧
      ∀ name f, fillDimensions name sample space.dimensions f =
        .ok ((activeUnder sample space.dimensions).foldl (Filling.visit sample) f)) ∧
    ((∀ active, Activates space.dimensions active → (active.map Dimension.name).Nodup) →
      ∀ i < space.gridCount, ∀ settings,
        Chooses ((space.gridAt i).sampleWith settings) (space.gridAt i).selections ∧
        ∀ e ∈ (space.gridAt i).plain.zip settings,
          ((space.gridAt i).sampleWith settings).find? e.1.name = some e.2) := by
  refine ⟨productCount_eq _, fun i hi => ?_, fun i j => gridAt_inj distinct, ?_, ?_, ?_, ?_⟩
  · obtain ⟨c, -, found⟩ := exists_combination hi
    exact ⟨c, found⟩
  · intro i j a b lt hj ha ea hb eb
    exact (before_of_lt
      (getElem?_of_selections (Nat.lt_trans lt hj) ha distinct (congrArg Grid.selections ea))
      (getElem?_of_selections hj hb distinct (congrArg Grid.selections eb)) lt).lt
  · intro full c hc
    obtain ⟨i, hi, e⟩ := exists_number full hc
    exact ⟨i, ⟨hi, e⟩, fun j ⟨hj, e'⟩ =>
      gridAt_inj distinct hj hi (congrArg Grid.selections (e'.trans e.symm))⟩
  · intro i hi sample chooses
    obtain ⟨c, -, hc, e⟩ := exists_combination hi
    rw [e] at chooses
    obtain ⟨active, fills⟩ := fillDimensions_of_chooses hc distinct chooses
    refine ⟨by rw [active, e]; rfl, fun name f => ?_⟩
    obtain ⟨f', filled⟩ := fills name f
    rw [filled, fillDimensions_eq_foldl _ filled]
  · intro names i hi settings
    obtain ⟨c, -, hc, e⟩ := exists_combination hi
    rw [e]
    have once := hc.perm_names.nodup_iff.2 (names _ (hc.activates distinct))
    exact Grid.find?_sampleWith once settings

/-- A linear model, or a tree whose depth may be bounded. -/
def learners : Space :=
  ⟨⟨"learners", none, .any, .any⟩,
    [.selector "model" []
      [("linear", ⟨"linear", none, .any, .any⟩, [.plain "penalty" [.property "penalty"] .boolean]),
        ("tree", ⟨"tree", none, .any, .any⟩,
          [.selector "depth" [.property "depth"]
            [("any", ⟨"any", none, .any, .any⟩, []),
              ("bounded", ⟨"bounded", none, .any, .any⟩,
                [.plain "limit" [.property "limit"] (.int 1 3 false)])]])],
      .plain "seed" [.property "seed"] .boolean]⟩

theorem nodup_learners {active : List Dimension} (h : Activates learners.dimensions active) :
    (active.map Dimension.name).Nodup := by
  cases h with
  | selector chosen found inner last =>
      cases last with
      | plain none' =>
          obtain rfl := activates_nil none'
          have mem := List.mem_of_find?_eq_some found
          simp only [List.mem_cons, List.not_mem_nil, or_false] at mem
          rcases mem with rfl | rfl
          · cases inner with
            | plain none' => obtain rfl := activates_nil none'; decide
          · cases inner with
            | selector chosen found inner none' =>
                obtain rfl := activates_nil none'
                have mem := List.mem_of_find?_eq_some found
                simp only [List.mem_cons, List.not_mem_nil, or_false] at mem
                rcases mem with rfl | rfl
                · obtain rfl := activates_nil inner; decide
                · cases inner with
                  | plain none' => obtain rfl := activates_nil none'; decide

theorem gridAt_learners :
    learners.gridCount = 3 ∧
    learners.gridAt 0 = ⟨[("model", "linear")],
      [⟨"penalty", [.property "penalty"], .boolean⟩, ⟨"seed", [.property "seed"], .boolean⟩]⟩ ∧
    learners.gridAt 1 = ⟨[("model", "tree"), ("depth", "any")],
      [⟨"seed", [.property "seed"], .boolean⟩]⟩ := by
  refine ⟨by decide, ?_, ?_⟩ <;>
    simp [gridAt, learners, decodeDimensions, decodeBranch, productCount_eq, combinationCount,
      maxCount, Grid.append, Grid.empty]

/-- Three numbers for the three learners: the tree of any depth is the second. -/
theorem gridAt_corresponds_learners :
    DistinctLabels learners.dimensions ∧ learners.gridCount = 3 ∧
    (∀ i j, i < 3 → j < 3 → (learners.gridAt i).selections = (learners.gridAt j).selections → i = j) ∧
    (∀ c, Combines learners.dimensions c → ∃! i, i < 3 ∧ learners.gridAt i = c.grid) ∧
    learners.gridAt 1 = ⟨[("model", "tree"), ("depth", "any")],
      [⟨"seed", [.property "seed"], .boolean⟩]⟩ ∧
    (activeUnder ((learners.gridAt 1).sampleWith [.bool true]) learners.dimensions).filterMap
      Dimension.plain? = (learners.gridAt 1).plain := by
  have distinct : DistinctLabels learners.dimensions := by simp [learners]
  obtain ⟨three, -, second⟩ := gridAt_learners
  obtain ⟨-, -, inj, -, unique, plain, given⟩ := gridAt_corresponds learners distinct
  rw [three] at inj unique plain given
  have whole : combinationCount learners.dimensions ≤ maxCount := by
    simp [learners, combinationCount, branchCount, maxCount]
  exact ⟨distinct, three, inj, unique whole, second,
    (plain 1 (by decide) _ (given (fun _ => nodup_learners) 1 (by decide) [.bool true]).1).1⟩

end Space

end TypedPipeline
