import TypedPipeline.Proofs.Schema.Disjointness
import TypedPipeline.Proofs.Space.Compilation

/-!
# Proofs.Space.Unions: from a leaf to the union

A union is compiled leaf by leaf, and the leaves are counted through all unions directly inside. A
value made for one leaf is meant for the union. This file fixes:

* where the leaves of one branch stand (`exists_leaf`, `mem_crossPairs`);
* **that the union accepts a value of one leaf if no leaf accepts it that is kept apart from that
  one** (`accepts_of_leaf`), by induction on the nesting of the unions;
* that the test for overlaps makes sure of it (`alone_of_overlap?`);
* **what the leaves and the pairs of leaves kept apart say about the whole union**
  (`unite_of_leaves`).
-/

namespace TypedPipeline

namespace Schema

variable {v : Json}

/-! ## 1. Where leaves stand -/

theorem leaves_append (xs ys : List Schema) : leaves (xs ++ ys) = leaves xs ++ leaves ys := by
  induction xs using leaves.induct with
  | case1 => simp [leaves]
  | case2 inner rest _ ih => rw [List.cons_append, leaves, leaves, ih, List.append_assoc]
  | case3 inner rest _ ih => rw [List.cons_append, leaves, leaves, ih, List.append_assoc]
  | case4 leaf rest notAny notOne ih =>
      rw [List.cons_append, leaves, leaves, ih, List.cons_append]
      all_goals assumption

theorem leaves_cons (b : Schema) (rest : List Schema) : leaves (b :: rest) = leaves [b] ++ leaves rest :=
  leaves_append [b] rest

theorem length_leaves_singleton (b : Schema) : (leaves [b]).length = b.leafCount := by
  cases b <;> simp [leaves, leafCount]

/-- A branch that accepts a value has a leaf that does. -/
theorem exists_mem_leaves {b : Schema} (h : b.accepts v = true) :
    ∃ leaf ∈ leaves [b], leaf.accepts v = true := by
  have inside {c : Schema} {branches : List Schema} (hc : c ∈ branches)
      (ih : ∃ leaf ∈ leaves [c], leaf.accepts v = true) :
      ∃ leaf ∈ leaves branches, leaf.accepts v = true := by
    obtain ⟨leaf, hl, acc⟩ := ih
    obtain ⟨pre, post, rfl⟩ := List.append_of_mem hc
    refine ⟨leaf, ?_, acc⟩
    rw [leaves_append, leaves_cons]
    exact List.mem_append_right _ (List.mem_append_left _ hl)
  induction b using Schema.induction with
  | anyOf branches ih =>
      obtain ⟨c, hc, acc⟩ := accepts_anyOf.1 h
      simpa [leaves] using inside hc (ih c hc acc)
  | oneOf branches ih =>
      obtain ⟨c, hc, acc⟩ := exists_of_accepts_oneOf h
      simpa [leaves] using inside hc (ih c hc acc)
  | _ => exact ⟨_, by simp [leaves], h⟩

/-- The same with the position of the leaf, which is one of those of the branch. -/
theorem exists_leaf {pre post : List Schema} {b : Schema} (h : b.accepts v = true) :
    ∃ i leaf, (leaves pre).length ≤ i ∧ i < (leaves pre).length + b.leafCount ∧
      (leaves (pre ++ b :: post))[i]? = some leaf ∧ leaf.accepts v = true := by
  obtain ⟨leaf, hl, acc⟩ := exists_mem_leaves h
  obtain ⟨j, hj, e⟩ := List.mem_iff_getElem.1 hl
  have lt : j < b.leafCount := by rw [← length_leaves_singleton]; exact hj
  refine ⟨(leaves pre).length + j, leaf, by omega, by omega, ?_, acc⟩
  rw [leaves_append, List.getElem?_append_right (by omega), Nat.add_sub_cancel_left, leaves_cons,
    List.getElem?_append_left hj, List.getElem?_eq_getElem hj, e]

/-! ## 2. Leaves kept apart -/

theorem leafGroups_append (start : Nat) (xs ys : List Schema) :
    leafGroups start (xs ++ ys) =
      leafGroups start xs ++ leafGroups (start + (leaves xs).length) ys := by
  induction xs generalizing start with
  | nil => simp [leafGroups, leaves]
  | cons b rest ih =>
      rw [List.cons_append, leafGroups, leafGroups, ih, leaves_cons, List.length_append,
        length_leaves_singleton, Nat.add_assoc, List.cons_append]

theorem mem_crossPairs {groups as bs : List (List Nat)} {g h : List Nat} {x y : Nat}
    (e : groups = as ++ g :: bs) (hx : x ∈ g) (hh : h ∈ bs) (hy : y ∈ h) :
    (x, y) ∈ crossPairs groups := by
  subst e
  induction as with
  | nil =>
      rw [List.nil_append, crossPairs, List.mem_append, List.mem_flatMap]
      exact Or.inl ⟨h, hh, List.mem_flatMap.2 ⟨x, hx, List.mem_map.2 ⟨y, hy, rfl⟩⟩⟩
  | cons a rest ih =>
      rw [List.cons_append, crossPairs]
      exact List.mem_append_right _ ih

/-- Of the leaves, none accepts a value that a pair keeps apart from the one at a position. -/
def Alone (all : List Schema) (pairs : List (Nat × Nat)) (k : Nat) (v : Json) : Prop :=
  ∀ p ∈ pairs, (p.1 = k → ∀ l, all[p.2]? = some l → l.accepts v = false) ∧
    (p.2 = k → ∀ l, all[p.1]? = some l → l.accepts v = false)

theorem Alone.mono {all : List Schema} {pairs pairs' : List (Nat × Nat)} {k : Nat}
    (h : Alone all pairs k v) (sub : ∀ p ∈ pairs', p ∈ pairs) : Alone all pairs' k v :=
  fun p hp => h p (sub p hp)

/-- The leaves of these branches are those of all from a position on. -/
def Window (all : List Schema) (start : Nat) (branches : List Schema) : Prop :=
  ∀ i l, (leaves branches)[i]? = some l → all[start + i]? = some l

theorem Window.append {all xs ys : List Schema} {start : Nat} (h : Window all start (xs ++ ys)) :
    Window all start xs ∧ Window all (start + (leaves xs).length) ys := by
  constructor
  · intro i l hl
    refine h i l ?_
    rw [leaves_append, List.getElem?_append_left (List.getElem?_eq_some_iff.1 hl).1]
    exact hl
  · intro i l hl
    rw [Nat.add_assoc]
    refine h _ l ?_
    rw [leaves_append, List.getElem?_append_right (by omega), Nat.add_sub_cancel_left]
    exact hl

/-- The branch accepts the value, and the leaf at the position is one of its own. -/
structure Chosen (start : Nat) (branches : List Schema) (k : Nat) (v : Json)
    (pre : List Schema) (b : Schema) (post : List Schema) : Prop where
  split : branches = pre ++ b :: post
  accepts : b.accepts v = true
  low : start + (leaves pre).length ≤ k
  high : k < start + (leaves pre).length + b.leafCount

variable {all branches pre post : List Schema} {b : Schema} {start k : Nat}

/-- **An exclusive union accepts what one branch accepts alone.** -/
theorem accepts_oneOf_of_chosen (window : Window all start branches)
    (alone : Alone all (crossPairs (leafGroups start branches)) k v)
    (h : Chosen start branches k v pre b post) : (oneOf branches).accepts v = true := by
  obtain ⟨rfl, acc, low, high⟩ := h
  have mine : k ∈ List.range' (start + (leaves pre).length) b.leafCount :=
    List.mem_range'_1.2 ⟨low, high⟩
  have before : ∀ c ∈ pre, ¬ c.accepts v = true := by
    intro c hc accc
    obtain ⟨p, q, rfl⟩ := List.append_of_mem hc
    obtain ⟨i, leaf, le, lt, hl, accl⟩ := @exists_leaf v p (q ++ b :: post) c accc
    rw [List.append_assoc, List.cons_append] at window alone
    have pair : (start + i, k) ∈ crossPairs (leafGroups start (p ++ c :: (q ++ b :: post))) := by
      refine mem_crossPairs (leafGroups_append _ _ _) (List.mem_range'_1.2 ⟨by omega, by omega⟩)
        (h := List.range' (start + (leaves (p ++ c :: q)).length) b.leafCount) ?_ mine
      rw [leafGroups_append, leafGroups, leaves_append, leaves_cons, List.length_append,
        List.length_append, length_leaves_singleton]
      exact List.mem_append_right _ (by simp [Nat.add_assoc])
    rw [(alone _ pair).2 rfl leaf (window i leaf hl)] at accl
    cases accl
  have after : ∀ c ∈ post, ¬ c.accepts v = true := by
    intro c hc accc
    obtain ⟨p, q, rfl⟩ := List.append_of_mem hc
    obtain ⟨i, leaf, le, lt, hl, accl⟩ := @exists_leaf v (pre ++ b :: p) q c accc
    rw [leaves_append, leaves_cons, List.length_append, List.length_append,
      length_leaves_singleton] at le lt
    have pair : (k, start + i) ∈ crossPairs (leafGroups start (pre ++ b :: (p ++ c :: q))) := by
      refine mem_crossPairs (leafGroups_append _ _ _) mine
        (h := List.range' (start + (leaves pre).length + b.leafCount + (leaves p).length)
          c.leafCount) ?_ (List.mem_range'_1.2 ⟨by omega, by omega⟩)
      rw [leafGroups_append, leafGroups]
      exact List.mem_append_right _ (by simp)
    rw [List.append_assoc, List.cons_append] at hl
    rw [(alone _ pair).1 rfl leaf (window i leaf hl)] at accl
    cases accl
  rw [accepts_oneOf, List.countP_append, List.countP_cons_of_pos (by exact acc),
    List.countP_eq_zero.2 before, List.countP_eq_zero.2 after]

/-! ## 3. From the leaf to the union -/

/-- The branch is found further on. -/
theorem Chosen.cons {first : Schema} {rest : List Schema}
    (h : Chosen (start + first.leafCount) rest k v pre b post) :
    Chosen start (first :: rest) k v (first :: pre) b post where
  split := by rw [h.split, List.cons_append]
  accepts := h.accepts
  low := by
    rw [leaves_cons, List.length_append, length_leaves_singleton, ← Nat.add_assoc]
    exact h.low
  high := by
    rw [leaves_cons, List.length_append, length_leaves_singleton, ← Nat.add_assoc]
    exact h.high

/-- The branch is found in front. -/
theorem Chosen.first {rest : List Schema} (acc : b.accepts v = true) (le : start ≤ k)
    (lt : k < start + b.leafCount) : Chosen start (b :: rest) k v [] b rest where
  split := rfl
  accepts := acc
  low := by simpa [leaves] using le
  high := by simpa [leaves] using lt

/-- It is found in front or further on. -/
theorem exists_chosen_cons {leaf first : Schema} {rest : List Schema}
    (window : Window all start (first :: rest)) (le : start ≤ k)
    (h : (leaves (first :: rest))[k - start]? = some leaf)
    (front : Window all start [first] → (leaves [first])[k - start]? = some leaf →
      first.accepts v = true)
    (further : Window all (start + first.leafCount) rest → start + first.leafCount ≤ k →
      (leaves rest)[k - (start + first.leafCount)]? = some leaf →
      ∃ pre b post, Chosen (start + first.leafCount) rest k v pre b post) :
    ∃ pre b post, Chosen start (first :: rest) k v pre b post := by
  obtain ⟨inFront, later⟩ := @Window.append all [first] rest start window
  rw [leaves_cons] at h
  have count := length_leaves_singleton first
  by_cases lt : k - start < first.leafCount
  · rw [List.getElem?_append_left (by omega)] at h
    exact ⟨_, _, _, Chosen.first (front inFront h) le (by omega)⟩
  · rw [List.getElem?_append_right (by omega), count, Nat.sub_sub] at h
    obtain ⟨pre, b, post, chosen⟩ := further (count ▸ later) (by omega) h
    exact ⟨_, b, post, chosen.cons⟩

/-- **Some branch accepts what its leaf does.** -/
theorem exists_chosen {leaf : Schema} (acc : leaf.accepts v = true) (start : Nat)
    (branches : List Schema) (window : Window all start branches)
    (alone : Alone all (nestedPairs start branches) k v) (le : start ≤ k)
    (h : (leaves branches)[k - start]? = some leaf) :
    ∃ pre b post, Chosen start branches k v pre b post := by
  induction start, branches using nestedPairs.induct with
  | case1 => simp [leaves] at h
  | case2 start inner rest ihInner ihRest =>
      rw [nestedPairs] at alone
      refine exists_chosen_cons window le h (fun window h => ?_) fun window le h => ihRest window
        (alone.mono fun p hp => List.mem_append_right _ hp) le h
      obtain ⟨pre, b, post, chosen⟩ := ihInner (by simpa [Window, leaves] using window)
        (alone.mono fun p hp => List.mem_append_left _ hp) le (by simpa [leaves] using h)
      exact accepts_anyOf.2 ⟨b, by rw [chosen.split]; simp, chosen.accepts⟩
  | case3 start inner rest ihInner ihRest =>
      rw [nestedPairs] at alone
      refine exists_chosen_cons window le h (fun window h => ?_) fun window le h => ihRest window
        (alone.mono fun p hp => List.mem_append_right _ hp) le h
      have window : Window all start inner := by simpa [Window, leaves] using window
      have alone := alone.mono fun p hp => List.mem_append_left _ hp
      obtain ⟨pre, b, post, chosen⟩ := ihInner window
        (alone.mono fun p hp => List.mem_append_left _ hp) le (by simpa [leaves] using h)
      exact accepts_oneOf_of_chosen window (alone.mono fun p hp => List.mem_append_right _ hp) chosen
  | case4 start first rest notAny notOne ih =>
      have single : leaves [first] = [first] := by
        rw [leaves, leaves]
        · exact notAny
        · exact notOne
      have count : first.leafCount = 1 := by rw [← length_leaves_singleton, single]; rfl
      rw [nestedPairs] at alone
      · refine exists_chosen_cons window le h (fun _ h => ?_) fun window le h => ?_
        · rw [single, List.getElem?_singleton] at h
          split at h
          · cases h; exact acc
          · cases h
        · rw [count] at *
          exact ih window alone le h
      · exact notAny
      · exact notOne

/-- **A union accepts a value of a leaf that no other leaf kept apart from it accepts.** -/
theorem accepts_of_leaf {u leaf : Schema} {exclusive : Bool}
    (form : (u = .anyOf branches ∧ exclusive = false) ∨ (u = .oneOf branches ∧ exclusive = true))
    (h : (leaves branches)[k]? = some leaf) (acc : leaf.accepts v = true)
    (alone : Alone (leaves branches) (exclusivePairs exclusive branches) k v) :
    u.accepts v = true := by
  have window : Window (leaves branches) 0 branches := fun i l hl => by rw [Nat.zero_add]; exact hl
  rw [exclusivePairs] at alone
  obtain ⟨pre, b, post, chosen⟩ := exists_chosen acc 0 branches window
    (alone.mono fun p hp => List.mem_append_left _ hp) (Nat.zero_le k) h
  rcases form with ⟨rfl, rfl⟩ | ⟨rfl, rfl⟩
  · exact accepts_anyOf.2 ⟨b, by rw [chosen.split]; simp, chosen.accepts⟩
  · exact accepts_oneOf_of_chosen window (alone.mono fun p hp => List.mem_append_right _ hp) chosen

/-- **What the test for overlaps lets through stands alone.** -/
theorem alone_of_overlap? {leaf : Schema} {kept : List Nat} {pairs : List (Nat × Nat)}
    (each : ∀ l ∈ all, l.Sound ∧ l.Proper) (h : overlap? all kept pairs = none) (hk : k ∈ kept)
    (hl : all[k]? = some leaf) (pv : v.Proper) (acc : leaf.accepts v = true) :
    Alone all pairs k v := by
  have apart {i : Nat} {l : Schema} (hi : all[i]? = some l) (d : leaf.areDisjoint l = true ∨
      l.areDisjoint leaf = true) : l.accepts v = false := by
    obtain ⟨sound, proper⟩ := each leaf (List.mem_of_getElem? hl)
    obtain ⟨sound', proper'⟩ := each l (List.mem_of_getElem? hi)
    have apart : Apart leaf l := d.elim (apart_of_areDisjoint sound proper sound' proper')
      fun d => (apart_of_areDisjoint sound' proper' sound proper d).symm
    simpa using apart v pv acc
  intro p hp
  have test := List.find?_eq_none.1 h p hp
  simp only [Bool.and_eq_true, Bool.or_eq_true, List.contains_iff_mem, Bool.not_eq_true',
    not_and, Bool.not_eq_false] at test
  constructor
  · rintro rfl l hi
    have d := test (Or.inl hk)
    rw [hl, hi] at d
    exact apart hi (Or.inl d)
  · rintro rfl l hi
    have d := test (Or.inr hk)
    rw [hl, hi] at d
    exact apart hi (Or.inr d)

/-! ## 4. The whole union -/

/-- The groups of positions are those of the leaves, from the start on. -/
theorem range_of_mem_leafGroups {g : List Nat} {i : Nat} (hg : g ∈ leafGroups start branches)
    (hi : i ∈ g) : start ≤ i ∧ i < start + (leaves branches).length := by
  induction branches generalizing start with
  | nil => simp [leafGroups] at hg
  | cons b rest ih =>
      rw [leaves_cons, List.length_append, length_leaves_singleton]
      rcases List.mem_cons.1 hg with rfl | hg
      · have := List.mem_range'_1.1 hi
        omega
      · have := ih hg
        omega

/-- A pair is one of leaves of two branches, the earlier one first. -/
theorem range_of_mem_crossPairs {p : Nat × Nat} (h : p ∈ crossPairs (leafGroups start branches)) :
    start ≤ p.1 ∧ p.1 < p.2 ∧ p.2 < start + (leaves branches).length := by
  induction branches generalizing start with
  | nil => simp [leafGroups, crossPairs] at h
  | cons b rest ih =>
      rw [leaves_cons, List.length_append, length_leaves_singleton]
      rw [leafGroups, crossPairs, List.mem_append, List.mem_flatMap] at h
      rcases h with ⟨g, hg, h⟩ | h
      · obtain ⟨x, hx, h⟩ := List.mem_flatMap.1 h
        obtain ⟨y, hy, rfl⟩ := List.mem_map.1 h
        have first := List.mem_range'_1.1 hx
        have second := range_of_mem_leafGroups hg hy
        dsimp only
        omega
      · have := ih h
        omega

theorem range_of_mem_nestedPairs {p : Nat × Nat} (start : Nat) (branches : List Schema)
    (h : p ∈ nestedPairs start branches) :
    start ≤ p.1 ∧ p.1 < p.2 ∧ p.2 < start + (leaves branches).length := by
  induction start, branches using nestedPairs.induct with
  | case1 => simp [nestedPairs] at h
  | case2 start inner rest ihInner ihRest =>
      rw [leaves, List.length_append]
      rw [nestedPairs, List.mem_append] at h
      rcases h with h | h
      · have := ihInner h
        omega
      · have := ihRest h
        omega
  | case3 start inner rest ihInner ihRest =>
      rw [leaves, List.length_append]
      rw [nestedPairs, List.mem_append, List.mem_append] at h
      rcases h with (h | h) | h
      · have := ihInner h
        omega
      · have := range_of_mem_crossPairs h
        omega
      · have := ihRest h
        omega
  | case4 start first rest notAny notOne ih =>
      have count : (leaves (first :: rest)).length = 1 + (leaves rest).length := by
        rw [leaves, List.length_cons, Nat.add_comm]
        · exact notAny
        · exact notOne
      rw [count]
      rw [nestedPairs] at h
      · have := ih h
        omega
      · exact notAny
      · exact notOne

/-- The union of branches, one that is exclusive or one that is not. -/
def unite (exclusive : Bool) (branches : List Schema) : Schema :=
  if exclusive then .oneOf branches else .anyOf branches

theorem leaves_unite (exclusive : Bool) (branches : List Schema) :
    leaves [unite exclusive branches] = leaves branches := by
  cases exclusive <;> simp [unite, leaves]

/-- **The pairs that are recorded say enough about a union.** They are pairs of its leaves. The union
    accepts what a leaf accepts if the other leaf of each pair with it refuses that, and refuses what
    all leaves refuse. -/
theorem unite_of_leaves (exclusive : Bool) (branches : List Schema) :
    (∀ p ∈ exclusivePairs exclusive branches,
      p.1 < p.2 ∧ p.2 < (leaves branches).length) ∧
    (∀ v k leaf, (leaves branches)[k]? = some leaf → leaf.accepts v = true →
      Alone (leaves branches) (exclusivePairs exclusive branches) k v →
      (unite exclusive branches).accepts v = true) ∧
    ∀ v, (∀ leaf ∈ leaves branches, leaf.accepts v = false) →
      (unite exclusive branches).accepts v = false := by
  refine ⟨fun p hp => ?_, fun v k leaf h acc alone => ?_, fun v refused => ?_⟩
  · rw [exclusivePairs, List.mem_append] at hp
    rcases hp with hp | hp
    · have := range_of_mem_nestedPairs 0 branches hp
      omega
    · cases exclusive with
      | false => simp at hp
      | true =>
          have := range_of_mem_crossPairs hp
          omega
  · refine accepts_of_leaf ?_ h acc alone
    cases exclusive
    · exact Or.inl ⟨rfl, rfl⟩
    · exact Or.inr ⟨rfl, rfl⟩
  · refine Bool.eq_false_iff.2 fun acc => ?_
    obtain ⟨leaf, hl, accl⟩ := exists_mem_leaves acc
    rw [leaves_unite] at hl
    rw [refused leaf hl] at accl
    cases accl

/-- A union in which an exclusive one stands beside one that is not. -/
theorem unite_of_leaves_mixed :
    let branches := [anyOf [null, boolean], oneOf [string, arrayOf any]]
    exclusivePairs true branches = [(2, 3), (0, 2), (0, 3), (1, 2), (1, 3)] ∧
    (unite true branches).accepts .null = true ∧
    (unite true branches).accepts .emptyObject = false := by
  intro branches
  have leafList : leaves branches = [null, boolean, string, arrayOf any] := by
    simp [branches, leaves, null, boolean, string, arrayOf]
  have pairs : exclusivePairs true branches = [(2, 3), (0, 2), (0, 3), (1, 2), (1, 3)] := by
    simp [branches, exclusivePairs, nestedPairs, crossPairs, leafGroups, leafCount, leaves,
      null, boolean, string, arrayOf, List.range']
  have nullRefused : ∀ leaf ∈ [string, arrayOf any], leaf.accepts .null = false := by
    decide +kernel
  have objectRefused : ∀ leaf ∈ [null, boolean, string, arrayOf any],
      leaf.accepts .emptyObject = false := by decide +kernel
  obtain ⟨_, accepted, refused⟩ := unite_of_leaves true branches
  refine ⟨pairs, accepted .null 0 null (by rw [leafList]; rfl) (by decide +kernel) ?_,
    refused .emptyObject (by rw [leafList]; exact objectRefused)⟩
  rw [pairs, leafList]
  intro p hp
  simp only [List.mem_cons, List.not_mem_nil, or_false] at hp
  simp only [List.forall_mem_cons] at nullRefused
  rcases hp with rfl | rfl | rfl | rfl | rfl <;> simp [nullRefused]

end Schema

end TypedPipeline
