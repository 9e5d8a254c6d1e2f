import TypedPipeline.Schema.Intersection
import TypedPipeline.Proofs.Schema.Disjointness

/-!
# Proofs.Schema.Intersection: the merge of two schemas accepts what both accept

A merged schema need not be well formed: its range may be empty, its members may lie outside it, and
its defaults may no longer fit. What acceptance hangs on survives. This file fixes:

* the part of the invariants that every merge keeps (`Regular`), and that well-formed schemas have
  it (`Sound.regular`);
* merged ranges, enumerations and lengths (`Scalar.fits_meet`, `Length.admits_meet`);
* merged properties, name by name (`MergedAt`, `mergedAt_meetProperties`): the two lists are walked
  through together, which finds every name on both sides only because both ascend;
* what is to be shown for each form to know something of every merge (`MergeSteps`): the induction is
  on the size of both schemas together, since an intersection inside is merged first;
* what merges have inside because the merged schemas have it (`KeptByMerging`), regularity above all;
* **the merge of schemas** (`isMeet_of_intersect`, `isMeetAll_of_intersectAll`), and that it is exact
  for well-formed ones (`accepts_merge_iff`).
-/

namespace TypedPipeline

/-! ## 1. Options -/

theorem mergeOption_eq_none_iff {α : Type} {choose : α → α → α} {o o' : Option α} :
    mergeOption choose o o' = none ↔ o = none ∧ o' = none := by
  cases o <;> cases o' <;> simp [mergeOption]

theorem forall_mergeOption_iff {α : Type} {P : α → Prop} {choose : α → α → α} {o o' : Option α}
    (h : ∀ a ∈ o, ∀ b ∈ o', (P (choose a b) ↔ P a ∧ P b)) :
    (∀ c ∈ mergeOption choose o o', P c) ↔ (∀ a ∈ o, P a) ∧ ∀ b ∈ o', P b := by
  cases o with
  | none => cases o' <;> simp [mergeOption]
  | some a => cases o' with
    | none => simp [mergeOption]
    | some b => simpa [mergeOption] using h a rfl b rfl

theorem forall_mergeOption {α : Type} {P : α → Prop} {choose : α → α → α} {o o' : Option α}
    (h : ∀ a b, P a → P b → P (choose a b)) (ha : ∀ a ∈ o, P a) (hb : ∀ b ∈ o', P b) :
    ∀ c ∈ mergeOption choose o o', P c := by
  cases o with
  | none => cases o' with
    | none => simp [mergeOption]
    | some b => simpa [mergeOption] using hb
  | some a => cases o' with
    | none => simpa [mergeOption] using ha
    | some b => simpa [mergeOption] using h a b (ha a rfl) (hb b rfl)

/-! ## 2. Scalars and lengths -/

/-- What acceptance by a scalar hangs on. -/
structure Scalar.Regular (s : Scalar) : Prop where
  proper : s.Proper
  low : ∀ b ∈ s.minimum, b.value.isFinite = true
  high : ∀ b ∈ s.maximum, b.value.isFinite = true
  member : ∀ members ∈ s.enumeration, ∀ m ∈ members, m.isScalar = true

theorem Bound.tighterLower_cases (a b : Bound) : tighterLower a b = a ∨ tighterLower a b = b := by
  unfold tighterLower
  split
  · exact Or.inl rfl
  · exact Or.inr rfl

theorem Bound.tighterUpper_cases (a b : Bound) : tighterUpper a b = a ∨ tighterUpper a b = b := by
  unfold tighterUpper
  split
  · exact Or.inl rfl
  · exact Or.inr rfl

namespace Scalar

open Binary64

variable {x : Binary64} {a b : Bound}

theorem below_tighterLower (hx : x.isNaN = false) (ha : a.value.isNaN = false)
    (hb : b.value.isNaN = false) :
    below x (Bound.tighterLower a b) = false ↔ below x a = false ∧ below x b = false := by
  rw [below_eq_false_iff hx ha, below_eq_false_iff hx hb]
  unfold Bound.tighterLower
  split
  · rename_i h
    rw [below_eq_false_iff hx ha]
    simp only [Bool.or_eq_true, Bool.and_eq_true, less_iff, equals_iff] at h
    refine ⟨fun inside => ⟨inside, ?_⟩, And.left⟩
    rcases h with h | ⟨h, ex⟩
    · exact ⟨by omega, fun _ => by omega⟩
    · have := inside.2 ex
      exact ⟨by omega, fun _ => by omega⟩
  · rename_i h
    rw [below_eq_false_iff hx hb]
    simp only [Bool.or_eq_true, Bool.and_eq_true, less_iff, equals_iff, ha, hb, true_and, not_or,
      not_and] at h
    refine ⟨fun inside => ⟨⟨by omega, fun ex e => ?_⟩, inside⟩, And.right⟩
    exact h.2 (by omega) ex

theorem above_tighterUpper (hx : x.isNaN = false) (ha : a.value.isNaN = false)
    (hb : b.value.isNaN = false) :
    above x (Bound.tighterUpper a b) = false ↔ above x a = false ∧ above x b = false := by
  rw [above_eq_false_iff hx ha, above_eq_false_iff hx hb]
  unfold Bound.tighterUpper
  split
  · rename_i h
    rw [above_eq_false_iff hx ha]
    simp only [Bool.or_eq_true, Bool.and_eq_true, less_iff, equals_iff] at h
    refine ⟨fun inside => ⟨inside, ?_⟩, And.left⟩
    rcases h with h | ⟨h, ex⟩
    · exact ⟨by omega, fun _ => by omega⟩
    · have := inside.2 ex
      exact ⟨by omega, fun _ => by omega⟩
  · rename_i h
    rw [above_eq_false_iff hx hb]
    simp only [Bool.or_eq_true, Bool.and_eq_true, less_iff, equals_iff, ha, hb, true_and, not_or,
      not_and] at h
    refine ⟨fun inside => ⟨⟨by omega, fun ex e => ?_⟩, inside⟩, And.right⟩
    exact h.2 (by omega) ex

variable {s t m : Scalar} {v : Json}

theorem acceptsKind_meet {kind : ScalarKind} (h : s.kind.meet? t.kind = some kind)
    (hm : m.kind = kind) :
    m.acceptsKind v = true ↔ s.acceptsKind v = true ∧ t.acceptsKind v = true := by
  unfold acceptsKind
  rw [hm]
  cases hs : s.kind <;> cases ht : t.kind <;> simp [hs, ht, ScalarKind.meet?] at h <;> subst h <;>
    cases v <;> simp [Json.isIntegral]

theorem exists_sharedMember {as bs : List Json} (hv : v.isScalar = true)
    (hb : ∀ m ∈ bs, m.isScalar = true) :
    (∃ m ∈ sharedMembers as bs, m.agrees v = true) ↔
      (∃ m ∈ as, m.agrees v = true) ∧ ∃ m ∈ bs, m.agrees v = true := by
  simp only [sharedMembers, List.mem_filter, List.any_eq_true]
  constructor
  · rintro ⟨m, ⟨hm, n, hn, e⟩, a⟩
    exact ⟨⟨m, hm, a⟩, n, hn, Json.agrees_trans (Json.agrees_symm (hb n hn) e) a⟩
  · rintro ⟨⟨m, hm, a⟩, n, hn, e⟩
    exact ⟨m, ⟨hm, n, hn, Json.agrees_trans a (Json.agrees_symm hv e)⟩, a⟩

/-- What the merge of two scalars is made of. -/
theorem of_meet?_eq_some (h : s.meet? t = some m) :
    s.kind.meet? t.kind = some m.kind ∧
      m.minimum = mergeOption Bound.tighterLower s.minimum t.minimum ∧
      m.maximum = mergeOption Bound.tighterUpper s.maximum t.maximum ∧
      m.enumeration = mergeOption sharedMembers s.enumeration t.enumeration := by
  obtain ⟨kind, hk, h⟩ := Option.bind_eq_some_iff.1 h
  split at h
  all_goals
    dsimp only at h
    split at h
    · cases h
    · cases h
      exact ⟨hk, rfl, rfl, rfl⟩

/-- **The merge of two scalars accepts what both accept.** -/
theorem fits_meet (h : s.meet? t = some m) (hs : s.Regular) (ht : t.Regular) (pv : v.Proper) :
    m.Fits v ↔ s.Fits v ∧ t.Fits v := by
  obtain ⟨kind, low, high, enumeration⟩ := of_meet?_eq_some h
  have ranges (n : Number) (hn : v = .number n) :
      ((∀ b ∈ m.minimum, below n.toBinary64 b = false) ↔
        (∀ b ∈ s.minimum, below n.toBinary64 b = false) ∧
          ∀ b ∈ t.minimum, below n.toBinary64 b = false) ∧
      ((∀ b ∈ m.maximum, above n.toBinary64 b = false) ↔
        (∀ b ∈ s.maximum, above n.toBinary64 b = false) ∧
          ∀ b ∈ t.maximum, above n.toBinary64 b = false) := by
    subst hn
    have nan := Number.isNaN_toBinary64 (x := n) pv
    rw [low, high]
    exact ⟨forall_mergeOption_iff fun a ha b hb => below_tighterLower nan
        (isNaN_of_isFinite (hs.low a ha)) (isNaN_of_isFinite (ht.low b hb)),
      forall_mergeOption_iff fun a ha b hb => above_tighterUpper nan
        (isNaN_of_isFinite (hs.high a ha)) (isNaN_of_isFinite (ht.high b hb))⟩
  have members (hv : v.isScalar = true) :
      (∀ ms ∈ m.enumeration, ∃ k ∈ ms, k.agrees v = true) ↔
        (∀ ms ∈ s.enumeration, ∃ k ∈ ms, k.agrees v = true) ∧
          ∀ ms ∈ t.enumeration, ∃ k ∈ ms, k.agrees v = true := by
    rw [enumeration]
    exact forall_mergeOption_iff fun as _ bs hb => exists_sharedMember hv (ht.member bs hb)
  constructor
  · intro fits
    obtain ⟨ks, kt⟩ := (acceptsKind_meet kind rfl).1 fits.kind
    obtain ⟨es, et⟩ := (members (isScalar_of_acceptsKind fits.kind)).1 fits.member
    exact ⟨⟨ks, fun n hn => ((ranges n hn).1.1 (fits.low n hn)).1,
        fun n hn => ((ranges n hn).2.1 (fits.high n hn)).1, es⟩,
      ⟨kt, fun n hn => ((ranges n hn).1.1 (fits.low n hn)).2,
        fun n hn => ((ranges n hn).2.1 (fits.high n hn)).2, et⟩⟩
  · rintro ⟨fs, ft⟩
    exact ⟨(acceptsKind_meet kind rfl).2 ⟨fs.kind, ft.kind⟩,
      fun n hn => (ranges n hn).1.2 ⟨fs.low n hn, ft.low n hn⟩,
      fun n hn => (ranges n hn).2.2 ⟨fs.high n hn, ft.high n hn⟩,
      (members (isScalar_of_acceptsKind fs.kind)).2 ⟨fs.member, ft.member⟩⟩

theorem Regular.meet (h : s.meet? t = some m) (hs : s.Regular) (ht : t.Regular) : m.Regular := by
  obtain ⟨_, low, high, enumeration⟩ := of_meet?_eq_some h
  have scalars : ∀ ms ∈ m.enumeration, ∀ k ∈ ms, k.Proper ∧ k.isScalar = true := by
    rw [enumeration]
    refine forall_mergeOption (fun as bs ha _ k hk => ha k (List.mem_filter.1 hk).1) ?_ ?_
    · exact fun ms hms k hk => ⟨hs.proper ms hms k hk, hs.member ms hms k hk⟩
    · exact fun ms hms k hk => ⟨ht.proper ms hms k hk, ht.member ms hms k hk⟩
  refine ⟨fun ms hms k hk => (scalars ms hms k hk).1, ?_, ?_,
    fun ms hms k hk => (scalars ms hms k hk).2⟩
  · rw [low]
    refine forall_mergeOption (fun a b ha hb => ?_) hs.low ht.low
    rcases Bound.tighterLower_cases a b with e | e <;> rw [e] <;> assumption
  · rw [high]
    refine forall_mergeOption (fun a b ha hb => ?_) hs.high ht.high
    rcases Bound.tighterUpper_cases a b with e | e <;> rw [e] <;> assumption

/-- The bounds of a merge are bounds of the two. -/
theorem small_meet (h : s.meet? t = some m)
    (hs : (∀ b ∈ s.minimum, b.value.IsSmall) ∧ ∀ b ∈ s.maximum, b.value.IsSmall)
    (ht : (∀ b ∈ t.minimum, b.value.IsSmall) ∧ ∀ b ∈ t.maximum, b.value.IsSmall) :
    (∀ b ∈ m.minimum, b.value.IsSmall) ∧ ∀ b ∈ m.maximum, b.value.IsSmall := by
  obtain ⟨_, low, high, _⟩ := of_meet?_eq_some h
  rw [low, high]
  refine ⟨forall_mergeOption (fun a b ha hb => ?_) hs.1 ht.1,
    forall_mergeOption (fun a b ha hb => ?_) hs.2 ht.2⟩
  · rcases Bound.tighterLower_cases a b with e | e <;> rw [e] <;> assumption
  · rcases Bound.tighterUpper_cases a b with e | e <;> rw [e] <;> assumption

end Scalar

theorem Length.admits_meet {a b : Length} {n : Nat} :
    (a.meet b).Admits n ↔ a.Admits n ∧ b.Admits n := by
  have low := @forall_mergeOption_iff Nat (· ≤ n) Nat.max a.least b.least fun _ _ _ _ => Nat.max_le
  have high := @forall_mergeOption_iff Nat (n ≤ ·) Nat.min a.most b.most fun _ _ _ _ => Nat.le_min
  unfold Length.Admits Length.meet
  rw [low, high]
  exact ⟨fun h => ⟨⟨h.1.1, h.2.1⟩, h.1.2, h.2.2⟩, fun h => ⟨⟨h.1.1, h.2.1⟩, h.1.2, h.2.2⟩⟩

namespace Schema

/-! ## 3. Properties -/

theorem intersect_eq_some_iff {a b m : Schema} :
    intersect a b = some m ↔ ∃ h, meet a b = some ⟨m, h⟩ := by
  unfold intersect
  cases meet a b with
  | none => simp
  | some r =>
      simp only [Option.map_some, Option.some.injEq]
      exact ⟨fun e => ⟨e ▸ r.2, Subtype.ext e⟩, fun ⟨_, e⟩ => congrArg (·.1) e⟩

/-- What the merge of two object schemas has under a name, from what the two have there. -/
def MergedAt (rules others : ObjectRules) (name : String) :
    (a b merged : Option Schema) → Prop
  | some a, some b, some m => intersect a b = some m
  | some a, none, some m => others.isOpen = true ∧ m = a
  | some _, none, none => others.isOpen = false ∧ rules.requires name = false
  | none, some b, some m => rules.isOpen = true ∧ m = b
  | none, some _, none => rules.isOpen = false ∧ others.requires name = false
  | none, none, none => True
  | _, _, _ => False

variable {rules others : ObjectRules} {name : String} {as bs : Keyed Schema}

theorem loneProperty_eq_some {s : Schema} {first : PropertiesWithin s.size}
    (h : loneProperty rules others name s = some first) :
    (others.isOpen = true ∧ first.1 = [(name, s)]) ∨
      (others.isOpen = false ∧ rules.requires name = false ∧ first.1 = []) := by
  unfold loneProperty at h
  split at h
  · cases h; exact Or.inl ⟨‹_›, rfl⟩
  · split at h
    · cases h
    · cases h
      exact Or.inr ⟨by simpa using ‹¬ others.isOpen = true›, by simpa using ‹¬ rules.requires name = true›, rfl⟩

/-- The names of a merge are names of the two, and a name is merged as it stands in the two. -/
structure Merges (rules others : ObjectRules) (as bs merged : Keyed Schema) : Prop where
  ascending : Keyed.Ascending merged
  names : ∀ name ∈ merged.names, name ∈ as.names ∨ name ∈ bs.names
  at' : ∀ name, MergedAt rules others name (as.find? name) (bs.find? name) (merged.find? name)

/-- What stands under one name, as entries. -/
def entry (name : String) (s : Option Schema) : Keyed Schema := s.toList.map (name, ·)

theorem find?_entry_append {s : Option Schema} {rest : Keyed Schema}
    (h : ∀ k ∈ rest.names, name < k) (other : String) :
    Keyed.find? (entry name s ++ rest) other = if name = other then s else rest.find? other := by
  cases s with
  | some s => exact Keyed.find?_cons _ _ _ _
  | none =>
      show rest.find? other = _
      split
      · rename_i e
        subst e
        exact Keyed.find?_eq_none_iff.2 fun hn => String.lt_irrefl _ (h _ hn)
      · rfl

theorem mem_names_entry_append {s : Option Schema} {rest : Keyed Schema} {k : String} :
    k ∈ Keyed.names (entry name s ++ rest) ↔ (s.isSome = true ∧ k = name) ∨ k ∈ rest.names := by
  cases s with
  | none => simp [entry]
  | some s => simp [entry, Keyed.names]

/-- A merge goes on below all the names that it has, if it does what is asked for there. -/
theorem Merges.extend {merged : Keyed Schema} {a b m : Option Schema}
    (h : Merges rules others as bs merged) (ha : ∀ k ∈ as.names, name < k)
    (hb : ∀ k ∈ bs.names, name < k) (hm : MergedAt rules others name a b m) :
    Merges rules others (entry name a ++ as) (entry name b ++ bs) (entry name m ++ merged) := by
  have above : ∀ k ∈ merged.names, name < k := fun k hk => (h.names k hk).elim (ha k) (hb k)
  refine ⟨?_, ?_, fun other => ?_⟩
  · cases m with
    | none => exact h.ascending
    | some m => exact List.pairwise_cons.2 ⟨above, h.ascending⟩
  · intro k hk
    simp only [mem_names_entry_append] at hk ⊢
    rcases hk with ⟨some, rfl⟩ | hk
    · cases a with
      | some a => exact Or.inl (Or.inl ⟨rfl, rfl⟩)
      | none => cases b with
        | some b => exact Or.inr (Or.inl ⟨rfl, rfl⟩)
        | none => cases m with
          | some m => exact hm.elim
          | none => cases some
    · exact (h.names k hk).imp Or.inr Or.inr
  · rw [find?_entry_append ha, find?_entry_append hb, find?_entry_append above]
    by_cases e : name = other
    · subst e
      simpa using hm
    · simpa [e] using h.at' other

theorem Merges.lone {s : Schema} {first : PropertiesWithin s.size} {merged : Keyed Schema}
    (h : Merges rules others as bs merged) (ha : ∀ k ∈ as.names, name < k)
    (hb : ∀ k ∈ bs.names, name < k) (hl : loneProperty rules others name s = some first) :
    Merges rules others ((name, s) :: as) bs (first.1 ++ merged) := by
  rcases loneProperty_eq_some hl with ⟨isOpen, e⟩ | ⟨shut, free, e⟩
  · rw [e]
    exact h.extend (a := some s) (b := none) (m := some s) ha hb ⟨isOpen, rfl⟩
  · rw [e]
    exact h.extend (a := some s) (b := none) (m := none) ha hb ⟨shut, free⟩

theorem Merges.lone' {s : Schema} {first : PropertiesWithin s.size} {merged : Keyed Schema}
    (h : Merges rules others as bs merged) (ha : ∀ k ∈ as.names, name < k)
    (hb : ∀ k ∈ bs.names, name < k) (hl : loneProperty others rules name s = some first) :
    Merges rules others as ((name, s) :: bs) (first.1 ++ merged) := by
  rcases loneProperty_eq_some hl with ⟨isOpen, e⟩ | ⟨shut, free, e⟩
  · rw [e]
    exact h.extend (a := none) (b := some s) (m := some s) ha hb ⟨isOpen, rfl⟩
  · rw [e]
    exact h.extend (a := none) (b := some s) (m := none) ha hb ⟨shut, free⟩

/-- **The walk through both lists of properties merges them name by name.** -/
theorem merges_meetProperties (ha : as.Ascending) (hb : bs.Ascending)
    {merged : PropertiesWithin (sizeProperties as + sizeProperties bs)}
    (h : meetProperties rules others as bs = some merged) : Merges rules others as bs merged.1 := by
  induction hn : as.length + bs.length using Nat.strongRecOn generalizing as bs with
  | ind n ih =>
      subst hn
      rw [meetProperties.eq_def] at h
      split at h
      · cases h
        exact ⟨List.Pairwise.nil, fun _ hn => by simp [Keyed.names] at hn, fun _ => trivial⟩
      · rename_i name a as
        obtain ⟨first, hl, h⟩ := Option.bind_eq_some_iff.1 h
        obtain ⟨rest, hr, h⟩ := Option.bind_eq_some_iff.1 h
        cases h
        obtain ⟨above, ha⟩ := List.pairwise_cons.1 ha
        exact (ih _ (by simp) ha hb hr rfl).lone above (by simp [Keyed.names]) hl
      · rename_i name b bs
        obtain ⟨first, hl, h⟩ := Option.bind_eq_some_iff.1 h
        obtain ⟨rest, hr, h⟩ := Option.bind_eq_some_iff.1 h
        cases h
        obtain ⟨above, hb⟩ := List.pairwise_cons.1 hb
        exact (ih _ (by simp) ha hb hr rfl).lone' (by simp [Keyed.names]) above hl
      · rename_i m a as n b bs
        obtain ⟨above, ha'⟩ := List.pairwise_cons.1 ha
        obtain ⟨above', hb'⟩ := List.pairwise_cons.1 hb
        split at h
        · rename_i e
          subst e
          obtain ⟨merged, hm, h⟩ := Option.bind_eq_some_iff.1 h
          obtain ⟨rest, hr, h⟩ := Option.bind_eq_some_iff.1 h
          cases h
          refine (ih _ (by simp only [List.length_cons]; omega) ha' hb' hr rfl).extend (a := some a)
            (b := some b) (m := some merged.1) above above' ?_
          exact intersect_eq_some_iff.2 ⟨merged.2, hm⟩
        · split at h
          · rename_i _ lt
            obtain ⟨first, hl, h⟩ := Option.bind_eq_some_iff.1 h
            obtain ⟨rest, hr, h⟩ := Option.bind_eq_some_iff.1 h
            cases h
            refine (ih _ (by simp only [List.length_cons]; omega) ha' hb hr rfl).lone above ?_ hl
            exact List.forall_mem_cons.2 ⟨lt, fun k hk => String.lt_trans lt (above' k hk)⟩
          · rename_i ne not
            have lt : n < m := by
              refine String.not_le.1 fun le => ?_
              exact ne (String.le_antisymm le (String.not_lt.1 not))
            obtain ⟨first, hl, h⟩ := Option.bind_eq_some_iff.1 h
            obtain ⟨rest, hr, h⟩ := Option.bind_eq_some_iff.1 h
            cases h
            refine (ih _ (by simp only [List.length_cons]; omega) ha hb' hr rfl).lone' ?_ above' hl
            exact List.forall_mem_cons.2 ⟨lt, fun k hk => String.lt_trans lt (above k hk)⟩

/-! ## 4. Schemas -/

/-- What acceptance by one schema hangs on, those inside it apart. -/
def RegularPart : Schema → Prop
  | .scalar s => s.Regular
  | .object properties rules =>
    Keyed.Ascending properties ∧ ∀ name ∈ rules.required, Keyed.has properties name = true
  | _ => True

/-- What acceptance hangs on. -/
def Regular : Schema → Prop := Every RegularPart

/-- **Well-formed schemas are regular.** -/
theorem Sound.regular {s : Schema} (sound : s.Sound) (proper : s.Proper) : s.Regular := by
  intro t ht
  have sound := sound t ht
  have proper := proper t ht
  cases t with
  | scalar s =>
      exact ⟨proper, fun b hb => (sound.low b hb).2, fun b hb => (sound.high b hb).2,
        fun members he m hm => sound.isScalar he hm⟩
  | object properties rules => exact ⟨proper.1, sound.required⟩
  | _ => trivial

theorem mem_union {a b : Names} {name : String} : name ∈ a.union b ↔ name ∈ a ∨ name ∈ b := by
  unfold Names.union
  induction b generalizing a with
  | nil => simp
  | cons first rest ih =>
      rw [List.foldl_cons, ih, Names.mem_insert, List.mem_cons]
      exact ⟨fun h => by rcases h with (h | h) | h <;> simp [h],
        fun h => by rcases h with h | h | h <;> simp [h]⟩

theorem requires_meet {merged : Keyed Schema} :
    (rules.meet others as bs merged).requires name = (rules.requires name || others.requires name) := by
  rw [Bool.eq_iff_iff]
  simp only [ObjectRules.requires, ObjectRules.meet, Bool.or_eq_true, List.contains_iff_mem, mem_union]

/-- What is required is declared. -/
theorem RegularPart.declared (h : RegularPart (.object as rules)) (hr : rules.requires name = true) :
    ∃ s, as.find? name = some s :=
  Option.isSome_iff_exists.1 (h.2 name (List.contains_iff_mem.1 hr))

/-- A merged property comes from the properties of that name. -/
theorem MergedAt.cases {a b : Option Schema} {m : Schema} (h : MergedAt rules others name a b (some m)) :
    (∃ x y, a = some x ∧ b = some y ∧ intersect x y = some m) ∨
      (a = some m ∧ b = none) ∨ (a = none ∧ b = some m) := by
  cases a with
  | none => cases b with
    | none => exact h.elim
    | some y => exact Or.inr (Or.inr ⟨rfl, by rw [h.2]⟩)
  | some x => cases b with
    | none => exact Or.inr (Or.inl ⟨by rw [h.2], rfl⟩)
    | some y => exact Or.inl ⟨x, y, rfl, rfl, h⟩

/-- A name that a merge drops is not required. -/
theorem Merges.declared {merged : Keyed Schema} (h : Merges rules others as bs merged)
    (ra : RegularPart (.object as rules)) (rb : RegularPart (.object bs others))
    (hr : rules.requires name = true ∨ others.requires name = true) : merged.has name = true := by
  have at' := h.at' name
  rw [Keyed.has]
  cases hm : merged.find? name with
  | some m => rfl
  | none =>
      rw [hm] at at'
      rcases hr with hr | hr
      · obtain ⟨a, ha⟩ := ra.declared hr
        rw [ha] at at'
        cases hb : bs.find? name with
        | some b => rw [hb] at at'; exact at'.elim
        | none => rw [hb] at at'; simp [MergedAt, hr] at at'
      · obtain ⟨b, hb⟩ := rb.declared hr
        rw [hb] at at'
        cases ha : as.find? name with
        | some a => rw [ha] at at'; exact at'.elim
        | none => rw [ha] at at'; simp [MergedAt, hr] at at'

/-- What a merge asks for under a name is what both ask for there. -/
theorem acceptsAt_merged {merged : Keyed Schema} {members : Keyed Json}
    (hm : MergedAt rules others name (as.find? name) (bs.find? name) (merged.find? name))
    (ra : RegularPart (.object as rules)) (rb : RegularPart (.object bs others))
    (ih : ∀ a b m, as.find? name = some a → bs.find? name = some b → intersect a b = some m →
      ∀ w, members.find? name = some w →
        (m.accepts w = true ↔ a.accepts w = true ∧ b.accepts w = true)) :
    AcceptsAt merged (rules.meet others as bs merged) members name ↔
      AcceptsAt as rules members name ∧ AcceptsAt bs others members name := by
  have undeclared {ps : Keyed Schema} {r : ObjectRules} (hp : RegularPart (.object ps r))
      (hs : ps.find? name = none) : r.requires name = false := by
    refine Bool.not_eq_true _ ▸ fun hr => ?_
    obtain ⟨s, h⟩ := hp.declared hr
    rw [hs] at h
    cases h
  have isOpen : (rules.meet others as bs merged).isOpen = (rules.isOpen && others.isOpen) := rfl
  unfold AcceptsAt
  rw [requires_meet, isOpen]
  cases ha : as.find? name with
  | none =>
      have fa := undeclared ra ha
      cases hb : bs.find? name with
      | none =>
          cases hm' : merged.find? name with
          | none => cases members.find? name <;> simp
          | some m => simp [ha, hb, hm', MergedAt] at hm
      | some b =>
          cases hm' : merged.find? name with
          | none =>
              simp only [ha, hb, hm', MergedAt] at hm
              cases members.find? name <;> simp [hm]
          | some m =>
              simp only [ha, hb, hm', MergedAt] at hm
              cases members.find? name <;> simp [hm, fa]
  | some a =>
      cases hb : bs.find? name with
      | none =>
          have fb := undeclared rb hb
          cases hm' : merged.find? name with
          | none =>
              simp only [ha, hb, hm', MergedAt] at hm
              cases members.find? name <;> simp [hm]
          | some m =>
              simp only [ha, hb, hm', MergedAt] at hm
              cases members.find? name <;> simp [hm, fb]
      | some b =>
          cases hm' : merged.find? name with
          | none => simp [ha, hb, hm', MergedAt] at hm
          | some m =>
              rw [ha, hb, hm'] at hm
              cases hw : members.find? name with
              | none => simp
              | some w => exact ih a b m ha hb hm w hw

/-- What is everywhere inside the properties of both is everywhere inside the merged ones. -/
theorem Merges.every {P : Schema → Prop} {merged : Keyed Schema}
    (h : Merges rules others as bs merged) (ha : ∀ name s, (name, s) ∈ as → Every P s)
    (hb : ∀ name s, (name, s) ∈ bs → Every P s)
    (hm : ∀ name a b m, as.find? name = some a → bs.find? name = some b →
      intersect a b = some m → Every P m) :
    ∀ name s, (name, s) ∈ merged → Every P s := by
  intro name s hs
  have at' := h.at' name
  rw [Keyed.find?_of_mem (Keyed.nodup_of_ascending h.ascending) hs] at at'
  rcases at'.cases with ⟨x, y, ex, ey, e⟩ | ⟨e, _⟩ | ⟨_, e⟩
  · exact hm name x y s ex ey e
  · exact ha name s (Keyed.mem_of_find? e)
  · exact hb name s (Keyed.mem_of_find? e)

/-- `m` accepts what both `a` and `b` accept. -/
def IsMeet (a b m : Schema) : Prop :=
  ∀ v : Json, v.Proper → (m.accepts v = true ↔ a.accepts v = true ∧ b.accepts v = true)

theorem isMeet_object {merged : Keyed Schema} (h : Merges rules others as bs merged)
    (ra : RegularPart (.object as rules)) (rb : RegularPart (.object bs others))
    (ih : ∀ name a b m, as.find? name = some a → bs.find? name = some b →
      intersect a b = some m → IsMeet a b m) :
    IsMeet (.object as rules) (.object bs others)
      (.object merged (rules.meet others as bs merged)) := by
  intro v pv
  rw [accepts_object_iff h.ascending, accepts_object_iff ra.1, accepts_object_iff rb.1]
  have at' {members : Keyed Json} (e : v = .object members) (name : String) :
      AcceptsAt merged (rules.meet others as bs merged) members name ↔
        AcceptsAt as rules members name ∧ AcceptsAt bs others members name := by
    subst e
    refine acceptsAt_merged (h.at' name) ra rb fun a b m ha hb hm w hw => ?_
    exact ih name a b m ha hb hm w
      (Json.properMembers_iff.1 pv.2 (name, w) (Keyed.mem_of_find? hw))
  constructor
  · rintro ⟨members, e, each⟩
    exact ⟨⟨members, e, fun name => ((at' e name).1 (each name)).1⟩,
      members, e, fun name => ((at' e name).1 (each name)).2⟩
  · rintro ⟨⟨members, e, each⟩, members', e', each'⟩
    obtain rfl : members = members' := by rw [e] at e'; exact Json.object.inj e'
    exact ⟨members, e, fun name => (at' e name).2 ⟨each name, each' name⟩⟩

theorem isMeet_array {x y m : Schema} {length length' : Length} (h : IsMeet x y m) :
    IsMeet (.array x length) (.array y length') (.array m (length.meet length')) := by
  intro v pv
  rw [accepts_array, accepts_array, accepts_array]
  constructor
  · rintro ⟨values, rfl, admits, each⟩
    have admits := Length.admits_meet.1 admits
    have both (w : Json) (hw : w ∈ values) := (h w (Json.properItems_iff.1 pv w hw)).1 (each w hw)
    exact ⟨⟨values, rfl, admits.1, fun w hw => (both w hw).1⟩,
      values, rfl, admits.2, fun w hw => (both w hw).2⟩
  · rintro ⟨⟨values, rfl, admits, each⟩, _, ⟨⟩, admits', each'⟩
    exact ⟨values, rfl, Length.admits_meet.2 ⟨admits, admits'⟩, fun w hw =>
      (h w (Json.properItems_iff.1 pv w hw)).2 ⟨each w hw, each' w hw⟩⟩

theorem isMeet_scalar {x y m : Scalar} (h : x.meet? y = some m) (rx : x.Regular) (ry : y.Regular) :
    IsMeet (.scalar x) (.scalar y) (.scalar m) := by
  intro v pv
  rw [accepts_scalar_iff, accepts_scalar_iff, accepts_scalar_iff]
  exact Scalar.fits_meet h rx ry pv

theorem every_any {P : Schema → Prop} (h : P .any) : Every P .any := by
  intro t ht
  rw [List.mem_singleton.1 ht]
  exact h

theorem every_scalar {P : Schema → Prop} {s : Scalar} (h : P (.scalar s)) : Every P (.scalar s) := by
  intro t ht
  rw [List.mem_singleton.1 ht]
  exact h

/-! ## 5. Induction along merges -/

/-- What an induction along merges asks for: `R` is said of two schemas and their merge, `All` of
    branches and the merge of them all. -/
structure MergeSteps (R : Schema → Schema → Schema → Prop) (All : List Schema → Schema → Prop) :
    Prop where
  symm : ∀ {a b m : Schema}, R a b m → R b a m
  any : ∀ s : Schema, R .any s s
  allOf : ∀ {branches : List Schema} {merged b m : Schema}, intersectAll branches = some merged →
    All branches merged → R merged b m → R (.allOf branches) b m
  scalar : ∀ {x y m : Scalar}, x.meet? y = some m → R (.scalar x) (.scalar y) (.scalar m)
  object : ∀ {as bs : Keyed Schema} {rules others : ObjectRules}
    {merged : PropertiesWithin (sizeProperties as + sizeProperties bs)},
    meetProperties rules others as bs = some merged →
    (∀ name a b m, as.find? name = some a → bs.find? name = some b → intersect a b = some m →
      R a b m) →
    R (.object as rules) (.object bs others) (.object merged.1 (rules.meet others as bs merged.1))
  array : ∀ {x y m : Schema} {length length' : Length}, R x y m →
    R (.array x length) (.array y length') (.array m (length.meet length'))
  single : ∀ s : Schema, All [s] s
  cons : ∀ {a b m last : Schema} {rest : List Schema}, intersect a b = some m → R a b m →
    All (m :: rest) last → All (a :: b :: rest) last

namespace MergeSteps

variable {R : Schema → Schema → Schema → Prop} {All : List Schema → Schema → Prop} {n : Nat}

theorem onto (steps : MergeSteps R All)
    (below : ∀ a b m, a.size + b.size < n → intersect a b = some m → R a b m) {merged : Schema}
    {branches : List Schema} (lt : merged.size + sizeBranches branches < n)
    {m : Within (merged.size + sizeBranches branches)} (h : meetOnto merged branches = some m) :
    All (merged :: branches) m.1 := by
  induction branches generalizing merged with
  | nil =>
      rw [meetOnto] at h
      cases h
      exact steps.single merged
  | cons b rest ih =>
      rw [meetOnto] at h
      obtain ⟨first, hf, h⟩ := Option.bind_eq_some_iff.1 h
      obtain ⟨last, hl, h⟩ := Option.bind_eq_some_iff.1 h
      cases h
      simp only [sizeBranches] at lt
      have met : intersect merged b = some first.1 := intersect_eq_some_iff.2 ⟨first.2, hf⟩
      exact steps.cons met (below _ _ _ (by omega) met) (ih (by have := first.2; omega) hl)

theorem all (steps : MergeSteps R All)
    (below : ∀ a b m, a.size + b.size < n → intersect a b = some m → R a b m)
    {branches : List Schema} (lt : sizeBranches branches < n)
    {m : Within (sizeBranches branches)} (h : meetAll branches = some m) : All branches m.1 := by
  cases branches with
  | nil => rw [meetAll] at h; cases h
  | cons first rest =>
      rw [meetAll] at h
      obtain ⟨m', hm, h⟩ := Option.bind_eq_some_iff.1 h
      cases h
      exact steps.onto below lt hm

/-- An intersection on one side is merged first, and the merge is smaller than it. -/
theorem merged (steps : MergeSteps R All)
    (below : ∀ a b m, a.size + b.size < n → intersect a b = some m → R a b m)
    {branches : List Schema} {b : Schema} (lt : (Schema.allOf branches).size + b.size < n + 1)
    {first : Within (sizeBranches branches)} (hall : meetAll branches = some first)
    {last : Within (first.1.size + b.size)} (hl : meet first.1 b = some last) :
    R (.allOf branches) b last.1 := by
  simp only [size] at lt
  have := first.2
  exact steps.allOf (by rw [intersectAll, hall]; rfl) (steps.all below (by omega) hall)
    (below _ _ _ (by omega) (intersect_eq_some_iff.2 ⟨last.2, hl⟩))

/-- The induction is on the size of both schemas together. -/
theorem below (steps : MergeSteps R All) (n : Nat) :
    ∀ a b m, a.size + b.size < n → intersect a b = some m → R a b m := by
  induction n with
  | zero => exact fun a b m lt => absurd lt (Nat.not_lt_zero _)
  | succ n ih =>
      intro a b m lt h
      obtain ⟨hm, h⟩ := intersect_eq_some_iff.1 h
      rw [meet.eq_def] at h
      split at h
      · cases h
        exact steps.any _
      · cases h
        exact steps.symm (steps.any _)
      · obtain ⟨first, hall, h⟩ := Option.bind_eq_some_iff.1 h
        obtain ⟨last, hl, h⟩ := Option.bind_eq_some_iff.1 h
        cases h
        exact steps.merged ih lt hall hl
      · obtain ⟨first, hall, h⟩ := Option.bind_eq_some_iff.1 h
        obtain ⟨last, hl, h⟩ := Option.bind_eq_some_iff.1 h
        cases h
        exact steps.symm (steps.merged ih (Nat.add_comm _ _ ▸ lt) hall hl)
      · obtain ⟨s, hs, e⟩ := Option.map_eq_some_iff.1 h
        cases e
        exact steps.scalar hs
      · obtain ⟨properties, hp, h⟩ := Option.bind_eq_some_iff.1 h
        cases h
        refine steps.object hp fun name x y z hx hy hz => ih x y z ?_ hz
        have := size_le_of_find? hx
        have := size_le_of_find? hy
        simp only [size] at lt
        omega
      · obtain ⟨items, hi, h⟩ := Option.bind_eq_some_iff.1 h
        cases h
        simp only [size] at lt
        exact steps.array (ih _ _ _ (by omega) (intersect_eq_some_iff.2 ⟨items.2, hi⟩))
      · cases h

/-- **Induction along the merge of two schemas.** -/
theorem of_intersect (steps : MergeSteps R All) {a b m : Schema} (h : intersect a b = some m) :
    R a b m := steps.below _ a b m (Nat.lt_succ_self _) h

/-- **Induction along the merge of branches.** -/
theorem of_intersectAll (steps : MergeSteps R All) {branches : List Schema} {m : Schema}
    (h : intersectAll branches = some m) : All branches m := by
  obtain ⟨merged, hall, e⟩ := Option.map_eq_some_iff.1 h
  rw [← e]
  exact steps.all (steps.below _) (Nat.lt_succ_self _) hall

end MergeSteps

/-! ## 6. What merging keeps -/

/-- What two scalars, objects or arrays have, their merge has. -/
structure KeptByMerging (P : Schema → Prop) : Prop where
  scalar : ∀ {x y m : Scalar}, x.meet? y = some m → P (.scalar x) → P (.scalar y) → P (.scalar m)
  object : ∀ {as bs merged : Keyed Schema} {rules others : ObjectRules},
    Merges rules others as bs merged → P (.object as rules) → P (.object bs others) →
    P (.object merged (rules.meet others as bs merged))
  array : ∀ {x y m : Schema} {length length' : Length}, P (.array x length) →
    P (.array y length') → P (.array m (length.meet length'))

namespace KeptByMerging

variable {P Q : Schema → Prop} {branches : List Schema} {m : Schema}

theorem and (hp : KeptByMerging P) (hq : KeptByMerging Q) : KeptByMerging fun s => P s ∧ Q s where
  scalar h px py := ⟨hp.scalar h px.1 py.1, hq.scalar h px.2 py.2⟩
  object h pa pb := ⟨hp.object h pa.1 pb.1, hq.object h pa.2 pb.2⟩
  array px py := ⟨hp.array px.1 py.1, hq.array px.2 py.2⟩

/-- A merge has everywhere inside what the two have everywhere inside. Their properties have to
    ascend, or the walk through them misses some. -/
theorem steps (kept : KeptByMerging P) (regular : ∀ s, P s → RegularPart s) :
    MergeSteps (fun a b m => Every P a → Every P b → Every P m)
      (fun branches m => (∀ b ∈ branches, Every P b) → Every P m) where
  symm h pb pa := h pa pb
  any _ _ ps := ps
  allOf _ hall h pa pb := h (hall fun _ hc => pa.allOf hc) pb
  scalar h px py := every_scalar (kept.scalar h px.self py.self)
  object h ih pa pb :=
    have merges := merges_meetProperties (regular _ pa.self).1 (regular _ pb.self).1 h
    Every.object_iff.2 ⟨kept.object merges pa.self pb.self,
      merges.every (fun _ _ hs => pa.property hs) (fun _ _ hs => pb.property hs)
        fun name x y z hx hy hz => ih name x y z hx hy hz (pa.property (Keyed.mem_of_find? hx))
          (pb.property (Keyed.mem_of_find? hy))⟩
  array h px py := Every.array_iff.2 ⟨kept.array px.self py.self, h px.items py.items⟩
  single s hs := hs s (by simp)
  cons _ h hall hs := hall (List.forall_mem_cons.2
    ⟨h (hs _ (by simp)) (hs _ (by simp)), fun c hc => hs c (by simp [hc])⟩)

theorem regularPart : KeptByMerging RegularPart where
  scalar h rx ry := Scalar.Regular.meet h rx ry
  object h ra rb := by
    refine ⟨h.ascending, fun name hn => h.declared ra rb ?_⟩
    simpa only [ObjectRules.requires, List.contains_iff_mem] using mem_union.1 hn
  array _ _ := trivial

/-- **What merging keeps and two schemas have everywhere inside, their merge has.** -/
theorem of_intersect {a b : Schema} (kept : KeptByMerging P) (ra : a.Regular) (rb : b.Regular)
    (pa : Every P a) (pb : Every P b) (e : intersect a b = some m) : Every P m :=
  (Every.and_iff.1 (((regularPart.and kept).steps fun _ => And.left).of_intersect e
    (Every.and_iff.2 ⟨ra, pa⟩) (Every.and_iff.2 ⟨rb, pb⟩))).2

/-- **What merging keeps and all branches have everywhere inside, their merge has.** -/
theorem of_intersectAll (kept : KeptByMerging P) (regular : ∀ b ∈ branches, b.Regular)
    (h : ∀ b ∈ branches, Every P b) (e : intersectAll branches = some m) : Every P m :=
  (Every.and_iff.1 (((regularPart.and kept).steps fun _ => And.left).of_intersectAll e
    fun b hb => Every.and_iff.2 ⟨regular b hb, h b hb⟩)).2

end KeptByMerging

theorem regular_of_intersect {a b m : Schema} (ra : a.Regular) (rb : b.Regular)
    (e : intersect a b = some m) : m.Regular :=
  (KeptByMerging.regularPart.steps fun _ => id).of_intersect e ra rb

theorem regular_of_intersectAll {branches : List Schema} {m : Schema}
    (regular : ∀ b ∈ branches, b.Regular) (e : intersectAll branches = some m) : m.Regular :=
  (KeptByMerging.regularPart.steps fun _ => id).of_intersectAll e regular

/-! ## 7. The merge -/

/-- `m` accepts what all the branches accept, and is as regular as they are. -/
structure IsMeetAll (branches : List Schema) (m : Schema) : Prop where
  regular : m.Regular
  requires : (∀ b ∈ branches, b.RequiresDeclared) → m.RequiresDeclared
  small : (∀ b ∈ branches, b.SmallBounds) → m.SmallBounds
  names : ∀ Q, (∀ b ∈ branches, b.AllNames Q) → m.AllNames Q
  accepts : ∀ v : Json, v.Proper → (m.accepts v = true ↔ ∀ b ∈ branches, b.accepts v = true)

theorem mergeSteps_isMeet :
    MergeSteps (fun a b m => a.Regular → b.Regular → IsMeet a b m)
      (fun branches m => (∀ b ∈ branches, b.Regular) → ∀ v : Json, v.Proper →
        (m.accepts v = true ↔ ∀ b ∈ branches, b.accepts v = true)) where
  symm h rb ra v pv := (h ra rb v pv).trans And.comm
  any _ _ _ v _ := by simp
  allOf {branches _ _ _} e hall h ra rb v pv := by
    have regular : ∀ c ∈ branches, c.Regular := fun _ hc => ra.allOf hc
    rw [h (regular_of_intersectAll regular e) rb v pv, hall regular v pv, accepts_allOf]
  scalar h rx ry := isMeet_scalar h rx.self ry.self
  object h ih ra rb :=
    isMeet_object (merges_meetProperties ra.self.1 rb.self.1 h) ra.self rb.self
      fun name x y z hx hy hz => ih name x y z hx hy hz
        (ra.property (Keyed.mem_of_find? hx)) (rb.property (Keyed.mem_of_find? hy))
  array h ra rb := isMeet_array (h ra.items rb.items)
  single s _ v _ := by simp
  cons {a b _ _ _} e h hall hs v pv := by
    have ra : a.Regular := hs a (by simp)
    have rb : b.Regular := hs b (by simp)
    rw [hall (List.forall_mem_cons.2
      ⟨regular_of_intersect ra rb e, fun c hc => hs c (by simp [hc])⟩) v pv]
    simp only [List.forall_mem_cons, h ra rb v pv, and_assoc]

variable {a b m : Schema} {branches : List Schema}

/-- **A merge of two regular schemas accepts what both accept.** -/
theorem isMeet_of_intersect (ra : a.Regular) (rb : b.Regular) (h : intersect a b = some m) :
    IsMeet a b m := mergeSteps_isMeet.of_intersect h ra rb

/-- **A merge of regular branches accepts what all of them accept, and is as regular.** -/
theorem isMeetAll_of_intersectAll (hb : ∀ b ∈ branches, b.Regular)
    (h : intersectAll branches = some m) : IsMeetAll branches m where
  regular := regular_of_intersectAll hb h
  requires q := by
    refine KeptByMerging.of_intersectAll ?_ hb q h
    refine ⟨fun _ _ _ => trivial, fun merges qa qb name hn => ?_, fun _ _ => trivial⟩
    rw [requires_meet, Bool.or_eq_true]
    exact (merges.names name hn).imp (qa name) (qb name)
  small q := by
    refine KeptByMerging.of_intersectAll ?_ hb q h
    exact ⟨Scalar.small_meet, fun _ _ _ => trivial, fun _ _ => trivial⟩
  names Q q := by
    refine KeptByMerging.of_intersectAll ?_ hb q h
    refine ⟨fun _ _ _ => trivial, fun merges qa qb name hn => ?_, fun _ _ => trivial⟩
    exact (merges.names name hn).elim (qa name) (qb name)
  accepts := mergeSteps_isMeet.of_intersectAll h hb

theorem Regular.isMeetAll (h : (allOf branches).Regular) (e : intersectAll branches = some m) :
    IsMeetAll branches m := isMeetAll_of_intersectAll (fun _ hb => h.allOf hb) e

/-! ## 8. Well-formed schemas -/

theorem meetOnto_eq_foldlM (merged : Schema) (branches : List Schema) :
    (meetOnto merged branches).map (·.1) = branches.foldlM intersect merged := by
  induction branches generalizing merged with
  | nil => rw [meetOnto]; rfl
  | cons b rest ih =>
      rw [meetOnto, List.foldlM_cons, intersect]
      cases meet merged b with
      | none => rfl
      | some first =>
          show Option.map _ ((meetOnto first.1 rest).bind _) = rest.foldlM intersect first.1
          rw [← ih]
          cases meetOnto first.1 rest <;> rfl

/-- All branches are merged by merging one after the other into the first. -/
theorem intersectAll_eq_foldlM (first : Schema) (rest : List Schema) :
    intersectAll (first :: rest) = rest.foldlM intersect first := by
  rw [intersectAll, meetAll, ← meetOnto_eq_foldlM]
  cases meetOnto first rest <;> rfl

/-- **Merging is exact.** Whether two well-formed schemas are merged or any number of them, one after
    the other: the merge accepts a value if and only if each of them does. What is merged on the way
    need not be well formed any more. -/
theorem accepts_merge_iff :
    (∀ a b m : Schema, a.isWellFormed = true → a.Proper → b.isWellFormed = true → b.Proper →
      intersect a b = some m →
      ∀ v : Json, v.Proper → (m.accepts v = true ↔ a.accepts v = true ∧ b.accepts v = true)) ∧
    ∀ (first : Schema) (rest : List Schema),
      intersectAll (first :: rest) = rest.foldlM intersect first ∧
      ∀ m, (∀ s ∈ first :: rest, s.isWellFormed = true ∧ s.Proper) →
        intersectAll (first :: rest) = some m →
        ∀ v : Json, v.Proper → (m.accepts v = true ↔ ∀ s ∈ first :: rest, s.accepts v = true) := by
  have regular {s : Schema} (wf : s.isWellFormed = true) (proper : s.Proper) : s.Regular :=
    (isWellFormed_iff.1 wf).regular proper
  refine ⟨fun a b m wa pa wb pb h => ?_, fun first rest =>
    ⟨intersectAll_eq_foldlM first rest, fun m hs h => ?_⟩⟩
  · exact isMeet_of_intersect (regular wa pa) (regular wb pb) h
  · exact (isMeetAll_of_intersectAll (fun s hm => regular (hs s hm).1 (hs s hm).2) h).accepts

/-- An object with an integer from 1 and perhaps a truth value. -/
def countAndFlag : Schema :=
  .object [("count", .scalar { kind := .integer, minimum := some (.inclusive (.ofInt 1)) }),
    ("flag", .scalar { kind := .boolean })] { required := ["count"] }

/-- Nothing but a number up to 3, if anything. -/
def countUpToThree : Schema :=
  .object [("count", .scalar { kind := .number, maximum := some (.inclusive (.ofInt 3)) })]
    { isOpen := false }

/-- An object with 2, 3 or 4 as its count, if it has one. -/
def countTwoToFour : Schema :=
  .object [("count", .scalar { kind := .number, enumeration := some [.int 2, .int 3, .int 4] })] {}

theorem accepts_merge_iff_counts :
    (∃ m, intersect countAndFlag countUpToThree = some m ∧ ∀ v : Json, v.Proper →
      (m.accepts v = true ↔ countAndFlag.accepts v = true ∧ countUpToThree.accepts v = true)) ∧
    ∃ m, intersectAll [countAndFlag, countUpToThree, countTwoToFour] = some m ∧
      m.accepts (.object [("count", .int 2)]) = true ∧
      m.accepts (.object [("count", .int 4)]) = false := by
  have wf : ∀ s ∈ [countAndFlag, countUpToThree, countTwoToFour],
      s.isWellFormed = true ∧ s.Proper := by
    simp only [List.forall_mem_cons]
    refine ⟨⟨by decide, ?_⟩, ⟨by decide, ?_⟩, ⟨by decide, ?_⟩, by simp⟩
    all_goals
      simp [Proper, Every, parts, partsOfProperties, ProperPart, Scalar.Proper, countAndFlag,
        countUpToThree, countTwoToFour, Json.int, Json.Proper, Number.Proper,
        ObjectRules.proper_plain_iff]
    · exact show ["count", "flag"].Pairwise (· < ·) by decide
    · exact List.pairwise_singleton _ _
    · exact List.pairwise_singleton _ _
  have pair : ∃ m, intersect countAndFlag countUpToThree = some m := by
    simp [intersect, meet, meetProperties, loneProperty, countAndFlag, countUpToThree,
      Scalar.meet?, ScalarKind.meet?, ObjectRules.requires, mergeOption]
  have all : ∃ m, intersectAll [countAndFlag, countUpToThree, countTwoToFour] = some m := by
    simp [intersectAll, meetAll, meetOnto, meet, meetProperties, loneProperty, countAndFlag,
      countUpToThree, countTwoToFour, Scalar.meet?, ScalarKind.meet?, ObjectRules.requires,
      ObjectRules.meet, mergeOption]
  have value (n : Int) (small : 0 ≤ n ∧ n < 10) : (Json.object [("count", .int n)]).Proper :=
    ⟨List.pairwise_singleton _ _, show -2 ^ 63 ≤ n ∧ n < 2 ^ 64 by omega, trivial⟩
  obtain ⟨pairMerge, hp⟩ := pair
  obtain ⟨merge, hm⟩ := all
  have pairExact := accepts_merge_iff.1 _ _ _ (wf countAndFlag (by simp)).1
    (wf countAndFlag (by simp)).2 (wf countUpToThree (by simp)).1 (wf countUpToThree (by simp)).2 hp
  have allExact := (accepts_merge_iff.2 _ _).2 merge wf hm
  refine ⟨⟨pairMerge, hp, pairExact⟩, merge, hm, ?_, Bool.eq_false_iff.2 fun accepted => ?_⟩
  · exact (allExact _ (value 2 (by decide))).2 (by decide)
  · exact absurd ((allExact _ (value 4 (by decide))).1 accepted) (by decide)

/-- Two scalars are merged as scalars. -/
theorem intersectAll_scalars (x y : Scalar) :
    intersectAll [.scalar x, .scalar y] = (x.meet? y).map .scalar := by
  simp only [intersectAll, meetAll, meetOnto, meet]
  cases x.meet? y <;> rfl

end Schema

end TypedPipeline
