import TypedPipeline.Proofs.Schema.Subsumption
import TypedPipeline.Proofs.Schema.Containment

/-!
# Proofs.Schema.Reflexivity: when a schema fits itself

A schema is compared with itself like any other one, and the producer's intersections are opened before
the consumer's unions. An intersection that is a branch of a union is therefore not compared with
itself. This file fixes:

* that everything else is: a schema fits itself if the intersections fit the unions they are branches of
  (`isSubsumedBy_self`);
* a relation by the structure alone (`Narrows`) that every merge has to what was merged
  (`narrows_of_intersectAll`), and that small bounds make it fit;
* the schemas without unions that are left of a producer when everything that can be opened and merged
  is (`Piece`). They fit the schema that they are pieces of, so an intersection that merges all the way
  (`Settles`) fits the union that it is a branch of;
* **the condition under which a schema, and everything inside it, fits itself**
  (`isSubsumedBy_refl`).
-/

namespace TypedPipeline

/-! ## 1. Narrower scalars -/

namespace Scalar

variable {x y z m : Scalar}

/-- The scalar says of itself, member by member and bound by bound, that its values are values of
    another one. -/
structure Narrows (x y : Scalar) : Prop where
  kind : x.KindFits y
  values : ∀ v : Json, v.Proper → x.Fits v → y.Fits v
  low : ∀ b ∈ y.minimum, ∃ a ∈ x.minimum, a.AtLeast b
  high : ∀ b ∈ y.maximum, ∃ a ∈ x.maximum, a.AtMost b
  listed : x.enumeration = none → y.enumeration = none

theorem Narrows.refl (regular : x.Regular) : x.Narrows x where
  kind := Or.inl rfl
  values _ _ := id
  low b hb := ⟨b, hb, .refl (Binary64.isNaN_of_isFinite (regular.low b hb))⟩
  high b hb := ⟨b, hb, .refl (Binary64.isNaN_of_isFinite (regular.high b hb))⟩
  listed := id

theorem Narrows.trans (h : x.Narrows y) (h' : y.Narrows z) : x.Narrows z where
  kind := by
    rcases h.kind with e | ⟨e, e'⟩
    · exact h'.kind.imp (e.trans ·) (fun k => ⟨e.trans k.1, k.2⟩)
    · rcases h'.kind with k | ⟨k, _⟩
      · exact Or.inr ⟨e, k.symm.trans e'⟩
      · rw [e'] at k
        cases k
  values v pv fits := h'.values v pv (h.values v pv fits)
  low c hc := by
    obtain ⟨b, hb, le⟩ := h'.low c hc
    obtain ⟨a, ha, le'⟩ := h.low b hb
    exact ⟨a, ha, le'.trans le⟩
  high c hc := by
    obtain ⟨b, hb, le⟩ := h'.high c hc
    obtain ⟨a, ha, le'⟩ := h.high b hb
    exact ⟨a, ha, le'.trans le⟩
  listed e := h'.listed (h.listed e)

/-- The choice between two optional values stands for each of them. -/
theorem exists_mergeOption {α : Type} {P : α → α → Prop} {choose : α → α → α} {o o' : Option α}
    (both : ∀ a ∈ o, ∀ b ∈ o', P (choose a b) a ∧ P (choose a b) b) (left : ∀ a ∈ o, P a a)
    (right : ∀ b ∈ o', P b b) :
    (∀ a ∈ o, ∃ c ∈ mergeOption choose o o', P c a) ∧
      ∀ b ∈ o', ∃ c ∈ mergeOption choose o o', P c b := by
  cases o with
  | none => cases o' <;> simp_all [mergeOption]
  | some a => cases o' <;> simp_all [mergeOption]

/-- **What two scalars merge into narrows both.** -/
theorem narrows_meet (h : x.meet? y = some m) (rx : x.Regular) (ry : y.Regular) :
    m.Narrows x ∧ m.Narrows y := by
  obtain ⟨kind, low, high, enumeration⟩ := of_meet?_eq_some h
  have number {z : Scalar} (rz : z.Regular) :
      (∀ b ∈ z.minimum, b.value.isNaN = false) ∧ ∀ b ∈ z.maximum, b.value.isNaN = false :=
    ⟨fun b hb => Binary64.isNaN_of_isFinite (rz.low b hb),
      fun b hb => Binary64.isNaN_of_isFinite (rz.high b hb)⟩
  have lower := exists_mergeOption (P := Bound.AtLeast) (fun a ha b hb =>
    Bound.atLeast_tighterLower ((number rx).1 a ha) ((number ry).1 b hb))
    (fun a ha => .refl ((number rx).1 a ha)) fun b hb => .refl ((number ry).1 b hb)
  have upper := exists_mergeOption (P := Bound.AtMost) (fun a ha b hb =>
    Bound.atMost_tighterUpper ((number rx).2 a ha) ((number ry).2 b hb))
    (fun a ha => .refl ((number rx).2 a ha)) fun b hb => .refl ((number ry).2 b hb)
  have kinds : m.KindFits x ∧ m.KindFits y := by
    unfold KindFits
    cases hx : x.kind <;> cases hy : y.kind <;> simp_all [ScalarKind.meet?]
  have listed : m.enumeration = none → x.enumeration = none ∧ y.enumeration = none := by
    rw [enumeration]
    cases x.enumeration <;> cases y.enumeration <;> simp [mergeOption]
  rw [← low] at lower
  rw [← high] at upper
  exact ⟨⟨kinds.1, fun v pv fits => ((fits_meet h rx ry pv).1 fits).1, lower.1, upper.1,
      fun e => (listed e).1⟩,
    kinds.2, fun v pv fits => ((fits_meet h rx ry pv).1 fits).2, lower.2, upper.2,
      fun e => (listed e).2⟩

/-- **A scalar fits what it narrows**, if its bounds are small. -/
theorem Narrows.scalarMismatch? (h : x.Narrows y) (regular : x.Regular)
    (small : x.SmallIfInteger) : Schema.scalarMismatch? x y = none := by
  cases he : x.effectiveEnumeration with
  | some members =>
      refine (Schema.scalarMismatch?_enumerated he).2 fun m hm => Schema.accepts_scalar_iff.2 ?_
      obtain ⟨proper, fits⟩ := fits_of_mem_effective regular he hm
      exact h.values m proper fits
  | none =>
      have bare := effectiveEnumeration_eq_none_iff.1 he
      obtain ⟨low, high⟩ := exists_atLeast_tightRange regular small
      refine (Schema.scalarMismatch?_bare bare).2
        ⟨h.kind, fun listed => absurd (h.listed bare) listed, fun _ c hc => ?_, fun _ c hc => ?_⟩
      · obtain ⟨b, hb, le⟩ := h.low c hc
        obtain ⟨a, ha, le'⟩ := low b hb
        exact ⟨a, ha, le'.trans le⟩
      · obtain ⟨b, hb, le⟩ := h.high c hc
        obtain ⟨a, ha, le'⟩ := high b hb
        exact ⟨a, ha, le'.trans le⟩

end Scalar

namespace Schema

/-! ## 2. Narrower schemas -/

/-- The producer says of itself, part by part, that its values are values of the consumer. Unions are
    only set beside themselves. -/
inductive Narrows : Schema → Schema → Prop where
  | any {a} : Narrows a .any
  | union {u branches} : IsUnion u branches → Narrows u u
  | every {a branches} : (∀ b ∈ branches, Narrows a b) → Narrows a (.allOf branches)
  | some {branches b c} : c ∈ branches → Narrows c b → Narrows (.allOf branches) b
  | scalar {x y} : x.Narrows y → Narrows (.scalar x) (.scalar y)
  | object {as bs rules others} :
      (∀ name a b, Keyed.find? as name = some a → (name, b) ∈ bs → Narrows a b) →
      (∀ name b, Keyed.find? as name = none → (name, b) ∈ bs → rules.isOpen = false) →
      (∀ name, others.requires name = true → rules.requires name = true) →
      (others.isOpen = false →
        (∀ name ∈ Keyed.names as, Keyed.has bs name = true) ∧ rules.isOpen = false) →
      Narrows (.object as rules) (.object bs others)
  | array {x y length length'} : lengthFits length length' = true → Narrows x y →
      Narrows (.array x length) (.array y length')

variable {a b c m p s : Schema} {branches : List Schema}

theorem Narrows.refl (regular : s.Regular) : Narrows s s := by
  induction s using Schema.induction with
  | any => exact .any
  | scalar x => exact .scalar (.refl regular.self)
  | object properties rules ih =>
      have nodup := Keyed.nodup_of_ascending regular.self.1
      refine .object (fun name a b ha hb => ?_) (fun name b ha hb => ?_) (fun _ => id)
        fun shut => ⟨fun name hn => ?_, shut⟩
      · rw [Keyed.find?_of_mem nodup hb] at ha
        cases ha
        exact ih name a hb (regular.property hb)
      · rw [Keyed.find?_of_mem nodup hb] at ha
        cases ha
      · exact Keyed.has_iff.2 hn
  | array items length ih => exact .array (lengthFits_refl length) (ih regular.items)
  | anyOf branches _ => exact .union (Or.inl rfl)
  | allOf branches ih => exact .every fun b hb => .some hb (ih b hb (regular.allOf hb))
  | oneOf branches _ => exact .union (Or.inr rfl)

theorem narrows_allOf : Narrows a (.allOf branches) ↔ ∀ b ∈ branches, Narrows a b := by
  refine ⟨fun h => ?_, .every⟩
  generalize e : Schema.allOf branches = c at h
  induction h with
  | every h _ => cases e; exact h
  | some hc _ ih => exact fun b hb => .some hc (ih e b hb)
  | union union => subst e; rcases union with e | e <;> cases e
  | _ => cases e

/-- To narrow what another schema narrows, it is enough to look at consumers that are not taken apart. -/
theorem Narrows.transfer (h : Narrows a c)
    (step : ∀ c, c ≠ .any → (∀ bs, c ≠ .allOf bs) → Narrows a c → Narrows m c) : Narrows m c := by
  induction c using Schema.induction with
  | any => exact .any
  | allOf bs ih => exact .every fun b hb => ih b hb (narrows_allOf.1 h b hb)
  | _ => exact step _ (by simp) (by simp) h

/-- The unions inside fit themselves. -/
def UnionsReflexive : Schema → Prop := Every fun u =>
  ∀ branches, IsUnion u branches → u.isSubsumedBy u = true

/-- **A schema fits what it narrows**, if its unions fit themselves and its bounds are small. -/
theorem Narrows.isSubsumedBy (h : Narrows a b) (regular : a.Regular) (bounds : a.IntegerBounds)
    (unions : a.UnionsReflexive) : a.isSubsumedBy b = true := by
  induction h with
  | any => exact isSubsumedBy_any
  | union union => exact unions.self _ union
  | every _ ih => exact isSubsumedBy_allOf.2 fun b hb => ih b hb regular bounds unions
  | some hc _ ih =>
      exact isSubsumedBy_of_branch hc (ih (regular.allOf hc) (bounds.allOf hc) (unions.allOf hc))
  | scalar h => exact scalar_isSubsumedBy.2 (h.scalarMismatch? regular.self bounds.self)
  | @object as bs rules others _ _ required closed ih =>
      refine object_isSubsumedBy.2 ⟨fun name a b ha hb => ?_, fun name b ha _ => ?_, closed⟩
      · have declared := Keyed.mem_of_find? ha
        exact ih name a b ha hb (regular.property declared) (bounds.property declared)
          (unions.property declared)
      · refine Bool.not_eq_true _ ▸ fun hr => ?_
        obtain ⟨a, declared⟩ := regular.self.declared (required name hr)
        rw [ha] at declared
        cases declared
  | array fits _ ih =>
      exact array_isSubsumedBy.2 ⟨fits, ih regular.items bounds.items unions.items⟩

/-! ## 3. Merging narrows -/

variable {as bs : Keyed Schema} {rules others : ObjectRules}

/-- The lengths that two arrays have in common are lengths of both. -/
theorem lengthFits_meet (x y : Length) :
    lengthFits (x.meet y) x = true ∧ lengthFits (x.meet y) y = true := by
  have least : (x.meet y).least.getD 0 = Nat.max (x.least.getD 0) (y.least.getD 0) := by
    unfold Length.meet
    cases x.least <;> cases y.least <;> simp [mergeOption]
  have most : (∀ a ∈ x.most, ∃ c ∈ (x.meet y).most, c ≤ a) ∧
      ∀ b ∈ y.most, ∃ c ∈ (x.meet y).most, c ≤ b :=
    Scalar.exists_mergeOption (fun a _ b _ => ⟨Nat.min_le_left a b, Nat.min_le_right a b⟩)
      (fun a _ => Nat.le_refl a) fun b _ => Nat.le_refl b
  rw [lengthFits_iff, lengthFits_iff, least]
  exact ⟨⟨Nat.le_max_left _ _, most.1⟩, Nat.le_max_right _ _, most.2⟩

/-- An object narrows what another one narrows, if under each name it has what the other one has, or
    something narrower, and what is gone cannot be there. -/
theorem Narrows.of_object {merged : Keyed Schema} {r : ObjectRules}
    (here : ∀ name x, merged.find? name = Option.some x →
      (∃ a, as.find? name = Option.some a ∧ ∀ c, Narrows a c → Narrows x c) ∨
        (as.find? name = none ∧ rules.isOpen = true))
    (gone : ∀ name, merged.find? name = none → as.find? name = none ∨ r.isOpen = false)
    (required : ∀ name, rules.requires name = true → r.requires name = true)
    (shut : rules.isOpen = false → r.isOpen = false) (h : Narrows (.object as rules) c) :
    Narrows (.object merged r) c := by
  refine h.transfer fun c any allOf h => ?_
  cases h with
  | @object _ cs _ others fitted lacking required' closed =>
      refine .object (fun name x c hx hc => ?_) (fun name c hx hc => ?_)
        (fun name hr => required name (required' name hr)) fun e => ⟨fun name hn => ?_, shut (closed e).2⟩
      · rcases here name x hx with ⟨a, ha, narrows⟩ | ⟨ha, isOpen⟩
        · exact narrows c (fitted name a c ha hc)
        · rw [lacking name c ha hc] at isOpen
          cases isOpen
      · rcases gone name hx with ha | e
        · exact shut (lacking name c ha hc)
        · exact e
      · obtain ⟨x, hx⟩ := Option.isSome_iff_exists.1 (Keyed.has_iff.2 hn)
        rcases here name x hx with ⟨a, ha, _⟩ | ⟨_, isOpen⟩
        · exact (closed e).1 name (List.mem_map.2 ⟨_, Keyed.mem_of_find? ha, rfl⟩)
        · rw [(closed e).2] at isOpen
          cases isOpen
  | _ => simp_all [IsUnion]

/-- A name that one side does not declare is merged only if that side is open. -/
theorem MergedAt.isOpen {name : String} {a b : Option Schema}
    (h : MergedAt rules others name a b (Option.some m)) :
    (a = none → rules.isOpen = true) ∧ (b = none → others.isOpen = true) := by
  cases a <;> cases b <;> simp_all [MergedAt]

/-- A name that is dropped is one that the other side is closed to. -/
theorem MergedAt.shut {name : String} {a b : Option Schema}
    (h : MergedAt rules others name a b none) :
    (a = none ∨ others.isOpen = false) ∧ (b = none ∨ rules.isOpen = false) := by
  cases a <;> cases b <;> simp_all [MergedAt]

/-- What two object schemas merge into narrows what one of them narrows, if that is so of the
    properties that both declare. -/
theorem narrows_merged {merged : Keyed Schema} (h : Merges rules others as bs merged)
    (ih : ∀ name x y z, as.find? name = Option.some x → bs.find? name = Option.some y →
      intersect x y = Option.some z → ∀ c, Narrows x c ∨ Narrows y c → Narrows z c)
    (hc : Narrows (.object as rules) c ∨ Narrows (.object bs others) c) :
    Narrows (.object merged (rules.meet others as bs merged)) c := by
  have shut : (rules.meet others as bs merged).isOpen = (rules.isOpen && others.isOpen) := rfl
  have requires (name : String) : (rules.meet others as bs merged).requires name =
      (rules.requires name || others.requires name) := requires_meet
  rcases hc with hc | hc
  · refine hc.of_object (fun name z hz => ?_) (fun name hz => ?_) (fun name hr => ?_) fun e => ?_
    · have at' := hz ▸ h.at' name
      rcases at'.cases with ⟨x, y, hx, hy, e⟩ | ⟨hx, _⟩ | ⟨hx, _⟩
      · exact Or.inl ⟨x, hx, fun c hc => ih name x y z hx hy e c (Or.inl hc)⟩
      · exact Or.inl ⟨z, hx, fun _ => id⟩
      · exact Or.inr ⟨hx, at'.isOpen.1 hx⟩
    · exact (hz ▸ h.at' name).shut.1.imp_right fun e => by rw [shut, e, Bool.and_false]
    · rw [requires, hr, Bool.true_or]
    · rw [shut, e, Bool.false_and]
  · refine hc.of_object (fun name z hz => ?_) (fun name hz => ?_) (fun name hr => ?_) fun e => ?_
    · have at' := hz ▸ h.at' name
      rcases at'.cases with ⟨x, y, hx, hy, e⟩ | ⟨_, hy⟩ | ⟨_, hy⟩
      · exact Or.inl ⟨y, hy, fun c hc => ih name x y z hx hy e c (Or.inr hc)⟩
      · exact Or.inr ⟨hy, at'.isOpen.2 hy⟩
      · exact Or.inl ⟨z, hy, fun _ => id⟩
    · exact (hz ▸ h.at' name).shut.2.imp_right fun e => by rw [shut, e, Bool.false_and]
    · rw [requires, hr, Bool.or_true]
    · rw [shut, e, Bool.and_false]

/-- What two schemas merge into narrows what one of them narrows. -/
theorem mergeSteps_narrows :
    MergeSteps (fun a b m => a.Regular → b.Regular → ∀ c, Narrows a c ∨ Narrows b c → Narrows m c)
      (fun branches m => (∀ b ∈ branches, b.Regular) →
        ∀ c, (∃ b ∈ branches, Narrows b c) → Narrows m c) where
  symm h rb ra c hc := h ra rb c hc.symm
  any s _ _ c hc := by
    rcases hc with hc | hc
    · refine hc.transfer fun c any allOf h => ?_
      cases h <;> simp_all [IsUnion]
    · exact hc
  allOf {branches merged b m} e all h ra rb c hc := by
    have regular : ∀ c ∈ branches, c.Regular := fun _ hc => ra.allOf hc
    have rm := regular_of_intersectAll regular e
    rcases hc with hc | hc
    · refine hc.transfer fun c any allOf hc => ?_
      cases hc with
      | some hb hc => exact h rm rb c (Or.inl (all regular c ⟨_, hb, hc⟩))
      | _ => simp_all [IsUnion]
    · exact h rm rb c (Or.inr hc)
  scalar {x y m} h rx ry c hc := by
    have both := Scalar.narrows_meet h rx.self ry.self
    have narrow {z : Scalar} (hz : m.Narrows z) (hc : Narrows (.scalar z) c) :
        Narrows (.scalar m) c := by
      refine hc.transfer fun c any allOf hc => ?_
      cases hc with
      | scalar h => exact .scalar (hz.trans h)
      | _ => simp_all [IsUnion]
    exact hc.elim (narrow both.1) (narrow both.2)
  object h ih ra rb _ := narrows_merged (merges_meetProperties ra.self.1 rb.self.1 h)
    fun name x y z hx hy hz => ih name x y z hx hy hz (ra.property (Keyed.mem_of_find? hx))
      (rb.property (Keyed.mem_of_find? hy))
  array {x y m length length'} h rx ry c hc := by
    have both := lengthFits_meet length length'
    have narrow {z : Schema} {l : Length} (hz : ∀ c, Narrows z c → Narrows m c)
        (hl : lengthFits (length.meet length') l = true) (hc : Narrows (.array z l) c) :
        Narrows (.array m (length.meet length')) c := by
      refine hc.transfer fun c any allOf hc => ?_
      cases hc with
      | array fits h => exact .array (lengthFits_trans hl fits) (hz _ h)
      | _ => simp_all [IsUnion]
    exact hc.elim (narrow (fun c hc => h rx.items ry.items c (Or.inl hc)) both.1)
      (narrow (fun c hc => h rx.items ry.items c (Or.inr hc)) both.2)
  single s _ c hc := by simpa using hc
  cons {a b m last rest} e h all hs c hc := by
    obtain ⟨ra, hs⟩ := List.forall_mem_cons.1 hs
    obtain ⟨rb, hs⟩ := List.forall_mem_cons.1 hs
    have rm := regular_of_intersect ra rb e
    refine all (List.forall_mem_cons.2 ⟨rm, hs⟩) c ?_
    obtain ⟨d, hd, narrows⟩ := hc
    rcases List.mem_cons.1 hd with rfl | hd
    · exact ⟨m, List.mem_cons_self, h ra rb c (Or.inl narrows)⟩
    · rcases List.mem_cons.1 hd with rfl | hd
      · exact ⟨m, List.mem_cons_self, h ra rb c (Or.inr narrows)⟩
      · exact ⟨d, List.mem_cons_of_mem _ hd, narrows⟩

/-- **What all branches merge into narrows what one of them narrows.** -/
theorem narrows_of_intersectAll (h : intersectAll branches = Option.some m)
    (regular : ∀ b ∈ branches, b.Regular) (hb : b ∈ branches) (narrows : Narrows b c) :
    Narrows m c := mergeSteps_narrows.of_intersectAll h regular c ⟨b, hb, narrows⟩

/-- What an intersection merges into narrows what the intersection narrows. -/
theorem Narrows.merged (h : intersectAll branches = Option.some m)
    (regular : ∀ b ∈ branches, b.Regular) (narrows : Narrows (.allOf branches) c) : Narrows m c := by
  refine narrows.transfer fun c any allOf narrows => ?_
  cases narrows with
  | some hb narrows => exact narrows_of_intersectAll h regular hb narrows
  | _ => simp_all [IsUnion]

/-! ## 4. Pieces -/

/-- What a producer is taken apart into where every intersection is merged. -/
inductive Piece : Schema → Schema → Prop where
  | self {a : Schema} : a.IsAtomic → Piece a a
  | branch {u b p : Schema} {branches : List Schema} : IsUnion u branches → b ∈ branches →
      Piece b p → Piece u p
  | merged {m p : Schema} {branches : List Schema} : intersectAll branches = some m →
      Piece m p → Piece (.allOf branches) p

/-- The intersections of a producer merge, and so do those that are branches of what they merge
    into. -/
inductive Settles : Schema → Prop where
  | atomic {a : Schema} : a.IsAtomic → Settles a
  | union {u : Schema} {branches : List Schema} : IsUnion u branches →
      (∀ b ∈ branches, Settles b) → Settles u
  | merged {m : Schema} {branches : List Schema} : intersectAll branches = some m → Settles m →
      Settles (.allOf branches)

theorem Piece.isAtomic (h : Piece a p) : p.IsAtomic := by
  induction h with
  | self atomic => exact atomic
  | branch _ _ _ ih => exact ih
  | merged _ _ ih => exact ih

/-- A producer that settles fits a union if its pieces do. -/
theorem Settles.isSubsumedBy (h : Settles a) (union : IsUnion b branches)
    (pieces : ∀ p, Piece a p → p.isSubsumedBy b = true) : a.isSubsumedBy b = true := by
  induction h with
  | atomic atomic => exact pieces _ (.self atomic)
  | union isUnion _ ih =>
      exact isUnion.isSubsumedBy.2 fun c hc => ih c hc fun p hp => pieces p (.branch isUnion hc hp)
  | merged e _ ih =>
      have around : b ≠ .any ∧ ∀ bs, b ≠ .allOf bs := by rcases union with rfl | rfl <;> simp
      exact (allOf_isSubsumedBy around.1 around.2).2
        (Or.inr ⟨_, e, ih fun p hp => pieces p (.merged e hp)⟩)

/-- What is known of a schema that is compared, and of everything inside it. -/
structure Comparable (s : Schema) : Prop where
  regular : s.Regular
  small : s.SmallBounds
  unions : s.UnionsReflexive

theorem Comparable.of_mem {t : Schema} (h : s.Comparable) (ht : t ∈ s.parts) : t.Comparable :=
  ⟨h.regular.of_mem ht, h.small.of_mem ht, h.unions.of_mem ht⟩

theorem SmallBounds.integerBounds (h : s.SmallBounds) : s.IntegerBounds := by
  intro t ht
  have small := h t ht
  cases t with
  | scalar x => exact fun _ => small
  | _ => trivial

/-- Merging makes no unions. -/
theorem Comparable.merged (h : (allOf branches).Comparable)
    (e : intersectAll branches = Option.some m) : m.Comparable := by
  have all := h.regular.isMeetAll e
  refine ⟨all.regular, all.small fun _ hb => h.small.allOf hb, ?_⟩
  refine KeptByMerging.of_intersectAll ?_ (fun _ hb => h.regular.allOf hb)
    (fun _ hb => h.unions.allOf hb) e
  exact ⟨fun _ _ _ => by simp [IsUnion], fun _ _ _ => by simp [IsUnion],
    fun _ _ => by simp [IsUnion]⟩

/-- **A piece of a schema fits what the schema narrows**, above all the schema itself. -/
theorem Piece.isSubsumedBy (h : Piece a p) (comparable : a.Comparable) (narrows : Narrows a c) :
    p.isSubsumedBy c = true := by
  induction h generalizing c with
  | self _ =>
      exact narrows.isSubsumedBy comparable.regular comparable.small.integerBounds comparable.unions
  | @branch u b p branches union hb piece ih =>
      have inside := comparable.of_mem (union.mem_parts hb)
      have fits : p.isSubsumedBy u = true :=
        (piece.isAtomic.isSubsumedBy union).2 ⟨b, hb, ih inside (.refl inside.regular)⟩
      induction c using Schema.induction with
      | any => exact isSubsumedBy_any
      | allOf bs ihc => exact isSubsumedBy_allOf.2 fun b hb => ihc b hb (narrows_allOf.1 narrows b hb)
      | _ =>
          cases narrows with
          | union _ => exact fits
          | _ => simp_all [IsUnion]
  | merged e _ ih =>
      exact ih (comparable.merged e) (narrows.merged e fun _ hb => comparable.regular.allOf hb)

/-! ## 5. Schemas that fit themselves -/

/-- Every intersection fits the union that it is a branch of. -/
def UnionsFitted : Schema → Prop := Every fun u =>
  ∀ branches, IsUnion u branches → ∀ cs, .allOf cs ∈ branches → (allOf cs).isSubsumedBy u = true

/-- Every intersection that is a branch of a union settles. -/
def UnionsSettle : Schema → Prop := Every fun u =>
  ∀ branches, IsUnion u branches → ∀ cs, .allOf cs ∈ branches → Settles (allOf cs)

/-- Without intersections in unions a schema fits itself, and those that there are only have to fit
    the unions that they are branches of. -/
theorem isSubsumedBy_self (sound : s.Sound) (proper : s.Proper) (bounds : s.IntegerBounds)
    (fitted : s.UnionsFitted) : s.isSubsumedBy s = true := by
  have regular := sound.regular proper
  have union {u : Schema} {branches : List Schema} (union : IsUnion u branches) (sound : u.Sound)
      (fitted : u.UnionsFitted) (ih : ∀ b ∈ branches, b.isSubsumedBy b = true) :
      u.isSubsumedBy u = true := by
    refine union.isSubsumedBy.2 fun b hb => ?_
    by_cases opened : ∃ cs, b = .allOf cs
    · obtain ⟨cs, rfl⟩ := opened
      exact fitted.self branches union cs hb
    · exact isSubsumedBy_union (sound.of_mem (union.mem_parts hb)) union hb
        (fun cs e => opened ⟨cs, e⟩) (ih b hb)
  induction s using Schema.induction with
  | any => exact isSubsumedBy_any
  | scalar x =>
      exact scalar_isSubsumedBy.2
        ((Scalar.Narrows.refl regular.self).scalarMismatch? regular.self bounds.self)
  | object properties rules ih =>
      have nodup := Keyed.nodup_of_ascending regular.self.1
      refine object_isSubsumedBy.2 ⟨fun name a b ha hb => ?_, fun name b ha hb => ?_,
        fun shut => ⟨fun name hn => Keyed.has_iff.2 hn, shut⟩⟩
      · rw [Keyed.find?_of_mem nodup hb] at ha
        cases ha
        exact ih name a hb (sound.property hb) (proper.property hb) (bounds.property hb)
          (fitted.property hb) (regular.property hb)
      · rw [Keyed.find?_of_mem nodup hb] at ha
        cases ha
  | array items length ih =>
      exact array_isSubsumedBy.2 ⟨lengthFits_refl length,
        ih sound.items proper.items bounds.items fitted.items regular.items⟩
  | anyOf branches ih =>
      exact union (Or.inl rfl) sound fitted fun b hb => ih b hb (sound.anyOf hb) (proper.anyOf hb)
        (bounds.anyOf hb) (fitted.anyOf hb) (regular.anyOf hb)
  | allOf branches ih =>
      exact isSubsumedBy_allOf.2 fun b hb => isSubsumedBy_of_branch hb (ih b hb (sound.allOf hb)
        (proper.allOf hb) (bounds.allOf hb) (fitted.allOf hb) (regular.allOf hb))
  | oneOf branches ih =>
      exact union (Or.inr rfl) sound fitted fun b hb => ih b hb (sound.oneOf hb) (proper.oneOf hb)
        (bounds.oneOf hb) (fitted.oneOf hb) (regular.oneOf hb)

/-- Everything inside a schema fits itself under the same condition. -/
theorem unionsFitted_iff (sound : s.Sound) (proper : s.Proper) (bounds : s.IntegerBounds) :
    s.UnionsFitted ↔ ∀ t ∈ s.parts, t.isSubsumedBy t = true :=
  ⟨fun fitted _ ht => isSubsumedBy_self (sound.of_mem ht) (proper.of_mem ht) (bounds.of_mem ht)
      (fitted.of_mem ht),
    fun h u hu _ union _ hcs => union.isSubsumedBy.1 (h u hu) _ hcs⟩

/-- **An intersection that settles fits the union that it is a branch of.** -/
theorem unionsFitted_of_settle (sound : s.Sound) (proper : s.Proper) (small : s.SmallBounds)
    (settle : s.UnionsSettle) : s.UnionsFitted := by
  have own {u : Schema} {branches : List Schema} (union : IsUnion u branches) (sound : u.Sound)
      (proper : u.Proper) (small : u.SmallBounds) (settle : u.UnionsSettle)
      (ih : ∀ b ∈ branches, b.UnionsFitted) (cs : List Schema) (hcs : .allOf cs ∈ branches) :
      (allOf cs).isSubsumedBy u = true := by
    have inside := union.mem_parts hcs
    have fits := (unionsFitted_iff (sound.of_mem inside) (proper.of_mem inside)
      (SmallBounds.integerBounds (small.of_mem inside))).1 (ih _ hcs)
    have comparable : (allOf cs).Comparable :=
      ⟨Sound.regular (sound.of_mem inside) (proper.of_mem inside), small.of_mem inside,
        fun t ht _ _ => fits t ht⟩
    refine (settle.self branches union cs hcs).isSubsumedBy union fun p hp => ?_
    exact (hp.isAtomic.isSubsumedBy union).2
      ⟨_, hcs, hp.isSubsumedBy comparable (.refl comparable.regular)⟩
  induction s using Schema.induction with
  | any => exact every_any (by simp [IsUnion])
  | scalar x => exact every_scalar (by simp [IsUnion])
  | object properties rules ih =>
      exact Every.object_iff.2 ⟨by simp [IsUnion], fun name t ht =>
        ih name t ht (sound.property ht) (proper.property ht) (small.property ht) (settle.property ht)⟩
  | array items length ih =>
      exact Every.array_iff.2
        ⟨by simp [IsUnion], ih sound.items proper.items small.items settle.items⟩
  | anyOf branches ih =>
      have inside (b : Schema) (hb : b ∈ branches) : b.UnionsFitted :=
        ih b hb (sound.anyOf hb) (proper.anyOf hb) (small.anyOf hb) (settle.anyOf hb)
      refine Every.anyOf_iff.2 ⟨fun cs union => ?_, inside⟩
      cases union with
      | inl e => cases e; exact own (Or.inl rfl) sound proper small settle inside
      | inr e => cases e
  | allOf branches ih =>
      exact Every.allOf_iff.2 ⟨by simp [IsUnion], fun b hb =>
        ih b hb (sound.allOf hb) (proper.allOf hb) (small.allOf hb) (settle.allOf hb)⟩
  | oneOf branches ih =>
      have inside (b : Schema) (hb : b ∈ branches) : b.UnionsFitted :=
        ih b hb (sound.oneOf hb) (proper.oneOf hb) (small.oneOf hb) (settle.oneOf hb)
      refine Every.oneOf_iff.2 ⟨fun cs union => ?_, inside⟩
      cases union with
      | inl e => cases e
      | inr e => cases e; exact own (Or.inr rfl) sound proper small settle inside

/-- **When a well-formed schema fits itself.** A schema and everything inside it fit themselves exactly
    if every intersection inside fits the union that it is a branch of. With small bounds, those do
    that merge, and go on merging where what they merge into is a union with intersections among its
    branches. An intersection that does not merge is compared branch by branch with a union that it is
    a branch of, and need not fit it. -/
theorem isSubsumedBy_refl {s : Schema} (wf : s.isWellFormed = true) (proper : s.Proper)
    (bounds : s.IntegerBounds) :
    (s.UnionsFitted ↔ ∀ t ∈ s.parts, t.isSubsumedBy t = true) ∧
      (s.SmallBounds → s.UnionsSettle → s.UnionsFitted) := by
  have sound := isWellFormed_iff.1 wf
  exact ⟨unionsFitted_iff sound proper bounds, unionsFitted_of_settle sound proper⟩

/-- An integer from 1 to 3, written as two ranges, or a truth value. -/
def countOrFlag : Schema :=
  .anyOf [.allOf [.scalar { kind := .integer, minimum := some (.inclusive (.ofInt 1)) },
      .scalar { kind := .number, maximum := some (.inclusive (.ofInt 3)) }],
    .scalar { kind := .boolean }]

theorem isSubsumedBy_refl_countOrFlag : countOrFlag.isSubsumedBy countOrFlag = true := by
  have proper : countOrFlag.Proper := by
    simp [Proper, Every, parts, partsOfBranches, ProperPart, Scalar.Proper, countOrFlag]
  have small : countOrFlag.SmallBounds := by
    simp [SmallBounds, Every, parts, partsOfBranches, countOrFlag, Bound.inclusive,
      Binary64.isSmall_ofInt]
  have settle : countOrFlag.UnionsSettle := by
    have own (branches : List Schema) (union : IsUnion countOrFlag branches) (cs : List Schema)
        (hcs : .allOf cs ∈ branches) : Settles (.allOf cs) := by
      rcases union with e | e
      · cases e
        simp only [List.mem_cons, Schema.allOf.injEq, reduceCtorEq, List.not_mem_nil, or_false] at hcs
        subst hcs
        exact .merged ((intersectAll_scalars _ _).trans rfl) (.atomic ⟨by simp, by simp, by simp⟩)
      · cases e
    simp only [UnionsSettle, Every, countOrFlag, parts, partsOfBranches, List.append_nil,
      List.cons_append, List.forall_mem_cons, List.nil_append]
    exact ⟨own, by simp [IsUnion], by simp [IsUnion], by simp [IsUnion], by simp [IsUnion], by simp⟩
  have law := isSubsumedBy_refl (by decide +kernel) proper small.integerBounds
  exact law.1.1 (law.2 small settle) _ (self_mem_parts _)

/-- A text, written as what two unions have in common, or a truth value. -/
def textOrFlag : Schema :=
  .anyOf [.allOf [.anyOf [.scalar { kind := .string }, .scalar { kind := .integer }],
      .anyOf [.scalar { kind := .string }, .scalar { kind := .null }]],
    .scalar { kind := .boolean }]

/-- Scalars without enumerations and ranges are compared by their kinds. -/
theorem plain_isSubsumedBy {k l : ScalarKind} :
    (scalar { kind := k }).isSubsumedBy (.scalar { kind := l }) = true ↔
      k = l ∨ (k = .integer ∧ l = .number) := by
  rw [scalar_isSubsumedBy, scalarMismatch?_bare rfl]
  exact ⟨Scalar.BareFits.kind, fun kind => ⟨kind, by simp, by simp, by simp⟩⟩

theorem scalar_isSubsumedBy_anyOf {x : Scalar} : (scalar x).isSubsumedBy (.anyOf branches) = true ↔
    ∃ c ∈ branches, (scalar x).isSubsumedBy c = true :=
  IsAtomic.isSubsumedBy ⟨by simp, by simp, by simp⟩ (Or.inl rfl)

/-- Unions do not merge. -/
theorem intersectAll_unions (as bs : List Schema) : intersectAll [.anyOf as, .anyOf bs] = none := by
  simp [intersectAll, meetAll, meetOnto, meet]

/-- The intersection does not merge, and neither of the two unions in it fits the whole: a schema that
    does not fit itself. -/
theorem textOrFlag_not_reflexive : textOrFlag.isWellFormed = true ∧ textOrFlag.Proper ∧
    textOrFlag.IntegerBounds ∧ textOrFlag.isSubsumedBy textOrFlag = false := by
  refine ⟨by decide +kernel, ?_, ?_, Bool.eq_false_iff.2 fun h => ?_⟩
  · simp [Proper, Every, parts, partsOfBranches, ProperPart, Scalar.Proper, textOrFlag]
  · simp [IntegerBounds, Every, parts, partsOfBranches, textOrFlag]
  · simp [textOrFlag, anyOf_isSubsumedBy, isSubsumedBy_allOf, allOf_isSubsumedBy,
      scalar_isSubsumedBy_anyOf, plain_isSubsumedBy, intersectAll_unions] at h

end Schema

end TypedPipeline
