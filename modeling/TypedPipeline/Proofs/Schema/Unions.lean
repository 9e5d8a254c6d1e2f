import TypedPipeline.Proofs.Schema.Reflexivity
import TypedPipeline.Schema.Union

/-!
# Proofs.Schema.Unions: what a union keeps and what it accepts

A union is made one member at a time, and a member that fits another one goes. It may go for one that
goes itself later on, and fits need not compose, so that what is left need not fit what went. What the
members accept is another matter, since to accept composes. This file fixes:

* that what holds of the members that are left, and of a member whenever it fits one of which it holds,
  holds of all members (`holds_of_kept`);
* that of the members that are left none fits another one (`pairwise_foldl_keep`), and when they are
  the members of the union (`unionOf_eq_anyOf`);
* that the union accepts nothing else (`exists_of_accepts_unionOf`), and what it takes for it to accept
  everything (`covers_unionOf`, `listed_of_covers_unionOf`);
* **what a union has left and what it accepts** (`unionOf_accepts`).
-/

namespace TypedPipeline

namespace Schema

variable {a b k m s : Schema} {kept members schemas : List Schema} {P : Schema → Prop}

/-! ## 1. Members -/

/-- What a schema is a union of: its branches, or itself. -/
def alternatives : Schema → List Schema
  | .anyOf branches => branches
  | s => [s]

theorem flattenUnions_eq : flattenUnions schemas = schemas.flatMap alternatives := by
  induction schemas with
  | nil => rfl
  | cons s rest ih => cases s <;> simp [flattenUnions, alternatives, ih]

theorem mem_parts_of_mem_alternatives (h : m ∈ s.alternatives) : m ∈ s.parts := by
  cases s with
  | anyOf branches => exact List.mem_cons_of_mem _ (branch_mem_parts h)
  | _ => exact List.mem_singleton.1 h ▸ self_mem_parts _

theorem isSubsumedBy_iff_alternatives :
    s.isSubsumedBy b = true ↔ ∀ m ∈ s.alternatives, m.isSubsumedBy b = true := by
  cases s with
  | anyOf branches => exact anyOf_isSubsumedBy
  | _ => simp [alternatives]

theorem Sound.exists_alternative (sound : s.Sound) : ∃ m, m ∈ s.alternatives := by
  cases s with
  | anyOf branches => exact List.exists_mem_of_ne_nil _ sound.self
  | _ => exact ⟨_, List.mem_singleton_self _⟩

theorem mem_flattenUnions : m ∈ flattenUnions schemas ↔ ∃ s ∈ schemas, m ∈ s.alternatives := by
  rw [flattenUnions_eq, List.mem_flatMap]

/-! ## 2. One more member -/

theorem mem_replaceCovered (h : k ∈ replaceCovered s kept) : k = s ∨ k ∈ kept := by
  induction kept with
  | nil => exact Or.inl (List.mem_singleton.1 h)
  | cons member rest ih =>
      unfold replaceCovered at h
      split at h
      · exact (List.mem_cons.1 h).imp_right fun h => List.mem_cons_of_mem _ (List.mem_filter.1 h).1
      · rcases List.mem_cons.1 h with rfl | h
        · exact Or.inr List.mem_cons_self
        · exact (ih h).imp_right (List.mem_cons_of_mem _)

theorem self_mem_replaceCovered : s ∈ replaceCovered s kept := by
  induction kept with
  | nil => exact List.mem_singleton_self s
  | cons member rest ih =>
      unfold replaceCovered
      split
      · exact List.mem_cons_self
      · exact List.mem_cons_of_mem _ ih

/-- Only what the new member covers goes. -/
theorem mem_replaceCovered_or_fits (h : m ∈ kept) :
    m ∈ replaceCovered s kept ∨ m.isSubsumedBy s = true := by
  induction kept with
  | nil => cases h
  | cons member rest ih =>
      unfold replaceCovered
      by_cases covered : m.isSubsumedBy s = true
      · exact Or.inr covered
      · left
        rcases List.mem_cons.1 h with rfl | h
        · rw [if_neg covered]
          exact List.mem_cons_self
        · split
          · exact List.mem_cons_of_mem _ (List.mem_filter.2 ⟨h, by simp [covered]⟩)
          · exact List.mem_cons_of_mem _ ((ih h).resolve_right covered)

theorem mem_keep (h : k ∈ keep kept s) : k = s ∨ k ∈ kept := by
  unfold keep at h
  split at h
  · exact Or.inr h
  · exact mem_replaceCovered h

/-- What holds of the members that are left holds of the new one and of those that were there, if it
    holds of a member whenever that fits another one of which it holds. -/
theorem holds_of_keep (h : ∀ k ∈ keep kept s, P k)
    (down : ∀ a ∈ s :: kept, ∀ b ∈ s :: kept, a.isSubsumedBy b = true → P b → P a) :
    ∀ m ∈ s :: kept, P m := by
  unfold keep at h
  split at h
  · obtain ⟨k, hk, fits⟩ := List.any_eq_true.1 ‹_›
    have inside := List.mem_cons_of_mem s hk
    exact List.forall_mem_cons.2 ⟨down s List.mem_cons_self k inside fits (h k hk), h⟩
  · have new := h s self_mem_replaceCovered
    refine List.forall_mem_cons.2 ⟨new, fun m hm => ?_⟩
    rcases mem_replaceCovered_or_fits hm with stays | fits
    · exact h m stays
    · exact down m (List.mem_cons_of_mem _ hm) s List.mem_cons_self fits new

/-! ## 3. All members -/

theorem mem_foldl_keep (h : k ∈ members.foldl keep kept) : k ∈ kept ∨ k ∈ members := by
  induction members generalizing kept with
  | nil => exact Or.inl h
  | cons s rest ih =>
      rcases ih h with h | h
      · rcases mem_keep h with rfl | h
        · exact Or.inr List.mem_cons_self
        · exact Or.inl h
      · exact Or.inr (List.mem_cons_of_mem _ h)

/-- The same of all members that came, one after the other. -/
theorem holds_of_foldl_keep (h : ∀ k ∈ members.foldl keep kept, P k)
    (down : ∀ a ∈ kept ++ members, ∀ b ∈ kept ++ members, a.isSubsumedBy b = true → P b → P a) :
    ∀ m ∈ kept ++ members, P m := by
  induction members generalizing kept with
  | nil => simpa using h
  | cons s rest ih =>
      have inside {m : Schema} (hm : m ∈ keep kept s ++ rest) : m ∈ kept ++ s :: rest := by
        rcases List.mem_append.1 hm with hm | hm
        · rcases mem_keep hm with rfl | hm <;> simp [*]
        · simp [hm]
      have around {m : Schema} (hm : m ∈ s :: kept) : m ∈ kept ++ s :: rest := by
        rcases List.mem_cons.1 hm with rfl | hm <;> simp [*]
      have onward := ih h fun a ha b hb => down a (inside ha) b (inside hb)
      have both : ∀ m ∈ s :: kept, P m :=
        holds_of_keep (fun k hk => onward k (List.mem_append_left _ hk)) fun a ha b hb =>
          down a (around ha) b (around hb)
      intro m hm
      rcases List.mem_append.1 hm with hm | hm
      · exact both m (List.mem_cons_of_mem _ hm)
      · rcases List.mem_cons.1 hm with rfl | hm
        · exact both _ List.mem_cons_self
        · exact onward m (List.mem_append_right _ hm)

/-- **What holds of the members that are left holds of all of them**, if it holds of a member whenever
    that fits another one of which it holds. -/
theorem holds_of_kept (h : ∀ k ∈ (flattenUnions schemas).foldl keep [], P k)
    (down : ∀ a ∈ flattenUnions schemas, ∀ b ∈ flattenUnions schemas,
      a.isSubsumedBy b = true → P b → P a) : ∀ m ∈ flattenUnions schemas, P m :=
  holds_of_foldl_keep h down

/-- The members that are left are members. -/
theorem mem_kept (h : k ∈ (flattenUnions schemas).foldl keep []) : k ∈ flattenUnions schemas :=
  (mem_foldl_keep h).resolve_left List.not_mem_nil

theorem unionOf_isSubsumedBy : (unionOf schemas).isSubsumedBy b = true ↔
    ∀ k ∈ (flattenUnions schemas).foldl keep [], k.isSubsumedBy b = true := by
  unfold unionOf
  split
  · rename_i only e
    simp [e]
  · exact anyOf_isSubsumedBy


/-! ## 4. What is left -/

/-- Neither of two schemas fits the other. -/
def Unrelated (a b : Schema) : Prop := a.isSubsumedBy b = false ∧ b.isSubsumedBy a = false

/-- One more member, which fits none of those there, goes in the place of those that fit it. -/
theorem pairwise_replaceCovered (h : kept.Pairwise Unrelated)
    (new : ∀ k ∈ kept, s.isSubsumedBy k = false) : (replaceCovered s kept).Pairwise Unrelated := by
  induction kept with
  | nil => exact List.pairwise_singleton _ s
  | cons member rest ih =>
      obtain ⟨apart, others⟩ := List.pairwise_cons.1 h
      obtain ⟨first, later⟩ := List.forall_mem_cons.1 new
      unfold replaceCovered
      split
      · -- behind the place that it takes only those are left that do not fit it
        refine List.pairwise_cons.2 ⟨fun k hk => ?_, others.sublist List.filter_sublist⟩
        obtain ⟨hk, stays⟩ := List.mem_filter.1 hk
        exact ⟨later k hk, by simpa using stays⟩
      · rename_i stays
        refine List.pairwise_cons.2 ⟨fun k hk => ?_, ih others later⟩
        rcases mem_replaceCovered hk with rfl | hk
        · exact ⟨by simpa using stays, first⟩
        · exact apart k hk

theorem pairwise_keep (h : kept.Pairwise Unrelated) : (keep kept s).Pairwise Unrelated := by
  unfold keep
  split
  · exact h
  · rename_i new
    exact pairwise_replaceCovered h (by simpa using new)

/-- **Of the members that are left none fits another one.** -/
theorem pairwise_foldl_keep (h : kept.Pairwise Unrelated) :
    (members.foldl keep kept).Pairwise Unrelated := by
  induction members generalizing kept with
  | nil => exact h
  | cons s rest ih => exact ih (pairwise_keep h)

/-- The members of the union are those that are left, unless only one is left, which is a union that
    stood in a union of the list. -/
theorem unionOf_eq_anyOf (h : unionOf schemas = .anyOf members) :
    members = (flattenUnions schemas).foldl keep [] ∨
      (flattenUnions schemas).foldl keep [] = [.anyOf members] ∧
        ∃ branches, .anyOf branches ∈ schemas ∧ .anyOf members ∈ branches := by
  unfold unionOf at h
  split at h
  · rename_i only e
    subst h
    refine .inr ⟨e, ?_⟩
    obtain ⟨s, hs, inside⟩ := mem_flattenUnions.1 (mem_kept (e ▸ List.mem_singleton_self _))
    cases s with
    | anyOf branches => exact ⟨branches, hs, inside⟩
    | _ => cases List.mem_singleton.1 inside
  · cases h
    exact .inl rfl

/-! ## 5. What is accepted -/

theorem accepts_iff_alternatives {v : Json} :
    s.accepts v = true ↔ ∃ m ∈ s.alternatives, m.accepts v = true := by
  cases s with
  | anyOf branches => exact accepts_anyOf
  | _ => simp [alternatives]

theorem accepts_unionOf {v : Json} : (unionOf schemas).accepts v = true ↔
    ∃ k ∈ (flattenUnions schemas).foldl keep [], k.accepts v = true := by
  unfold unionOf
  split
  · rename_i only e
    simp [e]
  · exact accepts_anyOf

/-- **The union accepts nothing that none of the schemas accepts.** -/
theorem exists_of_accepts_unionOf {v : Json} (h : (unionOf schemas).accepts v = true) :
    ∃ s ∈ schemas, s.accepts v = true := by
  obtain ⟨k, hk, accepted⟩ := accepts_unionOf.1 h
  obtain ⟨s, hs, inside⟩ := mem_flattenUnions.1 (mem_kept hk)
  exact ⟨s, hs, accepts_iff_alternatives.2 ⟨k, inside, accepted⟩⟩

theorem Conforms.isProducer (h : s.Conforms) (listed : s.MergesListed) : s.IsProducer := by
  have regular := (isWellFormed_iff.1 h.wellFormed).regular h.proper
  exact ⟨regular, h.requires, listed.trusted regular h.bounds⟩

theorem Conforms.isConsumer (h : s.Conforms) : s.IsConsumer :=
  ⟨isWellFormed_iff.1 h.wellFormed, h.proper, h.requires, h.disjoint⟩

/-- **The union accepts what any of the schemas accepts.** A member may go for one that goes later, but
    what accepts its values in the end is left. -/
theorem covers_unionOf (h : ∀ s ∈ schemas, s.Conforms) (listed : ∀ s ∈ schemas, s.MergesListed)
    (hs : s ∈ schemas) : Covers s (unionOf schemas) := by
  have kept : ∀ k ∈ (flattenUnions schemas).foldl keep [], Covers k (unionOf schemas) :=
    fun k hk _ _ accepted => accepts_unionOf.2 ⟨k, hk, accepted⟩
  -- fits need not compose, but to accept goes up along each of them
  have all := holds_of_kept kept fun a ha b hb fits covered v pv accepted => by
    obtain ⟨s, hs, inside⟩ := mem_flattenUnions.1 ha
    obtain ⟨t, ht, within⟩ := mem_flattenUnions.1 hb
    have producer := ((h s hs).isProducer (listed s hs)).of_mem (mem_parts_of_mem_alternatives inside)
    have consumer := (h t ht).isConsumer.of_mem (mem_parts_of_mem_alternatives within)
    exact covered v pv (covers_of_fits (fits_of_isSubsumedBy fits) producer consumer v pv accepted)
  intro v pv accepted
  obtain ⟨m, hm, accepted⟩ := accepts_iff_alternatives.1 accepted
  exact all m (mem_flattenUnions.2 ⟨s, hs, hm⟩) v pv accepted

/-- For an intersection that is merged into a scalar, lists with every value are needed: beside some
    schema the union loses a value of it otherwise. -/
theorem listed_of_covers_unionOf {branches : List Schema} {x : Scalar}
    (h : (allOf branches).Conforms) (e : intersectAll branches = some (.scalar x))
    (covers : ∀ b : Schema, b.Conforms → Covers (.allOf branches) (unionOf [b, .allOf branches])) :
    x.Listed := by
  refine Classical.byContradiction fun not => ?_
  have regular := (isWellFormed_iff.1 h.wellFormed).regular h.proper
  obtain ⟨y, conforms, passes, lost⟩ := exists_passing_of_not_listed regular e not
  have only : unionOf [.scalar y, .allOf branches] = .scalar y := by
    simp [unionOf, flattenUnions, keep, replaceCovered, passes]
  exact lost (only ▸ covers _ conforms)

/-- **Whatever the schemas, no member that is left fits another one.** These are the members of the
    union, unless the only one left is a union that stood in a union of the list. **The union accepts
    only what one of the schemas accepts, and all of that if the schemas conform and the lists that the
    comparison makes of merged scalars have every value.** -/
theorem unionOf_accepts (schemas : List Schema) :
    ((flattenUnions schemas).foldl keep []).Pairwise Unrelated ∧
    (∀ members, unionOf schemas = .anyOf members → members.Pairwise Unrelated ∨
      (flattenUnions schemas).foldl keep [] = [.anyOf members] ∧
        ∃ branches, .anyOf branches ∈ schemas ∧ .anyOf members ∈ branches) ∧
    (∀ v, (unionOf schemas).accepts v = true → ∃ s ∈ schemas, s.accepts v = true) ∧
    ((∀ s ∈ schemas, s.Conforms) → (∀ s ∈ schemas, s.MergesListed) → ∀ v : Json, v.Proper →
      ((unionOf schemas).accepts v = true ↔ ∃ s ∈ schemas, s.accepts v = true)) := by
  have left : ((flattenUnions schemas).foldl keep []).Pairwise Unrelated :=
    pairwise_foldl_keep List.Pairwise.nil
  refine ⟨left, fun members e => ?_, fun v => exists_of_accepts_unionOf,
    fun h listed v pv => ⟨exists_of_accepts_unionOf, ?_⟩⟩
  · exact (unionOf_eq_anyOf e).imp_left fun e => by rw [e]; exact left
  · rintro ⟨s, hs, accepted⟩
    exact covers_unionOf h listed hs v pv accepted

/-- Scalars of a kind conform, and nothing in them is merged. -/
theorem conforms_plain (k : ScalarKind) :
    (scalar { kind := k }).Conforms ∧ (scalar { kind := k }).MergesListed := by
  have wf : (scalar { kind := k }).isWellFormed = true := by cases k <;> decide +kernel
  have proper : (scalar { kind := k }).Proper := every_scalar (by simp [ProperPart, Scalar.Proper])
  have bounds : (scalar { kind := k }).IntegerBounds := every_scalar fun _ => ⟨by simp, by simp⟩
  have small : (scalar { kind := k }).SmallBounds := every_scalar ⟨by simp, by simp⟩
  exact ⟨⟨wf, proper, every_scalar trivial, every_scalar trivial, bounds⟩,
    small.mergesListed ((isWellFormed_iff.1 wf).regular proper)⟩

/-- The whole number goes for the number, and the text stays. -/
theorem unionOf_accepts_measures :
    (∀ s ∈ [Schema.integer, .number, .string], s.Conforms ∧ s.MergesListed) ∧
      unionOf [.integer, .number, .string] = .anyOf [.number, .string] ∧
      [Schema.number, .string].Pairwise Unrelated ∧
      ∀ v : Json, v.Proper → ((unionOf [.integer, .number, .string]).accepts v = true ↔
        ∃ s ∈ [Schema.integer, .number, .string], s.accepts v = true) := by
  have conforms : ∀ s ∈ [Schema.integer, .number, .string], s.Conforms ∧ s.MergesListed := by
    simp [Schema.integer, Schema.number, Schema.string, conforms_plain]
  have kept : (flattenUnions [.integer, .number, .string]).foldl keep [] = [.number, .string] := by
    simp [flattenUnions, keep, replaceCovered, Schema.integer, Schema.number, Schema.string,
      plain_isSubsumedBy]
  obtain ⟨left, _, _, accepts⟩ := unionOf_accepts [.integer, .number, .string]
  exact ⟨conforms, by rw [unionOf, kept], kept ▸ left,
    accepts (fun s hs => (conforms s hs).1) fun s hs => (conforms s hs).2⟩

theorem conforms_beyondInt64 : beyondInt64.Conforms where
  wellFormed := by decide +kernel
  proper := by
    simp [Proper, Every, parts, partsOfBranches, ProperPart, Scalar.Proper, beyondInt64]
  requires := by simp [RequiresDeclared, Every, parts, partsOfBranches, beyondInt64]
  disjoint := by simp [OneOfDisjoint, Every, parts, partsOfBranches, beyondInt64]
  bounds := by simp [IntegerBounds, Every, parts, partsOfBranches, beyondInt64]

theorem conforms_largestInt64 : largestInt64.Conforms where
  wellFormed := by decide +kernel
  proper := every_scalar (by simp [ProperPart, Scalar.Proper, Json.int, Json.Proper, Number.Proper])
  requires := every_scalar trivial
  disjoint := every_scalar trivial
  bounds := every_scalar fun _ => ⟨by simp, by simp⟩

/-- A union in a union is not taken apart, so a member that fits another one may be left. And what the
    comparison takes for a value beyond the 64-bit integers is lost: the merge that lists that value is
    dropped for the listed one. -/
theorem unionOf_keeps_fitting_member :
    (∃ members, unionOf [.anyOf [.anyOf [.integer, .number]]] = .anyOf members ∧
        ¬members.Pairwise Unrelated) ∧
      (∀ s ∈ [largestInt64, beyondInt64], s.Conforms) ∧
      ∃ v : Json, v.Proper ∧ (unionOf [largestInt64, beyondInt64]).accepts v = false ∧
        ∃ s ∈ [largestInt64, beyondInt64], s.accepts v = true := by
  refine ⟨⟨[.integer, .number], rfl, ?_⟩, ?_, .number (.float (.ofInt (2 ^ 64))),
    Binary64.isFinite_ofInt (by decide), ?_, beyondInt64, by simp, by decide +kernel⟩
  · simp [Unrelated, Schema.integer, Schema.number, plain_isSubsumedBy]
  · simp [conforms_beyondInt64, conforms_largestInt64]
  · have fits : isSubsumedBy beyondInt64 largestInt64 = true :=
      isSubsumedBy_of_scalars rfl (Option.isNone_iff_eq_none.1 (by decide +kernel))
    have kept : (flattenUnions [largestInt64, beyondInt64]).foldl keep [] = [largestInt64] := by
      change keep [largestInt64] beyondInt64 = _
      rw [keep, if_pos (by simpa using fits)]
    rw [unionOf, kept]
    decide +kernel

end Schema

end TypedPipeline
