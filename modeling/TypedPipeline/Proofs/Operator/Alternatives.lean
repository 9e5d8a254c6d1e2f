import TypedPipeline.Proofs.Operator.Construction
import TypedPipeline.Proofs.Schema.Reflexivity
import TypedPipeline.Proofs.Schema.Transitivity
import TypedPipeline.Proofs.Schema.Unions

/-!
# Proofs.Operator.Alternatives: what a choice gives

A choice gives what any of its branches does, as the union of their outputs. A member of the union goes
for one that it fits, which may go itself later on, so what is left stands for it as far as fits
compose. This file fixes:

* that the union covers the schemas exactly if it fits itself and fits into it compose
  (`fitsUnionOf_iff`), which is no condition on two members (`ComposesInUnion.of_two`), and that it
  covers schemas without intersections, integers without values and optional properties
  (`IsDefinite.fits_unionOf`);
* **when the output of a choice covers its branches** (`choice_output_covers`).
-/

namespace TypedPipeline

namespace Schema

variable {s : Schema} {schemas : List Schema} {P : Schema → Prop}

/-! ## 1. Fits into a union -/

/-- Fits into the union compose among its members. -/
def ComposesInUnion (schemas : List Schema) : Prop :=
  ∀ a ∈ flattenUnions schemas, ∀ b ∈ flattenUnions schemas, a.isSubsumedBy b = true →
    b.isSubsumedBy (unionOf schemas) = true → a.isSubsumedBy (unionOf schemas) = true

/-- **The union covers the schemas** exactly if it fits itself and fits into it compose. -/
theorem fitsUnionOf_iff : (∀ s ∈ schemas, s.isSubsumedBy (unionOf schemas) = true) ↔
    (unionOf schemas).isSubsumedBy (unionOf schemas) = true ∧ ComposesInUnion schemas := by
  have each : (∀ s ∈ schemas, s.isSubsumedBy (unionOf schemas) = true) ↔
      ∀ m ∈ flattenUnions schemas, m.isSubsumedBy (unionOf schemas) = true := by
    simp only [mem_flattenUnions, forall_exists_index, and_imp]
    exact ⟨fun h m s hs => isSubsumedBy_iff_alternatives.1 (h s hs) m,
      fun h s hs => isSubsumedBy_iff_alternatives.2 fun m => h m s hs⟩
  rw [each]
  constructor
  · intro h
    exact ⟨unionOf_isSubsumedBy.2 fun k hk => h k (mem_kept hk), fun a ha _ _ _ _ => h a ha⟩
  · intro h
    obtain ⟨self, composes⟩ := h
    exact holds_of_kept (unionOf_isSubsumedBy.1 self) composes

/-- Two members are covered if the union fits itself: one of them can only go for the other. -/
theorem ComposesInUnion.of_two (two : (flattenUnions schemas).length ≤ 2)
    (self : (unionOf schemas).isSubsumedBy (unionOf schemas) = true) : ComposesInUnion schemas := by
  intro a ha b hb _ fits
  have stays := unionOf_isSubsumedBy.1 self
  rcases e : flattenUnions schemas with _ | ⟨x, _ | ⟨y, _ | ⟨z, rest⟩⟩⟩
  · simp [e] at ha
  · simp only [e, List.mem_singleton] at ha hb
    exact ha.trans hb.symm ▸ fits
  · have ha : a = x ∨ a = y := by simpa [e] using ha
    by_cases back : y.isSubsumedBy x = true
    · have only : unionOf schemas = x := by simp [unionOf, e, keep, replaceCovered, back]
      rw [only] at self ⊢
      rcases ha with rfl | rfl
      · exact self
      · exact back
    · by_cases forth : x.isSubsumedBy y = true
      · have only : unionOf schemas = y := by simp [unionOf, e, keep, replaceCovered, back, forth]
        rw [only] at self ⊢
        rcases ha with rfl | rfl
        · exact forth
        · exact self
      · refine stays a ?_
        simpa [e, keep, replaceCovered, back, forth] using ha
  · simp [e] at two

/-! ## 2. Members whose fits compose -/

/-- What holds of the members, and of every union of schemas of which it holds, holds of the union. -/
theorem holds_of_unionOf (h : ∀ m ∈ flattenUnions schemas, P m) (ne : flattenUnions schemas ≠ [])
    (union : ∀ branches, branches ≠ [] → (∀ b ∈ branches, P b) → P (.anyOf branches)) :
    P (unionOf schemas) := by
  unfold unionOf
  split
  · rename_i only e
    exact h only (mem_kept (e ▸ List.mem_singleton_self only))
  · refine union _ (fun e => ?_) fun k hk => h k (mem_kept hk)
    obtain ⟨m, hm⟩ := List.exists_mem_of_ne_nil _ ne
    exact holds_of_kept (P := fun _ => False) (by simp [e]) (fun _ _ _ _ _ => id) m hm

/-- A schema without intersections fits itself. -/
theorem IsSteady.isSubsumedBy_self (h : s.IsSteady) : s.isSubsumedBy s = true :=
  Schema.isSubsumedBy_self h.sound h.proper h.bounds fun _ ht _ union _ hcs =>
    (h.allOfFree.of_mem (mem_parts_trans ht (union.mem_parts hcs))).self.elim

/-- A steady schema in which no declared property is optional and no integer lacks a value. -/
structure IsDefinite (s : Schema) : Prop where
  steady : s.IsSteady
  requires : s.RequiresDeclared
  inhabited : s.IntegersInhabited

theorem IsDefinite.of_mem (h : s.IsDefinite) (hm : m ∈ s.parts) : m.IsDefinite :=
  ⟨h.steady.of_mem hm, h.requires.of_mem hm, h.inhabited.of_mem hm⟩

theorem IsDefinite.anyOf {branches : List Schema} (ne : branches ≠ [])
    (h : ∀ b ∈ branches, b.IsDefinite) : (Schema.anyOf branches).IsDefinite where
  steady :=
    { sound := Every.anyOf_iff.2 ⟨ne, fun b hb => (h b hb).steady.sound⟩
      proper := Every.anyOf_iff.2 ⟨trivial, fun b hb => (h b hb).steady.proper⟩
      bounds := Every.anyOf_iff.2 ⟨trivial, fun b hb => (h b hb).steady.bounds⟩
      allOfFree := Every.anyOf_iff.2 ⟨trivial, fun b hb => (h b hb).steady.allOfFree⟩ }
  requires := Every.anyOf_iff.2 ⟨trivial, fun b hb => (h b hb).requires⟩
  inhabited := Every.anyOf_iff.2 ⟨trivial, fun b hb => (h b hb).inhabited⟩

/-- **The union covers definite schemas.** -/
theorem IsDefinite.fits_unionOf (h : ∀ s ∈ schemas, s.IsDefinite) (hs : s ∈ schemas) :
    s.isSubsumedBy (unionOf schemas) = true := by
  have inside (m : Schema) (hm : m ∈ flattenUnions schemas) : m.IsDefinite := by
    obtain ⟨s, hs, hm⟩ := mem_flattenUnions.1 hm
    exact (h s hs).of_mem (mem_parts_of_mem_alternatives hm)
  obtain ⟨m, hm⟩ := (h s hs).steady.sound.exists_alternative
  have union := holds_of_unionOf inside (List.ne_nil_of_mem (mem_flattenUnions.2 ⟨s, hs, hm⟩))
    fun _ => IsDefinite.anyOf
  refine fitsUnionOf_iff.2 ⟨union.steady.isSubsumedBy_self, fun a ha b hb fits fits' => ?_⟩ s hs
  have ha := inside a ha
  have hb := inside b hb
  exact isSubsumedBy_trans
    ⟨ha.steady, hb.steady, union.steady, ha.inhabited, hb.requires, union.requires⟩ fits fits'

end Schema

/-! ## 3. Choices -/

variable {ops : List Operator} {op : Operator}

/-- The output of a choice is the union of its branches' outputs. -/
theorem output_of_choice (h : Combinator.choice.combine ops = .ok op) :
    outputOf op = Schema.unionOf (op.children.map outputOf) := by
  obtain ⟨_, derived, rfl⟩ := Combinator.combine_eq_ok h
  obtain ⟨_, _, rfl⟩ := derive_choice_iff.1 derived
  rfl

/-- **When the output of a choice covers its branches.** It does exactly if it fits itself and fits into
    it compose among the branches' outputs. Of two members the one that is left covers the other, so two
    need only the first. Between schemas without intersections both hold, if every declared property is
    required and every integer has a value. -/
theorem choice_output_covers (h : Combinator.choice.combine ops = .ok op) :
    ((∀ child ∈ op.children, (outputOf child).isSubsumedBy (outputOf op) = true) ↔
      (outputOf op).isSubsumedBy (outputOf op) = true ∧
        Schema.ComposesInUnion (op.children.map outputOf)) ∧
    ((Schema.flattenUnions (op.children.map outputOf)).length ≤ 2 →
      (outputOf op).isSubsumedBy (outputOf op) = true →
      ∀ child ∈ op.children, (outputOf child).isSubsumedBy (outputOf op) = true) ∧
    ((∀ child ∈ op.children, (outputOf child).IsDefinite) →
      ∀ child ∈ op.children, (outputOf child).isSubsumedBy (outputOf op) = true) := by
  rw [output_of_choice h]
  have covers : (∀ child ∈ op.children, (outputOf child).isSubsumedBy
      (Schema.unionOf (op.children.map outputOf)) = true) ↔ _ :=
    List.forall_mem_map.symm.trans Schema.fitsUnionOf_iff
  refine ⟨covers, fun two self => covers.2 ⟨self, .of_two two self⟩, fun definite child hc => ?_⟩
  exact Schema.IsDefinite.fits_unionOf (List.forall_mem_map.2 definite) (List.mem_map_of_mem hc)

/-- A leaf that takes anything. -/
def giving (name : String) (output : Schema) : Operator := .leaf name none ⟨.any, output, .any⟩

/-- What such leaves give together is the union of what they give. -/
theorem combine_giving {leaves : List (String × Schema)} (ne : leaves ≠ []) :
    ∃ signature, Combinator.choice.combine (leaves.map fun l => giving l.1 l.2) =
        .ok (.composite "choice" .choice (leaves.map fun l => giving l.1 l.2) signature) ∧
      signature.output = Schema.unionOf (leaves.map (·.2)) := by
  obtain ⟨signature, made, _, output⟩ := Combinator.combine_choice_of_any
    (mt List.map_eq_nil_iff.1 ne : leaves.map (fun l => giving l.1 l.2) ≠ [])
    (List.forall_mem_map.2 fun _ _ => rfl) (List.forall_mem_map.2 fun _ _ => rfl)
  refine ⟨signature, made, output.trans ?_⟩
  rw [List.map_map]
  rfl

theorem Schema.isDefinite_plain (k : ScalarKind) : (scalar { kind := k }).IsDefinite where
  steady :=
    { sound := isWellFormed_iff.1 (by cases k <;> decide +kernel)
      proper := by simp [Proper, Every, parts, ProperPart, Scalar.Proper]
      bounds := by simp [IntegerBounds, Every, parts]
      allOfFree := by simp [AllOfFree, Every, parts] }
  requires := by simp [RequiresDeclared, Every, parts]
  inhabited := by
    simp only [IntegersInhabited, Every, parts, List.mem_singleton, forall_eq]
    intro hk _
    refine ⟨.number (.int 0), by simp [Json.Proper, Number.Proper], ?_, by simp, by simp, by simp⟩
    simp [Scalar.acceptsKind, hk, Json.isIntegral, Number.isIntegral]

theorem Schema.proper_object_of_plain {properties : Keyed Schema} {required : Names}
    (ascending : Keyed.Ascending properties) (ordered : required.Pairwise (· < ·))
    (plain : ∀ p ∈ properties, ∃ k, p.2 = scalar { kind := k }) :
    (object properties { required }).Proper := by
  refine Every.object_iff.2 ⟨⟨ascending, ObjectRules.proper_plain_iff.2 ordered⟩, fun name s hs => ?_⟩
  obtain ⟨k, e⟩ : ∃ k, s = scalar { kind := k } := plain _ hs
  rw [e]
  exact (isDefinite_plain k).steady.proper

/-- The number covers the whole number, and stands beside the text. -/
theorem choice_output_covers_measures : ∃ op,
    Combinator.choice.combine [giving "Count" .integer, giving "Score" .number,
      giving "Label" .string] = .ok op ∧
      outputOf op = .anyOf [.number, .string] ∧
      ∀ child ∈ op.children, (outputOf child).isSubsumedBy (outputOf op) = true := by
  obtain ⟨signature, made, output⟩ := combine_giving
    (List.cons_ne_nil ("Count", .integer) [("Score", .number), ("Label", .string)])
  refine ⟨_, made, output.trans ?_, (choice_output_covers made).2.2 ?_⟩
  · simp [Schema.unionOf, Schema.flattenUnions, Schema.keep, Schema.replaceCovered, Schema.integer,
      Schema.number, Schema.string, Schema.plain_isSubsumedBy]
  · simp [Operator.children, giving, outputOf, Operator.signature, Schema.integer, Schema.number,
      Schema.string, Schema.isDefinite_plain]

/-- A whole number with a text. -/
def labelled : Schema := .object [("x", .integer), ("y", .string)] { required := ["x", "y"] }

/-- A whole number, perhaps with something else. -/
def counted : Schema := .object [("x", .integer)] { required := ["x"] }

/-- A number, perhaps with another one. -/
def scored : Schema := .object [("x", .number), ("y", .number)] { required := ["x"] }

theorem fits_labelled_counted_scored :
    labelled.isSubsumedBy counted = true ∧ counted.isSubsumedBy scored = true ∧
      counted.isSubsumedBy labelled = false ∧ scored.isSubsumedBy counted = false ∧
      labelled.isSubsumedBy scored = false := by
  simp only [labelled, counted, scored, Schema.isSubsumedBy, Schema.checkSubsumption,
    ← Bool.not_eq_true, Schema.isOk_checkSubsumptionAt_object]
  simp [Schema.Fitted, Keyed.find?, Schema.isOk_checkSubsumptionAt_iff, Schema.plain_isSubsumedBy,
    Schema.integer, Schema.number, Schema.string, ObjectRules.requires]

/-- Each output goes for the next one, and the first does not fit the last. -/
theorem choice_output_not_covering : ∃ op,
    Combinator.choice.combine [giving "Tag" labelled, giving "Count" counted,
      giving "Score" scored] = .ok op ∧
      (∀ child ∈ op.children, (outputOf child).isWellFormed = true ∧ (outputOf child).Proper) ∧
      ∃ child ∈ op.children, (outputOf child).isSubsumedBy (outputOf op) = false := by
  obtain ⟨forth, on, back, back', apart⟩ := fits_labelled_counted_scored
  obtain ⟨signature, made, output⟩ := combine_giving
    (List.cons_ne_nil ("Tag", labelled) [("Count", counted), ("Score", scored)])
  have members : Schema.flattenUnions [labelled, counted, scored] = [labelled, counted, scored] := rfl
  have output : signature.output = scored := by
    rw [output, List.map_cons, List.map_cons, List.map_cons, List.map_nil, Schema.unionOf, members]
    simp [Schema.keep, Schema.replaceCovered, forth, on, back, back']
  have proper : labelled.Proper ∧ counted.Proper ∧ scored.Proper :=
    ⟨Schema.proper_object_of_plain (Keyed.ascending_pair.2 (by decide)) (by decide)
        (by simp [Schema.integer, Schema.string]),
      Schema.proper_object_of_plain (List.pairwise_singleton _ _) (by decide)
        (by simp [Schema.integer]),
      Schema.proper_object_of_plain (Keyed.ascending_pair.2 (by decide)) (by decide)
        (by simp [Schema.number])⟩
  have wellFormed : labelled.isWellFormed = true ∧ counted.isWellFormed = true ∧
      scored.isWellFormed = true := by decide +kernel
  refine ⟨_, made, ?_, giving "Tag" labelled, List.mem_cons_self, output ▸ apart⟩
  simp [Operator.children, giving, outputOf, Operator.signature, proper, wellFormed]

end TypedPipeline
