import Mathlib.Data.List.Basic
import TypedPipeline.Proofs.Schema.Roundtrip

/-!
# Proofs.Schema.Written: schemas that were not checked, and their documents

A schema put together in code is written without a check, and two things about it are not in its
document: a default for a property that is not declared, and the value of a number that is not
finite. This file fixes:

* the schemas with defaults for declared properties only (`DefaultsDeclared`), among them the
  well-formed ones (`Sound.defaultsDeclared`);
* what one keyword says of a bound, a hint, the branches and the properties, if one of two schemas
  has finite numbers;
* **that a well-formed schema with finite hints has a document of its own among the schemas with
  declared defaults** (`eq_of_members_eq`), whatever else is wrong with them.
-/

namespace TypedPipeline

namespace Schema

/-- Defaults are given for declared properties only. -/
def DefaultsDeclared : Schema → Prop := Every fun
  | .object properties rules => ∀ d ∈ rules.defaults, Keyed.has properties d.1 = true
  | _ => True

theorem Sound.defaultsDeclared {s : Schema} (h : s.Sound) : s.DefaultsDeclared := fun t ht => by
  cases t with
  | object properties rules => exact Sound.declared (Every.of_mem h ht)
  | _ => trivial

/-! ## 1. Keywords -/

theorem eq_of_float_eq {x y : Binary64} (fin : x.isFinite = true)
    (h : Json.float x = Json.float y) : x = y := by
  rw [float_of_isFinite fin, Json.float] at h
  split at h
  · cases h; rfl
  · cases h

/-- Of two bounds written alike both are the one that is finite. -/
theorem eq_of_boundMember_eq {a b : Option Bound} (fin : ∀ x ∈ a, x.value.isFinite = true)
    (h : boundMember a false = boundMember b false) (h' : boundMember a true = boundMember b true) :
    a = b := by
  cases a with
  | none =>
      cases b with
      | none => rfl
      | some b =>
          obtain ⟨y, e⟩ := b
          cases e <;> simp [boundMember] at h h'
  | some a =>
      obtain ⟨x, d⟩ := a
      cases b with
      | none => cases d <;> simp [boundMember] at h h'
      | some b =>
          obtain ⟨y, e⟩ := b
          have value := @eq_of_float_eq x y (fin _ rfl)
          cases d <;> cases e <;> simp [boundMember] at h h'
          · rw [value h]
          · rw [value h']

theorem eq_of_hint_eq {a b : Option Binary64} (fin : ∀ x ∈ a, x.isFinite = true)
    (h : a.map Json.float = b.map Json.float) : a = b := by
  cases a <;> cases b <;> first | rfl | cases h | skip
  rw [eq_of_float_eq (fin _ rfl) (Option.some.inj h)]

variable {default default' : Option Json}

/-! ## 2. Forms -/

theorem sameForm_of_members_eq {s t : Schema} (h : members default s = members default' t) :
    SameForm s t :=
  sameForm_of_formName (by rw [← formOf_members default s, h, formOf_members])

/-- Scalars written alike are equal if one of them is finite. -/
theorem eq_of_scalar_members_eq {a b : Scalar} (fin : a.Finite)
    (h : members default (.scalar a) = members default' (.scalar b)) : a = b := by
  have under := fun keyword => congrArg (Keyed.find? · keyword) h
  have kind := congrArg formOf h
  rw [formOf_members, formOf_members] at kind
  have minimum := under "minimum"
  have above := under "exclusiveMinimum"
  have maximum := under "maximum"
  have below := under "exclusiveMaximum"
  have literal := under "enum"
  have distribution := under "distribution"
  have lowHint := under "minimumForOptimizer"
  have highHint := under "maximumForOptimizer"
  simp only [members, find?_present, find?_present_nil, String.reduceEq, ↓reduceIte, Option.or_none]
    at minimum above maximum below literal distribution lowHint highHint
  have sampled : a.distribution = b.distribution := by
    cases ha : a.distribution <;> cases hb : b.distribution <;>
      first | rfl | (rw [ha, hb] at distribution; cases distribution)
  have members : a.enumeration = b.enumeration :=
    Option.map_injective (fun _ _ => Json.array.inj) literal
  have low := eq_of_boundMember_eq fin.low minimum above
  have high := eq_of_boundMember_eq fin.high maximum below
  have lowest := eq_of_hint_eq fin.lowHint lowHint
  have highest := eq_of_hint_eq fin.highHint highHint
  have named := name_injective kind
  cases a
  cases b
  exact Scalar.mk.injEq .. ▸ ⟨named, low, high, members, sampled, lowest, highest⟩

theorem eq_of_documents_eq {as bs : List Schema}
    (ih : ∀ a ∈ as, ∀ b ∈ bs, members none a = members none b → a = b)
    (h : documents as = documents bs) : as = bs := by
  induction as generalizing bs with
  | nil =>
      cases bs with
      | nil => rfl
      | cons b bs => cases h
  | cons a as ihl =>
      cases bs with
      | nil => cases h
      | cons b bs =>
          simp only [documents, List.cons.injEq, Json.object.injEq] at h
          rw [ih a List.mem_cons_self b List.mem_cons_self h.1,
            ihl (fun a ha b hb => ih a (List.mem_cons_of_mem _ ha) b (List.mem_cons_of_mem _ hb)) h.2]

/-- Properties written alike are equal, and have the same defaults. -/
theorem eq_of_propertyDocuments_eq {ps qs : List (String × Schema)} {ds es : Keyed Json}
    (ih : ∀ p ∈ ps, ∀ q ∈ qs, ∀ default default',
      members default p.2 = members default' q.2 → p.2 = q.2)
    (h : propertyDocuments ds ps = propertyDocuments es qs) :
    ps = qs ∧ ∀ name ∈ Keyed.names ps, ds.find? name = es.find? name := by
  induction ps generalizing qs with
  | nil =>
      cases qs with
      | nil => exact ⟨rfl, by simp [Keyed.names]⟩
      | cons q qs => cases h
  | cons p ps ihl =>
      cases qs with
      | nil => cases h
      | cons q qs =>
          obtain ⟨name, s⟩ := p
          obtain ⟨name', t⟩ := q
          simp only [propertyDocuments, List.cons.injEq, Prod.mk.injEq, Json.object.injEq] at h
          obtain ⟨⟨rfl, first⟩, later⟩ := h
          obtain ⟨rfl, defaults⟩ := ihl (fun p hp q hq => ih p (List.mem_cons_of_mem _ hp) q
            (List.mem_cons_of_mem _ hq)) later
          have one : s = t := ih _ List.mem_cons_self _ List.mem_cons_self _ _ first
          have own := congrArg (Keyed.find? · "default") first
          rw [find?_default, find?_default] at own
          refine ⟨by rw [one], fun other ho => ?_⟩
          rcases List.mem_cons.1 ho with rfl | ho
          · exact own
          · exact defaults other ho

theorem eq_of_rules_members_eq {ps qs : Keyed Schema} {rules rules' : ObjectRules}
    (h : members default (.object ps rules) = members default' (.object qs rules'))
    (defaults : rules.defaults = rules'.defaults) : rules = rules' := by
  have under := fun keyword => congrArg (Keyed.find? · keyword) h
  have closed := under "additionalProperties"
  have required := under "required"
  have relevant := under "relevantToOptimizer"
  simp only [members, find?_present, find?_present_nil, String.reduceEq, ↓reduceIte, Option.or_none]
    at closed required relevant
  have texts {names names' : List String} (h : Json.texts names = .texts names') : names = names' :=
    List.map_injective_iff.2 (fun _ _ => Json.text.inj) (Json.array.inj h)
  have closed : rules.isOpen = rules'.isOpen := by simpa using closed
  have required : rules.required = rules'.required := by
    cases hr : rules.required <;> cases hr' : rules'.required <;> rw [hr, hr'] at required <;>
      first | rfl | cases required | exact texts (Option.some.inj required)
  have relevant : rules.relevant = rules'.relevant := by
    cases hr : rules.relevant <;> cases hr' : rules'.relevant <;> rw [hr, hr'] at relevant <;>
      first | rfl | cases relevant | exact congrArg some (texts (Option.some.inj relevant))
  cases rules
  cases rules'
  exact ObjectRules.mk.injEq .. ▸ ⟨required, closed, relevant, defaults⟩

/-! ## 3. Documents -/

/-- **A well-formed schema with finite hints has a document of its own among the schemas with
    declared defaults.** -/
theorem eq_of_members_eq {s t : Schema} (soundS : s.Sound) (properS : s.Proper)
    (hintsS : s.FiniteHints) (properT : t.Proper) (declaredT : t.DefaultsDeclared)
    (h : members default s = members default' t) : s = t := by
  induction s using Schema.induction generalizing t default default' with
  | any =>
      cases sameForm_of_members_eq h
      rfl
  | scalar a =>
      cases sameForm_of_members_eq h
      rw [eq_of_scalar_members_eq (soundS.finite hintsS) h]
  | object ps rules ih =>
      cases sameForm_of_members_eq h
      rename_i qs rules'
      have documents := congrArg (Keyed.find? · "properties") h
      simp only [find?_members_properties, Option.some.injEq, Json.object.injEq] at documents
      obtain ⟨rfl, found⟩ := eq_of_propertyDocuments_eq (fun p hp q hq _ _ e =>
        ih p.1 p.2 hp (soundS.property hp) (properS.property hp) (hintsS.property hp)
          (properT.property hq) (declaredT.property hq) e) documents
      have defaults : rules.defaults = rules'.defaults := by
        rw [defaults_eq_filterMap soundS.declared properS,
          defaults_eq_filterMap declaredT.self properT]
        exact List.filterMap_congr fun name hn => by rw [found name hn]
      rw [eq_of_rules_members_eq h defaults]
  | array items length ih =>
      cases sameForm_of_members_eq h
      rename_i items' length'
      have under := fun keyword => congrArg (Keyed.find? · keyword) h
      have documents := under "items"
      have most := under "maxItems"
      have least := under "minItems"
      simp only [find?_members_items, find?_members_maxItems, find?_members_minItems,
        Option.some.injEq, Json.object.injEq] at documents most least
      have count : Function.Injective Json.nat := fun m n e => by
        cases e; rfl
      have length : length = length' := by
        cases length
        cases length'
        rw [Length.mk.injEq]
        exact ⟨Option.map_injective count least, Option.map_injective count most⟩
      rw [ih soundS.items properS.items hintsS.items properT.items declaredT.items documents, length]
  | anyOf branches ih =>
      cases sameForm_of_members_eq h
      have documents := congrArg (Keyed.find? · "anyOf") h
      simp only [find?_members_anyOf, Option.some.injEq, Json.array.injEq] at documents
      rw [eq_of_documents_eq (fun a ha b hb => ih a ha (soundS.anyOf ha) (properS.anyOf ha)
        (hintsS.anyOf ha) (properT.anyOf hb) (declaredT.anyOf hb)) documents]
  | allOf branches ih =>
      cases sameForm_of_members_eq h
      have documents := congrArg (Keyed.find? · "allOf") h
      simp only [find?_members_allOf, Option.some.injEq, Json.array.injEq] at documents
      rw [eq_of_documents_eq (fun a ha b hb => ih a ha (soundS.allOf ha) (properS.allOf ha)
        (hintsS.allOf ha) (properT.allOf hb) (declaredT.allOf hb)) documents]
  | oneOf branches ih =>
      cases sameForm_of_members_eq h
      have documents := congrArg (Keyed.find? · "oneOf") h
      simp only [find?_members_oneOf, Option.some.injEq, Json.array.injEq] at documents
      rw [eq_of_documents_eq (fun a ha b hb => ih a ha (soundS.oneOf ha) (properS.oneOf ha)
        (hintsS.oneOf ha) (properT.oneOf hb) (declaredT.oneOf hb)) documents]

end Schema

end TypedPipeline
