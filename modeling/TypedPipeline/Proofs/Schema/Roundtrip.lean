import TypedPipeline.Proofs.Schema.Documents

/-!
# Proofs.Schema.Roundtrip: a document belongs to one schema

A schema is read back from its document, so the document says all there is to say about it. Values
are compared up to the sign of zero, and so are schemas. This file fixes:

* members that are the same, and what they hold under a name (`find?_of_sameMembers`);
* the keywords that tell the forms apart (`formOf_members`), and what the same keywords say of bounds,
  rules and branches;
* **that schemas with the same document are the same** (`same_of_sameMembers`), and that a document is
  read as the schema that it was written for (`toDocument_roundtrip`).
-/

namespace TypedPipeline

/-! ## 1. Members -/

namespace Json

variable {xs ys : List (String × Json)}

/-- Members that are the same are the same under every name. -/
theorem find?_of_sameMembers (h : sameMembers xs ys = true) (name : String) :
    sameOption same (Keyed.find? xs name) (Keyed.find? ys name) = true := by
  induction xs generalizing ys with
  | nil =>
      cases ys with
      | nil => rfl
      | cons y ys => cases h
  | cons x xs ih =>
      cases ys with
      | nil => cases h
      | cons y ys =>
          obtain ⟨m, x⟩ := x
          obtain ⟨n, y⟩ := y
          simp only [sameMembers, Bool.and_eq_true, beq_iff_eq] at h
          obtain ⟨⟨rfl, value⟩, rest⟩ := h
          rw [Keyed.find?_cons, Keyed.find?_cons]
          split
          · exact value
          · exact ih rest

/-- Members found under the same names are the same if what is found is. -/
theorem sameMembers_filterMap {f g : String → Option Json} {names : List String}
    (h : ∀ name ∈ names, sameOption same (f name) (g name) = true) :
    sameMembers (names.filterMap fun name => (f name).map fun value => (name, value))
      (names.filterMap fun name => (g name).map fun value => (name, value)) = true := by
  induction names with
  | nil => rfl
  | cons name rest ih =>
      obtain ⟨first, later⟩ := List.forall_mem_cons.1 h
      rw [List.filterMap_cons, List.filterMap_cons]
      cases hf : f name with
      | none =>
          cases hg : g name with
          | none => exact ih later
          | some y => rw [hf, hg] at first; cases first
      | some x =>
          cases hg : g name with
          | none => rw [hf, hg] at first; cases first
          | some y =>
              rw [hf, hg] at first
              have first : x.same y = true := first
              simp only [Option.map_some, sameMembers, beq_self_eq_true, first, ih later,
                Bool.and_self]

end Json

namespace Schema

/-! ## 2. Keywords -/

/-- The short name of the form that keywords are written for. -/
def formOf (keywords : Keyed Json) : String :=
  match keywords.find? "type" with
  | some (.text name) => name
  | _ => if keywords.has "anyOf" then "anyOf" else if keywords.has "allOf" then "allOf"
      else if keywords.has "oneOf" then "oneOf" else "any"

theorem formOf_members (default : Option Json) (s : Schema) :
    formOf (members default s) = s.formName := by
  cases s <;> simp [formOf, members, Keyed.has, formName]

theorem find?_default (default : Option Json) (s : Schema) :
    Keyed.find? (members default s) "default" = default := by
  cases s <;> simp [members]

theorem formOf_congr {xs ys : Keyed Json} (h : Json.sameMembers xs ys = true) :
    formOf xs = formOf ys := by
  have has (name : String) : xs.has name = ys.has name := by
    have under := Json.find?_of_sameMembers h name
    rw [Keyed.has, Keyed.has]
    cases hx : xs.find? name <;> cases hy : ys.find? name <;> rw [hx, hy] at under <;>
      first | rfl | cases under
  have type := Json.find?_of_sameMembers h "type"
  rw [formOf, formOf, has, has, has]
  cases hx : xs.find? "type" with
  | none =>
      cases hy : ys.find? "type" with
      | none => rfl
      | some y => rw [hx, hy] at type; cases type
  | some x =>
      cases hy : ys.find? "type" with
      | none => rw [hx, hy] at type; cases type
      | some y =>
          rw [hx, hy] at type
          have type : x.same y = true := type
          cases x <;> cases y <;> simp_all [Json.same]

theorem equals_of_same_float {x y : Binary64} (fx : x.isFinite = true) (fy : y.isFinite = true)
    (h : (Json.float x).same (.float y) = true) : x.equals y = true := by
  rw [float_of_isFinite fx, float_of_isFinite fy] at h
  exact h

/-- A bound is the same where both keywords are. -/
theorem sameOption_bound {a b : Option Bound} (fa : ∀ x ∈ a, x.value.isFinite = true)
    (fb : ∀ x ∈ b, x.value.isFinite = true)
    (h : sameOption Json.same (boundMember a false) (boundMember b false) = true)
    (h' : sameOption Json.same (boundMember a true) (boundMember b true) = true) :
    sameOption Bound.same a b = true := by
  cases a with
  | none =>
      cases b with
      | none => rfl
      | some b =>
          obtain ⟨y, e⟩ := b
          cases e <;> simp [boundMember, sameOption] at h h'
  | some a =>
      obtain ⟨x, d⟩ := a
      cases b with
      | none => cases d <;> simp [boundMember, sameOption] at h h'
      | some b =>
          obtain ⟨y, e⟩ := b
          have same := @equals_of_same_float x y (fa _ rfl) (fb _ rfl)
          cases d <;> cases e <;> simp [boundMember, sameOption] at h h' <;>
            simp [sameOption, Bound.same, same, h, h']

theorem sameOption_hint {a b : Option Binary64} (fa : ∀ x ∈ a, x.isFinite = true)
    (fb : ∀ x ∈ b, x.isFinite = true)
    (h : sameOption Json.same (a.map .float) (b.map .float) = true) :
    sameOption Binary64.equals a b = true := by
  cases a <;> cases b <;> first | exact h | exact equals_of_same_float (fa _ rfl) (fb _ rfl) h

theorem name_injective {k k' : ScalarKind} (h : k.name = k'.name) : k = k' := by
  have e := ofName?_name k
  rw [h, ofName?_name] at e
  exact (Option.some.inj e).symm

theorem eq_of_same_nat {m n : Option Nat}
    (h : sameOption Json.same (m.map .nat) (n.map .nat) = true) : m = n := by
  cases m <;> cases n <;> first | rfl | cases h | skip
  rename_i m n
  have h : ((m : Int) == (n : Int)) = true := h
  rw [Int.ofNat_inj.1 (beq_iff_eq.1 h)]

theorem eq_of_sameItems_texts {names names' : List String}
    (h : Json.sameItems (names.map .text) (names'.map .text) = true) : names = names' := by
  induction names generalizing names' with
  | nil =>
      cases names' with
      | nil => rfl
      | cons name' rest' => cases h
  | cons name rest ih =>
      cases names' with
      | nil => cases h
      | cons name' rest' =>
          simp only [List.map_cons, Json.sameItems, Json.same, Bool.and_eq_true, beq_iff_eq] at h
          rw [h.1, ih h.2]

/-! ## 3. Forms -/

variable {default default' : Option Json}

/-- Scalars with the same keywords are the same. -/
theorem same_scalar {a b : Scalar} (fa : a.Finite) (fb : b.Finite)
    (h : Json.sameMembers (members default (.scalar a)) (members default' (.scalar b)) = true) :
    a.same b = true := by
  have under := Json.find?_of_sameMembers h
  have kind := formOf_congr h
  rw [formOf_members, formOf_members] at kind
  have minimum := under "minimum"
  have above := under "exclusiveMinimum"
  have maximum := under "maximum"
  have below := under "exclusiveMaximum"
  have literal := under "enum"
  have distribution := under "distribution"
  have lowHint := under "minimumForOptimizer"
  have highHint := under "maximumForOptimizer"
  simp only [members, find?_present, find?_present_nil, String.reduceEq, ↓reduceIte, Option.or_none]
    at minimum above maximum below literal distribution lowHint highHint
  have members : sameOption Json.sameItems a.enumeration b.enumeration = true := by
    cases ha : a.enumeration <;> cases hb : b.enumeration <;> rw [ha, hb] at literal <;> exact literal
  have sampled : a.distribution = b.distribution := by
    cases ha : a.distribution <;> cases hb : b.distribution <;>
      first | rfl | (rw [ha, hb] at distribution; cases distribution)
  simp only [Scalar.same, name_injective kind, sampled, members, beq_self_eq_true, Bool.and_true,
    Bool.true_and, Bool.and_eq_true]
  exact ⟨⟨⟨sameOption_bound fa.low fb.low minimum above,
    sameOption_bound fa.high fb.high maximum below⟩, sameOption_hint fa.lowHint fb.lowHint lowHint⟩,
    sameOption_hint fa.highHint fb.highHint highHint⟩

/-- Branches with the same documents are the same. -/
theorem same_branches {as bs : List Schema}
    (ih : ∀ a ∈ as, ∀ b ∈ bs, Json.sameMembers (members none a) (members none b) = true →
      a.same b = true)
    (h : Json.sameItems (documents as) (documents bs) = true) : sameBranches as bs = true := by
  induction as generalizing bs with
  | nil =>
      cases bs with
      | nil => rfl
      | cons b bs => cases h
  | cons a as ihl =>
      cases bs with
      | nil => cases h
      | cons b bs =>
          simp only [documents, Json.sameItems, Json.same, Bool.and_eq_true] at h
          have first := ih a List.mem_cons_self b List.mem_cons_self h.1
          have rest := ihl (fun a ha b hb => ih a (List.mem_cons_of_mem _ ha) b
            (List.mem_cons_of_mem _ hb)) h.2
          simp only [sameBranches, first, rest, Bool.and_self]

/-- Properties with the same documents have the same names, schemas and defaults. -/
theorem same_properties {ps qs : List (String × Schema)} {ds es : Keyed Json}
    (ih : ∀ p ∈ ps, ∀ q ∈ qs, ∀ default default', Json.sameMembers (members default p.2)
      (members default' q.2) = true → p.2.same q.2 = true)
    (h : Json.sameMembers (propertyDocuments ds ps) (propertyDocuments es qs) = true) :
    sameProperties ps qs = true ∧ Keyed.names ps = Keyed.names qs ∧
      ∀ name ∈ Keyed.names ps, sameOption Json.same (ds.find? name) (es.find? name) = true := by
  induction ps generalizing qs with
  | nil =>
      cases qs with
      | nil => exact ⟨rfl, rfl, by simp [Keyed.names]⟩
      | cons q qs => cases h
  | cons p ps ihl =>
      cases qs with
      | nil => cases h
      | cons q qs =>
          obtain ⟨name, s⟩ := p
          obtain ⟨name', t⟩ := q
          simp only [propertyDocuments, Json.sameMembers, Json.same, Bool.and_eq_true,
            beq_iff_eq] at h
          obtain ⟨⟨rfl, first⟩, later⟩ := h
          obtain ⟨same, names, defaults⟩ := ihl (fun p hp q hq => ih p (List.mem_cons_of_mem _ hp) q
            (List.mem_cons_of_mem _ hq)) later
          have one := ih _ List.mem_cons_self _ List.mem_cons_self _ _ first
          have own := Json.find?_of_sameMembers first "default"
          rw [find?_default, find?_default] at own
          refine ⟨by simp only [sameProperties, beq_self_eq_true, one, same, Bool.and_self],
            congrArg (name :: ·) names, fun other ho => ?_⟩
          rcases List.mem_cons.1 ho with rfl | ho
          · exact own
          · exact defaults other ho

/-- Rules with the same keywords are the same. -/
theorem same_rules {ps qs : Keyed Schema} {rules rules' : ObjectRules}
    (h : Json.sameMembers (members default (.object ps rules)) (members default' (.object qs rules'))
      = true)
    (defaults : Json.sameMembers rules.defaults rules'.defaults = true) :
    rules.same rules' = true := by
  have under := Json.find?_of_sameMembers h
  have closed := under "additionalProperties"
  have required := under "required"
  have relevant := under "relevantToOptimizer"
  simp only [members, find?_present, find?_present_nil, String.reduceEq, ↓reduceIte, Option.or_none]
    at closed required relevant
  have closed : rules.isOpen = rules'.isOpen := by simpa [sameOption, Json.same] using closed
  have required : rules.required = rules'.required := by
    cases hr : rules.required <;> cases hr' : rules'.required <;> rw [hr, hr'] at required <;>
      first | rfl | cases required | exact eq_of_sameItems_texts required
  have relevant : rules.relevant = rules'.relevant := by
    cases hr : rules.relevant <;> cases hr' : rules'.relevant <;> rw [hr, hr'] at relevant <;>
      first | rfl | cases relevant | exact congrArg some (eq_of_sameItems_texts relevant)
  simp only [ObjectRules.same, closed, required, relevant, defaults, beq_self_eq_true, Bool.and_self]

/-- Defaults that are all for declared properties are those found under the properties. -/
theorem defaults_eq_filterMap {properties : Keyed Schema} {rules : ObjectRules}
    (declared : ∀ d ∈ rules.defaults, properties.has d.1 = true)
    (proper : (Schema.object properties rules).Proper) :
    rules.defaults = properties.names.filterMap fun name =>
      (rules.defaults.find? name).map fun value => (name, value) := by
  refine (Keyed.filterMap_find? proper.self.1 proper.self.2.defaults (fun name hn => ?_)
    fun _ _ => rfl).symm
  obtain ⟨d, hd, rfl⟩ := List.mem_map.1 hn
  exact Keyed.has_iff.1 (declared d hd)

theorem Sound.declared {properties : Keyed Schema} {rules : ObjectRules}
    (sound : (Schema.object properties rules).Sound) :
    ∀ d ∈ rules.defaults, properties.has d.1 = true := fun d hd => by
  obtain ⟨s, hs, _⟩ := sound.self.default d hd
  rw [Keyed.has, hs]
  rfl

/-- Two schemas of one form. -/
inductive SameForm : Schema → Schema → Prop
  | any : SameForm .any .any
  | scalar (a b : Scalar) : SameForm (.scalar a) (.scalar b)
  | object (ps qs : List (String × Schema)) (rules rules' : ObjectRules) :
      SameForm (.object ps rules) (.object qs rules')
  | array (items items' : Schema) (length length' : Length) :
      SameForm (.array items length) (.array items' length')
  | anyOf (as bs : List Schema) : SameForm (.anyOf as) (.anyOf bs)
  | allOf (as bs : List Schema) : SameForm (.allOf as) (.allOf bs)
  | oneOf (as bs : List Schema) : SameForm (.oneOf as) (.oneOf bs)

theorem scalar_name_ne (kind : ScalarKind) {form : String}
    (h : form ∈ ["any", "object", "array", "anyOf", "allOf", "oneOf"]) : kind.name ≠ form := by
  revert h
  cases kind <;> rintro h rfl <;> revert h <;> decide

theorem sameForm_of_formName {s t : Schema} (form : s.formName = t.formName) : SameForm s t := by
  cases s <;> cases t <;>
    first
    | constructor
    | exact absurd form (by simp only [formName]; decide)
    | exact absurd form (scalar_name_ne _ (by simp [formName]))
    | exact absurd form.symm (scalar_name_ne _ (by simp [formName]))

theorem sameForm_of_sameMembers {s t : Schema}
    (h : Json.sameMembers (members default s) (members default' t) = true) : SameForm s t := by
  have form := formOf_congr h
  rw [formOf_members, formOf_members] at form
  exact sameForm_of_formName form

/-! ## 4. Documents -/

/-- **Well-formed schemas with finite hints whose documents are the same are the same.** -/
theorem same_of_sameMembers {s t : Schema} (soundS : s.Sound) (properS : s.Proper)
    (hintsS : s.FiniteHints) (soundT : t.Sound) (properT : t.Proper) (hintsT : t.FiniteHints)
    (h : Json.sameMembers (members default s) (members default' t) = true) : s.same t = true := by
  induction s using Schema.induction generalizing t default default' with
  | any =>
      cases sameForm_of_sameMembers h
      rfl
  | scalar a =>
      cases sameForm_of_sameMembers h
      exact same_scalar (soundS.finite hintsS) (soundT.finite hintsT) h
  | object ps rules ih =>
      cases sameForm_of_sameMembers h
      rename_i qs rules'
      have documents := Json.find?_of_sameMembers h "properties"
      simp only [find?_members_properties] at documents
      obtain ⟨each, names, found⟩ := same_properties (fun p hp q hq _ _ e =>
        ih p.1 p.2 hp (soundS.property hp) (properS.property hp) (hintsS.property hp)
          (soundT.property hq) (properT.property hq) (hintsT.property hq) e) documents
      have defaults : Json.sameMembers rules.defaults rules'.defaults = true := by
        rw [defaults_eq_filterMap soundS.declared properS,
          defaults_eq_filterMap soundT.declared properT, ← names]
        exact Json.sameMembers_filterMap found
      simp only [same, each, same_rules h defaults, Bool.and_self]
  | array items length ih =>
      cases sameForm_of_sameMembers h
      rename_i items' length'
      have under := Json.find?_of_sameMembers h
      have documents := under "items"
      have most := under "maxItems"
      have least := under "minItems"
      simp only [find?_members_items, find?_members_maxItems, find?_members_minItems]
        at documents most least
      have each := ih soundS.items properS.items hintsS.items soundT.items properT.items
        hintsT.items documents
      have length : length = length' := by
        cases length
        cases length'
        rw [Length.mk.injEq]
        exact ⟨eq_of_same_nat least, eq_of_same_nat most⟩
      simp only [same, each, length, beq_self_eq_true, Bool.and_self]
  | anyOf branches ih =>
      cases sameForm_of_sameMembers h
      have documents := Json.find?_of_sameMembers h "anyOf"
      simp only [find?_members_anyOf] at documents
      exact same_branches (fun a ha b hb => ih a ha (soundS.anyOf ha) (properS.anyOf ha)
        (hintsS.anyOf ha) (soundT.anyOf hb) (properT.anyOf hb) (hintsT.anyOf hb)) documents
  | allOf branches ih =>
      cases sameForm_of_sameMembers h
      have documents := Json.find?_of_sameMembers h "allOf"
      simp only [find?_members_allOf] at documents
      exact same_branches (fun a ha b hb => ih a ha (soundS.allOf ha) (properS.allOf ha)
        (hintsS.allOf ha) (soundT.allOf hb) (properT.allOf hb) (hintsT.allOf hb)) documents
  | oneOf branches ih =>
      cases sameForm_of_sameMembers h
      have documents := Json.find?_of_sameMembers h "oneOf"
      simp only [find?_members_oneOf] at documents
      exact same_branches (fun a ha b hb => ih a ha (soundS.oneOf ha) (properS.oneOf ha)
        (hintsS.oneOf ha) (soundT.oneOf hb) (properT.oneOf hb) (hintsT.oneOf hb)) documents

/-- **A well-formed schema with finite hints is read back from its document, and another such schema
    with the same document is the same schema.** -/
theorem toDocument_roundtrip {s : Schema} (wellFormed : s.isWellFormed = true) (proper : s.Proper)
    (hints : s.FiniteHints) :
    ofDocument s.toDocument = .ok s ∧ s.same s = true ∧
      ∀ t : Schema, t.isWellFormed = true → t.Proper → t.FiniteHints →
        (t.toDocument = s.toDocument → t = s) ∧
        (t.toDocument.same s.toDocument = true → t.same s = true) := by
  have sound := isWellFormed_iff.1 wellFormed
  have back := ofDocument_toDocument sound proper hints
  refine ⟨back, same_refl sound proper hints, fun t wellFormed' proper' hints' => ⟨fun e => ?_,
    fun e => ?_⟩⟩
  · have sound' := isWellFormed_iff.1 wellFormed'
    have back' := ofDocument_toDocument sound' proper' hints'
    rw [e, back] at back'
    exact (Except.ok.inj back').symm
  · exact same_of_sameMembers (isWellFormed_iff.1 wellFormed') proper' hints' sound proper hints e

/-- The hyperparameters of a trainer: one of two modes, a rate above 0 that is sampled by its
    logarithm, and one or more step counts, of which the rate is tuned. -/
def trainer : Schema :=
  .object [("mode", .scalar { kind := .string, enumeration := some [.text "fast", .text "safe"] }),
    ("rate", .scalar { kind := .number, minimum := some ⟨.ofInt 0, true⟩,
                       maximum := some ⟨.ofInt 8, false⟩, distribution := .logUniform,
                       minimumForOptimizer := some (.ofInt 1),
                       maximumForOptimizer := some (.ofInt 4) }),
    ("steps", .anyOf [.scalar { kind := .null },
      .array (.scalar { kind := .integer, minimum := some ⟨.ofInt 1, false⟩ }) { least := some 1 }])]
    { required := ["rate"], isOpen := false, relevant := some ["rate"],
      defaults := [("mode", .text "safe"), ("steps", .array [.int 3])] }

theorem toDocument_roundtrip_trainer :
    trainer.isWellFormed = true ∧ trainer.Proper ∧ trainer.FiniteHints ∧
      ofDocument trainer.toDocument = .ok trainer := by
  have wellFormed : trainer.isWellFormed = true := by decide +kernel
  have proper : trainer.Proper := by
    simp [trainer, Proper, Every, parts, partsOfProperties, partsOfBranches, ProperPart,
      Scalar.Proper, Json.Proper]
    refine ⟨show ["mode", "rate", "steps"].Pairwise (· < ·) by decide, List.pairwise_singleton _ _,
      fun _ e => Option.some.inj e ▸ List.pairwise_singleton _ _,
      show ["mode", "steps"].Pairwise (· < ·) by decide, ?_⟩
    simp [Json.Proper, Json.ProperItems, Json.int, Number.Proper]
  have hints : trainer.FiniteHints := by
    have : (Binary64.ofInt 1).isFinite = true ∧ (Binary64.ofInt 4).isFinite = true := by
      decide +kernel
    simp [trainer, FiniteHints, Every, parts, partsOfProperties, partsOfBranches, this]
  exact ⟨wellFormed, proper, hints, (toDocument_roundtrip wellFormed proper hints).1⟩

end Schema

end TypedPipeline
