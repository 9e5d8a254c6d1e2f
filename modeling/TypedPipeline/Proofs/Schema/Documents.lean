import TypedPipeline.Schema.Document
import TypedPipeline.Schema.Reader
import TypedPipeline.Proofs.Json.Texts
import TypedPipeline.Proofs.Schema.WellFormed

/-!
# Proofs.Schema.Documents: the document of a schema is read as the schema

A schema is written as an object of keywords. What is at its default is left out, and what is left out
is read as the default. This file fixes:

* look-up among the keywords that are there (`find?_present`);
* the reading of scalars, rules and counts from the keywords written (`readScalar_members`,
  `read_rules`, `readDefaults_propertyDocuments`);
* the reading of a document opened once, by its form (`readAt_typed`, `readAt_combinator`);
* **that a well-formed schema with finite hints is read back** (`ofDocument_toDocument`), and that its
  document is in order (`ordered_toDocument`).
-/

namespace TypedPipeline

namespace Schema

/-! ## 1. Keywords -/

@[simp]
theorem find?_present_nil (name : String) : Keyed.find? (present []) name = none := rfl

/-- A keyword that is absent is looked for further on. -/
@[simp]
theorem find?_present (key : String) (o : Option Json) (rest : List (String × Option Json))
    (name : String) :
    Keyed.find? (present ((key, o) :: rest)) name =
      if key = name then o.or (Keyed.find? (present rest) name)
      else Keyed.find? (present rest) name := by
  cases o with
  | none => simp [present]
  | some value => simp [present, Keyed.find?_cons]

/-- The documents of the branches stand under the union's own keyword. -/
theorem find?_members_anyOf (default : Option Json) (branches : List Schema) :
    Keyed.find? (members default (.anyOf branches)) "anyOf" = some (.array (documents branches)) := by
  simp [members]

theorem find?_members_allOf (default : Option Json) (branches : List Schema) :
    Keyed.find? (members default (.allOf branches)) "allOf" = some (.array (documents branches)) := by
  simp [members]

theorem find?_members_oneOf (default : Option Json) (branches : List Schema) :
    Keyed.find? (members default (.oneOf branches)) "oneOf" = some (.array (documents branches)) := by
  simp [members]

theorem find?_members_properties (default : Option Json) (properties : Keyed Schema) (rules : ObjectRules) :
    Keyed.find? (members default (.object properties rules)) "properties" =
      some (.object (propertyDocuments rules.defaults properties)) := by
  simp [members]

theorem find?_members_items (default : Option Json) (items : Schema) (length : Length) :
    Keyed.find? (members default (.array items length)) "items" =
      some (.object (members none items)) := by
  simp [members]

theorem find?_members_minItems (default : Option Json) (items : Schema) (length : Length) :
    Keyed.find? (members default (.array items length)) "minItems" = length.least.map .nat := by
  simp [members]

theorem find?_members_maxItems (default : Option Json) (items : Schema) (length : Length) :
    Keyed.find? (members default (.array items length)) "maxItems" = length.most.map .nat := by
  simp [members]

theorem float_of_isFinite {x : Binary64} (h : x.isFinite = true) : Json.float x = .number (.float x) :=
  if_pos h

variable {keywords : Keyed Json} {path : Path}

/-- A bound is read from the two keywords it may be written under. -/
theorem read_bound {keyword exclusive : String} {bound : Option Bound}
    (fin : ∀ b ∈ bound, b.value.isFinite = true)
    (h : keywords.find? keyword = boundMember bound false)
    (h' : keywords.find? exclusive = boundMember bound true) :
    ∃ x, readNumber keywords keyword path = .ok x ∧
      readExclusive keywords exclusive (x.map .inclusive) path = .ok bound := by
  unfold readNumber readExclusive
  rw [h, h']
  cases bound with
  | none => exact ⟨none, rfl, rfl⟩
  | some b =>
      obtain ⟨x, e⟩ := b
      have fin := float_of_isFinite (fin _ rfl)
      cases e with
      | false => exact ⟨some x, by simp [boundMember, fin, Json.asBinary64?, Number.toBinary64],
          by simp [boundMember, Bound.inclusive]⟩
      | true => exact ⟨none, by simp [boundMember],
          by simp [boundMember, fin, Json.asBinary64?, Number.toBinary64]⟩

theorem read_hint {keyword : String} {hint : Option Binary64}
    (fin : ∀ x ∈ hint, x.isFinite = true) (h : keywords.find? keyword = hint.map .float) :
    readNumber keywords keyword path = .ok hint := by
  unfold readNumber
  rw [h]
  cases hint with
  | none => rfl
  | some x => simp [float_of_isFinite (fin x rfl), Json.asBinary64?, Number.toBinary64]

/-! ## 2. Parts of documents -/

theorem ofName?_name (kind : ScalarKind) : ScalarKind.ofName? kind.name = some kind := by
  cases kind <;> rfl

/-- **The keywords of a scalar are read as the scalar, its enumeration apart.** -/
theorem readScalar_members {s : Scalar} (fin : s.Finite) (default : Option Json) (path : Path) :
    readScalar s.kind (members default (.scalar s)) path =
      .ok { s with enumeration := none } := by
  obtain ⟨x, low, low'⟩ := @read_bound (members default (.scalar s)) path "minimum" "exclusiveMinimum" s.minimum
    fin.low (by simp [members]) (by simp [members])
  obtain ⟨y, high, high'⟩ := @read_bound (members default (.scalar s)) path "maximum" "exclusiveMaximum" s.maximum
    fin.high (by simp [members]) (by simp [members])
  have lowHint := @read_hint (members default (.scalar s)) path "minimumForOptimizer"
    s.minimumForOptimizer fin.lowHint (by simp [members])
  have highHint := @read_hint (members default (.scalar s)) path "maximumForOptimizer"
    s.maximumForOptimizer fin.highHint (by simp [members])
  have distribution : readDistribution (members default (.scalar s)) path = .ok s.distribution := by
    unfold readDistribution
    rw [show Keyed.find? (members default (.scalar s)) "distribution" =
      if s.distribution = .logUniform then some (.text "loguniform") else none by
        simp [members]]
    cases s.distribution <;> rfl
  unfold readScalar
  rw [low, high]
  dsimp only [bind, Except.bind]
  rw [low', high']
  dsimp only
  rw [distribution, lowHint, highHint]
  rfl

theorem mapM_texts {f : Json → Reading String} (h : ∀ name, f (.text name) = .ok name)
    (names : List String) : (names.map Json.text).mapM f = .ok names := by
  induction names with
  | nil => rfl
  | cons name rest ih =>
      rw [List.map_cons, List.mapM_cons, h, ih]
      rfl

theorem readNames_texts {names : Names} (h : names.Pairwise (· < ·)) (keyword : String) :
    readNames (.texts names) keyword path = .ok names := by
  unfold readNames
  rw [show (Json.texts names).asArray? = some (names.map .text) from rfl]
  dsimp only
  rw [mapM_texts fun _ => rfl]
  exact congrArg Except.ok (Names.ofList_of_ascending h)

/-- The defaults in the documents of properties are those that are written there. -/
theorem readDefaults_propertyDocuments {properties : Keyed Schema} {defaults : Keyed Json}
    (ascending : Keyed.Ascending properties) (ordered : Keyed.Ascending defaults)
    (declared : ∀ d ∈ defaults, properties.has d.1 = true) :
    readDefaults (propertyDocuments defaults properties) = defaults := by
  have documents : readDefaults (propertyDocuments defaults properties) =
      properties.names.filterMap fun name =>
        (defaults.find? name).map fun value => (name, value) := by
    clear ascending declared
    induction properties with
    | nil => rfl
    | cons p rest ih =>
        obtain ⟨name, property⟩ := p
        have own : (Json.object (members (defaults.find? name) property)).member? "default" =
            defaults.find? name := by
          cases property <;>
            simp [Json.member?, Json.asObject?, members]
        simp only [readDefaults, Keyed.names] at ih
        simp only [propertyDocuments, readDefaults, Keyed.names, List.map_cons, List.filterMap_cons,
          own, ih]
  rw [documents]
  refine Keyed.filterMap_find? ascending ordered (fun name hn => ?_) fun _ _ => rfl
  obtain ⟨d, hd, rfl⟩ := List.mem_map.1 hn
  exact Keyed.has_iff.1 (declared d hd)

/-- Rules are read from the three keywords they are written under. -/
theorem read_rules {rules : ObjectRules} (proper : rules.Proper)
    (required : keywords.find? "required" =
      if rules.required.isEmpty then none else some (.texts rules.required))
    (relevant : keywords.find? "relevantToOptimizer" = rules.relevant.map .texts)
    (isOpen : keywords.find? "additionalProperties" = some (.bool rules.isOpen)) :
    readRules keywords rules.defaults path = .ok rules := by
  obtain ⟨requiredNames, flag, relevantNames, defaults⟩ := rules
  have readRequired := @readNames_texts path requiredNames proper.required "required"
  unfold readRules
  rw [required, relevant, isOpen]
  cases relevantNames with
  | none =>
      cases requiredNames with
      | nil => rfl
      | cons name rest =>
          dsimp only [List.isEmpty_cons, Option.map_none]
          rw [if_neg (by simp)]
          dsimp only
          rw [readRequired]
          rfl
  | some names =>
      have readRelevant := @readNames_texts path names (proper.relevant names rfl)
        "relevantToOptimizer"
      cases requiredNames with
      | nil =>
          dsimp only [List.isEmpty_nil, Option.map_some]
          rw [if_pos rfl, readRelevant]
          rfl
      | cons name rest =>
          dsimp only [List.isEmpty_cons, Option.map_some]
          rw [if_neg (by simp)]
          dsimp only
          rw [readRequired, readRelevant]
          rfl

theorem readCount_nat {keyword : String} {count : Option Nat}
    (h : keywords.find? keyword = count.map .nat) : readCount keywords keyword path = .ok count := by
  unfold readCount
  rw [h]
  cases count with
  | none => rfl
  | some n => simp [Json.nat, Json.asNat?, Number.asNat?]

/-! ## 3. Documents opened once -/

variable {definitions : Keyed Json} {resolving : List String}

/-- A document is read as a schema in order. -/
theorem ofDocument_eq_ok_iff {document : Json} {s : Schema} :
    ofDocument document = .ok s ↔
      readAt (definitionsOf document) [] document .root = .ok s ∧ s.Sound := by
  rw [ofDocument, Except.bind_eq_ok]
  constructor
  · rintro ⟨t, ht, h⟩
    obtain ⟨_, ok, e⟩ := Except.bind_eq_ok.1 h
    cases e
    exact ⟨ht, isWellFormed_iff.1 (Except.isOk_iff.2 ⟨_, ok⟩)⟩
  · rintro ⟨ht, sound⟩
    obtain ⟨u, ok⟩ := Except.isOk_iff.1 (isWellFormed_iff.2 sound)
    exact ⟨s, ht, Except.bind_eq_ok.2 ⟨u, ok, rfl⟩⟩

/-- A document that is no reference and no negation is all that its kinds and combinators say. -/
theorem readAt_object (reference : keywords.find? "$ref" = none)
    (negation : keywords.has "not" = false) {typed : Option Schema}
    {anyOf allOf oneOf : Option (List Schema)}
    (ht : readTyped definitions resolving keywords path = .ok typed)
    (hany : readCombinator definitions resolving keywords "anyOf" path = .ok anyOf)
    (hall : readCombinator definitions resolving keywords "allOf" path = .ok allOf)
    (hone : readCombinator definitions resolving keywords "oneOf" path = .ok oneOf) :
    readAt definitions resolving (.object keywords) path =
      .ok (conjunction (typed.toList ++ (anyOf.map Schema.anyOf).toList
        ++ (allOf.map Schema.allOf).toList ++ (oneOf.map Schema.oneOf).toList)) := by
  rw [readAt, reference]
  dsimp only
  rw [if_neg (by rw [negation]; exact Bool.false_ne_true), ht, hany, hall, hone]
  rfl

theorem readCombinator_none {keyword : String} (h : keywords.find? keyword = none) :
    readCombinator definitions resolving keywords keyword path = .ok none := by
  unfold readCombinator
  split
  · rfl
  · rename_i found; rw [h] at found; cases found
  · rename_i found; rw [h] at found; cases found

theorem readCombinator_array {keyword : String} {items : List Json} {branches : List Schema}
    (h : keywords.find? keyword = some (.array items))
    (hi : readItems definitions resolving items path = .ok branches) :
    readCombinator definitions resolving keywords keyword path = .ok (some branches) := by
  unfold readCombinator
  split
  · rename_i found; rw [h] at found; cases found
  · rename_i found
    rw [h] at found
    cases found
    rw [hi]
    rfl
  · rename_i other found
    rw [h] at found
    cases found
    exact absurd rfl (other items)

theorem readTyped_untyped (type : keywords.find? "type" = none)
    (literal : keywords.find? "enum" = none) (kind : inferKind? keywords = none) :
    readTyped definitions resolving keywords path = .ok none := by
  rw [readTyped, kindsOf, type, literal, kind]
  rfl

theorem readTyped_object {s : Schema} (type : keywords.find? "type" = some (.text "object"))
    (h : readObject definitions resolving keywords path = .ok s) :
    readTyped definitions resolving keywords path = .ok (some s) := by
  rw [readTyped, kindsOf, type]
  dsimp only [bind, Except.bind]
  rw [List.mapM_cons, if_pos rfl, h]
  rfl

theorem readTyped_array {s : Schema} (type : keywords.find? "type" = some (.text "array"))
    (h : readArray definitions resolving keywords path = .ok s) :
    readTyped definitions resolving keywords path = .ok (some s) := by
  rw [readTyped, kindsOf, type]
  dsimp only [bind, Except.bind]
  rw [List.mapM_cons, if_neg (by decide), if_pos rfl, h]
  rfl

theorem readTyped_scalar {s : Schema} {kind : ScalarKind}
    (type : keywords.find? "type" = some (.text kind.name))
    (h : readScalarKind kind.name false keywords path = .ok (some s)) :
    readTyped definitions resolving keywords path = .ok (some s) := by
  rw [readTyped, kindsOf, type]
  dsimp only [bind, Except.bind]
  rw [List.mapM_cons, if_neg (by cases kind <;> decide), if_neg (by cases kind <;> decide)]
  show ((readScalarKind kind.name false keywords path >>= _) >>= _) = _
  rw [h]
  rfl

theorem readObject_eq {documents : List (String × Json)} {properties : List (String × Schema)}
    {rules : ObjectRules} (h : keywords.find? "properties" = some (.object documents))
    (hp : readProperties definitions resolving documents path = .ok properties)
    (hr : readRules keywords (readDefaults documents) path = .ok rules) :
    readObject definitions resolving keywords path = .ok (.object properties rules) := by
  rw [readObject]
  split
  · rename_i found; rw [h] at found; cases found
  · rename_i found
    rw [h] at found
    cases found
    rw [hp]
    dsimp only [bind, Except.bind]
    rw [hr]
    rfl
  · rename_i other found
    rw [h] at found
    cases found
    exact absurd rfl (other documents)

theorem readArray_eq {members : List (String × Json)} {length : Length} {items : Schema}
    (least : keywords.find? "minItems" = length.least.map .nat)
    (most : keywords.find? "maxItems" = length.most.map .nat)
    (h : keywords.find? "items" = some (.object members))
    (hi : readAt definitions resolving (.object members) path.items = .ok items) :
    readArray definitions resolving keywords path = .ok (.array items length) := by
  rw [readArray, readCount_nat least]
  dsimp only [bind, Except.bind]
  rw [readCount_nat most]
  dsimp only
  split
  · rename_i found; rw [h] at found; cases found
  · rename_i found; rw [h] at found; cases found
  · rename_i found
    rw [h] at found
    cases found
    rw [hi]
    rfl

/-! ## 4. Documents of schemas -/

theorem readScalarKind_members {s : Scalar} (fin : s.Finite) (default : Option Json) (path : Path) :
    readScalarKind s.kind.name false (members default (.scalar s)) path =
      .ok (some (.scalar s)) := by
  have literal : Keyed.find? (members default (.scalar s)) "enum" = s.enumeration.map .array := by
    simp [members]
  unfold readScalarKind
  rw [ofName?_name]
  dsimp only
  rw [readScalar_members fin, literal]
  obtain ⟨kind, minimum, maximum, enumeration, distribution, lowHint, highHint⟩ := s
  cases enumeration with
  | none => rfl
  | some values =>
      show (if (values.isEmpty && false) = true then _ else _) = _
      rw [Bool.and_false]
      rfl

/-- The document of a union, or of an intersection, says nothing besides. -/
theorem readAt_combinator {keyword : String} {default : Option Json} {documents : List Json}
    {branches : List Schema} {form : List Schema → Schema}
    (listed : (keyword, form) ∈ [("anyOf", Schema.anyOf), ("allOf", .allOf), ("oneOf", .oneOf)])
    (h : ∀ name, keywords.find? name =
      if name = keyword then some (.array documents) else if name = "default" then default else none)
    (hi : readItems definitions resolving documents path = .ok branches) :
    readAt definitions resolving (.object keywords) path = .ok (form branches) := by
  have other {name : String} (ne : name ≠ keyword) (ne' : name ≠ "default") :
      keywords.find? name = none := by rw [h, if_neg ne, if_neg ne']
  have own : readCombinator definitions resolving keywords keyword path = .ok (some branches) :=
    readCombinator_array (by rw [h, if_pos rfl]) hi
  simp only [List.mem_cons, Prod.mk.injEq, List.not_mem_nil, or_false] at listed
  have apart : keyword ∉ ["$ref", "not", "type", "enum", "properties", "required",
      "additionalProperties", "relevantToOptimizer", "items", "minItems", "maxItems", "minimum",
      "maximum", "exclusiveMinimum", "exclusiveMaximum", "distribution"] := by
    rcases listed with ⟨rfl, _⟩ | ⟨rfl, _⟩ | ⟨rfl, _⟩ <;> decide
  simp only [List.mem_cons, List.not_mem_nil, or_false, not_or] at apart
  have untyped : readTyped definitions resolving keywords path = .ok none := by
    refine readTyped_untyped (other ?_ (by decide)) (other ?_ (by decide)) ?_
    · exact fun e => apart.2.2.1 e.symm
    · exact fun e => apart.2.2.2.1 e.symm
    · simp [inferKind?, Keyed.has, h, apart, eq_comm]
  have reference : keywords.find? "$ref" = none := other (fun e => apart.1 e.symm) (by decide)
  have negation : keywords.has "not" = false := by
    rw [Keyed.has, other (fun e => apart.2.1 e.symm) (by decide)]
    rfl
  rcases listed with ⟨rfl, rfl⟩ | ⟨rfl, rfl⟩ | ⟨rfl, rfl⟩
  · exact readAt_object reference negation untyped own
      (readCombinator_none (other (by decide) (by decide)))
      (readCombinator_none (other (by decide) (by decide)))
  · exact readAt_object reference negation untyped
      (readCombinator_none (other (by decide) (by decide))) own
      (readCombinator_none (other (by decide) (by decide)))
  · exact readAt_object reference negation untyped
      (readCombinator_none (other (by decide) (by decide)))
      (readCombinator_none (other (by decide) (by decide))) own

/-- A document of one kind is what the kind says. -/
theorem readAt_typed {s : Schema}
    (absent : ∀ name ∈ ["$ref", "not", "anyOf", "allOf", "oneOf"], keywords.find? name = none)
    (ht : readTyped definitions resolving keywords path = .ok (some s)) :
    readAt definitions resolving (.object keywords) path = .ok s := by
  have negation : keywords.has "not" = false := by
    rw [Keyed.has, absent "not" (by decide)]
    rfl
  exact readAt_object (absent "$ref" (by decide)) negation ht
    (readCombinator_none (absent "anyOf" (by decide)))
    (readCombinator_none (absent "allOf" (by decide)))
    (readCombinator_none (absent "oneOf" (by decide)))

theorem readItems_documents {branches : List Schema}
    (ih : ∀ b ∈ branches,
      readAt definitions resolving (.object (members none b)) path = .ok b) :
    readItems definitions resolving (documents branches) path = .ok branches := by
  induction branches with
  | nil => rw [documents, readItems]
  | cons b rest ihr =>
      rw [documents, readItems, ih b List.mem_cons_self,
        ihr fun b hb => ih b (List.mem_cons_of_mem _ hb)]
      rfl

theorem readProperties_propertyDocuments {properties : List (String × Schema)}
    {defaults : Keyed Json}
    (ih : ∀ name s, (name, s) ∈ properties → ∀ default,
      readAt definitions resolving (.object (members default s)) (path.property name) = .ok s) :
    readProperties definitions resolving (propertyDocuments defaults properties) path =
      .ok properties := by
  induction properties with
  | nil => rw [propertyDocuments, readProperties]
  | cons p rest ihr =>
      obtain ⟨name, s⟩ := p
      rw [propertyDocuments, readProperties, ih name s List.mem_cons_self,
        ihr fun name s hs => ih name s (List.mem_cons_of_mem _ hs)]
      rfl

/-- **The document of a schema is read as the schema, whatever default it carries.** -/
theorem readAt_members {s : Schema} (sound : s.Sound) (proper : s.Proper) (hints : s.FiniteHints)
    (definitions : Keyed Json) (resolving : List String) :
    ∀ (default : Option Json) (path : Path),
      readAt definitions resolving (.object (members default s)) path = .ok s := by
  induction s using Schema.induction with
  | any =>
      intro default path
      have absent {name : String} (ne : name ≠ "default") :
          Keyed.find? (members default .any) name = none := by
        simp [members, ne.symm]
      have untyped : readTyped definitions resolving (members default .any) path = .ok none :=
        readTyped_untyped (absent (by decide)) (absent (by decide))
          (by simp [inferKind?, Keyed.has, absent])
      exact readAt_object (absent (by decide)) (by rw [Keyed.has, absent (by decide)]; rfl) untyped
        (readCombinator_none (absent (by decide))) (readCombinator_none (absent (by decide)))
        (readCombinator_none (absent (by decide)))
  | scalar s =>
      intro default path
      refine readAt_typed (by simp [members])
        (@readTyped_scalar _ _ _ _ _ s.kind ?_ (readScalarKind_members (sound.finite hints) default path))
      simp [members]
  | object properties rules ih =>
      intro default path
      have own := proper.self
      have each : readProperties definitions resolving
          (propertyDocuments rules.defaults properties) path = .ok properties :=
        readProperties_propertyDocuments fun name s hs default =>
          ih name s hs (sound.property hs) (proper.property hs) (hints.property hs) default _
      have declared : ∀ d ∈ rules.defaults, Keyed.has properties d.1 = true := by
        intro d hd
        obtain ⟨s, hs, _⟩ := sound.self.default d hd
        rw [Keyed.has, hs]
        rfl
      have defaults := readDefaults_propertyDocuments own.1 own.2.defaults declared
      refine readAt_typed (by simp [members])
        (readTyped_object (by simp [members]) (readObject_eq (by simp [members]) each ?_))
      rw [defaults]
      refine read_rules own.2 ?_ ?_ ?_ <;> simp [members]
  | array items length ih =>
      intro default path
      have each := ih sound.items proper.items hints.items none path.items
      refine readAt_typed (by simp [members])
        (readTyped_array (by simp [members]) (readArray_eq ?_ ?_ ?_ each)) <;>
        simp [members]
  | anyOf branches ih =>
      intro default path
      refine @readAt_combinator _ _ _ _ "anyOf" default (documents branches) branches _ (by simp)
        (fun name => ?_) (readItems_documents fun b hb =>
          ih b hb (sound.anyOf hb) (proper.anyOf hb) (hints.anyOf hb) none path)
      simp [members, eq_comm]
  | allOf branches ih =>
      intro default path
      refine @readAt_combinator _ _ _ _ "allOf" default (documents branches) branches _ (by simp)
        (fun name => ?_) (readItems_documents fun b hb =>
          ih b hb (sound.allOf hb) (proper.allOf hb) (hints.allOf hb) none path)
      simp [members, eq_comm]
  | oneOf branches ih =>
      intro default path
      refine @readAt_combinator _ _ _ _ "oneOf" default (documents branches) branches _ (by simp)
        (fun name => ?_) (readItems_documents fun b hb =>
          ih b hb (sound.oneOf hb) (proper.oneOf hb) (hints.oneOf hb) none path)
      by_cases e : name = "oneOf"
      · subst e
        simp [members]
      · simp [members, e, Ne.symm e, eq_comm]

theorem definitionsOf_toDocument (s : Schema) : definitionsOf s.toDocument = [] := by
  cases s <;> simp [definitionsOf, toDocument, Json.member?, Json.asObject?, members]

/-- **A well-formed schema with finite hints is read back from its document.** -/
theorem ofDocument_toDocument {s : Schema} (sound : s.Sound) (proper : s.Proper)
    (hints : s.FiniteHints) : ofDocument s.toDocument = .ok s := by
  refine ofDocument_eq_ok_iff.2 ⟨?_, sound⟩
  rw [definitionsOf_toDocument, toDocument]
  exact readAt_members sound proper hints _ _ _ _

/-! ## 5. Order -/

theorem ascending_present {entries : List (String × Option Json)}
    (h : (entries.map (·.1)).Pairwise (· < ·)) : Keyed.Ascending (present entries) := by
  have sublist : (Keyed.names (present entries)).Sublist (entries.map (·.1)) := by
    clear h
    induction entries with
    | nil => exact List.Sublist.refl _
    | cons e rest ih =>
        obtain ⟨name, o⟩ := e
        cases o with
        | none => exact ih.cons _
        | some value => exact ih.cons_cons _
  exact h.sublist sublist

/-- Keywords in order, with values in order, are an object in order. -/
theorem ordered_present {entries : List (String × Option Json)}
    (h : (entries.map (·.1)).Pairwise (· < ·)) (each : ∀ e ∈ entries, ∀ v ∈ e.2, v.Ordered) :
    (Json.object (present entries)).Ordered := by
  refine ⟨ascending_present h, Json.orderedMembers_iff.2 fun m hm => ?_⟩
  obtain ⟨e, he, there⟩ := List.mem_filterMap.1 hm
  obtain ⟨v, hv, rfl⟩ := Option.map_eq_some_iff.1 there
  exact each e he v hv

theorem ordered_map {α : Type} {f : α → Json} {o : Option α} (h : ∀ a ∈ o, (f a).Ordered) :
    ∀ v ∈ o.map f, v.Ordered := by
  intro v hv
  obtain ⟨a, ha, rfl⟩ := Option.map_eq_some_iff.1 hv
  exact h a ha

theorem ordered_float (x : Binary64) : (Json.float x).Ordered := by
  unfold Json.float
  split <;> trivial

theorem ordered_boundMember {bound : Option Bound} {exclusive : Bool} :
    ∀ v ∈ boundMember bound exclusive, v.Ordered := by
  intro v hv
  unfold boundMember at hv
  split at hv
  · split at hv
    · cases hv; exact ordered_float _
    · cases hv
  · cases hv

theorem ordered_texts (names : List String) : (Json.texts names).Ordered := by
  refine Json.orderedItems_iff.2 fun v hv => ?_
  obtain ⟨name, _, rfl⟩ := List.mem_map.1 hv
  trivial

theorem ordered_documents {branches : List Schema}
    (ih : ∀ b ∈ branches, (Json.object (members none b)).Ordered) :
    (Json.array (documents branches)).Ordered := by
  show Json.OrderedItems (documents branches)
  induction branches with
  | nil => trivial
  | cons b rest ihr =>
      exact ⟨ih b List.mem_cons_self, ihr fun b hb => ih b (List.mem_cons_of_mem _ hb)⟩

theorem ordered_propertyDocuments {properties : Keyed Schema} {defaults : Keyed Json}
    (ascending : Keyed.Ascending properties) (values : ∀ d ∈ defaults, d.2.Ordered)
    (ih : ∀ name s, (name, s) ∈ properties → ∀ default : Option Json,
      (∀ v ∈ default, v.Ordered) → (Json.object (members default s)).Ordered) :
    (Json.object (propertyDocuments defaults properties)).Ordered := by
  have names : Keyed.names (propertyDocuments defaults properties) = Keyed.names properties := by
    clear ascending ih
    induction properties with
    | nil => rfl
    | cons p rest ihr =>
        simp only [Keyed.names] at ihr
        simp only [propertyDocuments, Keyed.names, List.map_cons, ihr]
  refine ⟨by rw [Keyed.Ascending, names]; exact ascending, ?_⟩
  clear ascending names
  induction properties with
  | nil => trivial
  | cons p rest ihr =>
      obtain ⟨name, s⟩ := p
      refine ⟨ih name s List.mem_cons_self _ fun v hv => ?_,
        ihr fun name s hs => ih name s (List.mem_cons_of_mem _ hs)⟩
      exact values _ (Keyed.mem_of_find? hv)

/-- **The document of a schema is in order.** -/
theorem ordered_members {s : Schema} (proper : s.Proper) :
    ∀ default : Option Json, (∀ v ∈ default, v.Ordered) →
      (Json.object (members default s)).Ordered := by
  have text (name : String) : (Json.text name).Ordered := trivial
  have bool (flag : Bool) : (Json.bool flag).Ordered := trivial
  have nat (n : Nat) : (Json.nat n).Ordered := trivial
  induction s using Schema.induction with
  | any =>
      intro default hd
      rw [members]
      exact ordered_present (List.pairwise_singleton _ _) (by simpa using hd)
  | scalar s =>
      intro default hd
      have literal : ∀ v ∈ s.enumeration.map Json.array, v.Ordered :=
        ordered_map fun values hv => Json.orderedItems_iff.2 fun m hm => (proper.self values hv m hm).ordered
      have log : ∀ v ∈ (if s.distribution = .logUniform then some (Json.text "loguniform")
          else none), v.Ordered := by
        intro v hv
        split at hv
        · cases hv; trivial
        · cases hv
      have number (o : Option Binary64) : ∀ v ∈ o.map Json.float, v.Ordered :=
        ordered_map fun x _ => ordered_float x
      rw [members]
      refine ordered_present (by simp only [List.map_cons, List.map_nil]; decide) ?_
      simp only [List.forall_mem_cons]
      exact ⟨hd, log, literal, ordered_boundMember, ordered_boundMember, ordered_boundMember,
        number _, ordered_boundMember, number _, by simp [text], by simp⟩
  | object properties rules ih =>
      intro default hd
      have own := proper.self
      have each := @ordered_propertyDocuments properties rules.defaults own.1
        (fun d hd => (own.2.values d hd).ordered)
        fun name s hs => ih name s hs (proper.property hs)
      have required : ∀ v ∈ (if rules.required.isEmpty then none
          else some (Json.texts rules.required)), v.Ordered := by
        intro v hv
        split at hv
        · cases hv
        · cases hv; exact ordered_texts _
      have relevant : ∀ v ∈ rules.relevant.map Json.texts, v.Ordered :=
        ordered_map fun names _ => ordered_texts names
      rw [members]
      refine ordered_present (by simp only [List.map_cons, List.map_nil]; decide) ?_
      simp only [List.forall_mem_cons]
      exact ⟨by simp [bool], hd, by simpa using each, relevant, required, by simp [text], by simp⟩
  | array items length ih =>
      intro default hd
      have each := ih proper.items none (by simp)
      have count (o : Option Nat) : ∀ v ∈ o.map Json.nat, v.Ordered := ordered_map fun n _ => nat n
      rw [members]
      refine ordered_present (by simp only [List.map_cons, List.map_nil]; decide) ?_
      simp only [List.forall_mem_cons]
      exact ⟨hd, by simpa using each, count _, count _, by simp [text], by simp⟩
  | anyOf branches ih =>
      intro default hd
      have each := ordered_documents fun b hb => ih b hb (proper.anyOf hb) none (by simp)
      rw [members]
      refine ordered_present (by simp only [List.map_cons, List.map_nil]; decide) ?_
      simp only [List.forall_mem_cons]
      exact ⟨by simpa using each, hd, by simp⟩
  | allOf branches ih =>
      intro default hd
      have each := ordered_documents fun b hb => ih b hb (proper.allOf hb) none (by simp)
      rw [members]
      refine ordered_present (by simp only [List.map_cons, List.map_nil]; decide) ?_
      simp only [List.forall_mem_cons]
      exact ⟨by simpa using each, hd, by simp⟩
  | oneOf branches ih =>
      intro default hd
      have each := ordered_documents fun b hb => ih b hb (proper.oneOf hb) none (by simp)
      rw [members]
      refine ordered_present (by simp only [List.map_cons, List.map_nil]; decide) ?_
      simp only [List.forall_mem_cons]
      exact ⟨hd, by simpa using each, by simp⟩

theorem ordered_toDocument {s : Schema} (proper : s.Proper) : s.toDocument.Ordered :=
  ordered_members proper none (by simp)

end Schema

end TypedPipeline
