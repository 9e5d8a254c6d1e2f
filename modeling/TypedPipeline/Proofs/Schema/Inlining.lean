import TypedPipeline.Proofs.Schema.References

/-!
# Proofs.Schema.Inlining: references are read as if inlined

A reference stands for a definition. This file fixes:

* the document with its references inlined (`inlined`): each reference that the reader comes to is
  replaced by its definition, in which more may be replaced. What is not read stays as it is, and the
  default of a property stays that of the document at the property;
* that a default is not read as a part of the document it stands in (`readAt_withDefault`);
* that **a document is read with its references inlined as it is read with them**
  (`refines_inlined`, `references_inlined`).
-/

namespace TypedPipeline

namespace Schema

/-! ## 1. Definitions in place of references -/

/-- A property's document with this default, or without one. -/
def withDefault (default : Option Json) : Json → Json
  | .object members =>
    match default with
    | some value => .object (Keyed.put members "default" value)
    | none => .object (Keyed.erase members "default")
  | other => other

mutual

/-- The document with each reference that the reader comes to replaced by its definition. -/
def inlined (definitions : Keyed Json) (resolving : List String) (document : Json) : Json :=
  match document with
  | .object members =>
    match Keyed.find? members "$ref" with
    | some reference =>
      match resolve definitions resolving reference .root with
      | .error _ => .object members
      | .ok ⟨(name, target), fresh, found⟩ =>
        have : unresolved definitions (name :: resolving) < unresolved definitions resolving :=
          unresolved_lt found fresh
        inlined definitions (name :: resolving) target
    | none => .object (inlinedMembers definitions resolving (kindsRead members) members)
  | other => other
termination_by (unresolved definitions resolving, 4 * document.size)
decreasing_by all_goals (simp only [Json.size]; omega)

/-- The members of a document that is read as of these kinds. -/
def inlinedMembers (definitions : Keyed Json) (resolving kinds : List String)
    (members : List (String × Json)) : List (String × Json) :=
  match members with
  | [] => []
  | (keyword, value) :: rest =>
    have := value.size_pos
    (keyword, inlinedUnder definitions resolving kinds keyword value)
      :: inlinedMembers definitions resolving kinds rest
termination_by (unresolved definitions resolving, 4 * Json.sizeMembers members + 2)
decreasing_by all_goals (simp only [Json.sizeMembers]; omega)

/-- What stands under a keyword: branches, properties and items are documents. -/
def inlinedUnder (definitions : Keyed Json) (resolving kinds : List String) (keyword : String)
    (value : Json) : Json :=
  match value with
  | .array documents =>
    if keyword ∈ combinators ∨ keyword = "items" ∧ "array" ∈ kinds then
      .array (inlinedItems definitions resolving documents)
    else .array documents
  | .object documents =>
    if keyword = "properties" ∧ "object" ∈ kinds then
      .object (inlinedProperties definitions resolving documents)
    else if keyword = "items" ∧ "array" ∈ kinds then
      inlined definitions resolving (.object documents)
    else .object documents
  | other => other
termination_by (unresolved definitions resolving, 4 * value.size + 1)
decreasing_by all_goals (simp only [Json.size]; omega)

def inlinedItems (definitions : Keyed Json) (resolving : List String) (items : List Json) :
    List Json :=
  match items with
  | [] => []
  | item :: rest =>
    have := item.size_pos
    inlined definitions resolving item :: inlinedItems definitions resolving rest
termination_by (unresolved definitions resolving, 4 * Json.sizeItems items + 1)
decreasing_by all_goals (simp only [Json.sizeItems]; omega)

/-- The documents of properties. The default stays that of the document at the property. -/
def inlinedProperties (definitions : Keyed Json) (resolving : List String)
    (documents : List (String × Json)) : List (String × Json) :=
  match documents with
  | [] => []
  | (name, document) :: rest =>
    have := document.size_pos
    (name, withDefault (document.member? "default") (inlined definitions resolving document))
      :: inlinedProperties definitions resolving rest
termination_by (unresolved definitions resolving, 4 * Json.sizeMembers documents + 1)
decreasing_by all_goals (simp only [Json.sizeMembers]; omega)

end

variable {definitions members : Keyed Json} {resolving : List String} {path : Path}

theorem inlinedItems_eq_map (items : List Json) :
    inlinedItems definitions resolving items = items.map (inlined definitions resolving) := by
  induction items with
  | nil => rw [inlinedItems]; rfl
  | cons item rest ih => rw [inlinedItems, ih]; rfl

theorem inlinedProperties_eq_map (documents : List (String × Json)) :
    inlinedProperties definitions resolving documents = documents.map fun d =>
      (d.1, withDefault (d.2.member? "default") (inlined definitions resolving d.2)) := by
  induction documents with
  | nil => rw [inlinedProperties]; rfl
  | cons d rest ih => rw [inlinedProperties, ih]; rfl

theorem find?_inlinedMembers (kinds : List String) (keyword : String) :
    Keyed.find? (inlinedMembers definitions resolving kinds members) keyword =
      (members.find? keyword).map (inlinedUnder definitions resolving kinds keyword) := by
  induction members with
  | nil => rw [inlinedMembers]; rfl
  | cons head rest ih =>
      obtain ⟨key, value⟩ := head
      rw [inlinedMembers, Keyed.find?_cons, Keyed.find?_cons, ih]
      split
      · rename_i e
        rw [e]
        rfl
      · rfl

theorem inlinedUnder_of_not_document {kinds : List String} {keyword : String}
    (h : keyword ∉ documentKeywords) (value : Json) :
    inlinedUnder definitions resolving kinds keyword value = value := by
  simp only [documentKeywords, List.mem_append, List.mem_cons, List.not_mem_nil, or_false,
    not_or] at h
  rw [inlinedUnder.eq_def]
  cases value <;> simp [h]

theorem inlinedUnder_of_not_array {kinds : List String} {keyword : String} {value : Json}
    (h : keyword ∈ combinators) (no : ∀ items, value ≠ .array items) :
    inlinedUnder definitions resolving kinds keyword value = value := by
  have apart : keyword ≠ "properties" ∧ keyword ≠ "items" := by
    simp only [combinators, List.mem_cons, List.not_mem_nil, or_false] at h
    rcases h with rfl | rfl | rfl <;> decide
  rw [inlinedUnder.eq_def]
  cases value with
  | array items => exact absurd rfl (no items)
  | _ => simp [apart]

theorem inlinedUnder_of_not_object {kinds : List String} {value : Json}
    (no : ∀ documents, value ≠ .object documents) :
    inlinedUnder definitions resolving kinds "properties" value = value := by
  rw [inlinedUnder.eq_def]
  cases value with
  | object documents => exact absurd rfl (no documents)
  | _ => simp [combinators]

theorem inlinedUnder_items {kinds : List String} {value : Json} (array : "array" ∈ kinds)
    (no : ∀ items, value ≠ .array items) :
    inlinedUnder definitions resolving kinds "items" value =
      inlined definitions resolving value := by
  rw [inlinedUnder.eq_def]
  cases value with
  | array items => exact absurd rfl (no items)
  | object documents => simp [array]
  | _ => rw [inlined]; simp

theorem sameKeywords_inlinedMembers (kinds : List String) :
    SameKeywords members (inlinedMembers definitions resolving kinds members) where
  value {keyword} other := by
    have other := fun h => other (List.mem_cons_of_mem _ h)
    rw [find?_inlinedMembers, funext (inlinedUnder_of_not_document other), Option.map_id']
  present {keyword} _ := by
    rw [Keyed.has, Keyed.has, find?_inlinedMembers, Option.isSome_map]

theorem inlined_of_not_object {document : Json} (no : ∀ members, document ≠ .object members) :
    inlined definitions resolving document = document := by
  rw [inlined.eq_def]
  cases document with
  | object members => exact absurd rfl (no members)
  | _ => rfl

theorem inlined_of_no_reference (found : members.find? "$ref" = none) :
    inlined definitions resolving (.object members) =
      .object (inlinedMembers definitions resolving (kindsRead members) members) := by
  rw [inlined, found]

/-- A reference is replaced by its definition, in which more references may be replaced. -/
theorem inlined_reference {reference name : String} {target : Json}
    (found : members.find? "$ref" = some (.text reference))
    (named : referenceName? reference = some name) (fresh : name ∉ resolving)
    (defined : definitions.find? name = some target) :
    inlined definitions resolving (.object members) =
      inlined definitions (name :: resolving) target := by
  have resolved : resolve definitions resolving (.text reference) .root =
      .ok ⟨(name, target), fresh, defined⟩ := resolve_eq_ok_iff.2 ⟨reference, rfl, named⟩
  rw [inlined, found]
  dsimp only
  rw [resolved]

/-- Every definition is an object of keywords. -/
def DefinesObjects (definitions : Keyed Json) : Prop :=
  ∀ name target, definitions.find? name = some target → ∃ members, target = .object members

/-- Where definitions are objects, what stands in place of an object is one. -/
theorem exists_inlined_object (objects : DefinesObjects definitions) (resolving : List String)
    (members : Keyed Json) :
    ∃ members', inlined definitions resolving (.object members) = .object members' := by
  induction left : unresolved definitions resolving using Nat.strongRecOn
    generalizing resolving members with
  | ind n ih =>
      subst left
      cases found : Keyed.find? members "$ref" with
      | none =>
          rw [inlined, found]
          exact ⟨_, rfl⟩
      | some reference =>
          cases resolved : resolve definitions resolving reference .root with
          | error e =>
              rw [inlined, found]
              dsimp only
              rw [resolved]
              exact ⟨members, rfl⟩
          | ok r =>
              obtain ⟨text, rfl, named⟩ := resolve_eq_ok_iff.1 resolved
              rw [inlined_reference found named r.2.1 r.2.2]
              obtain ⟨target, e⟩ := objects _ _ r.2.2
              rw [e]
              exact ih _ (unresolved_lt r.2.2 r.2.1) _ target rfl

/-! ## 2. Defaults -/

theorem member?_withDefault (default : Option Json) (members : Keyed Json) :
    (withDefault default (.object members)).member? "default" = default := by
  cases default with
  | none => exact (Keyed.find?_erase ..).trans (if_pos rfl)
  | some value => exact (Keyed.find?_put ..).trans (if_pos rfl)

theorem along_eq : Along (m := Except Malformed) (n := Except Malformed) fun _ x y => x = y where
  pure _ := rfl
  local_bind {_ _ r _ _} _ h := by
    cases r with
    | error e => rfl
    | ok a => exact h a rfl
  bind hx h := by rw [hx, funext h]

/-- Documents that differ in their default only are read alike. -/
theorem readAt_eq_of_same {members' : Keyed Json}
    (same : ∀ keyword, keyword ≠ "default" → members'.find? keyword = members.find? keyword) :
    readAt definitions resolving (.object members') path =
      readAt definitions resolving (.object members) path := by
  cases found : members.find? "$ref" with
  | some reference =>
      rw [readAt_reference found, readAt_reference ((same _ (by decide)).trans found)]
  | none =>
      have document {keyword : String} (h : keyword ∈ documentKeywords) :
          members'.find? keyword = members.find? keyword :=
        same _ fun e => absurd (e ▸ h) (by decide)
      have branch {keyword : String} (h : keyword ∈ combinators) :
          members'.find? keyword = members.find? keyword := document (List.mem_append_left _ h)
      have each (read : Json → Path → Reading Schema) :
          PartsAlong (fun x y => x = y) read read members members' path :=
        { same :=
            { value := fun other => same _ fun e => other (e ▸ List.mem_cons_self)
              present := fun h => by rw [Keyed.has, Keyed.has, document h] }
          branches := fun h found =>
            ⟨_, (branch h).trans found, List.forall₂_same.2 fun _ _ => rfl⟩
          noBranches := fun h _ => branch h
          properties := fun _ found => ⟨_, (document (by decide)).trans found, rfl,
            List.forall₂_same.2 fun _ _ => ⟨rfl, rfl⟩⟩
          noProperties := fun _ => document (by decide)
          items := fun _ found =>
            ⟨_, (document (by decide)).trans found, List.forall₂_same.2 fun _ _ => rfl⟩
          eachItem := fun _ found no => ⟨_, (document (by decide)).trans found, no, rfl⟩ }
      rw [readAt_eq_parts found, readAt_eq_parts ((same _ (by decide)).trans found)]
      exact (along_eq.readParts (each _)).symm

/-- A default is not read as a part of the document that it stands in. -/
theorem readAt_withDefault (default : Option Json) (document : Json) :
    readAt definitions resolving (withDefault default document) path =
      readAt definitions resolving document path := by
  cases document with
  | object members =>
      cases default with
      | some value =>
          exact readAt_eq_of_same fun keyword h => (Keyed.find?_put ..).trans (if_neg (Ne.symm h))
      | none =>
          exact readAt_eq_of_same fun keyword h => (Keyed.find?_erase ..).trans (if_neg (Ne.symm h))
  | _ => rfl

theorem readDefaults_inlinedProperties (objects : DefinesObjects definitions)
    (documents : List (String × Json)) :
    readDefaults (inlinedProperties definitions resolving documents) = readDefaults documents := by
  have kept (document : Json) :
      (withDefault (document.member? "default") (inlined definitions resolving document)).member?
        "default" = document.member? "default" := by
    cases document with
    | object members =>
        obtain ⟨members', e⟩ := exists_inlined_object objects resolving members
        rw [e]
        exact member?_withDefault _ _
    | _ => rw [inlined_of_not_object (by simp)]; rfl
  rw [inlinedProperties_eq_map, readDefaults, readDefaults, List.filterMap_map]
  exact List.filterMap_congr fun d _ => by simp [kept]

/-! ## 3. References are read as if inlined -/

/-- What one reading gives, the other gives. -/
def Refines (α : Type) (x y : Reading α) : Prop := ∀ a, x = .ok a → y = .ok a

theorem along_refines : Along (m := Except Malformed) (n := Except Malformed) Refines where
  pure _ := fun _ h => h
  local_bind {_ _ r _ _} _ h := by
    cases r with
    | error e => exact fun _ h => h
    | ok a => exact h a rfl
  bind {_ _ x y f g} hx h := by
    intro b hb
    obtain ⟨a, ha, hb⟩ := Except.bind_eq_ok.1 hb
    exact Except.bind_eq_ok.2 ⟨a, hx a ha, h a b hb⟩

/-- The parts of a document with its references inlined are read as its parts are. -/
theorem partsAlong_inlined (objects : DefinesObjects definitions) {others : Keyed Json}
    {names : List String}
    (each : ∀ document place, StandsIn members path document place →
      Refines Schema (readAt definitions resolving document place)
        (readAt others names (inlined definitions resolving document) place)) :
    PartsAlong (Refines Schema) (readAt definitions resolving) (readAt others names) members
      (inlinedMembers definitions resolving (kindsRead members) members) path where
  same := sameKeywords_inlinedMembers _
  branches {keyword items} h found := by
    refine ⟨items.map (inlined definitions resolving), ?_, ?_⟩
    · rw [find?_inlinedMembers, found, Option.map_some, inlinedUnder, if_pos (Or.inl h),
        inlinedItems_eq_map]
    · rw [List.forall₂_map_right_iff]
      exact List.forall₂_same.2 fun d hd => each _ _ (.branch h found hd)
  noBranches {keyword} h no := by
    rw [find?_inlinedMembers]
    cases found : members.find? keyword with
    | none => rfl
    | some value =>
        exact congrArg some (inlinedUnder_of_not_array h fun items e => no items (e ▸ found))
  properties {documents} object found := by
    refine ⟨inlinedProperties definitions resolving documents, ?_,
      readDefaults_inlinedProperties objects documents, ?_⟩
    · rw [find?_inlinedMembers, found, Option.map_some, inlinedUnder, if_pos ⟨rfl, object⟩]
    · rw [inlinedProperties_eq_map, List.forall₂_map_right_iff]
      refine List.forall₂_same.2 fun d hd => ⟨rfl, ?_⟩
      rw [readAt_withDefault]
      exact each _ _ (.property object found hd)
  noProperties no := by
    rw [find?_inlinedMembers]
    cases found : members.find? "properties" with
    | none => rfl
    | some value =>
        exact congrArg some (inlinedUnder_of_not_object fun documents e => no documents (e ▸ found))
  items {items} array found := by
    refine ⟨items.map (inlined definitions resolving), ?_, ?_⟩
    · rw [find?_inlinedMembers, found, Option.map_some, inlinedUnder, if_pos (Or.inr ⟨rfl, array⟩),
        inlinedItems_eq_map]
    · rw [List.forall₂_map_right_iff]
      exact List.forall₂_same.2 fun d hd => each _ _ (.item array found hd)
  eachItem {document} array found no := by
    refine ⟨inlined definitions resolving document, ?_, fun items => ?_,
      each _ _ (.eachItem array found no)⟩
    · rw [find?_inlinedMembers, found, Option.map_some, inlinedUnder_items array no]
    · cases document with
      | object members =>
          obtain ⟨members', e⟩ := exists_inlined_object objects resolving members
          simp [e]
      | array items => exact absurd rfl (no items)
      | _ => rw [inlined] <;> simp

/-- **A document is read with its references inlined as it is read with them.** No definitions are
    needed for that. -/
theorem refines_inlined (objects : DefinesObjects definitions) (others : Keyed Json)
    (names resolving : List String) (document : Json) (path : Path) :
    Refines Schema (readAt definitions resolving document path)
      (readAt others names (inlined definitions resolving document) path) := by
  induction resolving, document, path using readingInduction definitions with
  | plain resolving document path no =>
      rw [inlined_of_not_object no, readAt_plain no, readAt_plain no]
      exact fun _ h => h
  | reference resolving members path value found ih =>
      intro s h
      rw [readAt_reference found] at h
      obtain ⟨r, resolved, read⟩ := Except.bind_eq_ok.1 h
      obtain ⟨text, rfl, named⟩ := resolve_eq_ok_iff.1 resolved
      rw [inlined_reference found named r.2.1 r.2.2]
      exact ih r resolved s read
  | parts resolving members path found ih =>
      have reference : Keyed.find? (inlinedMembers definitions resolving (kindsRead members) members)
          "$ref" = none := by
        rw [find?_inlinedMembers, found]
        rfl
      rw [inlined_of_no_reference found, readAt_eq_parts found, readAt_eq_parts reference]
      exact along_refines.readParts (partsAlong_inlined objects ih)

/-- **References are read as if their definitions stood in their place.** Reading ends and leaves the
    list of definitions that are being read as it was; it refuses what refers back to one of them, and
    reports a cycle only there. What it gives, it gives of the document without its references, with
    the defaults where they were. -/
theorem references_inlined (document : Json) :
    (∀ (resolving : List String) (inside : Json) (place : Path) (depth : Nat),
      readingRank (definitionsOf document) resolving inside < depth →
      readWithin (definitionsOf document) depth inside place resolving =
        some (readAt (definitionsOf document) resolving inside place, resolving)) ∧
    (∀ site name, Visits (definitionsOf document) ⟨[], document, .root⟩ site →
      site.RefersBack name →
      site.read (definitionsOf document) = .error ⟨site.place, .cyclicReference name⟩ ∧
        ∃ e, ofDocument document = .error e) ∧
    (∀ e name, ofDocument document = .error e → e.reason = .cyclicReference name →
      ∃ site rest target place, (definitionsOf document).find? name = some target ∧
        Visits (definitionsOf document) ⟨[], document, .root⟩ ⟨name :: rest, target, place⟩ ∧
        Visits (definitionsOf document) ⟨name :: rest, target, place⟩ site ∧
        site.RefersBack name ∧ site.place = e.path) ∧
    (DefinesObjects (definitionsOf document) → ∀ s, ofDocument document = .ok s →
      ofDocument (inlined (definitionsOf document) [] document) = .ok s ∧
      ∀ (others : Keyed Json) (names : List String),
        readAt others names (inlined (definitionsOf document) [] document) .root = .ok s) := by
  refine ⟨fun _ _ _ _ => readWithin_eq,
    fun _ _ visits back => ⟨back.read, exists_error_of_refersBack visits back⟩,
    fun _ _ => exists_cycle_of_ofDocument, fun objects s h => ?_⟩
  obtain ⟨read, sound⟩ := ofDocument_eq_ok_iff.1 h
  have same (others : Keyed Json) (names : List String) :
      readAt others names (inlined (definitionsOf document) [] document) .root = .ok s :=
    refines_inlined objects others names [] document .root s read
  exact ⟨ofDocument_eq_ok_iff.2 ⟨same _ _, sound⟩, same⟩

/-- A count is defined once; one property refers to it, another one by way of a second definition. -/
def countDocument : Json :=
  .object [
    ("$defs", .object [
      ("count", .object [("default", .int 1), ("type", .text "integer")]),
      ("steps", .object [("$ref", .text "#/$defs/count")])]),
    ("properties", .object [
      ("batch", .object [("$ref", .text "#/$defs/count")]),
      ("epochs", .object [("$ref", .text "#/$defs/steps"), ("default", .int 3)])]),
    ("type", .text "object")]

/-- The same with the definition of a count in place of both references to it. The default of the count
    is gone, that of the property is there. -/
def plainCountDocument : Json :=
  .object [
    ("$defs", .object [
      ("count", .object [("default", .int 1), ("type", .text "integer")]),
      ("steps", .object [("$ref", .text "#/$defs/count")])]),
    ("properties", .object [
      ("batch", .object [("type", .text "integer")]),
      ("epochs", .object [("default", .int 3), ("type", .text "integer")])]),
    ("type", .text "object")]

theorem inlined_countDocument :
    inlined (definitionsOf countDocument) [] countDocument = plainCountDocument := by
  have count (resolving : List String) (fresh : "count" ∉ resolving) :
      inlined (definitionsOf countDocument) resolving (.object [("$ref", .text "#/$defs/count")]) =
        .object [("default", .int 1), ("type", .text "integer")] := by
    have named : referenceName? "#/$defs/count" = some "count" := by decide
    rw [inlined_reference rfl named fresh rfl]
    have kept (names kinds : List String) (value : Json) :
        inlinedUnder (definitionsOf countDocument) names kinds "default" value = value :=
      inlinedUnder_of_not_document (by decide) value
    simp [inlined, inlinedMembers, inlinedUnder, Keyed.find?, kept]
  have steps : inlined (definitionsOf countDocument) []
      (.object [("$ref", .text "#/$defs/steps"), ("default", .int 3)]) =
        .object [("default", .int 1), ("type", .text "integer")] := by
    have named : referenceName? "#/$defs/steps" = some "steps" := by decide
    rw [inlined_reference rfl named (by decide) rfl]
    exact count ["steps"] (by decide)
  show inlined (definitionsOf countDocument) [] (.object [("$defs", _), ("properties", .object
    [("batch", _), ("epochs", _)]), ("type", _)]) = _
  rw [inlined]
  simp only [inlinedMembers, inlinedUnder, inlinedProperties, count [] (by decide), steps]
  rfl

/-- A list whose items are such lists, without an end. -/
def nestedLists : Json :=
  .object [
    ("$defs", .object [
      ("node", .object [("items", .object [("$ref", .text "#/$defs/node")]),
        ("type", .text "array")])]),
    ("$ref", .text "#/$defs/node")]

theorem references_inlined_counts :
    (∃ s, ofDocument countDocument = .ok s ∧ ofDocument plainCountDocument = .ok s) ∧
    ∃ e, ofDocument nestedLists = .error e := by
  constructor
  · obtain ⟨reads, -, -, same⟩ := references_inlined countDocument
    have run : ((readWithin (definitionsOf countDocument) 99 countDocument .root []).map fun p =>
        match p.1 with
        | .ok s => s.isWellFormed
        | .error _ => false) = some true := by decide +kernel
    rw [reads [] countDocument .root 99 (by decide)] at run
    cases read : readAt (definitionsOf countDocument) [] countDocument .root with
    | error e =>
        rw [read] at run
        cases run
    | ok s =>
        rw [read] at run
        have sound := isWellFormed_iff.1 (Option.some.inj run)
        have ok := ofDocument_eq_ok_iff.2 ⟨read, sound⟩
        rw [inlined_countDocument] at same
        refine ⟨s, ok, (same (fun name target found => ?_) s ok).1⟩
        have each : ∀ p ∈ definitionsOf countDocument, p.2.asObject?.isSome = true := by decide
        have isObject := each _ (Keyed.mem_of_find? found)
        cases target with
        | object members => exact ⟨members, rfl⟩
        | _ => cases isObject
  · obtain ⟨-, back, -, -⟩ := references_inlined nestedLists
    have named : referenceName? "#/$defs/node" = some "node" := by decide
    refine (back ⟨["node"], .object [("$ref", .text "#/$defs/node")], Path.root.items⟩ "node"
      ?_ ?_).2
    · refine .tail (.single (.definition (r := ⟨("node", _), by decide, rfl⟩) rfl
        (resolve_eq_ok_iff.2 ⟨_, rfl, named⟩))) (.part rfl rfl (.eachItem ?_ rfl ?_))
      · decide
      · simp
    · exact ⟨_, _, rfl, rfl, named, by decide⟩

end Schema

end TypedPipeline
