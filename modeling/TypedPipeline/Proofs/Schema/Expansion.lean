import TypedPipeline.Proofs.Recursion
import TypedPipeline.Proofs.Schema.Reading

/-!
# Proofs.Schema.Expansion: reading with a list of definitions at hand

The reader hands on the names of the definitions that it is reading. Read with one list of names
instead, on which a name is put before its definition is read and from which it is taken afterwards,
a document comes to the same. This file fixes:

* what reading a document does with the documents inside it, for any reading of these
  (`readParts`), and that the reader does just that (`readAt_eq_parts`, `readAt_reference`);
* the keywords that are no documents: what is read of them depends on their values only
  (`SameKeywords`), and finds no cycle of references (`FindsNoCycle`);
* relations between two ways of reading that go along with the steps of a reading (`Along`): **two
  readings of a document go along if those of the documents inside do** (`Along.readParts`);
* the reading with a list (`Expanding`), counted out: **it ends, comes to what the reader comes to,
  and leaves the list as it was, whether it succeeds or not** (`readWithin_eq`). What is left to do
  (`readingRank`) is the document and, for each definition not on the list, all definitions.
-/

namespace TypedPipeline

namespace Schema

/-! ## 1. One document, given the reading of its parts -/

/-- The keywords under which branches stand. -/
def combinators : List String := ["anyOf", "allOf", "oneOf"]

section Parts

variable {m : Type → Type} [Monad m] [MonadLiftT (Except Malformed) m]

/-- A refusal. -/
def refused {α : Type} (path : Path) (reason : Malformation) : m α :=
  liftM (.error ⟨path, reason⟩ : Reading α)

/-- A document without parts: a truth value, or what is no schema. -/
def readPlain (document : Json) (path : Path) : Reading Schema :=
  match document with
  | .bool true => .ok .any
  | .bool false => .error ⟨path, .falseSchema⟩
  | other => .error ⟨path, .notASchema other⟩

variable (read : Json → Path → m Schema)

/-- The branches under a combinator. -/
def readBranches (members : Keyed Json) (path : Path) (keyword : String) :
    m (Option (List Schema)) :=
  match members.find? keyword with
  | none => return none
  | some (.array items) => return some (← items.mapM (read · path))
  | some _ => refused path (.notAnArray keyword)

def readObjectParts (members : Keyed Json) (path : Path) : m Schema :=
  match members.find? "properties" with
  | none => return .object [] (← liftM (readRules members [] path))
  | some (.object documents) => do
    let properties ← documents.mapM fun d => return (d.1, ← read d.2 (path.property d.1))
    return .object properties (← liftM (readRules members (readDefaults documents) path))
  | some _ => refused path .propertiesNotObject

def readArrayParts (members : Keyed Json) (path : Path) : m Schema := do
  let least ← liftM (readCount members "minItems" path)
  let most ← liftM (readCount members "maxItems" path)
  match members.find? "items" with
  | none => return .array .any ⟨least, most⟩
  | some (.array items) => do
    let branches ← items.mapM (read · path.items)
    let count := branches.length
    return .array (unionOf branches)
      ⟨some (Nat.max (least.getD 0) count), some (Nat.min (most.getD count) count)⟩
  | some document => return .array (← read document path.items) ⟨least, most⟩

/-- A document as of one of its kinds. -/
def readKind (severalKinds : Bool) (members : Keyed Json) (path : Path) (kind : String) :
    m (Option Schema) := do
  if kind = "object" then return some (← readObjectParts read members path)
  else if kind = "array" then return some (← readArrayParts read members path)
  else liftM (readScalarKind kind severalKinds members path)

def readKinds (members : Keyed Json) (path : Path) : m (Option Schema) := do
  match ← liftM (kindsOf members path) with
  | .untyped => return none
  | .literal values => return some (← liftM (readEnumeration values members path))
  | .listed kinds =>
    let branches ← kinds.mapM (readKind read (1 < kinds.length) members path)
    match branches.filterMap id with
    | [] => refused path .noTypeAdmits
    | [only] => return some only
    | branches => return some (.anyOf branches)

/-- A document that is no reference. -/
def readParts (members : Keyed Json) (path : Path) : m Schema :=
  if members.has "not" then refused path .negation
  else do
    let typed ← readKinds read members path
    let anyOf ← readBranches read members path "anyOf"
    let allOf ← readBranches read members path "allOf"
    let oneOf ← readBranches read members path "oneOf"
    return conjunction (typed.toList ++ (anyOf.map Schema.anyOf).toList
      ++ (allOf.map Schema.allOf).toList ++ (oneOf.map Schema.oneOf).toList)

end Parts

variable {definitions members : Keyed Json} {resolving : List String} {path : Path}

theorem readCombinator_eq {keyword : String} :
    readCombinator definitions resolving members keyword path =
      readBranches (readAt definitions resolving) members path keyword := by
  rw [readCombinator, readBranches]
  split
  · rename_i found
    simp only [found]
    rfl
  · rename_i items found
    simp only [found, readItems_eq_mapM]
  · rename_i value no found
    simp only [found]
    rfl

theorem readProperties_eq_mapM (documents : List (String × Json)) :
    readProperties definitions resolving documents path = documents.mapM fun d =>
      return (d.1, ← readAt definitions resolving d.2 (path.property d.1)) := by
  induction documents with
  | nil =>
      rw [readProperties]
      rfl
  | cons d rest ih =>
      rw [readProperties, List.mapM_cons, ih]
      cases readAt definitions resolving d.2 (path.property d.1) <;> rfl

theorem readObject_eq_parts : readObject definitions resolving members path =
    readObjectParts (readAt definitions resolving) members path := by
  rw [readObject, readObjectParts]
  split
  · rename_i found
    simp only [found]
    rfl
  · rename_i documents found
    simp only [found, readProperties_eq_mapM]
    rfl
  · rename_i value no found
    simp only [found]
    rfl

theorem readArray_eq_parts : readArray definitions resolving members path =
    readArrayParts (readAt definitions resolving) members path := by
  rw [readArray, readArrayParts]
  refine bind_congr fun least => bind_congr fun most => ?_
  split
  · rename_i found
    simp only [found]
  · rename_i items found
    simp only [found, readItems_eq_mapM]
  · rename_i value no found
    simp only [found]

theorem readTyped_eq_kinds : readTyped definitions resolving members path =
    readKinds (readAt definitions resolving) members path := by
  rw [readTyped, readKinds]
  refine bind_congr fun kinds => ?_
  cases kinds with
  | untyped => rfl
  | literal values => rfl
  | listed kinds =>
      simp only [readObject_eq_parts, readArray_eq_parts]
      rfl

theorem readAt_plain {document : Json} (no : ∀ members, document ≠ .object members) :
    readAt definitions resolving document path = readPlain document path := by
  unfold readAt readPlain
  cases document with
  | object members => exact absurd rfl (no members)
  | bool value => cases value <;> rfl
  | _ => rfl

/-- **The reader is what reading one document does, given the reader.** -/
theorem readAt_eq_parts (reference : members.find? "$ref" = none) :
    readAt definitions resolving (.object members) path =
      readParts (readAt definitions resolving) members path := by
  rw [readAt, reference, readParts, readTyped_eq_kinds]
  simp only [readCombinator_eq]
  rfl

/-- A reference is read as what it refers to. -/
theorem readAt_reference {reference : Json} (found : members.find? "$ref" = some reference) :
    readAt definitions resolving (.object members) path =
      resolve definitions resolving reference path >>= fun r =>
        readAt definitions (r.1.1 :: resolving) r.1.2 path := by
  rw [readAt, found]
  dsimp only
  cases resolve definitions resolving reference path with
  | error e => rfl
  | ok r =>
      obtain ⟨⟨name, target⟩, _, _⟩ := r
      rfl

/-! ## 2. Keywords that are no documents -/

/-- The keywords under which documents stand. -/
def documentKeywords : List String := combinators ++ ["properties", "items"]

/-- The same keywords, with the same values unless these are documents or a default. -/
structure SameKeywords (members members' : Keyed Json) : Prop where
  value {keyword : String} : keyword ∉ "default" :: documentKeywords →
    members'.find? keyword = members.find? keyword
  present {keyword : String} : keyword ∈ documentKeywords →
    members'.has keyword = members.has keyword

variable {members' : Keyed Json}

namespace SameKeywords

theorem has (same : SameKeywords members members') {keyword : String} (h : keyword ≠ "default") :
    members'.has keyword = members.has keyword := by
  by_cases document : keyword ∈ documentKeywords
  · exact same.present document
  · rw [Keyed.has, Keyed.has, same.value (by simp [h, document])]

theorem readScalar (same : SameKeywords members members') (kind : ScalarKind) :
    Schema.readScalar kind members' path = Schema.readScalar kind members path := by
  have number (keyword : String) (h : keyword ∉ "default" :: documentKeywords) :
      readNumber members' keyword path = readNumber members keyword path := by
    rw [readNumber, readNumber, same.value h]
  have exclusive (keyword : String) (h : keyword ∉ "default" :: documentKeywords)
      (bound : Option Bound) :
      readExclusive members' keyword bound path = readExclusive members keyword bound path := by
    rw [readExclusive, readExclusive, same.value h]
  have distribution : readDistribution members' path = readDistribution members path := by
    rw [readDistribution, readDistribution, same.value (by decide)]
  simp only [Schema.readScalar, number "minimum" (by decide), number "maximum" (by decide),
    number "minimumForOptimizer" (by decide), number "maximumForOptimizer" (by decide),
    exclusive "exclusiveMinimum" (by decide), exclusive "exclusiveMaximum" (by decide), distribution]

theorem readEnumeration (same : SameKeywords members members') (value : Json) :
    Schema.readEnumeration value members' path = Schema.readEnumeration value members path := by
  have bound : boundEnumeration members' path = boundEnumeration members path := by
    funext s
    cases s <;> simp only [boundEnumeration, same.readScalar]
  simp only [Schema.readEnumeration, bound]

theorem readScalarKind (same : SameKeywords members members') (name : String) (several : Bool) :
    Schema.readScalarKind name several members' path =
      Schema.readScalarKind name several members path := by
  simp only [Schema.readScalarKind, same.readScalar, same.value (show "enum" ∉ _ by decide)]

theorem kindsOf (same : SameKeywords members members') :
    Schema.kindsOf members' path = Schema.kindsOf members path := by
  have infer : inferKind? members' = inferKind? members := by
    simp only [inferKind?, List.any_cons, List.any_nil]
    simp [same.has]
  rw [Schema.kindsOf, Schema.kindsOf, infer, same.value (by decide), same.value (by decide)]

theorem readRules (same : SameKeywords members members') (defaults : Keyed Json) :
    Schema.readRules members' defaults path = Schema.readRules members defaults path := by
  rw [Schema.readRules, Schema.readRules, same.value (by decide), same.value (by decide),
    same.value (by decide)]

theorem readCount (same : SameKeywords members members') {keyword : String}
    (h : keyword ∉ "default" :: documentKeywords) :
    Schema.readCount members' keyword path = Schema.readCount members keyword path := by
  rw [Schema.readCount, Schema.readCount, same.value h]

end SameKeywords

/-- A report of a reference to a definition that is being read. -/
def IsCycle (e : Malformed) : Prop := ∃ name, e.reason = .cyclicReference name

/-- What reads no reference finds no cycle. -/
def FindsNoCycle {α : Type} (r : Reading α) : Prop := ∀ e, r = .error e → ¬ IsCycle e

namespace FindsNoCycle

variable {α β : Type}

theorem ok (a : α) : FindsNoCycle (.ok a) := fun _ h => nomatch h

theorem error {reason : Malformation} (h : ∀ name, reason ≠ .cyclicReference name) :
    FindsNoCycle (.error ⟨path, reason⟩ : Reading α) := by
  rintro _ e ⟨name, cycle⟩
  cases e
  exact h name cycle

theorem bind {r : Reading α} {f : α → Reading β} (h : FindsNoCycle r)
    (hf : ∀ a, FindsNoCycle (f a)) : FindsNoCycle (r >>= f) := by
  cases r with
  | error e =>
      rintro _ ⟨rfl⟩ cycle
      exact h e rfl cycle
  | ok a => exact hf a

theorem mapM {items : List α} {f : α → Reading β} (h : ∀ a, FindsNoCycle (f a)) :
    FindsNoCycle (items.mapM f) := by
  induction items with
  | nil => exact ok []
  | cons a rest ih =>
      rw [List.mapM_cons]
      exact (h a).bind fun b => ih.bind fun bs => ok (b :: bs)

theorem readPlain (document : Json) : FindsNoCycle (readPlain document path) := by
  unfold Schema.readPlain
  split
  · exact ok _
  · exact error (by simp)
  · exact error (by simp)

theorem readNumber (keyword : String) : FindsNoCycle (readNumber members keyword path) := by
  unfold Schema.readNumber
  split
  · exact ok _
  split
  · exact ok _
  · exact error (by simp)

theorem readExclusive (keyword : String) (bound : Option Bound) :
    FindsNoCycle (readExclusive members keyword bound path) := by
  unfold Schema.readExclusive
  split
  · exact ok _
  · exact ok _
  · exact ok _
  · split
    · exact ok _
    · exact error (by simp)

theorem readDistribution : FindsNoCycle (readDistribution members path) := by
  unfold Schema.readDistribution
  split
  · exact ok _
  · exact ok _
  · exact ok _
  · exact error (by simp)

theorem readScalar (kind : ScalarKind) : FindsNoCycle (readScalar kind members path) :=
  (readNumber _).bind fun _ => (readNumber _).bind fun _ => (readExclusive _ _).bind fun _ =>
    (readExclusive _ _).bind fun _ => readDistribution.bind fun _ => (readNumber _).bind fun _ =>
      (readNumber _).bind fun _ => ok _

theorem readMembers (value : Json) : FindsNoCycle (readMembers value path) := by
  unfold Schema.readMembers
  split
  · exact ok _
  · exact error (by simp)

theorem boundEnumeration (s : Schema) : FindsNoCycle (boundEnumeration members path s) := by
  unfold Schema.boundEnumeration
  split
  · split
    · exact (readScalar _).bind fun _ => ok _
    · exact ok _
  · exact ok _

theorem readEnumeration (value : Json) : FindsNoCycle (readEnumeration value members path) := by
  refine (readMembers value).bind fun values => ?_
  split
  · exact error (by simp)
  split
  · exact (mapM boundEnumeration).bind fun _ => ok _
  · exact boundEnumeration _

theorem readScalarKind (name : String) (several : Bool) :
    FindsNoCycle (readScalarKind name several members path) := by
  unfold Schema.readScalarKind
  split
  · exact error (by simp)
  refine (readScalar _).bind fun s => ?_
  split
  · exact ok _
  refine (readMembers _).bind fun values => ?_
  dsimp only
  split <;> split <;> exact ok _

theorem kindsOf : FindsNoCycle (kindsOf members path) := by
  unfold Schema.kindsOf
  split
  · exact ok _
  · refine bind (mapM fun value => ?_) fun _ => ok _
    unfold readTypeName
    split
    · exact ok _
    · exact error (by simp)
  · exact error (by simp)
  · split
    · exact ok _
    · exact ok _
    · exact ok _

theorem readCount (keyword : String) : FindsNoCycle (readCount members keyword path) := by
  unfold Schema.readCount
  split
  · exact ok _
  split
  · exact ok _
  · exact error (by simp)

theorem readNames (value : Json) (keyword : String) :
    FindsNoCycle (readNames value keyword path) := by
  unfold Schema.readNames
  split
  · exact error (by simp)
  · refine bind (mapM fun value => ?_) fun _ => ok _
    split
    · exact ok _
    · exact error (by simp)

theorem readRules (defaults : Keyed Json) : FindsNoCycle (readRules members defaults path) := by
  unfold Schema.readRules
  dsimp only
  split <;> refine bind (by first | exact readNames _ _ | exact ok _) fun required => ?_
  all_goals
    split
    all_goals
      refine bind ?_ fun relevant => ?_
      · first | exact (readNames _ _).bind fun _ => ok _ | exact ok _
      split <;> exact bind (by first | exact ok _ | exact error (by simp)) fun _ => ok _

end FindsNoCycle

/-! ## 3. Two ways of reading the parts -/

/-- The kinds as which a document is read. -/
def kindsRead (members : Keyed Json) : List String :=
  match kindsOf members .root with
  | .ok (.listed kinds) => kinds
  | _ => []

/-- The place of a document matters for the report only, not for its kinds. -/
theorem kindsOf_root {kinds : Kinds} (h : kindsOf members path = .ok kinds) :
    kindsOf members .root = .ok kinds := by
  have names {values : List Json} {names : List String}
      (h : values.mapM (readTypeName path) = .ok names) :
      values.mapM (readTypeName .root) = .ok names := by
    induction values generalizing names with
    | nil => exact h
    | cons value rest ih =>
        rw [List.mapM_cons] at h ⊢
        obtain ⟨name, hn, h⟩ := Except.bind_eq_ok.1 h
        obtain ⟨others, ho, e⟩ := Except.bind_eq_ok.1 h
        cases value with
        | text s =>
            cases hn
            cases e
            rw [ih ho]
            rfl
        | _ => cases hn
  unfold kindsOf at h ⊢
  split at h
  · exact h
  · obtain ⟨listed, hl, h⟩ := Except.bind_eq_ok.1 h
    exact Except.bind_eq_ok.2 ⟨listed, names hl, h⟩
  · cases h
  · exact h

theorem kindsRead_of_kindsOf {kinds : List String}
    (h : kindsOf members path = .ok (.listed kinds)) : kindsRead members = kinds := by
  rw [kindsRead, kindsOf_root h]

section Along

variable {m n : Type → Type} [Monad m] [LawfulMonad m] [MonadLiftT (Except Malformed) m]
  [Monad n] [LawfulMonad n] [MonadLiftT (Except Malformed) n]

/-- A relation between two ways of reading that goes along with their steps: to what is read without
    a reference, and from one step to the next. -/
structure Along (R : ∀ α : Type, m α → n α → Prop) : Prop where
  pure {α : Type} (a : α) : R α (pure a) (pure a)
  local_bind {α β : Type} {r : Reading α} {f : α → m β} {g : α → n β} : FindsNoCycle r →
    (∀ a, r = .ok a → R β (f a) (g a)) → R β (liftM r >>= f) (liftM r >>= g)
  bind {α β : Type} {x : m α} {y : n α} {f : α → m β} {g : α → n β} :
    R α x y → (∀ a, R β (f a) (g a)) → R β (x >>= f) (y >>= g)

/-- The documents that stand in one document are read along with those in another. -/
structure PartsAlong (R : m Schema → n Schema → Prop) (read : Json → Path → m Schema)
    (read' : Json → Path → n Schema) (members members' : Keyed Json) (path : Path) : Prop where
  same : SameKeywords members members'
  branches {keyword : String} {items : List Json} : keyword ∈ combinators →
    members.find? keyword = some (.array items) →
    ∃ items', members'.find? keyword = some (.array items') ∧
      List.Forall₂ (fun d d' => R (read d path) (read' d' path)) items items'
  noBranches {keyword : String} : keyword ∈ combinators →
    (∀ items, members.find? keyword ≠ some (.array items)) →
    members'.find? keyword = members.find? keyword
  properties {documents : List (String × Json)} : "object" ∈ kindsRead members →
    members.find? "properties" = some (.object documents) →
    ∃ documents', members'.find? "properties" = some (.object documents') ∧
      readDefaults documents' = readDefaults documents ∧
      List.Forall₂ (fun d d' => d'.1 = d.1 ∧
        R (read d.2 (path.property d.1)) (read' d'.2 (path.property d.1))) documents documents'
  noProperties : (∀ documents, members.find? "properties" ≠ some (.object documents)) →
    members'.find? "properties" = members.find? "properties"
  items {items : List Json} : "array" ∈ kindsRead members →
    members.find? "items" = some (.array items) →
    ∃ items', members'.find? "items" = some (.array items') ∧
      List.Forall₂ (fun d d' => R (read d path.items) (read' d' path.items)) items items'
  eachItem {document : Json} : "array" ∈ kindsRead members →
    members.find? "items" = some document → (∀ items, document ≠ .array items) →
    ∃ document', members'.find? "items" = some document' ∧ (∀ items, document' ≠ .array items) ∧
      R (read document path.items) (read' document' path.items)

/-- A document that is read as a part of another one, and where it stands. -/
inductive StandsIn (members : Keyed Json) (path : Path) : Json → Path → Prop
  | branch {keyword : String} {items : List Json} {item : Json} : keyword ∈ combinators →
      members.find? keyword = some (.array items) → item ∈ items → StandsIn members path item path
  | property {documents : List (String × Json)} {name : String} {document : Json} :
      "object" ∈ kindsRead members → members.find? "properties" = some (.object documents) →
      (name, document) ∈ documents → StandsIn members path document (path.property name)
  | item {items : List Json} {item : Json} : "array" ∈ kindsRead members →
      members.find? "items" = some (.array items) → item ∈ items →
      StandsIn members path item path.items
  | eachItem {document : Json} : "array" ∈ kindsRead members →
      members.find? "items" = some document → (∀ items, document ≠ .array items) →
      StandsIn members path document path.items

variable {R : ∀ α : Type, m α → n α → Prop} {read : Json → Path → m Schema}
  {read' : Json → Path → n Schema} {members' : Keyed Json}

namespace Along

theorem mapM {α β γ : Type} {f : α → m γ} {g : β → n γ} {as : List α} {bs : List β}
    (along : Along R) (h : List.Forall₂ (fun a b => R γ (f a) (g b)) as bs) :
    R _ (as.mapM f) (bs.mapM g) := by
  induction h with
  | nil => exact along.pure []
  | cons head _ ih =>
      rw [List.mapM_cons, List.mapM_cons]
      exact along.bind head fun c => along.bind ih fun cs => along.pure (c :: cs)

theorem lift {α : Type} {r : Reading α} (along : Along R) (h : FindsNoCycle r) :
    R α (liftM r) (liftM r) := by
  simpa using along.local_bind h fun a _ => along.pure a

theorem refused {α : Type} {reason : Malformation} (along : Along R)
    (h : ∀ name, reason ≠ .cyclicReference name) :
    R _ (Schema.refused path reason : m α) (Schema.refused path reason) :=
  along.lift (.error h)

variable (along : Along R) (parts : PartsAlong (R Schema) read read' members members' path)
include along parts

theorem readBranches {keyword : String} (h : keyword ∈ combinators) :
    R _ (Schema.readBranches read members path keyword)
      (Schema.readBranches read' members' path keyword) := by
  by_cases array : ∃ items, members.find? keyword = some (.array items)
  · obtain ⟨items, found⟩ := array
    obtain ⟨items', found', each⟩ := parts.branches h found
    simp only [Schema.readBranches, found, found']
    exact along.bind (along.mapM each) fun _ => along.pure _
  · rw [Schema.readBranches, Schema.readBranches, parts.noBranches h (not_exists.1 array)]
    split
    · exact along.pure none
    · rename_i items found
      exact absurd ⟨items, found⟩ array
    · exact along.refused (by simp)

theorem readObjectParts (object : "object" ∈ kindsRead members) :
    R _ (Schema.readObjectParts read members path)
      (Schema.readObjectParts read' members' path) := by
  have rules (defaults : Keyed Json) :
      R _ (liftM (readRules members defaults path)) (liftM (readRules members' defaults path)) := by
    rw [parts.same.readRules]
    exact along.lift (.readRules _)
  by_cases documents : ∃ documents, members.find? "properties" = some (.object documents)
  · obtain ⟨documents, found⟩ := documents
    obtain ⟨documents', found', defaults, each⟩ := parts.properties object found
    simp only [Schema.readObjectParts, found, found', defaults]
    refine along.bind (along.mapM (each.imp fun d d' h => ?_)) fun _ =>
      along.bind (rules _) fun _ => along.pure _
    rw [h.1]
    exact along.bind h.2 fun _ => along.pure _
  · rw [Schema.readObjectParts, Schema.readObjectParts, parts.noProperties (not_exists.1 documents)]
    split
    · exact along.bind (rules _) fun _ => along.pure _
    · rename_i items found
      exact absurd ⟨items, found⟩ documents
    · exact along.refused (by simp)

theorem readArrayParts (array : "array" ∈ kindsRead members) :
    R _ (Schema.readArrayParts read members path) (Schema.readArrayParts read' members' path) := by
  have count (keyword : String) (h : keyword ∉ "default" :: documentKeywords) :
      R _ (liftM (readCount members keyword path)) (liftM (readCount members' keyword path)) := by
    rw [parts.same.readCount h]
    exact along.lift (.readCount _)
  refine along.bind (count _ (by decide)) fun least =>
    along.bind (count _ (by decide)) fun most => ?_
  cases found : members.find? "items" with
  | none =>
      have absent : members'.find? "items" = none := by
        have present := parts.same.present (show "items" ∈ _ by decide)
        simpa [Keyed.has, found] using present
      simp only [absent]
      exact along.pure _
  | some document =>
      by_cases items : ∃ items, document = .array items
      · obtain ⟨items, rfl⟩ := items
        obtain ⟨items', found', each⟩ := parts.items array found
        simp only [found']
        exact along.bind (along.mapM each) fun _ => along.pure _
      · obtain ⟨document', found', no, read⟩ := parts.eachItem array found (not_exists.1 items)
        simp only [found']
        cases document with
        | array l => exact absurd ⟨l, rfl⟩ items
        | _ =>
          cases document' with
          | array l => exact absurd rfl (no l)
          | _ => exact along.bind read fun _ => along.pure _

theorem readKinds :
    R _ (Schema.readKinds read members path) (Schema.readKinds read' members' path) := by
  rw [Schema.readKinds, Schema.readKinds, parts.same.kindsOf]
  refine along.local_bind .kindsOf fun kinds hk => ?_
  cases kinds with
  | untyped => exact along.pure none
  | literal values =>
      simp only [parts.same.readEnumeration]
      exact along.local_bind (.readEnumeration _) fun _ _ => along.pure _
  | listed kinds =>
      have each : ∀ kind ∈ kinds,
          R _ (readKind read (1 < kinds.length) members path kind)
            (readKind read' (1 < kinds.length) members' path kind) := by
        intro kind listed
        rw [← kindsRead_of_kindsOf hk] at listed
        rw [readKind, readKind]
        split
        · rename_i object
          exact along.bind (along.readObjectParts parts (object ▸ listed)) fun _ => along.pure _
        · split
          · rename_i array
            exact along.bind (along.readArrayParts parts (array ▸ listed)) fun _ => along.pure _
          · rw [parts.same.readScalarKind]
            exact along.lift (.readScalarKind _ _)
      refine along.bind (along.mapM (List.forall₂_same.2 each)) fun branches => ?_
      split
      · exact along.refused (by simp)
      · exact along.pure _
      · exact along.pure _

/-- **Two ways of reading go along if they go along on the documents inside.** -/
theorem readParts :
    R _ (Schema.readParts read members path) (Schema.readParts read' members' path) := by
  rw [Schema.readParts, Schema.readParts, parts.same.has (by decide)]
  split
  · exact along.refused (by simp)
  · exact along.bind (along.readKinds parts) fun _ =>
      along.bind (along.readBranches parts (by decide)) fun _ =>
        along.bind (along.readBranches parts (by decide)) fun _ =>
          along.bind (along.readBranches parts (by decide)) fun _ => along.pure _

end Along

end Along

/-- The same document read in two ways that go along on its parts. -/
theorem partsAlong_self {m n : Type → Type} {R : m Schema → n Schema → Prop}
    {read : Json → Path → m Schema} {read' : Json → Path → n Schema}
    (each : ∀ document place, StandsIn members path document place →
      R (read document place) (read' document place)) :
    PartsAlong R read read' members members path where
  same := ⟨fun _ => rfl, fun _ => rfl⟩
  branches h found :=
    ⟨_, found, List.forall₂_same.2 fun _ hd => each _ _ (.branch h found hd)⟩
  noBranches _ _ := rfl
  properties object found :=
    ⟨_, found, rfl, List.forall₂_same.2 fun _ hd => ⟨rfl, each _ _ (.property object found hd)⟩⟩
  noProperties _ := rfl
  items array found :=
    ⟨_, found, List.forall₂_same.2 fun _ hd => each _ _ (.item array found hd)⟩
  eachItem array found no := ⟨_, found, no, each _ _ (.eachItem array found no)⟩

theorem StandsIn.size_le {document : Json} {place : Path}
    (h : StandsIn members path document place) : document.size ≤ Json.sizeMembers members := by
  have inside {keyword : String} {items : List Json}
      (found : members.find? keyword = some (.array items)) (hd : document ∈ items) :
      document.size ≤ Json.sizeMembers members := by
    have := Json.size_le_of_mem hd
    have := Json.size_le_of_find? found
    simp only [Json.size] at this
    omega
  cases h with
  | branch _ found hd => exact inside found hd
  | property _ found hd =>
      have := Json.size_le_of_find? found
      have := Json.size_le_of_mem_members hd
      simp only [Json.size] at *
      omega
  | item _ found hd => exact inside found hd
  | eachItem _ found _ => exact Json.size_le_of_find? found

/-! ## 4. Reading with a list of definitions at hand -/

/-- Reading that may stop with a report, beside a list of the definitions that are being read. -/
abbrev Expanding (α : Type) := ExceptT Malformed (StateT (List String) Option) α

/-- A definition is on the list while it is read, and is taken off again however that ends. -/
def whileReading {α : Type} (name : String) (x : Expanding α) : Expanding α := do
  modify (name :: ·)
  let outcome : Reading α ← liftM x.run
  modify List.tail
  liftM outcome

/-- What reading a document does, given the readings it calls for. -/
def readDocument (definitions : Keyed Json) (call : Json → Path → Expanding Schema) (document : Json)
    (path : Path) : Expanding Schema :=
  match document with
  | .object members =>
    match Keyed.find? members "$ref" with
    | none => readParts call members path
    | some reference => do
      let ⟨(name, target), _⟩ ← liftM (resolve definitions (← get) reference path)
      whileReading name (call target path)
  | plain => liftM (readPlain plain path)

/-- Reading with no more than so many documents inside each other, from a list of definitions that
    are being read: what it comes to, and the list that is left. -/
def readWithin (definitions : Keyed Json) (depth : Nat) (document : Json) (path : Path)
    (resolving : List String) : Option (Reading Schema × List String) :=
  callsWithin
    (fun call x => readDocument definitions (fun d p names => call (d, p, names)) x.1 x.2.1 x.2.2)
    depth (document, path, resolving)

/-- It comes to `r`, and leaves the list as it is. -/
def Restores (resolving : List String) (α : Type) (x : Expanding α) (r : Reading α) : Prop :=
  x resolving = some (r, resolving)

theorem along_restores (resolving : List String) : Along (Restores resolving) where
  pure a := rfl
  local_bind {α β r f g} _ h := by
    cases r with
    | error e => rfl
    | ok a => exact h a rfl
  bind {α β x y f g} hx h := by
    show (x resolving).bind _ = _
    rw [hx]
    cases y with
    | error e => rfl
    | ok a => exact h a

/-- The definition that is put on the list is the one that is taken off. -/
theorem restores_whileReading {α : Type} {name : String} {x : Expanding α} {r : Reading α}
    (h : Restores (name :: resolving) α x r) : Restores resolving α (whileReading name x) r := by
  have outcome : (liftM x.run : Expanding (Reading α)) (name :: resolving) =
      some (.ok r, name :: resolving) := by
    show Option.bind (x (name :: resolving)) _ = _
    rw [h]
    rfl
  show Option.bind ((liftM x.run : Expanding (Reading α)) (name :: resolving)) _ = _
  rw [outcome]
  rfl

/-- What reading a document has ahead of it: itself, and each definition that is not being read. -/
def readingRank (definitions : Keyed Json) (resolving : List String) (document : Json) : Nat :=
  unresolved definitions resolving * (Json.sizeMembers definitions + 1) + document.size

theorem readingRank_definition {name : String} {target document : Json} (fresh : name ∉ resolving)
    (found : definitions.find? name = some target) :
    readingRank definitions (name :: resolving) target <
      readingRank definitions resolving document := by
  have fewer := unresolved_lt found fresh
  have small := Json.size_le_of_find? found
  have : (unresolved definitions (name :: resolving) + 1) * (Json.sizeMembers definitions + 1) ≤
      unresolved definitions resolving * (Json.sizeMembers definitions + 1) :=
    Nat.mul_le_mul_right _ fewer
  rw [Nat.add_mul] at this
  unfold readingRank
  omega

theorem StandsIn.readingRank_lt {document : Json} {place : Path}
    (inside : StandsIn members path document place) :
    readingRank definitions resolving document <
      readingRank definitions resolving (.object members) := by
  have := inside.size_le
  simp only [readingRank, Json.size]
  omega

/-- **Induction along a reading**: from what a document refers to, or from the documents inside, to
    the document. -/
@[elab_as_elim]
theorem readingInduction (definitions : Keyed Json) {P : List String → Json → Path → Prop}
    (plain : ∀ resolving document path, (∀ members, document ≠ .object members) →
      P resolving document path)
    (reference : ∀ resolving (members : Keyed Json) path value,
      members.find? "$ref" = some value →
      (∀ r, resolve definitions resolving value path = .ok r → P (r.1.1 :: resolving) r.1.2 path) →
      P resolving (.object members) path)
    (parts : ∀ resolving (members : Keyed Json) path, members.find? "$ref" = none →
      (∀ document place, StandsIn members path document place → P resolving document place) →
      P resolving (.object members) path)
    (resolving : List String) (document : Json) (path : Path) : P resolving document path := by
  induction rank : readingRank definitions resolving document using Nat.strongRecOn
    generalizing resolving document path with
  | ind n ih =>
      subst rank
      cases document with
      | object members =>
          cases found : Keyed.find? members "$ref" with
          | some value =>
              exact reference _ _ _ value found fun r _ =>
                ih _ (readingRank_definition r.2.1 r.2.2) _ _ _ rfl
          | none =>
              exact parts _ _ _ found fun d p inside => ih _ inside.readingRank_lt _ _ _ rfl
      | _ => exact plain _ _ _ (by simp)

/-- **A reading calls only for readings with less ahead of them.** -/
theorem restores_readDocument {call : Json → Path → Expanding Schema} {document : Json}
    (h : ∀ d p names, readingRank definitions names d < readingRank definitions resolving document →
      Restores names Schema (call d p) (readAt definitions names d p)) :
    Restores resolving Schema (readDocument definitions call document path)
      (readAt definitions resolving document path) := by
  unfold readDocument
  split
  · rename_i members
    split
    · rename_i reference
      rw [readAt_eq_parts reference]
      exact (along_restores resolving).readParts
        (partsAlong_self fun d p inside => h d p _ inside.readingRank_lt)
    · rename_i reference found
      rw [readAt_reference found]
      show ((liftM (resolve definitions resolving reference path) : Expanding _) >>= _) resolving = _
      cases e : resolve definitions resolving reference path with
      | error e => rfl
      | ok r =>
          obtain ⟨⟨name, target⟩, fresh, found⟩ := r
          exact restores_whileReading (h target path _ (readingRank_definition fresh found))
  · rename_i no
    rw [readAt_plain no]
    exact (along_restores resolving).lift (.readPlain _)

/-- **Reading ends, and leaves the list of definitions that are being read as it was.** -/
theorem readWithin_eq {document : Json} {depth : Nat}
    (enough : readingRank definitions resolving document < depth) :
    readWithin definitions depth document path resolving =
      some (readAt definitions resolving document path, resolving) :=
  callsWithin_eq
    (fun x : Json × Path × List String => (readAt definitions x.2.2 x.1 x.2.1, x.2.2))
    (fun x => readingRank definitions x.2.2 x.1)
    (fun _ _ h => restores_readDocument fun d p names small => h (d, p, names) small) enough

end Schema

end TypedPipeline
