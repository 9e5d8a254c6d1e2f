import TypedPipeline.Schema.WellFormed
import TypedPipeline.Schema.Union

/-!
# Schema.Reader: schemas from documents

A document is an object of keywords. This file fixes:

* the reading of a scalar's keywords (`readScalar`), where a bound may be marked exclusive by a flag
  beside it or be given by a keyword of its own, and of a list of literal values (`readEnumeration`);
* the kinds a document describes, by its `type` or by the keywords it uses (`kindsOf`);
* the reading of a document (`readAt`). Typed keywords and combinators of one document are all meant,
  so more than one part makes an intersection. A reference is read as what it refers to; the names
  that are being read are carried along, and meeting one again is an error. Reading ends because a
  reference adds to those names and everything else goes into a smaller document;
* `Schema.ofDocument`, which also checks the invariants of what was read.
-/

namespace TypedPipeline

namespace Schema

abbrev Reading (α : Type) := Except Malformed α

private def refuse {α : Type} (path : Path) (reason : Malformation) : Reading α :=
  .error ⟨path, reason⟩

/-! ## 1. Scalars -/

/-- A keyword that has to be a number. -/
def readNumber (members : Keyed Json) (keyword : String) (path : Path) :
    Reading (Option Binary64) :=
  match members.find? keyword with
  | none => .ok none
  | some value =>
    match value.asBinary64? with
    | some x => .ok (some x)
    | none => refuse path (.notANumber keyword)

/-- A bound made exclusive by a flag, or replaced by an exclusive bound of its own. -/
def readExclusive (members : Keyed Json) (keyword : String) (bound : Option Bound) (path : Path) :
    Reading (Option Bound) :=
  match members.find? keyword with
  | some (.bool true) => .ok (bound.map fun b => { b with exclusive := true })
  | some (.bool false) | none => .ok bound
  | some value =>
    match value.asBinary64? with
    | some x => .ok (some ⟨x, true⟩)
    | none => refuse path (.notANumberOrBoolean keyword)

def readDistribution (members : Keyed Json) (path : Path) : Reading Distribution :=
  match (members.find? "distribution").bind (·.asText?) with
  | none => .ok .uniform
  | some "uniform" => .ok .uniform
  | some "loguniform" => .ok .logUniform
  | some other => refuse path (.unknownDistribution other)

/-- The range and the sampling hints of a scalar. -/
def readScalar (kind : ScalarKind) (members : Keyed Json) (path : Path) : Reading Scalar := do
  let minimum ← readNumber members "minimum" path
  let maximum ← readNumber members "maximum" path
  let minimum ← readExclusive members "exclusiveMinimum" (minimum.map .inclusive) path
  let maximum ← readExclusive members "exclusiveMaximum" (maximum.map .inclusive) path
  let distribution ← readDistribution members path
  let minimumForOptimizer ← readNumber members "minimumForOptimizer" path
  let maximumForOptimizer ← readNumber members "maximumForOptimizer" path
  return { kind, minimum, maximum, distribution, minimumForOptimizer, maximumForOptimizer }

/-- The range keywords beside untyped literal values go to those of them that are numbers. -/
def boundEnumeration (members : Keyed Json) (path : Path) : Schema → Reading Schema
  | .scalar s =>
    if s.kind.isNumeric then do
      let bounds ← readScalar s.kind members path
      return .scalar { s with minimum := bounds.minimum, maximum := bounds.maximum }
    else .ok (.scalar s)
  | other => .ok other

def readMembers (value : Json) (path : Path) : Reading (List Json) :=
  match value.asArray? with
  | some values => .ok values
  | none => refuse path (.notAnArray "enum")

/-- Literal values without a type. -/
def readEnumeration (value : Json) (members : Keyed Json) (path : Path) : Reading Schema := do
  let values ← readMembers value path
  if values.isEmpty then refuse path .emptyEnumeration
  else match enumeration values with
    | .anyOf branches => return .anyOf (← branches.mapM (boundEnumeration members path))
    | schema => boundEnumeration members path schema

/-- A scalar of one of the kinds of a document; `none` if none of the literal values is of this kind
    and there are other kinds. -/
def readScalarKind (name : String) (severalKinds : Bool) (members : Keyed Json) (path : Path) :
    Reading (Option Schema) :=
  match ScalarKind.ofName? name with
  | none => refuse path (.unknownType name)
  | some kind => do
    let s ← readScalar kind members path
    match members.find? "enum" with
    | none => return some (.scalar s)
    | some value => do
      let values ← readMembers value path
      let listed := if severalKinds then values.filter kind.admits else values
      if listed.isEmpty && severalKinds then return none
      return some (.scalar (s.withEnumeration listed))

/-! ## 2. Kinds, counts and names -/

/-- The kind that the keywords of an untyped document speak of. -/
def inferKind? (members : Keyed Json) : Option String :=
  let uses (keywords : List String) : Bool := keywords.any fun k => members.has k
  if uses ["properties", "required", "additionalProperties", "relevantToOptimizer"] then
    some "object"
  else if uses ["items", "minItems", "maxItems"] then some "array"
  else if uses ["minimum", "maximum", "exclusiveMinimum", "exclusiveMaximum", "distribution"] then
    some "number"
  else none

/-- The kinds of a document. -/
inductive Kinds where
  | listed (names : List String)
  | literal (values : Json)
  | untyped

def readTypeName (path : Path) (value : Json) : Reading String :=
  match value.asText? with
  | some name => .ok name
  | none => refuse path .typeNameNotText

def kindsOf (members : Keyed Json) (path : Path) : Reading Kinds :=
  match members.find? "type" with
  | some (.text kind) => .ok (.listed [kind])
  | some (.array kinds) => do return .listed (← kinds.mapM (readTypeName path))
  | some other => refuse path (.invalidType other)
  | none =>
    match members.find? "enum", inferKind? members with
    | some values, _ => .ok (.literal values)
    | none, some kind => .ok (.listed [kind])
    | none, none => .ok .untyped

def readCount (members : Keyed Json) (keyword : String) (path : Path) : Reading (Option Nat) :=
  match members.find? keyword with
  | none => .ok none
  | some value =>
    match value.asNat? with
    | some n => .ok (some n)
    | none => refuse path (.notACount keyword)

def readNames (value : Json) (keyword : String) (path : Path) : Reading Names :=
  match value.asArray? with
  | none => refuse path (.notAnArray keyword)
  | some values => do
    let names ← values.mapM fun v =>
      match v.asText? with
      | some name => .ok name
      | none => refuse path (.entryNotText keyword)
    return Names.ofList names

/-- The rules of an object, its defaults apart. -/
def readRules (members : Keyed Json) (defaults : Keyed Json) (path : Path) :
    Reading ObjectRules := do
  let required ← match members.find? "required" with
    | some value => readNames value "required" path
    | none => .ok []
  let relevant ← match members.find? "relevantToOptimizer" with
    | some value => some <$> readNames value "relevantToOptimizer" path
    | none => .ok none
  let isOpen ← match members.find? "additionalProperties" with
    | none => .ok true
    | some (.bool flag) => .ok flag
    -- a schema for further properties still admits them
    | some (.object _) => .ok true
    | some other => refuse path (.invalidAdditional other)
  return { required, isOpen, relevant, defaults }

/-- The defaults of properties stand in their documents. -/
def readDefaults (properties : Keyed Json) : Keyed Json :=
  properties.filterMap fun p => (p.2.member? "default").map fun value => (p.1, value)

/-! ## 3. References -/

/-- The name that a reference refers to. -/
def referenceName? (reference : String) : Option String :=
  let after (lead : String) := (lead.toList.isPrefixOf? reference.toList).map String.ofList
  after "#/definitions/" <|> after "#/$defs/"

/-- The definitions that are not being read. -/
def unresolved (definitions : Keyed Json) (resolving : List String) : Nat :=
  (definitions.names.filter fun name => !resolving.contains name).length

theorem unresolved_lt {definitions : Keyed Json} {resolving : List String} {name : String}
    {target : Json} (found : definitions.find? name = some target) (fresh : name ∉ resolving) :
    unresolved definitions (name :: resolving) < unresolved definitions resolving := by
  have mono : ∀ names : List String,
      (names.filter fun n => !(name :: resolving).contains n).length ≤
        (names.filter fun n => !resolving.contains n).length := by
    intro names
    induction names with
    | nil => simp
    | cons first rest ih =>
      by_cases h : first = name <;> by_cases h' : first ∈ resolving <;> simp_all
      omega
  unfold unresolved
  induction definitions with
  | nil => simp at found
  | cons head rest ih =>
    obtain ⟨key, value⟩ := head
    rw [Keyed.find?_cons] at found
    have later := mono (Keyed.names rest)
    simp only [Keyed.names, List.map_cons, List.filter_cons] at ih later ⊢
    by_cases h : key = name
    · subst h
      simp only [List.contains_eq_mem, List.mem_cons, true_or, decide_true, Bool.not_true, fresh,
        decide_false, Bool.not_false, Bool.false_eq_true, ↓reduceIte, List.length_cons] at later ⊢
      omega
    · simp only [h, ↓reduceIte] at found
      have := ih found
      by_cases h' : key ∈ resolving <;> simp_all

/-- A reference is a text that names a definition which is not being read. -/
def resolve (definitions : Keyed Json) (resolving : List String) (reference : Json) (path : Path) :
    Reading { r : String × Json // r.1 ∉ resolving ∧ definitions.find? r.1 = some r.2 } :=
  match reference.asText? with
  | none => refuse path .referenceNotText
  | some text =>
    match referenceName? text with
    | none => refuse path (.unsupportedReference text)
    | some name =>
      if fresh : name ∈ resolving then refuse path (.cyclicReference name)
      else match found : definitions.find? name with
        | none => refuse path (.undefinedReference text)
        | some target => .ok ⟨(name, target), fresh, found⟩

/-! ## 4. Documents -/

/-- Parts that are all meant. -/
def conjunction : List Schema → Schema
  | [] => .any
  | [only] => only
  | parts => .allOf parts

mutual

/-- The schema of a document that stands at `path`, while the definitions `resolving` are being
    read. -/
def readAt (definitions : Keyed Json) (resolving : List String) (document : Json) (path : Path) :
    Reading Schema :=
  match document with
  | .bool true => .ok .any
  | .bool false => refuse path .falseSchema
  | .object members =>
    match Keyed.find? members "$ref" with
    | some reference =>
      match resolve definitions resolving reference path with
      | .error e => .error e
      | .ok ⟨(name, target), fresh, found⟩ =>
        have : unresolved definitions (name :: resolving) < unresolved definitions resolving :=
          unresolved_lt found fresh
        readAt definitions (name :: resolving) target path
    | none =>
      if Keyed.has members "not" then refuse path .negation
      else do
        let typed ← readTyped definitions resolving members path
        let anyOf ← readCombinator definitions resolving members "anyOf" path
        let allOf ← readCombinator definitions resolving members "allOf" path
        let oneOf ← readCombinator definitions resolving members "oneOf" path
        return conjunction (typed.toList ++ (anyOf.map Schema.anyOf).toList
          ++ (allOf.map Schema.allOf).toList ++ (oneOf.map Schema.oneOf).toList)
  | other => refuse path (.notASchema other)
termination_by (unresolved definitions resolving, 4 * document.size)
decreasing_by all_goals (simp only [Json.size]; omega)

/-- The branches under a combinator. -/
def readCombinator (definitions : Keyed Json) (resolving : List String) (members : List (String × Json))
    (keyword : String) (path : Path) : Reading (Option (List Schema)) :=
  match found : Keyed.find? members keyword with
  | none => .ok none
  | some (.array items) => do
    have := Json.size_le_of_find? found
    return some (← readItems definitions resolving items path)
  | some _ => refuse path (.notAnArray keyword)
termination_by (unresolved definitions resolving, 4 * Json.sizeMembers members + 2)
decreasing_by all_goals (simp only [Json.size] at *; omega)

/-- The schemas of several documents at one place. -/
def readItems (definitions : Keyed Json) (resolving : List String) (items : List Json) (path : Path) :
    Reading (List Schema) :=
  match items with
  | [] => .ok []
  | item :: rest => do
    have := item.size_pos
    let schema ← readAt definitions resolving item path
    return schema :: (← readItems definitions resolving rest path)
termination_by (unresolved definitions resolving, 4 * Json.sizeItems items + 1)
decreasing_by all_goals (simp only [Json.sizeItems]; omega)

/-- The part of a document that its kinds describe. -/
def readTyped (definitions : Keyed Json) (resolving : List String) (members : List (String × Json))
    (path : Path) : Reading (Option Schema) := do
  match ← kindsOf members path with
  | .untyped => return none
  | .literal values => return some (← readEnumeration values members path)
  | .listed kinds =>
    let branches ← kinds.mapM fun kind => do
      if kind = "object" then
        return some (← readObject definitions resolving members path)
      else if kind = "array" then
        return some (← readArray definitions resolving members path)
      else readScalarKind kind (1 < kinds.length) members path
    match branches.filterMap id with
    | [] => refuse path .noTypeAdmits
    | [only] => return some only
    | branches => return some (.anyOf branches)
termination_by (unresolved definitions resolving, 4 * Json.sizeMembers members + 3)
decreasing_by all_goals (omega)

def readObject (definitions : Keyed Json) (resolving : List String) (members : List (String × Json))
    (path : Path) : Reading Schema := do
  match found : Keyed.find? members "properties" with
  | none => return .object [] (← readRules members [] path)
  | some (.object documents) =>
    have := Json.size_le_of_find? found
    let properties ← readProperties definitions resolving documents path
    return .object properties (← readRules members (readDefaults documents) path)
  | some _ => refuse path .propertiesNotObject
termination_by (unresolved definitions resolving, 4 * Json.sizeMembers members + 2)
decreasing_by all_goals (simp only [Json.size] at *; omega)

def readProperties (definitions : Keyed Json) (resolving : List String)
    (documents : List (String × Json)) (path : Path) : Reading (List (String × Schema)) :=
  match documents with
  | [] => .ok []
  | (name, document) :: rest => do
    have := document.size_pos
    let schema ← readAt definitions resolving document (path.property name)
    return (name, schema) :: (← readProperties definitions resolving rest path)
termination_by (unresolved definitions resolving, 4 * Json.sizeMembers documents + 1)
decreasing_by all_goals (simp only [Json.sizeMembers]; omega)

/-- An array. Items given one by one fix its length, and each is read as the union of them all. -/
def readArray (definitions : Keyed Json) (resolving : List String) (members : List (String × Json))
    (path : Path) : Reading Schema := do
  let least ← readCount members "minItems" path
  let most ← readCount members "maxItems" path
  match found : Keyed.find? members "items" with
  | none => return .array .any ⟨least, most⟩
  | some (.array items) =>
    have := Json.size_le_of_find? found
    let branches ← readItems definitions resolving items path.items
    let count := branches.length
    return .array (unionOf branches)
      ⟨some (Nat.max (least.getD 0) count), some (Nat.min (most.getD count) count)⟩
  | some document =>
    have := Json.size_le_of_find? found
    return .array (← readAt definitions resolving document path.items) ⟨least, most⟩
termination_by (unresolved definitions resolving, 4 * Json.sizeMembers members + 2)
decreasing_by all_goals ((try simp only [Json.size] at *); omega)

end

/-- The definitions of a document: under `definitions`, or else under `$defs`. -/
def definitionsOf (document : Json) : Keyed Json :=
  ((document.member? "definitions" <|> document.member? "$defs").bind (·.asObject?)).getD []

/-- The schema that a document describes, if it is in order. -/
def ofDocument (document : Json) : Except Malformed Schema := do
  let schema ← readAt (definitionsOf document) [] document .root
  schema.checkWellFormed
  return schema

end Schema

end TypedPipeline
