import TypedPipeline.Space
import TypedPipeline.Json.Shape
import TypedPipeline.Schema.Document
import TypedPipeline.Schema.Reader

/-!
# Space.Stored: spaces as documents

A space can be stored as a document and restored from it. This file fixes:

* the stored form (`Space.stored`): records of fields and named alternatives, schemas as their own
  documents;
* the restoring (`Space.restore?`), which checks the schemas again and reads an absent fixed part and
  a fixed part of null alike;
* equality of spaces (`Space.same`), by which the two are compared.
-/

namespace TypedPipeline

/-! ## 1. Storing -/

def Segment.stored : Segment → Json
  | .property name => .object [("Property", .text name)]
  | .index position => .object [("Index", .nat position)]
  | .items => .text "Items"

def Path.stored (path : Path) : Json := .array (path.map Segment.stored)

def Domain.stored : Domain → Json
  | .float low high logScale =>
    .object [("Float", .object
      [("low", .float low), ("high", .float high), ("log_scale", .bool logScale)])]
  | .int low high logScale =>
    .object [("Int", .object
      [("low", .int low), ("high", .int high), ("log_scale", .bool logScale)])]
  | .categorical choices =>
    .object [("Categorical", .object [("choices", .array (choices.map Setting.stored))])]
  | .boolean => .text "Boolean"

/-- The stored form of a space, from that of its dimensions. -/
def Frame.storedWith (frame : Frame) (dimensions : List Json) : Json :=
  .object [("name", .text frame.name), ("parameters", .array dimensions),
    ("skeleton", frame.skeleton.getD .null), ("schema", frame.schema.toDocument),
    ("domain", frame.domain.toDocument)]

namespace Dimension

/-- The stored form of a dimension, from that of its domain or branches. -/
def storedWith (name : String) (path : Path) (domain : Json) : Json :=
  .object [("name", .text name), ("param_type", domain), ("path", path.stored)]

mutual

/-- What a dimension ranges over, stored. -/
def storedType : Dimension → Json
  | .plain _ _ domain => domain.stored
  | .selector _ _ branches =>
    .object [("Conditional", .object [("branches", .array (storedBranches branches))])]

def storedList : List Dimension → List Json
  | [] => []
  | d :: rest => storedWith d.name d.path (storedType d) :: storedList rest

def storedBranches : List (String × Frame × List Dimension) → List Json
  | [] => []
  | (label, frame, dimensions) :: rest =>
    .object [("label", .text label), ("space", frame.storedWith (storedList dimensions))]
      :: storedBranches rest

end

end Dimension

/-- The stored form of a space. -/
def Space.stored (space : Space) : Json :=
  space.frame.storedWith (Dimension.storedList space.dimensions)

/-! ## 2. Restoring -/

open JsonText

def Segment.restore? (t : JsonText) : Option Segment := do
  match ← t.variant? with
  | ("Property", some content) => return .property (← content.string?)
  | ("Index", some content) => return .index (← content.word?)
  | ("Items", content) => if isBare content then return .items else none
  | _ => none

def Path.restore? (t : JsonText) : Option Path := do (← t.items?).mapM Segment.restore?

def Setting.restore? (t : JsonText) : Option Setting := do
  match ← t.variant? with
  | ("Float", some content) => return .float (← content.double?)
  | ("Int", some content) => return .int (← content.signed?)
  | ("String", some content) => return .text (← content.string?)
  | ("Bool", some content) => return .bool (← content.flag?)
  | ("Null", content) => if isBare content then return .null else none
  | _ => none

def rangeFields : List ShapeField := [{ name := "low" }, { name := "high" }, { name := "log_scale" }]

/-- A plain domain, of the alternative `kind`. -/
def Domain.restore? (kind : String) (content : Option JsonText) : Option Domain := do
  match kind, content with
  | "Float", some content =>
    match ← content.namedFields? rangeFields with
    | [some low, some high, some logScale] =>
      return .float (← low.double?) (← high.double?) (← logScale.flag?)
    | _ => none
  | "Int", some content =>
    match ← content.namedFields? rangeFields with
    | [some low, some high, some logScale] =>
      return .int (← low.signed?) (← high.signed?) (← logScale.flag?)
    | _ => none
  | "Categorical", some content =>
    match ← content.namedFields? [{ name := "choices" }] with
    | [some choices] => return .categorical (← (← choices.items?).mapM Setting.restore?)
    | _ => none
  | "Boolean", content => if isBare content then return .boolean else none
  | _, _ => none

def Schema.restore? (t : JsonText) : Option Schema := do
  match Schema.ofDocument (← t.toValue?) with
  | .ok schema => return schema
  | .error _ => none

def spaceFields : List ShapeField :=
  [{ name := "name" }, { name := "parameters" }, { name := "skeleton" }, { name := "schema" },
    { name := "domain" }]

def dimensionFields : List ShapeField :=
  [{ name := "name" }, { name := "param_type" }, { name := "path" }]

def branchFields : List ShapeField := [{ name := "label" }, { name := "space" }]

mutual

/-- A space: its frame and its dimensions. -/
def restoreSpace? (t : JsonText) : Option (Frame × List Dimension) :=
  match h : t.record? spaceFields with
  | some [some name, some parameters, skeleton, some schema, some domain] => do
    have : parameters.size < t.size := size_lt_of_record? h (by simp)
    let name ← name.string?
    let dimensions ← restoreDimensions? parameters
    let skeleton ← optional? (·.toValue?) skeleton
    let schema ← Schema.restore? schema
    let domain ← Schema.restore? domain
    return (⟨name, skeleton, schema, domain⟩, dimensions)
  | _ => none
termination_by 2 * t.size
decreasing_by omega

/-- The dimensions in an array. -/
def restoreDimensions? (t : JsonText) : Option (List Dimension) :=
  match h : t.items? with
  | none => none
  | some items =>
    have := size_lt_of_items? h
    restoreDimensionItems? items
termination_by 2 * t.size + 1
decreasing_by omega

def restoreDimensionItems? (items : List JsonText) : Option (List Dimension) :=
  match items with
  | [] => some []
  | item :: rest => do
    have := item.size_pos
    let d ← restoreDimension? item
    return d :: (← restoreDimensionItems? rest)
termination_by 2 * sizeItems items + 1
decreasing_by all_goals (simp only [sizeItems]; omega)

def restoreDimension? (t : JsonText) : Option Dimension :=
  match h : t.record? dimensionFields with
  | some [some name, some type, some path] => do
    have : type.size < t.size := size_lt_of_record? h (by simp)
    let name ← name.string?
    let path ← Path.restore? path
    match hv : type.variant? with
    | some ("Conditional", some content) =>
      have := size_lt_of_variant? hv
      return .selector name path (← restoreBranches? content)
    | some (kind, content) => return .plain name path (← Domain.restore? kind content)
    | none => none
  | _ => none
termination_by 2 * t.size
decreasing_by omega

/-- The branches of a selector. -/
def restoreBranches? (t : JsonText) : Option (List (String × Frame × List Dimension)) :=
  match h : t.namedFields? [{ name := "branches" }] with
  | some [some branches] =>
    match hi : branches.items? with
    | none => none
    | some items =>
      have : branches.size < t.size := size_lt_of_namedFields? h (by simp)
      have := size_lt_of_items? hi
      restoreBranchItems? items
  | _ => none
termination_by 2 * t.size + 1
decreasing_by omega

def restoreBranchItems? (items : List JsonText) :
    Option (List (String × Frame × List Dimension)) :=
  match items with
  | [] => some []
  | item :: rest => do
    have := item.size_pos
    let branch ← restoreBranch? item
    return branch :: (← restoreBranchItems? rest)
termination_by 2 * sizeItems items + 1
decreasing_by all_goals (simp only [sizeItems]; omega)

def restoreBranch? (t : JsonText) : Option (String × Frame × List Dimension) :=
  match h : t.record? branchFields with
  | some [some label, some space] => do
    have : space.size < t.size := size_lt_of_record? h (by simp)
    let label ← label.string?
    let (frame, dimensions) ← restoreSpace? space
    return (label, frame, dimensions)
  | _ => none
termination_by 2 * t.size
decreasing_by omega

end

/-- The space that a stored form describes. -/
def Space.restore? (t : JsonText) : Option Space :=
  (restoreSpace? t).map fun (frame, dimensions) => ⟨frame, dimensions⟩

/-! ## 3. Equality -/

def Domain.same : Domain → Domain → Bool
  | .float l h s, .float l' h' s' => l.equals l' && h.equals h' && s == s'
  | .int l h s, .int l' h' s' => l == l' && h == h' && s == s'
  | .categorical a, .categorical b =>
    a.length == b.length && (a.zip b).all fun p => p.1.same p.2
  | .boolean, .boolean => true
  | _, _ => false

def Frame.same (a b : Frame) : Bool :=
  a.name == b.name && sameOption Json.same a.skeleton b.skeleton && a.schema.same b.schema
    && a.domain.same b.domain

namespace Dimension

mutual

def same : Dimension → Dimension → Bool
  | .plain n p d, .plain n' p' d' => n == n' && p == p' && d.same d'
  | .selector n p bs, .selector n' p' bs' => n == n' && p == p' && sameBranches bs bs'
  | _, _ => false

def sameList : List Dimension → List Dimension → Bool
  | [], [] => true
  | a :: as, b :: bs => same a b && sameList as bs
  | _, _ => false

def sameBranches : List (String × Frame × List Dimension) →
    List (String × Frame × List Dimension) → Bool
  | [], [] => true
  | (l, f, ds) :: as, (l', f', ds') :: bs =>
    l == l' && f.same f' && sameList ds ds' && sameBranches as bs
  | _, _ => false

end

end Dimension

def Space.same (a b : Space) : Bool :=
  a.frame.same b.frame && Dimension.sameList a.dimensions b.dimensions

end TypedPipeline
