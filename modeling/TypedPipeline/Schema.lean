import TypedPipeline.Json
import TypedPipeline.Path

/-!
# Schema: structural types of JSON values

A schema describes a set of JSON values. This file fixes:

* the seven forms: anything, scalars with ranges and enumerations, objects with named properties,
  arrays, and the unions and intersections of branches (`Schema`);
* what an object schema says beside its properties (`ObjectRules`);
* the number of nodes (`Schema.size`), by which everything that merges schemas terminates;
* structural equality (`Schema.same`), where bounds are equal as numbers and enumeration members and
  defaults are equal in their literal form.
-/

namespace TypedPipeline

/-! ## 1. Scalars -/

inductive ScalarKind where
  | number
  | integer
  | string
  | boolean
  | null
  deriving DecidableEq

namespace ScalarKind

def name : ScalarKind → String
  | .number => "number"
  | .integer => "integer"
  | .string => "string"
  | .boolean => "boolean"
  | .null => "null"

def ofName? : String → Option ScalarKind
  | "number" => some .number
  | "integer" => some .integer
  | "string" => some .string
  | "boolean" => some .boolean
  | "null" => some .null
  | _ => none

def isNumeric : ScalarKind → Bool
  | .number | .integer => true
  | _ => false

/-- The kind of a value; a whole number is an integer, however it is written. -/
def ofValue? : Json → Option ScalarKind
  | .null => some .null
  | .bool _ => some .boolean
  | .text _ => some .string
  | .number n => some (if n.isIntegral then .integer else .number)
  | .array _ | .object _ => none

/-- A member of an enumeration of this kind: integers also count as numbers. -/
def admits (kind : ScalarKind) (value : Json) : Bool :=
  match ofValue? value with
  | none => false
  | some found => kind == found || (kind == .number && found == .integer)

end ScalarKind

/-- How a range is sampled. -/
inductive Distribution where
  | uniform
  | logUniform
  deriving DecidableEq

/-- One end of a range. -/
structure Bound where
  value : Binary64
  exclusive : Bool
  deriving DecidableEq

namespace Bound

def inclusive (value : Binary64) : Bound := ⟨value, false⟩

def same (a b : Bound) : Bool := a.value.equals b.value && a.exclusive == b.exclusive

end Bound

/-- A scalar: a kind, a range, an enumeration, and hints for sampling. -/
structure Scalar where
  kind : ScalarKind
  minimum : Option Bound := none
  maximum : Option Bound := none
  enumeration : Option (List Json) := none
  distribution : Distribution := .uniform
  /-- A narrower lower end, used for sampling only. -/
  minimumForOptimizer : Option Binary64 := none
  /-- A narrower upper end, used for sampling only. -/
  maximumForOptimizer : Option Binary64 := none

/-- Both are absent, or both are there and equal under `eq`. -/
def sameOption {α : Type} (eq : α → α → Bool) : Option α → Option α → Bool
  | none, none => true
  | some a, some b => eq a b
  | _, _ => false

def Scalar.same (a b : Scalar) : Bool :=
  a.kind == b.kind && sameOption Bound.same a.minimum b.minimum
    && sameOption Bound.same a.maximum b.maximum
    && sameOption Json.sameItems a.enumeration b.enumeration
    && a.distribution == b.distribution
    && sameOption Binary64.equals a.minimumForOptimizer b.minimumForOptimizer
    && sameOption Binary64.equals a.maximumForOptimizer b.maximumForOptimizer

/-! ## 2. Schemas -/

/-- What an object schema says beside its properties. -/
structure ObjectRules where
  required : Names := []
  /-- Properties that are not declared may appear. -/
  isOpen : Bool := true
  /-- The properties an optimizer should tune; `none` means all of them. -/
  relevant : Option Names := none
  defaults : Keyed Json := []

namespace ObjectRules

def requires (rules : ObjectRules) (name : String) : Bool := rules.required.contains name

/-- The optimizer should tune the property. -/
def tunes (rules : ObjectRules) (name : String) : Bool :=
  match rules.relevant with
  | some names => names.contains name
  | none => true

def same (a b : ObjectRules) : Bool :=
  a.required == b.required && a.isOpen == b.isOpen && a.relevant == b.relevant
    && Json.sameMembers a.defaults b.defaults

end ObjectRules

/-- How many items an array may have. -/
structure Length where
  least : Option Nat := none
  most : Option Nat := none
  deriving DecidableEq

/-- A structural type of JSON values. -/
inductive Schema where
  /-- Accepts every value. -/
  | any
  | scalar (s : Scalar)
  | object (properties : List (String × Schema)) (rules : ObjectRules)
  | array (items : Schema) (length : Length)
  /-- At least one branch. -/
  | anyOf (branches : List Schema)
  /-- Every branch. -/
  | allOf (branches : List Schema)
  /-- Exactly one branch. -/
  | oneOf (branches : List Schema)

instance : Inhabited Schema := ⟨.any⟩

namespace Schema

/-- The short name of a form, for messages. -/
def formName : Schema → String
  | .any => "any"
  | .scalar s => s.kind.name
  | .object _ _ => "object"
  | .array _ _ => "array"
  | .anyOf _ => "anyOf"
  | .allOf _ => "allOf"
  | .oneOf _ => "oneOf"

def isAny : Schema → Bool
  | .any => true
  | _ => false

/-! ## 3. Size -/

mutual

/-- The number of nodes. -/
def size : Schema → Nat
  | .any => 1
  | .scalar _ => 1
  | .object properties _ => 1 + sizeProperties properties
  | .array items _ => 1 + items.size
  | .anyOf branches => 1 + sizeBranches branches
  | .allOf branches => 1 + sizeBranches branches
  | .oneOf branches => 1 + sizeBranches branches

def sizeProperties : List (String × Schema) → Nat
  | [] => 0
  | (_, schema) :: rest => schema.size + sizeProperties rest

def sizeBranches : List Schema → Nat
  | [] => 0
  | branch :: rest => branch.size + sizeBranches rest

end

theorem size_pos (s : Schema) : 0 < s.size := by
  cases s <;> simp only [size] <;> omega

theorem sizeBranches_map (properties : List (String × Schema)) :
    sizeBranches (properties.map (·.2)) = sizeProperties properties := by
  induction properties with
  | nil => rfl
  | cons head rest ih => simp [sizeBranches, sizeProperties, ih]

theorem size_le_of_find? {properties : Keyed Schema} {name : String} {s : Schema}
    (h : properties.find? name = some s) : s.size ≤ sizeProperties properties := by
  induction properties with
  | nil => simp at h
  | cons head rest ih =>
    obtain ⟨key, first⟩ := head
    rw [Keyed.find?_cons] at h
    split at h
    · simp only [Option.some.injEq] at h
      subst h; simp [sizeProperties]
    · have := ih h; simp [sizeProperties]; omega

/-! ## 4. Equality -/

mutual

def same : Schema → Schema → Bool
  | .any, .any => true
  | .scalar a, .scalar b => a.same b
  | .object ps rules, .object qs rules' => sameProperties ps qs && rules.same rules'
  | .array a length, .array b length' => a.same b && length == length'
  | .anyOf as, .anyOf bs => sameBranches as bs
  | .allOf as, .allOf bs => sameBranches as bs
  | .oneOf as, .oneOf bs => sameBranches as bs
  | _, _ => false

def sameProperties : List (String × Schema) → List (String × Schema) → Bool
  | [], [] => true
  | (m, a) :: as, (n, b) :: bs => m == n && a.same b && sameProperties as bs
  | _, _ => false

def sameBranches : List Schema → List Schema → Bool
  | [], [] => true
  | a :: as, b :: bs => a.same b && sameBranches as bs
  | _, _ => false

end

end Schema

end TypedPipeline
