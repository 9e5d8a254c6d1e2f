import TypedPipeline.Schema.Reader
import TypedPipeline.Proofs.Json.Agreement

/-!
# Proofs.Schema.Keywords: what the keywords of a document mean

A document says something of a value by each of its keywords, whatever schema is read from it. This
file fixes:

* the precision in which numbers are compared (`Precision`), and the numbers with which comparing is
  the same in both (`Precision.Sharp`);
* the meaning of the keywords that look at one place of a value (`MeetsOwn`), the two ends of a range
  in one definition (`RangeEnd`, `MeetsRange`);
* the meaning of a document (`Meets`): its keywords and the documents inside it are all meant;
* the keyword lists at the levels of a document (`Level`), and the condition on one of them under
  which reading it loses nothing (`Enforceable`).
-/

namespace TypedPipeline

open Binary64

/-! ## 1. Precision -/

namespace Number

/-- The value in units, without rounding. -/
def units : Number → Int
  | .int i => i * unitsPerOne
  | .float x => x.units

/-- **Rounding leaves a number of at most 53 bits as it is, and a larger one beyond these.** -/
theorem units_toBinary64_cases (n : Number) :
    n.toBinary64.units = n.units ∨
      (2 ^ 53 * unitsPerOne ≤ n.units ∧ 2 ^ 53 * unitsPerOne ≤ n.toBinary64.units) ∨
      (n.units ≤ -2 ^ 53 * unitsPerOne ∧ n.toBinary64.units ≤ -2 ^ 53 * unitsPerOne) := by
  cases n with
  | float x => exact Or.inl rfl
  | int i =>
      have pos := unitsPerOne_pos
      rcases Int.lt_or_le (2 ^ 53) i with high | high
      · refine Or.inr (Or.inl ⟨Int.mul_le_mul_of_nonneg_right (by omega) (by omega), ?_⟩)
        have mono := units_ofInt_mono (Int.le_of_lt high)
        rw [units_ofInt (show (2 ^ 53 : Int).natAbs ≤ 2 ^ 53 by decide)] at mono
        exact mono
      rcases Int.lt_or_le i (-2 ^ 53) with low | low
      · refine Or.inr (Or.inr ⟨Int.mul_le_mul_of_nonneg_right (by omega) (by omega), ?_⟩)
        have mono := units_ofInt_mono (Int.le_of_lt low)
        rw [units_ofInt (show (-2 ^ 53 : Int).natAbs ≤ 2 ^ 53 by decide)] at mono
        exact mono
      · exact Or.inl (units_ofInt (by omega))

end Number

/-- How numbers are compared: in double precision, as validation does it, or as they are written. -/
inductive Precision where
  | double
  | written

namespace Precision

def units : Precision → Number → Int
  | .double, n => n.toBinary64.units
  | .written, n => n.units

/-- The number is not rounded, nor is another one onto it. -/
def Sharp : Precision → Number → Prop
  | .double, _ => True
  | .written, b => b.toBinary64.IsSmall

variable {p : Precision} {b n : Number}

/-- **Comparing with a sharp number is comparing in double precision.** -/
theorem Sharp.le_iff (sharp : p.Sharp b) :
    (b.toBinary64.units ≤ n.toBinary64.units ↔ p.units b ≤ p.units n) ∧
      (n.toBinary64.units ≤ b.toBinary64.units ↔ p.units n ≤ p.units b) := by
  cases p with
  | double => exact ⟨Iff.rfl, Iff.rfl⟩
  | written =>
      obtain ⟨low, high⟩ : b.toBinary64.IsSmall := sharp
      simp only [units]
      rcases b.units_toBinary64_cases with eb | ⟨_, eb⟩ | ⟨_, eb⟩
      · rcases n.units_toBinary64_cases with en | ⟨en, en'⟩ | ⟨en, en'⟩ <;>
          constructor <;> constructor <;> intro h <;> omega
      · omega
      · omega

theorem Sharp.eq_iff (sharp : p.Sharp b) :
    b.toBinary64.units = n.toBinary64.units ↔ p.units b = p.units n := by
  have := sharp.le_iff (n := n)
  omega

/-- A whole number is whole in either precision. -/
theorem dvd_units (p : Precision) (pn : n.Proper) (h : n.isIntegral = true) :
    (unitsPerOne : Int) ∣ p.units n := by
  have whole : (unitsPerOne : Int) ∣ n.toBinary64.units := by
    obtain ⟨m, e⟩ := (Number.isIntegral_iff pn).1 h
    exact e ▸ Int.dvd_mul_left _ _
  cases p with
  | double => exact whole
  | written =>
      cases n with
      | int i => exact Int.dvd_mul_left _ _
      | float x => exact whole

end Precision

namespace Json

mutual

/-- A value with every number in units. Two values whose names ascend are equal as JSON values,
    however their numbers are written, if these are equal. -/
def inUnits (p : Precision) : Json → Json
  | .number n => .int (p.units n)
  | .array items => .array (itemsInUnits p items)
  | .object members => .object (membersInUnits p members)
  | other => other

def itemsInUnits (p : Precision) : List Json → List Json
  | [] => []
  | item :: rest => item.inUnits p :: itemsInUnits p rest

def membersInUnits (p : Precision) : List (String × Json) → List (String × Json)
  | [] => []
  | (name, value) :: rest => (name, value.inUnits p) :: membersInUnits p rest

end

/-- A scalar that agrees with a value is equal to it, if it is not a number that is blurred. -/
theorem inUnits_eq_of_agrees {p : Precision} {m v : Json} (hv : v.isScalar = true)
    (sharp : ∀ n, m = .number n → p.Sharp n) (h : m.agrees v = true) :
    m.inUnits p = v.inUnits p := by
  rcases agrees_cases hv h with rfl | ⟨x, y, rfl, rfl, e⟩
  · rfl
  · rw [Number.agrees, equals_iff] at e
    rw [inUnits, inUnits, (sharp x rfl).eq_iff.1 e.2.2]

end Json

namespace Schema

/-! ## 2. Keywords at one place -/

/-- A value is of the type of this name. -/
def OfType (p : Precision) : String → Json → Prop
  | "null", .null => True
  | "boolean", .bool _ => True
  | "string", .text _ => True
  | "number", .number _ => True
  | "integer", .number n => (unitsPerOne : Int) ∣ p.units n
  | "array", .array _ => True
  | "object", .object _ => True
  | _, _ => False

/-- The value of `type` is this name, or lists it. -/
def NamesType : Json → String → Prop
  | .text kind, name => kind = name
  | .array kinds, name => .text name ∈ kinds
  | _, _ => False

/-- An end of a range. -/
inductive RangeEnd where
  | low
  | high

namespace RangeEnd

/-- The keyword of the bound, which a flag under the other keyword excludes. -/
def keyword : RangeEnd → String
  | .low => "minimum"
  | .high => "maximum"

/-- The keyword of that flag, or of a bound that is excluded itself. -/
def exclusive : RangeEnd → String
  | .low => "exclusiveMinimum"
  | .high => "exclusiveMaximum"

/-- A number is at the bound or on the inner side of it. -/
def Within : RangeEnd → (bound value : Int) → Prop
  | .low, bound, value => bound ≤ value
  | .high, bound, value => value ≤ bound

theorem Within.trans {e : RangeEnd} {a b c : Int} (h : e.Within a b) (h' : e.Within b c) :
    e.Within a c := by
  cases e with
  | low => exact Int.le_trans h h'
  | high => exact Int.le_trans h' h

end RangeEnd

/-- What the two keywords of an end ask of a number. -/
structure MeetsRange (p : Precision) (members : Keyed Json) (e : RangeEnd) (n : Number) : Prop where
  inclusive : ∀ b, members.find? e.keyword = some (.number b) → e.Within (p.units b) (p.units n)
  flagged : ∀ b, members.find? e.keyword = some (.number b) →
    members.find? e.exclusive = some (.bool true) → p.units n ≠ p.units b
  exclusive : ∀ b, members.find? e.exclusive = some (.number b) →
    e.Within (p.units b) (p.units n) ∧ p.units n ≠ p.units b

/-- What the keywords of a document ask of a value, the documents inside it apart. A keyword asks
    nothing of values that it does not speak of. -/
structure MeetsOwn (p : Precision) (members : Keyed Json) (v : Json) : Prop where
  type : ∀ value, members.find? "type" = some value →
    ∃ name, NamesType value name ∧ OfType p name v
  literal : ∀ values, members.find? "enum" = some (.array values) →
    ∃ m ∈ values, m.inUnits p = v.inUnits p
  range : ∀ n, v = .number n → ∀ e, MeetsRange p members e n
  required : ∀ found, v = .object found → ∀ names, members.find? "required" = some (.array names) →
    ∀ name, .text name ∈ names → Keyed.has found name = true
  closed : ∀ found, v = .object found → members.find? "additionalProperties" = some (.bool false) →
    ∀ name ∈ Keyed.names found, ∃ documents,
      members.find? "properties" = some (.object documents) ∧ name ∈ Keyed.names documents
  least : ∀ found, v = .array found → ∀ n, members.find? "minItems" = some (.number n) →
    n.units ≤ found.length * unitsPerOne
  most : ∀ found, v = .array found → ∀ n, members.find? "maxItems" = some (.number n) →
    found.length * unitsPerOne ≤ n.units

/-! ## 3. Documents -/

theorem size_lt_of_property {members documents : Keyed Json} {name : String} {document : Json}
    (h : members.find? "properties" = some (.object documents)) (hd : (name, document) ∈ documents) :
    document.size < (Json.object members).size := by
  have outer := Json.size_le_of_find? h
  have inner : document.size ≤ Json.sizeMembers documents := by
    clear h outer
    induction documents with
    | nil => simp at hd
    | cons head rest ih =>
        rcases List.mem_cons.1 hd with rfl | hd
        · simp [Json.sizeMembers]
        · have := ih hd
          simp only [Json.sizeMembers]
          omega
  simp only [Json.size] at outer ⊢
  omega

theorem size_lt_of_items {members : Keyed Json} {document : Json}
    (h : members.find? "items" = some document) : document.size < (Json.object members).size := by
  have := Json.size_le_of_find? h
  simp only [Json.size]
  omega

theorem size_lt_of_branch {members : Keyed Json} {keyword : String} {documents : List Json}
    {document : Json} (h : members.find? keyword = some (.array documents))
    (hd : document ∈ documents) : document.size < (Json.object members).size := by
  have outer := Json.size_le_of_find? h
  have inner := Json.size_le_of_mem hd
  simp only [Json.size] at outer ⊢
  omega

/-- **A value is what a document says.** The keywords are all meant: those of the document itself and
    those of the documents that it has for properties, for items and as branches of `anyOf` and
    `allOf`. Of a list of documents for the items, one by one, nothing is said. -/
def Meets (p : Precision) (document v : Json) : Prop :=
  match document with
  | .object members =>
    MeetsOwn p members v ∧
    (∀ documents, Keyed.find? members "properties" = some (.object documents) →
      ∀ name inner, (name, inner) ∈ documents →
        ∀ found, v = .object found → ∀ w, Keyed.find? found name = some w → Meets p inner w) ∧
    (∀ inner, Keyed.find? members "items" = some inner →
      ∀ found, v = .array found → ∀ w ∈ found, Meets p inner w) ∧
    (∀ documents, Keyed.find? members "anyOf" = some (.array documents) →
      ∃ inner, ∃ _ : inner ∈ documents, Meets p inner v) ∧
    ∀ documents, Keyed.find? members "allOf" = some (.array documents) →
      ∀ inner, inner ∈ documents → Meets p inner v
  | .bool flag => flag = true
  | _ => True
termination_by document.size
decreasing_by
  · exact size_lt_of_property ‹_› ‹_›
  · exact size_lt_of_items ‹_›
  · exact size_lt_of_branch ‹_› ‹_›
  · exact size_lt_of_branch ‹_› ‹_›

/-- The keyword lists at the levels of a document: its own, and those of the documents inside. -/
inductive Level : Json → Keyed Json → Prop where
  | self {members : Keyed Json} : Level (.object members) members
  | property {members documents inner : Keyed Json} {name : String} {document : Json} :
      members.find? "properties" = some (.object documents) → (name, document) ∈ documents →
      Level document inner → Level (.object members) inner
  | items {members inner : Keyed Json} {document : Json} :
      members.find? "items" = some document → Level document inner → Level (.object members) inner
  | branch {members inner : Keyed Json} {keyword : String} {documents : List Json}
      {document : Json} : keyword = "anyOf" ∨ keyword = "allOf" →
      members.find? keyword = some (.array documents) → document ∈ documents →
      Level document inner → Level (.object members) inner

/-! ## 4. What reading keeps -/

/-- The bounds of an end are sharp, and the one that is excluded itself is no weaker than the other,
    in whose place it is read. -/
structure RangeInOrder (p : Precision) (members : Keyed Json) (e : RangeEnd) : Prop where
  sharp : ∀ keyword, keyword = e.keyword ∨ keyword = e.exclusive → ∀ b,
    members.find? keyword = some (.number b) → p.Sharp b
  tighter : ∀ a b, members.find? e.keyword = some (.number a) →
    members.find? e.exclusive = some (.number b) → e.Within (p.units a) (p.units b)

/-- Reading the keywords of one document loses nothing: no bound is overwritten by a weaker one,
    literal values do not stand beside the types whose reading passes them over, and numbers are
    sharp. -/
structure Enforceable (p : Precision) (members : Keyed Json) : Prop where
  range : ∀ e, RangeInOrder p members e
  literal : ∀ values, members.find? "enum" = some (.array values) →
    ∀ n, .number n ∈ values → p.Sharp n
  scalars : ∀ literals value, members.find? "enum" = some literals →
    members.find? "type" = some value → ¬ NamesType value "object" ∧ ¬ NamesType value "array"

end Schema

end TypedPipeline
