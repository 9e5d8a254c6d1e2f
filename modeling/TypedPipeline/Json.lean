import TypedPipeline.Keyed
import TypedPipeline.Binary64.Rounding

/-!
# Json: JSON values

A value is null, a truth value, a number, a text, an array or an object. This file fixes:

* the two kinds of numbers, whole and double-precision, and how both read as double precision
  (`Number.toBinary64`);
* two notions of equality: `same` tells `1` from `1.0`, `agrees` does not;
* the partial views of a value (`asObject?`, `asText?`, …) and its size.

The members of an object are a keyed list: names ascend and are met once.
-/

namespace TypedPipeline

/-- A JSON number: a whole number written without fraction and exponent, or a finite
    double-precision number. -/
inductive Number where
  | int (value : Int)
  | float (value : Binary64)
  deriving DecidableEq, Inhabited

namespace Number

def toBinary64 : Number → Binary64
  | .int i => .ofInt i
  | .float x => x

/-- The number is whole, in whichever kind it is held. -/
def isIntegral : Number → Bool
  | .int _ => true
  | .float x => x.isInteger

/-- Equal and of one kind; the two zeros are equal. -/
def same : Number → Number → Bool
  | .int i, .int j => i == j
  | .float x, .float y => x.equals y
  | _, _ => false

/-- Equal as double-precision numbers. -/
def agrees (x y : Number) : Bool := x.toBinary64.equals y.toBinary64

/-- The value of a whole number that fits the signed 64-bit integers. -/
def asInt64? : Number → Option Int
  | .int i => if Binary64.minInt64 ≤ i ∧ i ≤ Binary64.maxInt64 then some i else none
  | .float _ => none

/-- The value of a natural number. -/
def asNat? : Number → Option Nat
  | .int i => if 0 ≤ i then some i.toNat else none
  | .float _ => none

end Number

/-- A JSON value. -/
inductive Json where
  | null
  | bool (value : Bool)
  | number (value : Number)
  | text (value : String)
  | array (items : List Json)
  | object (members : List (String × Json))
  deriving Inhabited

namespace Json

/-! ## 1. Making values -/

def int (i : Int) : Json := .number (.int i)

def nat (n : Nat) : Json := .number (.int n)

/-- A double-precision number as a value; null if it is not finite. -/
def float (x : Binary64) : Json := if x.isFinite then .number (.float x) else .null

/-- An array of texts. -/
def texts (names : List String) : Json := .array (names.map .text)

def emptyObject : Json := .object []

/-! ## 2. Views -/

def asObject? : Json → Option (Keyed Json)
  | .object members => some members
  | _ => none

def asArray? : Json → Option (List Json)
  | .array items => some items
  | _ => none

def asText? : Json → Option String
  | .text s => some s
  | _ => none

def asBool? : Json → Option Bool
  | .bool b => some b
  | _ => none

/-- A number in double precision. -/
def asBinary64? : Json → Option Binary64
  | .number n => some n.toBinary64
  | _ => none

def asNat? : Json → Option Nat
  | .number n => n.asNat?
  | _ => none

def asInt64? : Json → Option Int
  | .number n => n.asInt64?
  | _ => none

/-- The member of an object under a name; `none` also for every other kind of value. -/
def member? (value : Json) (name : String) : Option Json :=
  value.asObject?.bind fun members => members.find? name

/-- A number that is whole, in whichever kind it is held. -/
def isIntegral : Json → Bool
  | .number n => n.isIntegral
  | _ => false

/-! ## 3. Size -/

mutual

/-- The number of nodes. -/
def size : Json → Nat
  | .array items => 1 + sizeItems items
  | .object members => 1 + sizeMembers members
  | _ => 1

def sizeItems : List Json → Nat
  | [] => 0
  | item :: rest => item.size + sizeItems rest

def sizeMembers : List (String × Json) → Nat
  | [] => 0
  | (_, value) :: rest => value.size + sizeMembers rest

end

theorem size_pos (value : Json) : 0 < value.size := by
  cases value <;> simp only [size] <;> omega

theorem size_le_of_mem {item : Json} {items : List Json} (h : item ∈ items) :
    item.size ≤ sizeItems items := by
  induction items with
  | nil => simp at h
  | cons first rest ih =>
    rcases List.mem_cons.1 h with rfl | h
    · simp [sizeItems]
    · have := ih h; simp [sizeItems]; omega

theorem size_le_of_find? {members : Keyed Json} {name : String} {value : Json}
    (h : members.find? name = some value) : value.size ≤ sizeMembers members := by
  induction members with
  | nil => simp at h
  | cons head rest ih =>
    obtain ⟨key, first⟩ := head
    rw [Keyed.find?_cons] at h
    split at h
    · simp only [Option.some.injEq] at h
      subst h; simp [sizeMembers]
    · have := ih h; simp [sizeMembers]; omega

/-! ## 4. Equality -/

mutual

/-- Equality that tells kinds of numbers apart: `1` is not `1.0`. -/
def same : Json → Json → Bool
  | .null, .null => true
  | .bool a, .bool b => a == b
  | .number x, .number y => x.same y
  | .text s, .text t => s == t
  | .array xs, .array ys => sameItems xs ys
  | .object xs, .object ys => sameMembers xs ys
  | _, _ => false

def sameItems : List Json → List Json → Bool
  | [], [] => true
  | x :: xs, y :: ys => x.same y && sameItems xs ys
  | _, _ => false

def sameMembers : List (String × Json) → List (String × Json) → Bool
  | [], [] => true
  | (m, x) :: xs, (n, y) :: ys => m == n && x.same y && sameMembers xs ys
  | _, _ => false

end

mutual

/-- Equality of values with numbers compared in double precision at any depth: `1` agrees with
    `1.0`. -/
def agrees : Json → Json → Bool
  | .null, .null => true
  | .bool a, .bool b => a == b
  | .number x, .number y => x.agrees y
  | .text s, .text t => s == t
  | .array xs, .array ys => xs.length == ys.length && agreeItems xs ys
  | .object xs, .object ys => xs.length == ys.length && agreeMembers xs ys
  | _, _ => false

def agreeItems : List Json → List Json → Bool
  | x :: xs, y :: ys => x.agrees y && agreeItems xs ys
  | _, _ => true

/-- Every member agrees with the member of that name on the other side. -/
def agreeMembers : List (String × Json) → Keyed Json → Bool
  | [], _ => true
  | (name, x) :: xs, ys =>
    (match ys.find? name with
      | some y => x.agrees y
      | none => false) && agreeMembers xs ys

end

end Json

end TypedPipeline
