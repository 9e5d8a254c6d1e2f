import TypedPipeline.Schema.Validation
import TypedPipeline.Schema.Intersection
import TypedPipeline.Schema.Document

/-!
# Schema.Subsumption: one schema fits where another is expected

A producer fits a consumer when every value of the producer is accepted by the consumer. This file
fixes:

* the ways in which it does not (`Mismatch`) and their wording;
* the comparison of scalars: enumerations by their members, ranges by their ends, small finite
  domains value by value (`checkScalars`);
* the comparison of schemas (`checkSubsumption`). The rules apply in this order: every branch of a
  producer's union fits; every branch of a consumer's intersection is fitted; some branch of a
  producer's intersection fits, or the merge of them all does; some branch of a consumer's union is
  fitted; otherwise the forms agree and their parts do.

Lists have no limit here. Of integers so far apart that their difference is no 64-bit integer more are
listed than any list holds, and where a comparison comes to that the program breaks down, whereas
`checkSubsumption` goes on. `Proofs.Schema.Breakdown` separates these comparisons from all others.
-/

namespace TypedPipeline

namespace Mismatch

/-- Why a producer does not fit. -/
inductive Reason where
  | emptyIntersection
  | noAlternative (count : Nat)
  | unconstrainedProducer
  | incompatible (producer consumer : String)
  | memberRefused (member : Json) (reason : Invalid.Reason)
  | valueRefused (value : Json) (reason : Invalid.Reason)
  | openDomain
  | lowerBound (producer consumer : Option Bound)
  | upperBound (producer consumer : Option Bound)
  | missingProperty
  | forbiddenProperty
  | openProducer
  | lengthOutside (producer consumer : Length)
  /-- A step does not fit the next one, for a reason of its own. -/
  | edge (producer consumer : String) (reason : Reason)
  /-- Two alternatives whose inputs do not fit each other either way. -/
  | alternativeInputs (first second : String) (cause : String)

/-- A bound in words. -/
def boundText : Option Bound → String
  | none => "unbounded"
  | some b => if b.exclusive then s!"{b.value.messageText} (exclusive)" else b.value.messageText

/-- A length as a range of counts. -/
def lengthText (length : Length) : String :=
  let most := match length.most with
    | some n => toString n
    | none => "∞"
  s!"{length.least.getD 0}..{most}"

def Reason.text : Reason → String
  | .emptyIntersection => "empty intersection"
  | .noAlternative count => s!"producer fits none of the consumer's {count} alternatives"
  | .unconstrainedProducer => "unconstrained producer is not accepted by a constrained consumer"
  | .incompatible producer consumer => s!"{producer} is incompatible with {consumer}"
  | .memberRefused member reason => s!"enum member {member.compact} is not accepted: {reason.text}"
  | .valueRefused value reason => s!"value {value.compact} is not accepted: {reason.text}"
  | .openDomain => "consumer accepts only an enumeration but producer's domain is open"
  | .lowerBound producer consumer =>
    s!"producer lower bound {boundText producer} is outside consumer lower bound {boundText consumer}"
  | .upperBound producer consumer =>
    s!"producer upper bound {boundText producer} is outside consumer upper bound {boundText consumer}"
  | .missingProperty => "property required by consumer is missing from producer"
  | .forbiddenProperty => "property is not permitted by consumer"
  | .openProducer => "producer admits additional properties but consumer is closed"
  | .lengthOutside producer consumer =>
    s!"producer length {lengthText producer} is outside consumer length {lengthText consumer}"
  | .edge producer consumer reason => s!"{producer} >> {consumer}: {reason.text}"
  | .alternativeInputs first second cause =>
    s!"choice branches {first} and {second} accept incompatible inputs ({cause})"

end Mismatch

/-- A producer that does not fit: the place, the reason, and the schemas that meet there. -/
structure Mismatch where
  path : Path
  reason : Mismatch.Reason
  producer : Schema
  consumer : Schema

def Mismatch.text (e : Mismatch) : String :=
  s!"Type mismatch at {e.path.text}: {e.reason.text} (producer: {e.producer.text}, consumer: {e.consumer.text})"

/-! ## 1. Scalars -/

namespace Scalar

/-- The least whole number that a lower bound admits. -/
def wholeLower (b : Bound) : Binary64 :=
  if b.exclusive then b.value.floor.add (.ofInt 1) else b.value.ceil

/-- The greatest whole number that an upper bound admits. -/
def wholeUpper (b : Bound) : Binary64 :=
  if b.exclusive then b.value.ceil.sub (.ofInt 1) else b.value.floor

/-- The range, with the bounds of integers moved to the nearest whole numbers inside. -/
def tightRange (s : Scalar) : Option Bound × Option Bound :=
  if s.kind = .integer then
    (s.minimum.map fun b => .inclusive (wholeLower b), s.maximum.map fun b => .inclusive (wholeUpper b))
  else (s.minimum, s.maximum)

def lowerContained : (producer consumer : Option Bound) → Bool
  | _, none => true
  | none, some _ => false
  | some p, some c =>
    c.value.less p.value || (p.value.equals c.value && (p.exclusive || !c.exclusive))

def upperContained : (producer consumer : Option Bound) → Bool
  | _, none => true
  | none, some _ => false
  | some p, some c =>
    p.value.less c.value || (p.value.equals c.value && (p.exclusive || !c.exclusive))

/-- The largest range of integers that is compared value by value. -/
def maxListed : Int := 1024

/-- The whole numbers from `low` to `high`. -/
def wholeNumbers (low high : Int) : List Int :=
  (List.range (high - low + 1).toNat).map fun (i : Nat) => low + i

/-- The values from `low` to `high`, 64-bit integers both, if the difference of the two, taken in 64
    bits, is small enough. One that does not fit is negative then, and all values are listed, which are
    more than a list can hold: the program breaks down where this list goes on. -/
def listedRange (low high : Int) : Option (List Json) :=
  if high < low then some []
  else if maxListed ≤ (high - low).bmod (2 ^ 64) then none
  else some ((wholeNumbers low high).map .int)

/-- All values of a scalar without an enumeration, if they are few enough to be listed. -/
def finiteDomain (s : Scalar) : Option (List Json) :=
  match s.kind with
  | .boolean => some [.bool false, .bool true]
  | .null => some [.null]
  | .integer =>
    match s.tightRange with
    | (some low, some high) => listedRange low.value.toInt64 high.value.toInt64
    | _ => none
  | .number | .string => none

end Scalar

namespace Schema

/-- The first of the values that the schema refuses, with the reason. -/
def firstRefused (schema : Schema) : List Json → Option (Json × Invalid.Reason)
  | [] => none
  | value :: rest =>
    match schema.validate value with
    | .ok _ => firstRefused schema rest
    | .error e => some (value, e.reason)

/-- Whether a scalar fits another: by its members if it is enumerated, otherwise by kind, by its
    values if the consumer is enumerated, and by range. -/
def scalarMismatch? (x y : Scalar) : Option Mismatch.Reason :=
  match x.effectiveEnumeration with
  | some members =>
    (firstRefused (.scalar y) members).map fun r => .memberRefused r.1 r.2
  | none =>
    if !(x.kind = y.kind || (x.kind = .integer && y.kind = .number)) then
      some (.incompatible x.kind.name y.kind.name)
    else if y.enumeration.isSome then
      match x.finiteDomain with
      | some values => (firstRefused (.scalar y) values).map fun r => .valueRefused r.1 r.2
      | none => some .openDomain
    else
      let (low, high) := x.tightRange
      if !Scalar.lowerContained low y.minimum then some (.lowerBound low y.minimum)
      else if !Scalar.upperContained high y.maximum then some (.upperBound high y.maximum)
      else none

/-- The lengths of the producer's arrays are lengths the consumer admits. -/
def lengthFits (x y : Length) : Bool :=
  y.least.getD 0 ≤ x.least.getD 0 &&
    match x.most, y.most with
    | _, none => true
    | none, some _ => false
    | some p, some c => p ≤ c

/-! ## 2. Schemas -/

abbrev Fit := Except Mismatch Unit

/-- The first of the failures that got furthest into the structure. -/
def deepestMismatch? : List Mismatch → Option Mismatch
  | [] => none
  | first :: rest =>
    match deepestMismatch? rest with
    | none => some first
    | some later => if first.path.length < later.path.length then some later else some first

/-- The failure to fit any branch of a union: that of the branch which got furthest, if it got
    further than `path` at all or there is one branch only. -/
def unionMismatch (errors : List Mismatch) (path : Path) (a b : Schema) : Mismatch :=
  match deepestMismatch? errors with
  | some e =>
    if path.length < e.path.length || errors.length == 1 then e
    else ⟨path, .noAlternative errors.length, a, b⟩
  | none => ⟨path, .noAlternative errors.length, a, b⟩

/-- What a closed consumer forbids: properties of the producer that it does not declare, and any the
    producer leaves open. -/
def closedMismatch? (as bs : Keyed Schema) (rules : ObjectRules) (path : Path) (a b : Schema) :
    Option Mismatch :=
  match List.find? (fun p => !bs.has p.1) as with
  | some (name, producer) => some ⟨path.property name, .forbiddenProperty, producer, b⟩
  | none => if rules.isOpen then some ⟨path, .openProducer, a, b⟩ else none

mutual

/-- The producer `a` fits the consumer `b`, both standing at `path`. -/
def checkSubsumptionAt (a b : Schema) (path : Path) : Fit :=
  match a, b with
  | _, .any => .ok ()
  | .anyOf branches, b => everyProducer branches b path
  | .oneOf branches, b => everyProducer branches b path
  | a, .allOf branches => everyConsumer a branches path
  | .allOf branches, b =>
    match someProducer branches b path with
    | .ok _ => .ok ()
    | .error errors =>
      let failure : Fit := match errors with
        | [] => .error ⟨path, .emptyIntersection, .allOf branches, b⟩
        | first :: _ => .error first
      match meetAll branches with
      | none => failure
      | some ⟨merged, _⟩ =>
        match checkSubsumptionAt merged b path with
        | .ok _ => .ok ()
        | .error _ => failure
  | a, .anyOf branches =>
    match someConsumer a branches path with
    | .ok _ => .ok ()
    | .error errors => .error (unionMismatch errors path a (.anyOf branches))
  | a, .oneOf branches =>
    match someConsumer a branches path with
    | .ok _ => .ok ()
    | .error errors => .error (unionMismatch errors path a (.oneOf branches))
  | .scalar x, .scalar y =>
    match scalarMismatch? x y with
    | some reason => .error ⟨path, reason, .scalar x, .scalar y⟩
    | none => .ok ()
  | .object as rules, .object bs others => do
    fitProperties as rules bs others bs path
    if others.isOpen then .ok ()
    else match closedMismatch? as bs rules path (.object as rules) (.object bs others) with
      | some e => .error e
      | none => .ok ()
  | .array x length, .array y length' =>
    if lengthFits length length' then checkSubsumptionAt x y path.items
    else .error ⟨path, .lengthOutside length length', .array x length, .array y length'⟩
  | .any, b => .error ⟨path, .unconstrainedProducer, .any, b⟩
  | a, b => .error ⟨path, .incompatible a.formName b.formName, a, b⟩
termination_by 2 * (a.size + b.size)
decreasing_by all_goals (simp only [size]; omega)

/-- Every branch of the producer fits; the first failure ends it. -/
def everyProducer (branches : List Schema) (b : Schema) (path : Path) : Fit :=
  match branches with
  | [] => .ok ()
  | a :: rest => do
    have := a.size_pos
    checkSubsumptionAt a b path
    everyProducer rest b path
termination_by 2 * (sizeBranches branches + b.size) + 1
decreasing_by all_goals (simp only [sizeBranches]; omega)

/-- Every branch of the consumer is fitted; the first failure ends it. -/
def everyConsumer (a : Schema) (branches : List Schema) (path : Path) : Fit :=
  match branches with
  | [] => .ok ()
  | b :: rest => do
    have := b.size_pos
    checkSubsumptionAt a b path
    everyConsumer a rest path
termination_by 2 * (a.size + sizeBranches branches) + 1
decreasing_by all_goals (simp only [sizeBranches]; omega)

/-- Some branch of the producer fits, which ends it; otherwise the failures of all of them. -/
def someProducer (branches : List Schema) (b : Schema) (path : Path) :
    Except (List Mismatch) Unit :=
  match branches with
  | [] => .error []
  | a :: rest =>
    have := a.size_pos
    match checkSubsumptionAt a b path with
    | .ok _ => .ok ()
    | .error e =>
      match someProducer rest b path with
      | .ok _ => .ok ()
      | .error errors => .error (e :: errors)
termination_by 2 * (sizeBranches branches + b.size) + 1
decreasing_by all_goals (simp only [sizeBranches]; omega)

/-- Some branch of the consumer is fitted, which ends it; otherwise the failures of all of them. -/
def someConsumer (a : Schema) (branches : List Schema) (path : Path) :
    Except (List Mismatch) Unit :=
  match branches with
  | [] => .error []
  | b :: rest =>
    have := b.size_pos
    match checkSubsumptionAt a b path with
    | .ok _ => .ok ()
    | .error e =>
      match someConsumer a rest path with
      | .ok _ => .ok ()
      | .error errors => .error (e :: errors)
termination_by 2 * (a.size + sizeBranches branches) + 1
decreasing_by all_goals (simp only [sizeBranches]; omega)

/-- The consumer's properties that are left, `bs`, in turn: one that the producer declares is
    fitted, one that it does not is not required. -/
def fitProperties (as : List (String × Schema)) (rules : ObjectRules)
    (all : List (String × Schema)) (others : ObjectRules) (bs : List (String × Schema))
    (path : Path) : Fit :=
  match bs with
  | [] => .ok ()
  | (name, b) :: rest =>
    have := b.size_pos
    match h : Keyed.find? as name with
    | some a => do
      have := size_le_of_find? h
      checkSubsumptionAt a b (path.property name)
      fitProperties as rules all others rest path
    | none =>
      if others.requires name then
        .error ⟨path.property name, .missingProperty, .object as rules, .object all others⟩
      else fitProperties as rules all others rest path
termination_by 2 * (sizeProperties as + sizeProperties bs) + 1
decreasing_by all_goals (simp only [sizeProperties]; omega)

end

/-- The producer `a` fits the consumer `b`. -/
def checkSubsumption (a b : Schema) : Fit := checkSubsumptionAt a b .root

/-- Every value of `a` is accepted by `b`, as far as the structure shows. -/
def isSubsumedBy (a b : Schema) : Bool := (checkSubsumption a b).isOk

end Schema

end TypedPipeline
