import TypedPipeline.Proofs.Schema.Comparison
import TypedPipeline.Proofs.Schema.Ranges

/-!
# Proofs.Schema.Subsumption: what fits is accepted

A producer fits a consumer if every value of the producer is to be accepted by the consumer. This
file fixes:

* the rules of the comparison as a relation (`Fits`), which holds of what the comparison lets through
  (`fits_of_isSubsumedBy`);
* the schemas that the comparison makes by merging (`Merged`), and what has to be known of their
  scalars (`MergesListed`): the bounds of an integer that comes from a merge with a number are not
  those of any integer written down, so no condition on those covers it;
* **soundness** (`covers_of_fits`, `isSubsumedBy_sound`), by induction on the rules.
-/

namespace TypedPipeline

namespace Schema

/-! ## 1. Rules -/

theorem admits_of_lengthFits {x y : Length} {n : Nat} (h : lengthFits x y = true)
    (hx : x.Admits n) : y.Admits n := by
  obtain ⟨low, high⟩ := x
  obtain ⟨low', high'⟩ := y
  simp only [lengthFits, Bool.and_eq_true, decide_eq_true_eq] at h
  obtain ⟨hl, hh⟩ := h
  refine ⟨fun a ha => ?_, fun b hb => ?_⟩
  · cases ha
    cases low with
    | none => simp only [Option.getD_some, Option.getD_none] at hl; omega
    | some l =>
        have := hx.1 l rfl
        simp only [Option.getD_some] at hl
        omega
  · cases hb
    cases high with
    | none => cases hh
    | some h =>
        have := hx.2 h rfl
        simp only [decide_eq_true_eq] at hh
        omega

/-- The producer fits the consumer by the rules of the comparison, in whatever order these are
    tried. -/
inductive Fits : Schema → Schema → Prop where
  | any {a} : Fits a .any
  | everyProducer {a b branches} : a = .anyOf branches ∨ a = .oneOf branches →
      (∀ c ∈ branches, Fits c b) → Fits a b
  | everyConsumer {a branches} : (∀ c ∈ branches, Fits a c) → Fits a (.allOf branches)
  | someProducer {branches b c} : c ∈ branches → Fits c b → Fits (.allOf branches) b
  | merged {branches b m} : intersectAll branches = some m → Fits m b → Fits (.allOf branches) b
  | someConsumer {a b c branches} : b = .anyOf branches ∨ b = .oneOf branches → c ∈ branches →
      Fits a c → Fits a b
  | scalars {x y} : scalarMismatch? x y = none → Fits (.scalar x) (.scalar y)
  | objects {as bs rules others} :
      (∀ name a b, Keyed.find? as name = some a → (name, b) ∈ bs → Fits a b) →
      (∀ name b, Keyed.find? as name = none → (name, b) ∈ bs → others.requires name = false) →
      (others.isOpen = false →
        (∀ name ∈ Keyed.names as, Keyed.has bs name = true) ∧ rules.isOpen = false) →
      Fits (.object as rules) (.object bs others)
  | arrays {x y length length'} : lengthFits length length' = true → Fits x y →
      Fits (.array x length) (.array y length')

/-- **What the comparison lets through fits.** -/
theorem fits_of_isSubsumedBy {a b : Schema} (h : a.isSubsumedBy b = true) : Fits a b := by
  induction a, b using comparisonInduction with
  | any a => exact .any
  | everyProducer a b branches union _ ih =>
      exact .everyProducer union fun c hc => ih c hc (union.isSubsumedBy.1 h c hc)
  | everyConsumer a branches _ ih =>
      exact .everyConsumer fun c hc => ih c hc (isSubsumedBy_allOf.1 h c hc)
  | someProducer branches b any allOf ih ihm =>
      rcases (allOf_isSubsumedBy any allOf).1 h with ⟨c, hc, h⟩ | ⟨m, e, h⟩
      · exact .someProducer hc (ih c hc h)
      · exact .merged e (ihm m e h)
  | someConsumer a b branches atomic union ih =>
      obtain ⟨c, hc, h⟩ := (atomic.isSubsumedBy union).1 h
      exact .someConsumer union hc (ih c hc h)
  | scalars x y => exact .scalars (scalar_isSubsumedBy.1 h)
  | objects as rules bs others ih =>
      obtain ⟨fitted, lacking, closed⟩ := object_isSubsumedBy.1 h
      exact .objects (fun name a b ha hb => ih name a b ha hb (fitted name a b ha hb)) lacking closed
  | arrays x length y length' ih =>
      obtain ⟨lengths, items⟩ := array_isSubsumedBy.1 h
      exact .arrays lengths (ih items)
  | apart a b atomic atomic' any different =>
      cases (atomic.isOk_eq_false atomic' any different).symm.trans h

/-! ## 2. Merged schemas -/

/-- `m` is made by merging an intersection inside `s`, or inside a schema made so. -/
inductive Merged (s : Schema) : Schema → Prop where
  | of {branches m} : .allOf branches ∈ s.parts → intersectAll branches = some m → Merged s m
  | again {t branches m} : Merged s t → .allOf branches ∈ t.parts →
      intersectAll branches = some m → Merged s m

/-- The lists of all values of scalars that come from merging have every value. -/
def MergesListed (s : Schema) : Prop := ∀ m x, Merged s m → .scalar x ∈ m.parts → x.Listed

/-- The lists of all values have every value, wherever they may be asked for. -/
def Trusted (s : Schema) : Prop := (∀ x, .scalar x ∈ s.parts → x.Listed) ∧ s.MergesListed

theorem Trusted.of_mem {s t : Schema} (h : s.Trusted) (ht : t ∈ s.parts) : t.Trusted := by
  refine ⟨fun x hx => h.1 x (mem_parts_trans ht hx), fun m _ hm => h.2 m _ ?_⟩
  induction hm with
  | of ha e => exact .of (mem_parts_trans ht ha) e
  | again _ ha e ih => exact ih.again ha e

theorem Trusted.merged {branches : List Schema} {m : Schema} (h : (allOf branches).Trusted)
    (e : intersectAll branches = some m) : m.Trusted := by
  have first : Merged (allOf branches) m := .of (self_mem_parts _) e
  refine ⟨fun x hx => h.2 m x first hx, fun t _ ht => h.2 t _ ?_⟩
  induction ht with
  | of ha e => exact first.again ha e
  | again _ ha e ih => exact ih.again ha e

/-- Small bounds do for the scalars that are written down. -/
theorem MergesListed.trusted {s : Schema} (h : s.MergesListed) (regular : s.Regular)
    (bounds : s.IntegerBounds) : s.Trusted :=
  ⟨fun _ hx => Scalar.listed_of_isSmall (regular _ hx) (bounds _ hx), h⟩

/-- **Small bounds of numbers do for the scalars that come from merging.** -/
theorem SmallBounds.mergesListed {s : Schema} (h : s.SmallBounds) (regular : s.Regular) :
    s.MergesListed := by
  have merge {branches : List Schema} {m : Schema} (h : (Schema.allOf branches).SmallBounds)
      (regular : (Schema.allOf branches).Regular) (e : intersectAll branches = some m) :
      m.SmallBounds ∧ m.Regular := by
    have all := regular.isMeetAll e
    exact ⟨all.small fun _ hb => h.allOf hb, all.regular⟩
  intro m x hm hx
  suffices both : m.SmallBounds ∧ m.Regular from
    Scalar.listed_of_isSmall (both.2 _ hx) fun _ => both.1 _ hx
  clear hx
  induction hm with
  | of ha e => exact merge (h.of_mem ha) (regular.of_mem ha) e
  | again _ ha e ih => exact merge (ih.1.of_mem ha) (ih.2.of_mem ha) e

/-! ## 3. Soundness -/

/-- What has to be known of a producer. -/
structure IsProducer (s : Schema) : Prop where
  regular : s.Regular
  requires : s.RequiresDeclared
  trusted : s.Trusted

/-- What has to be known of a consumer. -/
structure IsConsumer (s : Schema) : Prop where
  sound : s.Sound
  proper : s.Proper
  requires : s.RequiresDeclared
  disjoint : s.OneOfDisjoint

theorem IsProducer.of_mem {s t : Schema} (h : s.IsProducer) (ht : t ∈ s.parts) : t.IsProducer :=
  ⟨h.regular.of_mem ht, h.requires.of_mem ht, h.trusted.of_mem ht⟩

theorem IsConsumer.of_mem {s t : Schema} (h : s.IsConsumer) (ht : t ∈ s.parts) : t.IsConsumer :=
  ⟨h.sound.of_mem ht, h.proper.of_mem ht, h.requires.of_mem ht, h.disjoint.of_mem ht⟩

/-- The merge of the branches of a producer is a producer. -/
theorem IsProducer.merged {branches : List Schema} {m : Schema} (h : (allOf branches).IsProducer)
    (e : intersectAll branches = some m) : m.IsProducer := by
  have all := h.regular.isMeetAll e
  exact ⟨all.regular, all.requires fun _ hb => h.requires.allOf hb, h.trusted.merged e⟩

/-- Every value of `a` is accepted by `b`. -/
def Covers (a b : Schema) : Prop := ∀ v : Json, v.Proper → a.accepts v = true → b.accepts v = true

variable {as bs : Keyed Schema} {rules others : ObjectRules}

/-- **Objects whose properties fit are accepted.** Both sides require what they declare, so every
    property of the consumer is one of the producer, and is there. -/
theorem covers_object (pa : (object as rules).IsProducer) (cb : (object bs others).IsConsumer)
    (covers : ∀ name a b, as.find? name = some a → (name, b) ∈ bs → Covers a b)
    (lacking : ∀ name b, as.find? name = none → (name, b) ∈ bs → others.requires name = false)
    (closed : others.isOpen = false →
      (∀ name ∈ as.names, bs.has name = true) ∧ rules.isOpen = false) :
    Covers (.object as rules) (.object bs others) := by
  intro v pv hv
  obtain ⟨members, rfl, each, shut⟩ := accepts_object.1 hv
  refine accepts_object.2 ⟨members, rfl, fun name b hb => ?_, fun e name hn => ?_⟩
  · have required : others.requires name = true :=
      cb.requires.self name (List.mem_map.2 ⟨_, hb, rfl⟩)
    cases ha : as.find? name with
    | none =>
        rw [lacking name b ha hb] at required
        cases required
    | some a =>
        have declared := Keyed.mem_of_find? ha
        have hr : rules.requires name = true := pa.requires.self name (List.mem_map.2 ⟨_, declared, rfl⟩)
        obtain ⟨w, hw, acc⟩ := exists_required ha (List.contains_iff_mem.1 hr) each
        unfold AcceptsProperty
        rw [hw]
        exact covers name a b ha hb w
          (Json.properMembers_iff.1 pv.2 (name, w) (Keyed.mem_of_find? hw)) acc
  · obtain ⟨declared, e'⟩ := closed e
    exact declared name (Keyed.has_iff.1 (shut e' name hn))

/-- **What fits is accepted.** -/
theorem covers_of_fits {a b : Schema} (h : Fits a b) (pa : a.IsProducer) (cb : b.IsConsumer) :
    Covers a b := by
  induction h with
  | any => exact fun v _ _ => accepts_any
  | everyProducer union _ ih =>
      intro v pv hv
      obtain ⟨c, hc, acc⟩ := IsUnion.exists_accepts union hv
      exact ih c hc (pa.of_mem (IsUnion.mem_parts union hc)) cb v pv acc
  | everyConsumer _ ih =>
      intro v pv hv
      exact accepts_allOf.2 fun c hc => ih c hc pa (cb.of_mem (allOf_mem_parts hc)) v pv hv
  | someProducer hc _ ih =>
      intro v pv hv
      exact ih (pa.of_mem (allOf_mem_parts hc)) cb v pv (accepts_allOf.1 hv _ hc)
  | merged e _ ih =>
      intro v pv hv
      have meet := pa.regular.isMeetAll e
      exact ih (pa.merged e) cb v pv ((meet.accepts v pv).2 (accepts_allOf.1 hv))
  | someConsumer union hc _ ih =>
      intro v pv hv
      have acc := ih pa (cb.of_mem (IsUnion.mem_parts union hc)) v pv hv
      rcases union with rfl | rfl
      · exact accepts_anyOf.2 ⟨_, hc, acc⟩
      · exact accepts_oneOf_of_mem (cb.disjoint.pairwise cb.sound cb.proper) hc pv acc
  | scalars h =>
      intro v pv hv
      exact accepts_scalar_iff.2 (fits_of_scalarMismatch?_eq_none pa.regular.self
        (pa.trusted.1 _ (self_mem_parts _)) h pv (accepts_scalar_iff.1 hv))
  | objects _ lacking closed ih =>
      refine covers_object pa cb (fun name a b ha hb => ?_) lacking closed
      exact ih name a b ha hb (pa.of_mem (property_mem_parts (Keyed.mem_of_find? ha)))
        (cb.of_mem (property_mem_parts hb))
  | arrays fits _ ih =>
      intro v pv hv
      obtain ⟨values, rfl, admits, each⟩ := accepts_array.1 hv
      exact accepts_array.2 ⟨values, rfl, admits_of_lengthFits fits admits, fun w hw =>
        ih (pa.of_mem items_mem_parts) (cb.of_mem items_mem_parts) w
          (Json.properItems_iff.1 pv w hw) (each w hw)⟩

/-- The comparison is right about a producer: whatever consumer it fits accepts its values. -/
def SoundlyCompared (a : Schema) : Prop := ∀ b : Schema, b.isWellFormed = true → b.Proper →
  b.RequiresDeclared → b.OneOfDisjoint → b.IntegerBounds → isSubsumedBy a b = true → Covers a b

/-- What is asked of a schema as it is written down. -/
structure Conforms (s : Schema) : Prop where
  wellFormed : s.isWellFormed = true
  proper : s.Proper
  requires : s.RequiresDeclared
  disjoint : s.OneOfDisjoint
  bounds : s.IntegerBounds

/-- An intersection of scalars whose merge has a list that lacks a value is let through where it
    does not fit. -/
theorem exists_passing_of_not_listed {branches : List Schema} {x : Scalar}
    (regular : (allOf branches).Regular) (e : intersectAll branches = some (.scalar x))
    (not : ¬x.Listed) : ∃ y : Scalar, (scalar y).Conforms ∧
      isSubsumedBy (allOf branches) (.scalar y) = true ∧ ¬Covers (.allOf branches) (.scalar y) := by
  obtain ⟨y, sound, proper, low, high, fits, v, pv, hx, hy⟩ := exists_unsound_of_not_listed not
  have passes : isSubsumedBy (allOf branches) (.scalar y) = true :=
    (allOf_isSubsumedBy (by simp) (by simp)).2 (Or.inr ⟨_, e, scalar_isSubsumedBy.2 fits⟩)
  have bounds : (scalar y).IntegerBounds := every_scalar fun _ => by
    rw [low, high]
    exact ⟨by simp, by simp⟩
  have accepted : (allOf branches).accepts v = true :=
    accepts_allOf.2 (((regular.isMeetAll e).accepts v pv).1 (accepts_scalar_iff.2 hx))
  exact ⟨y, ⟨isWellFormed_iff.2 (every_scalar sound), every_scalar proper, every_scalar trivial,
    every_scalar trivial, bounds⟩, passes, fun covers =>
      hy (accepts_scalar_iff.1 (covers v pv accepted))⟩

theorem SoundlyCompared.listed {branches : List Schema} {x : Scalar}
    (h : (allOf branches).SoundlyCompared) (regular : (allOf branches).Regular)
    (e : intersectAll branches = some (.scalar x)) : x.Listed := by
  refine Classical.byContradiction fun not => ?_
  obtain ⟨y, conforms, passes, lost⟩ := exists_passing_of_not_listed regular e not
  exact lost (h _ conforms.wellFormed conforms.proper conforms.requires conforms.disjoint
    conforms.bounds passes)

/-- **Soundness of the comparison, where the lists that it makes have every value.** For an
    intersection that is merged into a scalar this is needed, too. -/
theorem isSubsumedBy_sound {a : Schema} (wf : a.isWellFormed = true) (proper : a.Proper)
    (requires : a.RequiresDeclared) (bounds : a.IntegerBounds) :
    (a.MergesListed → a.SoundlyCompared) ∧
      ∀ branches x, a = .allOf branches → intersectAll branches = some (.scalar x) →
        a.SoundlyCompared → x.Listed := by
  have regular := (isWellFormed_iff.1 wf).regular proper
  constructor
  · intro listed b wf' proper' requires' disjoint _ h
    exact covers_of_fits (fits_of_isSubsumedBy h) ⟨regular, requires, listed.trusted regular bounds⟩
      ⟨isWellFormed_iff.1 wf', proper', requires', disjoint⟩
  · rintro branches x rfl e sound
    exact sound.listed regular e

/-- An integer from 1, which is also a number up to 3. -/
def upToThree : Schema :=
  .allOf [.scalar { kind := .integer, minimum := some (.inclusive (.ofInt 1)) },
    .scalar { kind := .number, maximum := some (.inclusive (.ofInt 3)) }]

/-- One of the integers 1, 2 and 3. -/
def oneTwoThree : Schema := .scalar { kind := .integer, enumeration := some [.int 1, .int 2, .int 3] }

/-- The merge of two scalars is compared as a scalar. -/
theorem isSubsumedBy_of_scalars {x y m z : Scalar} (e : x.meet? y = some m)
    (h : scalarMismatch? m z = none) :
    isSubsumedBy (.allOf [.scalar x, .scalar y]) (.scalar z) = true := by
  refine (allOf_isSubsumedBy (by simp) (by simp)).2 (Or.inr ⟨.scalar m, ?_, scalar_isSubsumedBy.2 h⟩)
  rw [intersectAll_scalars, e]
  rfl

theorem isSubsumedBy_sound_upToThree :
    isSubsumedBy upToThree oneTwoThree = true ∧ Covers upToThree oneTwoThree := by
  have wf : upToThree.isWellFormed = true := by decide +kernel
  have proper : upToThree.Proper := by
    simp [Proper, Every, parts, partsOfBranches, ProperPart, Scalar.Proper, upToThree]
  have small : upToThree.SmallBounds := by
    simp [SmallBounds, Every, parts, partsOfBranches, upToThree, Bound.inclusive,
      Binary64.isSmall_ofInt]
  have fits : isSubsumedBy upToThree oneTwoThree = true :=
    isSubsumedBy_of_scalars rfl (Option.isNone_iff_eq_none.1 (by decide +kernel))
  refine ⟨fits, (isSubsumedBy_sound wf proper ?_ ?_).1
    (small.mergesListed ((isWellFormed_iff.1 wf).regular proper)) oneTwoThree (by decide +kernel)
    ?_ ?_ ?_ ?_ fits⟩
  · simp [RequiresDeclared, Every, parts, partsOfBranches, upToThree]
  · exact fun t ht => by
      have := small t ht
      cases t <;> first | exact fun _ => this | trivial
  · simp [Proper, Every, parts, ProperPart, Scalar.Proper, oneTwoThree, Json.int, Json.Proper,
      Number.Proper]
  · simp [RequiresDeclared, Every, parts, oneTwoThree]
  · simp [OneOfDisjoint, Every, parts, oneTwoThree]
  · simp [IntegerBounds, Every, parts, oneTwoThree]

/-- An integer, which is also a number from `2 ^ 64` to `2 ^ 65`. -/
def beyondInt64 : Schema :=
  .allOf [.scalar { kind := .integer },
    .scalar { kind := .number, minimum := some (.inclusive (.ofInt (2 ^ 64))),
              maximum := some (.inclusive (.ofInt (2 ^ 65))) }]

/-- The largest 64-bit integer and nothing else. -/
def largestInt64 : Schema :=
  .scalar { kind := .integer, enumeration := some [.int (2 ^ 63 - 1)] }

/-- Bounds beyond the 64-bit integers are cut to the largest of these, and the list of all values
    between them is this one only: a consumer that lists it is taken to accept everything. -/
theorem beyondInt64_not_sound :
    (beyondInt64.isWellFormed = true ∧ beyondInt64.Proper ∧ beyondInt64.RequiresDeclared ∧
        beyondInt64.IntegerBounds) ∧
      (largestInt64.isWellFormed = true ∧ largestInt64.Proper ∧ largestInt64.RequiresDeclared ∧
        largestInt64.OneOfDisjoint ∧ largestInt64.IntegerBounds) ∧
      isSubsumedBy beyondInt64 largestInt64 = true ∧
      ∃ v : Json, v.Proper ∧ beyondInt64.accepts v = true ∧ largestInt64.accepts v = false := by
  refine ⟨⟨by decide +kernel, ?_, ?_, ?_⟩, ⟨by decide +kernel, ?_, ?_, ?_, ?_⟩, ?_,
    .number (.float (.ofInt (2 ^ 64))), ?_, by decide +kernel, by decide +kernel⟩
  · simp [Proper, Every, parts, partsOfBranches, ProperPart, Scalar.Proper, beyondInt64]
  · simp [RequiresDeclared, Every, parts, partsOfBranches, beyondInt64]
  · simp [IntegerBounds, Every, parts, partsOfBranches, beyondInt64]
  · simp [Proper, Every, parts, ProperPart, Scalar.Proper, largestInt64, Json.int, Json.Proper,
      Number.Proper]
  · simp [RequiresDeclared, Every, parts, largestInt64]
  · simp [OneOfDisjoint, Every, parts, largestInt64]
  · simp [IntegerBounds, Every, parts, largestInt64]
  · exact isSubsumedBy_of_scalars rfl (Option.isNone_iff_eq_none.1 (by decide +kernel))
  · exact Binary64.isFinite_ofInt (by decide)

end Schema

end TypedPipeline
