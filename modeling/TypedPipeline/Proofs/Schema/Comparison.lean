import TypedPipeline.Proofs.Schema.Domain
import TypedPipeline.Schema.Subsumption

/-!
# Proofs.Schema.Comparison: the comparison form by form

The comparison takes the two sides apart in a fixed order: unions of the producer, intersections of
the consumer, intersections of the producer, unions of the consumer. This file fixes:

* its rules as conditions on branches and properties, one law for each (`IsUnion.isOk_iff`,
  `isOk_checkSubsumptionAt_allOf`, …), and the induction that follows them (`comparisonInduction`);
* that the outcome does not depend on the place (`isOk_checkSubsumptionAt_iff`);
* what it asks for, one law for each form of a side (`anyOf_isSubsumedBy`, `isSubsumedBy_allOf`, …).
  The laws for the outer forms hold of every other side; only a consumer that is a union is taken
  apart last, so its law is about producers that are atomic (`IsAtomic`);
* weakening: an intersection fits what a branch of it fits (`isSubsumedBy_of_branch`), and what fits a
  branch of a union fits the union unless that branch is an intersection (`isSubsumedBy_union`).
-/

namespace TypedPipeline

namespace Schema

/-! ## 1. Branches and properties -/

theorem isOk_everyProducer {branches : List Schema} {b : Schema} {path : Path} :
    (everyProducer branches b path).isOk = true ↔
      ∀ a ∈ branches, (checkSubsumptionAt a b path).isOk = true := by
  induction branches with
  | nil => simp [everyProducer, Except.isOk, Except.toBool]
  | cons a rest ih =>
      rw [everyProducer, Except.isOk_andThen, Bool.and_eq_true, ih, List.forall_mem_cons]

theorem isOk_everyConsumer {branches : List Schema} {a : Schema} {path : Path} :
    (everyConsumer a branches path).isOk = true ↔
      ∀ b ∈ branches, (checkSubsumptionAt a b path).isOk = true := by
  induction branches with
  | nil => simp [everyConsumer, Except.isOk, Except.toBool]
  | cons b rest ih =>
      rw [everyConsumer, Except.isOk_andThen, Bool.and_eq_true, ih, List.forall_mem_cons]

theorem isOk_someProducer {branches : List Schema} {b : Schema} {path : Path} :
    (someProducer branches b path).isOk = true ↔
      ∃ a ∈ branches, (checkSubsumptionAt a b path).isOk = true := by
  induction branches with
  | nil => simp [someProducer, Except.isOk, Except.toBool]
  | cons a rest ih =>
      simp only [someProducer, List.mem_cons, exists_eq_or_imp, ← ih]
      cases checkSubsumptionAt a b path with
      | ok _ => simp [Except.isOk, Except.toBool]
      | error e => cases someProducer rest b path <;> simp [Except.isOk, Except.toBool]

theorem isOk_someConsumer {branches : List Schema} {a : Schema} {path : Path} :
    (someConsumer a branches path).isOk = true ↔
      ∃ b ∈ branches, (checkSubsumptionAt a b path).isOk = true := by
  induction branches with
  | nil => simp [someConsumer, Except.isOk, Except.toBool]
  | cons b rest ih =>
      simp only [someConsumer, List.mem_cons, exists_eq_or_imp, ← ih]
      cases checkSubsumptionAt a b path with
      | ok _ => simp [Except.isOk, Except.toBool]
      | error e => cases someConsumer a rest path <;> simp [Except.isOk, Except.toBool]

/-- A property of the consumer is fitted by that of the producer, or need not be there. -/
def Fitted (as : Keyed Schema) (others : ObjectRules) (name : String) (b : Schema) (path : Path) :
    Prop :=
  match as.find? name with
  | some a => (checkSubsumptionAt a b (path.property name)).isOk = true
  | none => others.requires name = false

theorem isOk_fitProperties {as all bs : List (String × Schema)} {rules others : ObjectRules}
    {path : Path} :
    (fitProperties as rules all others bs path).isOk = true ↔
      ∀ p ∈ bs, Fitted as others p.1 p.2 path := by
  induction bs with
  | nil => simp [fitProperties, Except.isOk, Except.toBool]
  | cons p rest ih =>
      obtain ⟨name, b⟩ := p
      rw [fitProperties, List.forall_mem_cons, ← ih]
      unfold Fitted
      split
      · rename_i a ha
        simp only [ha, Except.isOk_andThen, Bool.and_eq_true]
      · rename_i ha
        simp only [ha]
        cases others.requires name <;> simp [Except.isOk, Except.toBool]

theorem closedMismatch?_eq_none_iff {as bs : Keyed Schema} {rules : ObjectRules} {path : Path}
    {a b : Schema} : closedMismatch? as bs rules path a b = none ↔
      (∀ name ∈ as.names, bs.has name = true) ∧ rules.isOpen = false := by
  unfold closedMismatch?
  cases h : List.find? (fun p => !bs.has p.1) as with
  | some p =>
      obtain ⟨name, s⟩ := p
      have found := List.find?_some h
      have there := List.mem_of_find?_eq_some h
      simp only [reduceCtorEq, false_iff, not_and]
      intro every
      rw [every name (List.mem_map.2 ⟨_, there, rfl⟩)] at found
      cases found
  | none =>
      have every : ∀ name ∈ as.names, bs.has name = true := by
        intro name hn
        obtain ⟨p, hp, rfl⟩ := List.mem_map.1 hn
        simpa using List.find?_eq_none.1 h p hp
      cases rules.isOpen with
      | true => simp
      | false => simpa using every

/-! ## 2. Rules -/

variable {a b c : Schema} {branches : List Schema} {as bs : Keyed Schema} {rules others : ObjectRules}
  {path : Path}

theorem isOk_checkSubsumptionAt_any : (checkSubsumptionAt a .any path).isOk = true := by
  rw [checkSubsumptionAt]
  rfl

/-- A union fits if each of its branches does. -/
theorem IsUnion.isOk_iff (union : IsUnion a branches) (any : b ≠ .any) :
    (checkSubsumptionAt a b path).isOk = true ↔
      ∀ c ∈ branches, (checkSubsumptionAt c b path).isOk = true := by
  rw [← isOk_everyProducer]
  rcases union with rfl | rfl
  all_goals
    rw [checkSubsumptionAt]
    exact any

/-- An intersection is fitted if each of its branches is. Unions are opened before it. -/
theorem isOk_everyConsumer_iff (apart : ∀ cs, ¬IsUnion a cs) :
    (checkSubsumptionAt a (.allOf branches) path).isOk = true ↔
      ∀ b ∈ branches, (checkSubsumptionAt a b path).isOk = true := by
  rw [← isOk_everyConsumer, checkSubsumptionAt]
  · exact fun cs e => apart cs (Or.inl e)
  · exact fun cs e => apart cs (Or.inr e)

/-- An intersection fits if a branch of it does, or the merge of all of them. -/
theorem isOk_checkSubsumptionAt_allOf {branches : List Schema} {b : Schema} {path : Path}
    (any : b ≠ .any) (allOf : ∀ bs, b ≠ .allOf bs) :
    (checkSubsumptionAt (.allOf branches) b path).isOk = true ↔
      (∃ a ∈ branches, (checkSubsumptionAt a b path).isOk = true) ∨
        ∃ m, intersectAll branches = some m ∧ (checkSubsumptionAt m b path).isOk = true := by
  rw [checkSubsumptionAt, ← isOk_someProducer, intersectAll]
  · cases someProducer branches b path with
    | ok _ => simp [Except.isOk, Except.toBool]
    | error errors =>
        cases meetAll branches with
        | none => cases errors <;> simp [Except.isOk, Except.toBool]
        | some m =>
            simp only [Option.map_some, Option.some.injEq, exists_eq_left']
            cases checkSubsumptionAt m.1 b path with
            | ok _ => simp [Except.isOk, Except.toBool]
            | error e => cases errors <;> simp [Except.isOk, Except.toBool]
  · exact any
  · exact allOf

/-- A union, or an intersection, whose branches are asked one after the other for one that fits. -/
theorem isOk_orMismatch_iff {outcome : Except (List Mismatch) Unit} {f : List Mismatch → Mismatch} :
    Except.isOk (match outcome with
      | .ok _ => (.ok () : Fit)
      | .error errors => .error (f errors)) = true ↔ outcome.isOk = true := by
  cases outcome <;> simp [Except.isOk, Except.toBool]

/-- An atomic producer fits a union if it fits a branch. -/
theorem IsAtomic.isOk_iff (atomic : a.IsAtomic) (union : IsUnion b branches) :
    (checkSubsumptionAt a b path).isOk = true ↔
      ∃ c ∈ branches, (checkSubsumptionAt a c path).isOk = true := by
  rw [← isOk_someConsumer]
  rcases union with rfl | rfl
  all_goals
    rw [checkSubsumptionAt]
    · exact isOk_orMismatch_iff
    · exact atomic.anyOf
    · exact atomic.oneOf
    · exact atomic.allOf

theorem isOk_checkSubsumptionAt_scalar {x y : Scalar} :
    (checkSubsumptionAt (.scalar x) (.scalar y) path).isOk = true ↔ scalarMismatch? x y = none := by
  rw [checkSubsumptionAt]
  cases scalarMismatch? x y <;> simp [Except.isOk, Except.toBool]

theorem isOk_checkSubsumptionAt_object :
    (checkSubsumptionAt (.object as rules) (.object bs others) path).isOk = true ↔
      (∀ p ∈ bs, Fitted as others p.1 p.2 path) ∧ (others.isOpen = false →
        (∀ name ∈ as.names, bs.has name = true) ∧ rules.isOpen = false) := by
  rw [checkSubsumptionAt, Except.isOk_andThen, Bool.and_eq_true, isOk_fitProperties]
  refine and_congr_right fun _ => ?_
  cases others.isOpen with
  | true => simp [Except.isOk, Except.toBool]
  | false =>
      have closed : closedMismatch? as bs rules path (.object as rules) (.object bs others) = none ↔
          _ := closedMismatch?_eq_none_iff
      rw [← closed]
      cases closedMismatch? as bs rules path (.object as rules) (.object bs others) <;>
        simp [Except.isOk, Except.toBool]

theorem isOk_checkSubsumptionAt_array {x y : Schema} {length length' : Length} :
    (checkSubsumptionAt (.array x length) (.array y length') path).isOk = true ↔
      lengthFits length length' = true ∧ (checkSubsumptionAt x y path.items).isOk = true := by
  rw [checkSubsumptionAt]
  cases lengthFits length length' <;> simp [Except.isOk, Except.toBool]

/-- No rule is left for atomic schemas of different forms, or for a producer without constraints. -/
theorem IsAtomic.isOk_eq_false (atomic : a.IsAtomic) (atomic' : b.IsAtomic) (any : b ≠ .any)
    (apart : ¬OneForm a b) : (checkSubsumptionAt a b path).isOk = false := by
  rcases atomic.cases with rfl | ⟨x, rfl⟩ | ⟨as, rules, rfl⟩ | ⟨x, length, rfl⟩ <;>
    rcases atomic'.cases with rfl | ⟨y, rfl⟩ | ⟨bs, others, rfl⟩ | ⟨y, length', rfl⟩ <;>
    simp_all [checkSubsumptionAt, Except.isOk, Except.toBool]

/-- The rules of the comparison, in the order in which they are tried. -/
theorem comparisonCases {P : Schema → Schema → Prop} (any : ∀ a, P a .any)
    (everyProducer : ∀ a b branches, IsUnion a branches → b ≠ .any → P a b)
    (everyConsumer : ∀ a branches, (∀ cs, ¬IsUnion a cs) → P a (.allOf branches))
    (someProducer : ∀ branches b, b ≠ .any → (∀ bs, b ≠ .allOf bs) → P (.allOf branches) b)
    (someConsumer : ∀ a b branches, a.IsAtomic → IsUnion b branches → P a b)
    (oneForm : ∀ a b, OneForm a b → P a b)
    (apart : ∀ a b, a.IsAtomic → b.IsAtomic → b ≠ .any → ¬OneForm a b → P a b)
    (a b : Schema) : P a b := by
  by_cases unconstrained : b = .any
  · subst unconstrained
    exact any a
  rcases a.outer_cases with ⟨branches, union⟩ | producer
  · exact everyProducer a b branches union unconstrained
  by_cases intersection : ∃ branches, b = .allOf branches
  · obtain ⟨branches, rfl⟩ := intersection
    exact everyConsumer a branches (not_isUnion producer)
  rcases producer with ⟨branches, rfl⟩ | atomic
  · exact someProducer branches b unconstrained fun bs e => intersection ⟨bs, e⟩
  rcases b.outer_cases with ⟨branches, union⟩ | consumer | atomic'
  · exact someConsumer a b branches atomic union
  · exact absurd consumer intersection
  · by_cases form : OneForm a b
    · exact oneForm a b form
    · exact apart a b atomic atomic' unconstrained form

/-- **Induction on the comparison**: what holds of two schemas if it holds of the smaller ones that
    their rule compares. -/
theorem comparisonInduction {P : Schema → Schema → Prop} (any : ∀ a, P a .any)
    (everyProducer : ∀ a b branches, IsUnion a branches → b ≠ .any → (∀ c ∈ branches, P c b) → P a b)
    (everyConsumer : ∀ a branches, (∀ cs, ¬IsUnion a cs) → (∀ c ∈ branches, P a c) →
      P a (.allOf branches))
    (someProducer : ∀ branches b, b ≠ .any → (∀ bs, b ≠ .allOf bs) → (∀ c ∈ branches, P c b) →
      (∀ m, intersectAll branches = some m → P m b) → P (.allOf branches) b)
    (someConsumer : ∀ a b branches, a.IsAtomic → IsUnion b branches → (∀ c ∈ branches, P a c) → P a b)
    (scalars : ∀ x y, P (.scalar x) (.scalar y))
    (objects : ∀ as rules bs others,
      (∀ name a b, Keyed.find? as name = some a → (name, b) ∈ bs → P a b) →
      P (.object as rules) (.object bs others))
    (arrays : ∀ x length y length', P x y → P (.array x length) (.array y length'))
    (apart : ∀ a b, a.IsAtomic → b.IsAtomic → b ≠ .any → ¬OneForm a b → P a b)
    (a b : Schema) : P a b := by
  induction hn : a.size + b.size using Nat.strongRecOn generalizing a b with
  | ind n ih =>
      subst hn
      have smaller {x y : Schema} (h : x.size + y.size < a.size + b.size) : P x y := ih _ h x y rfl
      clear ih
      cases a, b using comparisonCases with
      | any a => exact any a
      | everyProducer a b branches union unconstrained =>
          refine everyProducer a b branches union unconstrained fun c hc => smaller ?_
          have := union.size_lt hc
          omega
      | everyConsumer a branches noUnion =>
          refine everyConsumer a branches noUnion fun c hc => smaller ?_
          have := size_lt_allOf hc
          omega
      | someProducer branches b unconstrained noIntersection =>
          refine someProducer branches b unconstrained noIntersection (fun c hc => smaller ?_)
            fun m e => smaller ?_
          · have := size_lt_allOf hc
            omega
          · have := size_lt_of_intersectAll e
            omega
      | someConsumer a b branches atomic union =>
          refine someConsumer a b branches atomic union fun c hc => smaller ?_
          have := union.size_lt hc
          omega
      | oneForm a b form =>
          cases form with
          | scalars x y => exact scalars x y
          | objects as rules bs others =>
              refine objects as rules bs others fun name c d found hd => smaller ?_
              have := size_le_of_find? found
              have := size_le_of_mem_properties hd
              simp only [size]; omega
          | arrays x length y length' =>
              refine arrays x length y length' (smaller ?_)
              simp only [size]; omega
      | apart a b atomic atomic' unconstrained different =>
          exact apart a b atomic atomic' unconstrained different

/-! ## 3. The place does not matter -/

/-- What fits in one place fits in every place. -/
theorem isOk_elsewhere {place : Path} (h : (checkSubsumptionAt a b path).isOk = true) :
    (checkSubsumptionAt a b place).isOk = true := by
  induction a, b using comparisonInduction generalizing path place with
  | any a => exact isOk_checkSubsumptionAt_any
  | everyProducer a b branches union any ih =>
      exact (union.isOk_iff any).2 fun c hc => ih c hc ((union.isOk_iff any).1 h c hc)
  | everyConsumer a branches apart ih =>
      exact (isOk_everyConsumer_iff apart).2 fun c hc =>
        ih c hc ((isOk_everyConsumer_iff apart).1 h c hc)
  | someProducer branches b any allOf ih ihm =>
      refine (isOk_checkSubsumptionAt_allOf any allOf).2 ?_
      rcases (isOk_checkSubsumptionAt_allOf any allOf).1 h with ⟨c, hc, h⟩ | ⟨m, e, h⟩
      · exact Or.inl ⟨c, hc, ih c hc h⟩
      · exact Or.inr ⟨m, e, ihm m e h⟩
  | someConsumer a b branches atomic union ih =>
      obtain ⟨c, hc, h⟩ := (atomic.isOk_iff union).1 h
      exact (atomic.isOk_iff union).2 ⟨c, hc, ih c hc h⟩
  | scalars x y => exact isOk_checkSubsumptionAt_scalar.2 (isOk_checkSubsumptionAt_scalar.1 h)
  | objects as rules bs others ih =>
      obtain ⟨fitted, closed⟩ := isOk_checkSubsumptionAt_object.1 h
      refine isOk_checkSubsumptionAt_object.2 ⟨fun p hp => ?_, closed⟩
      have fit := fitted p hp
      unfold Fitted at fit ⊢
      cases found : Keyed.find? as p.1 with
      | none => simpa only [found] using fit
      | some a =>
          simp only [found] at fit ⊢
          exact ih p.1 a p.2 found hp fit
  | arrays x length y length' ih =>
      obtain ⟨lengths, items⟩ := isOk_checkSubsumptionAt_array.1 h
      exact isOk_checkSubsumptionAt_array.2 ⟨lengths, ih items⟩
  | apart a b atomic atomic' any different =>
      cases (atomic.isOk_eq_false atomic' any different).symm.trans h

theorem isOk_checkSubsumptionAt_iff :
    (checkSubsumptionAt a b path).isOk = true ↔ a.isSubsumedBy b = true :=
  ⟨isOk_elsewhere, isOk_elsewhere⟩

/-! ## 4. Outer forms -/

theorem isSubsumedBy_any : a.isSubsumedBy .any = true :=
  isOk_checkSubsumptionAt_any

/-- A union fits if each of its branches does. -/
theorem IsUnion.isSubsumedBy (union : IsUnion a branches) :
    a.isSubsumedBy b = true ↔ ∀ c ∈ branches, c.isSubsumedBy b = true := by
  by_cases any : b = .any
  · subst any
    simp [isSubsumedBy_any]
  · exact union.isOk_iff any

theorem anyOf_isSubsumedBy :
    (anyOf branches).isSubsumedBy b = true ↔ ∀ a ∈ branches, a.isSubsumedBy b = true :=
  IsUnion.isSubsumedBy (Or.inl rfl)

theorem oneOf_isSubsumedBy :
    (oneOf branches).isSubsumedBy b = true ↔ ∀ a ∈ branches, a.isSubsumedBy b = true :=
  IsUnion.isSubsumedBy (Or.inr rfl)

/-- An intersection is fitted if each of its branches is. -/
theorem isSubsumedBy_allOf :
    a.isSubsumedBy (allOf branches) = true ↔ ∀ b ∈ branches, a.isSubsumedBy b = true := by
  have swap {cs : List Schema} (ih : ∀ c ∈ cs, c.isSubsumedBy (allOf branches) = true ↔
      ∀ b ∈ branches, c.isSubsumedBy b = true) : (∀ c ∈ cs, c.isSubsumedBy (allOf branches) = true) ↔
        ∀ b ∈ branches, ∀ c ∈ cs, c.isSubsumedBy b = true :=
    ⟨fun h b hb c hc => (ih c hc).1 (h c hc) b hb, fun h c hc => (ih c hc).2 fun b hb => h b hb c hc⟩
  induction a using Schema.induction with
  | anyOf cs ih => simpa only [anyOf_isSubsumedBy] using swap ih
  | oneOf cs ih => simpa only [oneOf_isSubsumedBy] using swap ih
  | _ => exact isOk_everyConsumer_iff fun cs => by simp [IsUnion]

/-- An intersection fits if one of its branches does, or what they all merge into. -/
theorem allOf_isSubsumedBy (any : b ≠ .any) (allOf : ∀ bs, b ≠ .allOf bs) :
    (Schema.allOf branches).isSubsumedBy b = true ↔ (∃ a ∈ branches, a.isSubsumedBy b = true) ∨
      ∃ m, intersectAll branches = some m ∧ m.isSubsumedBy b = true :=
  isOk_checkSubsumptionAt_allOf any allOf

/-- An atomic producer fits a union if it fits a branch. -/
theorem IsAtomic.isSubsumedBy (atomic : a.IsAtomic) (union : IsUnion b branches) :
    a.isSubsumedBy b = true ↔ ∃ c ∈ branches, a.isSubsumedBy c = true :=
  atomic.isOk_iff union

/-- Induction on the way a producer is taken apart. -/
theorem producerInduction {P : Schema → Prop} (atomic : ∀ a : Schema, a.IsAtomic → P a)
    (union : ∀ a branches, IsUnion a branches → (∀ c ∈ branches, P c) → P a)
    (allOf : ∀ branches, (∀ c ∈ branches, P c) → (∀ m, intersectAll branches = some m → P m) →
      P (.allOf branches)) (a : Schema) : P a := by
  induction hn : a.size using Nat.strongRecOn generalizing a with
  | ind n ih =>
      subst hn
      rcases a.outer_cases with ⟨branches, isUnion⟩ | ⟨branches, rfl⟩ | isAtomic
      · exact union a branches isUnion fun c hc => ih c.size (isUnion.size_lt hc) c rfl
      · exact allOf branches (fun c hc => ih c.size (size_lt_allOf hc) c rfl) fun m e =>
          ih m.size (size_lt_of_intersectAll e) m rfl
      · exact atomic a isAtomic

/-! ## 5. Inner forms -/

theorem scalar_isSubsumedBy {x y : Scalar} :
    (scalar x).isSubsumedBy (.scalar y) = true ↔ scalarMismatch? x y = none :=
  isOk_checkSubsumptionAt_scalar

/-- What the comparison of two object schemas asks for. -/
structure ObjectFits (as : Keyed Schema) (rules : ObjectRules) (bs : Keyed Schema)
    (others : ObjectRules) : Prop where
  fitted : ∀ name a b, as.find? name = some a → (name, b) ∈ bs → a.isSubsumedBy b = true
  lacking : ∀ name b, as.find? name = none → (name, b) ∈ bs → others.requires name = false
  closed : others.isOpen = false →
    (∀ name ∈ as.names, bs.has name = true) ∧ rules.isOpen = false

theorem object_isSubsumedBy : (object as rules).isSubsumedBy (.object bs others) = true ↔
    ObjectFits as rules bs others := by
  rw [isSubsumedBy, checkSubsumption, isOk_checkSubsumptionAt_object]
  constructor
  · intro h
    obtain ⟨fitted, closed⟩ := h
    refine ⟨fun name a b ha hb => ?_, fun name b ha hb => ?_, closed⟩
    · have fit := fitted _ hb
      simp only [Fitted, ha] at fit
      exact isOk_checkSubsumptionAt_iff.1 fit
    · have fit := fitted _ hb
      simpa only [Fitted, ha] using fit
  · intro h
    refine ⟨fun p hp => ?_, h.closed⟩
    unfold Fitted
    cases ha : Keyed.find? as p.1 with
    | none => exact h.lacking p.1 p.2 ha hp
    | some a => exact isOk_checkSubsumptionAt_iff.2 (h.fitted p.1 a p.2 ha hp)

theorem array_isSubsumedBy {x y : Schema} {length length' : Length} :
    (array x length).isSubsumedBy (.array y length') = true ↔
      lengthFits length length' = true ∧ x.isSubsumedBy y = true := by
  rw [isSubsumedBy, checkSubsumption, isOk_checkSubsumptionAt_array, isOk_checkSubsumptionAt_iff]

/-- What the comparison of two schemas without branches asks for. -/
inductive FormFits : Schema → Schema → Prop where
  | scalar {x y : Scalar} : scalarMismatch? x y = none → FormFits (.scalar x) (.scalar y)
  | object {as bs : Keyed Schema} {rules others : ObjectRules} : ObjectFits as rules bs others →
      FormFits (.object as rules) (.object bs others)
  | array {x y : Schema} {length length' : Length} : lengthFits length length' = true →
      x.isSubsumedBy y = true → FormFits (.array x length) (.array y length')

/-- **Only forms of one kind fit each other.** -/
theorem IsAtomic.formFits (atomic : a.IsAtomic) (form : b.IsForm) (h : a.isSubsumedBy b = true) :
    FormFits a b := by
  by_cases same : OneForm a b
  · cases same with
    | scalars x y => exact .scalar (scalar_isSubsumedBy.1 h)
    | objects as rules bs others => exact .object (object_isSubsumedBy.1 h)
    | arrays x length y length' =>
        obtain ⟨lengths, items⟩ := array_isSubsumedBy.1 h
        exact .array lengths items
  · cases (atomic.isOk_eq_false form.isAtomic form.any same).symm.trans h

theorem FormFits.isSubsumedBy (h : FormFits a b) : a.isSubsumedBy b = true := by
  cases h with
  | scalar h => exact scalar_isSubsumedBy.2 h
  | object h => exact object_isSubsumedBy.2 h
  | array lengths items => exact array_isSubsumedBy.2 ⟨lengths, items⟩

theorem FormFits.isForm (h : FormFits a b) : a.IsForm := by
  cases h <;> exact ⟨by simp, by simp, by simp, by simp⟩

/-! ## 6. Weakening -/

/-- **An intersection fits what a branch of it fits.** -/
theorem isSubsumedBy_of_branch (hc : c ∈ branches) (h : c.isSubsumedBy b = true) :
    (allOf branches).isSubsumedBy b = true := by
  induction b using Schema.induction with
  | any => exact isSubsumedBy_any
  | allOf bs ih => exact isSubsumedBy_allOf.2 fun b hb => ih b hb (isSubsumedBy_allOf.1 h b hb)
  | _ => exact (allOf_isSubsumedBy (by simp) (by simp)).2 (Or.inl ⟨c, hc, h⟩)

/-- Everything fits a union that has the schema without constraints as a branch. -/
theorem isSubsumedBy_union_any (sound : a.Sound) (union : IsUnion b branches)
    (any : .any ∈ branches) : a.isSubsumedBy b = true := by
  induction a using Schema.induction with
  | anyOf cs ih => exact anyOf_isSubsumedBy.2 fun c hc => ih c hc (sound.anyOf hc)
  | oneOf cs ih => exact oneOf_isSubsumedBy.2 fun c hc => ih c hc (sound.oneOf hc)
  | allOf cs ih =>
      obtain ⟨c, hc⟩ := List.exists_mem_of_ne_nil cs sound.self
      exact isSubsumedBy_of_branch hc (ih c hc (sound.allOf hc))
  | _ => exact (IsAtomic.isSubsumedBy ⟨by simp, by simp, by simp⟩ union).2 ⟨_, any, isSubsumedBy_any⟩

/-- **What fits a branch of a union fits the union**, unless that branch is an intersection. An
    intersection on the producer's side is opened before the union is, so it is compared with the
    branches of that branch only as long as there is such a union around them. -/
theorem isSubsumedBy_union (sound : a.Sound) (union : IsUnion b branches) (hc : c ∈ branches)
    (opened : ∀ cs, c ≠ .allOf cs) (h : a.isSubsumedBy c = true) : a.isSubsumedBy b = true := by
  by_cases any : c = .any
  · exact isSubsumedBy_union_any sound union (any ▸ hc)
  · clear sound
    induction a using producerInduction with
    | atomic a atomic => exact (atomic.isSubsumedBy union).2 ⟨c, hc, h⟩
    | union a as isUnion ih =>
        exact isUnion.isSubsumedBy.2 fun x hx => ih x hx (isUnion.isSubsumedBy.1 h x hx)
    | allOf as ih ihm =>
        have around : b ≠ .any ∧ ∀ bs, b ≠ .allOf bs := by rcases union with rfl | rfl <;> simp
        rcases (allOf_isSubsumedBy any opened).1 h with ⟨x, hx, h⟩ | ⟨m, e, h⟩
        · exact isSubsumedBy_of_branch hx (ih x hx h)
        · exact (allOf_isSubsumedBy around.1 around.2).2 (Or.inr ⟨m, e, ihm m e h⟩)

end Schema

end TypedPipeline
