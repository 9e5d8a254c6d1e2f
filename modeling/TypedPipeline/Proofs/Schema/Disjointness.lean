import TypedPipeline.Schema.Disjoint
import TypedPipeline.Proofs.Schema.WellFormed

/-!
# Proofs.Schema.Disjointness: a yes of the test for disjointness is right

This file fixes:

* what it means that no value is accepted by both of two schemas (`Apart`);
* the test on scalars (`Scalar.apart_of_areDisjoint`): by kinds, by the members of an enumeration,
  which are looked at in place of the values they agree with, and by ranges;
* **the test on schemas** (`apart_of_areDisjoint`, `areDisjoint_sound`), by induction on the size of
  both together. That names which are required are also declared is needed here: only then is a
  required member there;
* that one branch of such a union is enough (`accepts_oneOf_of_mem`).
-/

namespace TypedPipeline

namespace Scalar

variable {x y : Scalar} {v : Json}

/-- The values of a numeric kind are numbers. -/
theorem exists_number (hk : x.kind.isNumeric = true) (h : x.acceptsKind v = true) :
    ∃ n, v = .number n := by
  cases v with
  | number n => exact ⟨n, rfl⟩
  | _ => cases h' : x.kind <;> simp_all [acceptsKind, Json.isIntegral, ScalarKind.isNumeric]

/-- One value is of two kinds only if they are equal or both numeric. -/
theorem kind_of_acceptsKind (hx : x.acceptsKind v = true) (hy : y.acceptsKind v = true) :
    x.kind = y.kind ∨ (x.kind.isNumeric = true ∧ y.kind.isNumeric = true) := by
  cases v <;> cases h : x.kind <;> cases h' : y.kind <;>
    simp_all [acceptsKind, Json.isIntegral, ScalarKind.isNumeric]

/-- **A value of an enumerated scalar agrees with a member that the scalar itself accepts.** -/
theorem exists_effective (px : x.Proper) (pv : v.Proper) {members : List Json}
    (he : x.effectiveEnumeration = some members) (h : x.Fits v) :
    ∃ m ∈ members, m.agrees v = true ∧ m.Proper := by
  obtain ⟨all, hall, rfl⟩ := Option.map_eq_some_iff.1 he
  obtain ⟨m, hm, a⟩ := h.member all hall
  have hv := isScalar_of_acceptsKind h.kind
  have pm := px all hall m hm
  refine ⟨m, List.mem_filter.2 ⟨hm, ?_⟩, a, pm⟩
  rw [Option.isNone_iff_eq_none, fault?_eq_none_iff]
  exact fits_congr (Json.isScalar_of_agrees hv a) pv pm (Json.agrees_symm hv a)
    ⟨h.kind, h.low, h.high, by simp⟩

theorem not_fits_of_refusesAll (px : x.Proper) (pv : v.Proper) {members : List Json}
    (he : x.effectiveEnumeration = some members) (h : y.refusesAll members = true)
    (hx : x.Fits v) : ¬ y.Fits v := by
  intro hy
  obtain ⟨m, hm, a, pm⟩ := exists_effective px pv he hx
  have hv := isScalar_of_acceptsKind hx.kind
  have refused := List.all_eq_true.1 h m hm
  have fits := fits_congr (Json.isScalar_of_agrees hv a) pv pm (Json.agrees_symm hv a) hy
  rw [fault?_eq_none_iff.2 fits] at refused
  cases refused

/-- What is not above one bound is below a bound that lies above it. -/
theorem below_of_rangeBelow {n : Number} {u l : Option Bound} (pn : n.Proper)
    (h : rangeBelow u l = true) (hu : ∀ b ∈ u, above n.toBinary64 b = false) :
    ∃ b ∈ l, below n.toBinary64 b = true := by
  obtain ⟨a, rfl⟩ : ∃ a, u = some a := by cases u with
    | none => simp [rangeBelow] at h
    | some a => exact ⟨a, rfl⟩
  obtain ⟨b, rfl⟩ : ∃ b, l = some b := by cases l with
    | none => simp [rangeBelow] at h
    | some b => exact ⟨b, rfl⟩
  have nn := Number.isNaN_toBinary64 pn
  refine ⟨b, rfl, Bool.not_eq_false _ ▸ fun inside => ?_⟩
  have ha := hu a rfl
  simp only [rangeBelow, Bool.or_eq_true, Bool.and_eq_true, Binary64.less_iff,
    Binary64.equals_iff] at h
  rcases h with ⟨na, nb, lt⟩ | ⟨⟨na, nb, eq⟩, ex⟩
  · rw [above_eq_false_iff nn na] at ha
    rw [below_eq_false_iff nn nb] at inside
    omega
  · rw [above_eq_false_iff nn na] at ha
    rw [below_eq_false_iff nn nb] at inside
    rcases ex with ex | ex
    · exact ha.2 ex (by omega)
    · exact inside.2 ex (by omega)

theorem apart_of_areDisjoint (px : x.Proper) (py : y.Proper) (h : x.areDisjoint y = true)
    (pv : v.Proper) (hx : x.Fits v) : ¬ y.Fits v := by
  intro hy
  unfold areDisjoint at h
  split at h
  · rename_i kinds
    rcases kind_of_acceptsKind hx.kind hy.kind with e | ⟨nx, ny⟩
    · simp [e] at kinds
    · simp [nx, ny] at kinds
  · split at h
    · rename_i members _ he
      exact not_fits_of_refusesAll px pv he h hx hy
    · rename_i members _ he
      exact not_fits_of_refusesAll py pv he h hy hx
    · rw [Bool.and_eq_true, Bool.or_eq_true] at h
      obtain ⟨n, rfl⟩ := exists_number h.1 hx.kind
      rcases h.2 with h | h
      · obtain ⟨b, hb, lt⟩ := below_of_rangeBelow pv h (hx.high n rfl)
        rw [hy.low n rfl b hb] at lt
        cases lt
      · obtain ⟨b, hb, lt⟩ := below_of_rangeBelow pv h (hy.high n rfl)
        rw [hx.low n rfl b hb] at lt
        cases lt

end Scalar

/-! ## 2. Lengths -/

namespace Length

variable {x y : Length} {n : Nat}

/-- A number of items in bounds. -/
def Admits (length : Length) (n : Nat) : Prop :=
  (∀ a ∈ length.least, a ≤ n) ∧ ∀ b ∈ length.most, n ≤ b

theorem not_admits_of_areDisjoint (h : x.areDisjoint y = true) (hx : x.Admits n) :
    ¬ y.Admits n := by
  obtain ⟨low, high⟩ := x
  obtain ⟨low', high'⟩ := y
  intro hy
  simp only [Admits] at hx hy
  simp only [areDisjoint, Bool.or_eq_true] at h
  rcases h with h | h
  · cases high with
    | none => simp at h
    | some b => cases low' with
      | none => simp at h
      | some a =>
          have := hx.2 b rfl
          have := hy.1 a rfl
          simp only [decide_eq_true_eq] at h
          omega
  · cases high' with
    | none => simp at h
    | some b => cases low with
      | none => simp at h
      | some a =>
          have := hy.2 b rfl
          have := hx.1 a rfl
          simp only [decide_eq_true_eq] at h
          omega

theorem pos_of_forcesItem (h : x.forcesItem y = true) (hx : x.Admits n) (hy : y.Admits n) :
    0 < n := by
  have low {z : Length} (hz : z.Admits n) : z.least.getD 0 ≤ n := by
    cases e : z.least with
    | none => simp
    | some a => exact hz.1 a e
  have := low hx
  have := low hy
  simp only [forcesItem, decide_eq_true_eq] at h
  have : Nat.max (x.least.getD 0) (y.least.getD 0) ≤ n := Nat.max_le.2 ⟨‹_›, ‹_›⟩
  omega

end Length

/-! ## 3. Schemas -/

namespace Schema

/-- No value is accepted by both. -/
def Apart (a b : Schema) : Prop := ∀ v : Json, v.Proper → a.accepts v = true → ¬ b.accepts v = true

theorem Apart.symm {a b : Schema} (h : Apart a b) : Apart b a :=
  fun v pv hb ha => h v pv ha hb

/-- A union has no value in common with what its branches have none in common with. -/
theorem IsUnion.apart {u other : Schema} {branches : List Schema} (union : IsUnion u branches)
    (h : ∀ b ∈ branches, Apart b other) : Apart u other := by
  intro v pv hv
  obtain ⟨b, hb, acc⟩ := union.exists_accepts hv
  exact h b hb v pv acc

/-- Its own form is that of its values. -/
theorem IsForm.cases {s : Schema} {v : Json} (form : s.IsForm) (h : s.accepts v = true) :
    (∃ x, s = .scalar x ∧ v.isScalar = true) ∨
      (∃ properties rules, s = .object properties rules ∧ ∃ members, v = .object members) ∨
      ∃ items length, s = .array items length ∧ ∃ values, v = .array values := by
  cases s with
  | any => exact absurd rfl form.any
  | scalar x =>
      exact Or.inl ⟨x, rfl, Scalar.isScalar_of_acceptsKind (accepts_scalar_iff.1 h).kind⟩
  | object properties rules =>
      obtain ⟨members, e, _⟩ := accepts_object.1 h
      exact Or.inr (Or.inl ⟨properties, rules, rfl, members, e⟩)
  | array items length =>
      obtain ⟨values, e, _⟩ := accepts_array.1 h
      exact Or.inr (Or.inr ⟨items, length, rfl, values, e⟩)
  | anyOf bs => exact absurd rfl (form.anyOf bs)
  | allOf bs => exact absurd rfl (form.allOf bs)
  | oneOf bs => exact absurd rfl (form.oneOf bs)

/-- No value is of two forms. -/
theorem apart_of_forms {a b : Schema} (fa : a.IsForm) (fb : b.IsForm) (different : ¬OneForm a b) :
    Apart a b := by
  intro v pv hva hvb
  apply different
  rcases fa.cases hva with ⟨x, rfl, fv⟩ | ⟨as, rules, rfl, _, rfl⟩ | ⟨x, length, rfl, _, rfl⟩
  · rcases fb.cases hvb with ⟨y, rfl, _⟩ | ⟨_, _, rfl, _, rfl⟩ | ⟨_, _, rfl, _, rfl⟩
    · exact .scalars x y
    · cases fv
    · cases fv
  · rcases fb.cases hvb with ⟨y, rfl, fv⟩ | ⟨bs, others, rfl, _⟩ | ⟨_, _, rfl, _, e⟩
    · cases fv
    · exact .objects as rules bs others
    · cases e
  · rcases fb.cases hvb with ⟨y, rfl, fv⟩ | ⟨_, _, rfl, _, e⟩ | ⟨y, length', rfl, _⟩
    · cases fv
    · cases e
    · exact .arrays x length y length'

theorem allDisjoint_iff {branches : List Schema} {other : Schema} :
    allDisjoint branches other = true ↔ ∀ b ∈ branches, b.areDisjoint other = true := by
  induction branches with
  | nil => simp [allDisjoint]
  | cons b rest ih => rw [allDisjoint, Bool.and_eq_true, ih, List.forall_mem_cons]

theorem someDisjoint_iff {branches : List Schema} {other : Schema} :
    someDisjoint branches other = true ↔ ∃ b ∈ branches, b.areDisjoint other = true := by
  induction branches with
  | nil => simp [someDisjoint]
  | cons b rest ih => simp [someDisjoint, ih]

theorem somePropertyDisjoint_iff {required : List String} {as bs : Keyed Schema}
    {others : ObjectRules} :
    somePropertyDisjoint required as bs others = true ↔ ∃ name ∈ required,
      (bs.find? name = none ∧ others.isOpen = false) ∨
        ∃ a b, as.find? name = some a ∧ bs.find? name = some b ∧ a.areDisjoint b = true := by
  rw [somePropertyDisjoint, List.any_eq_true]
  refine exists_congr fun name => and_congr_right fun _ => ?_
  split
  · rename_i hb
    simp [hb]
  · rename_i a b ha hb
    simp [ha, hb]
  · rename_i b ha hb
    simp [ha, hb]

/-- A required property of one side makes two object schemas disjoint, if it is forbidden on the
    other side or disjoint from the one there. -/
theorem apart_of_somePropertyDisjoint {as bs : Keyed Schema} {rules others : ObjectRules}
    (ha : rules.Sound as)
    (ih : ∀ name a b, as.find? name = some a → bs.find? name = some b → a.areDisjoint b = true →
      Apart a b)
    (h : somePropertyDisjoint rules.required as bs others = true) :
    Apart (.object as rules) (.object bs others) := by
  intro v pv hva hvb
  obtain ⟨members, rfl, each, _⟩ := accepts_object.1 hva
  obtain ⟨_, ⟨⟩, each', closed⟩ := accepts_object.1 hvb
  obtain ⟨name, hr, h⟩ := somePropertyDisjoint_iff.1 h
  obtain ⟨a, ha⟩ := Option.isSome_iff_exists.1 (ha.required name hr)
  obtain ⟨w, hw, acc⟩ := exists_required ha hr each
  rcases h with ⟨hb, shut⟩ | ⟨a', b, ha', hb, h⟩
  · have there := Keyed.mem_of_find? hw
    have := closed shut name (List.mem_map.2 ⟨_, there, rfl⟩)
    rw [Keyed.has, hb] at this
    cases this
  · have pw := Json.properMembers_iff.1 pv.2 (name, w) (Keyed.mem_of_find? hw)
    rw [ha] at ha'
    cases ha'
    exact ih name a b ha hb h w pw acc (accepts_of_find? hb hw each')

/-- Items that arrays of both lengths have are accepted by both. -/
theorem apart_of_items {x y : Schema} {length length' : Length} (ih : x.areDisjoint y = true →
    Apart x y) (h : (length.areDisjoint length' || (length.forcesItem length' && x.areDisjoint y))
      = true) : Apart (.array x length) (.array y length') := by
  intro v pv hva hvb
  obtain ⟨values, rfl, admits, each⟩ := accepts_array.1 hva
  obtain ⟨_, ⟨⟩, admits', each'⟩ := accepts_array.1 hvb
  rcases Bool.or_eq_true _ _ ▸ h with h | h
  · exact Length.not_admits_of_areDisjoint h admits admits'
  · rw [Bool.and_eq_true] at h
    obtain ⟨w, hw⟩ := List.exists_mem_of_length_pos (Length.pos_of_forcesItem h.1 admits admits')
    exact ih h.2 w (Json.properItems_iff.1 pv w hw) (each w hw) (each' w hw)

section Rules

variable {a b : Schema} {branches : List Schema}

@[simp] theorem any_areDisjoint (b : Schema) : any.areDisjoint b = false := by
  rw [areDisjoint]

@[simp] theorem areDisjoint_any (a : Schema) : a.areDisjoint .any = false := by
  cases a <;> simp [areDisjoint]

/-- A union passes if all its branches do. -/
theorem IsUnion.areDisjoint_iff (union : IsUnion a branches) (any : b ≠ .any) :
    a.areDisjoint b = true ↔ ∀ c ∈ branches, c.areDisjoint b = true := by
  rw [← allDisjoint_iff]
  rcases union with rfl | rfl
  all_goals
    rw [areDisjoint]
    exact any

/-- So does one on the right, if there is none on the left. -/
theorem areDisjoint_union_iff (union : IsUnion b branches) (any : a ≠ .any)
    (plain : ∀ cs, ¬IsUnion a cs) :
    a.areDisjoint b = true ↔ ∀ c ∈ branches, c.areDisjoint a = true := by
  have anyOf (cs : List Schema) (e : a = .anyOf cs) : False := plain cs (Or.inl e)
  have oneOf (cs : List Schema) (e : a = .oneOf cs) : False := plain cs (Or.inr e)
  rw [← allDisjoint_iff]
  rcases union with rfl | rfl
  all_goals
    rw [areDisjoint]
    all_goals assumption

/-- An intersection passes if one of its branches does. Unions are opened before it. -/
theorem allOf_areDisjoint_iff (any : b ≠ .any) (plain : ∀ cs, ¬IsUnion b cs) :
    (allOf branches).areDisjoint b = true ↔ ∃ c ∈ branches, c.areDisjoint b = true := by
  rw [← someDisjoint_iff, areDisjoint]
  · exact any
  · exact fun cs e => plain cs (Or.inl e)
  · exact fun cs e => plain cs (Or.inr e)

theorem areDisjoint_allOf_iff (form : a.IsForm) :
    a.areDisjoint (.allOf branches) = true ↔ ∃ c ∈ branches, c.areDisjoint a = true := by
  obtain ⟨any, anyOf, oneOf, allOf⟩ := form
  rw [← someDisjoint_iff, areDisjoint]
  all_goals assumption

end Rules

/-- **No value is accepted by both of two schemas that pass the test.** -/
theorem apart_of_areDisjoint {a b : Schema} (sa : a.Sound) (pa : a.Proper) (sb : b.Sound)
    (pb : b.Proper) (h : a.areDisjoint b = true) : Apart a b := by
  induction hn : a.size + b.size using Nat.strongRecOn generalizing a b with
  | ind n ih =>
      subst hn
      have inside {c d : Schema} (hc : c ∈ a.parts) (hd : d ∈ b.parts)
          (lt : c.size + d.size < a.size + b.size) (h : c.areDisjoint d = true) : Apart c d :=
        ih _ lt (sa.of_mem hc) (pa.of_mem hc) (sb.of_mem hd) (pb.of_mem hd) h rfl
      have turned {c d : Schema} (hc : c ∈ a.parts) (hd : d ∈ b.parts)
          (lt : c.size + d.size < a.size + b.size) (h : d.areDisjoint c = true) : Apart d c :=
        ih _ (Nat.add_comm c.size d.size ▸ lt) (sb.of_mem hd) (pb.of_mem hd) (sa.of_mem hc)
          (pa.of_mem hc) h rfl
      have anyA : a ≠ .any := by rintro rfl; simp at h
      have anyB : b ≠ .any := by rintro rfl; simp at h
      rcases a.outer_cases with ⟨as, union⟩ | plainA
      · refine union.apart fun c hc => inside (union.mem_parts hc) b.self_mem_parts ?_
          ((union.areDisjoint_iff anyB).1 h c hc)
        have := union.size_lt hc
        omega
      rcases b.outer_cases with ⟨bs, union⟩ | plainB
      · refine Apart.symm (union.apart fun d hd => turned a.self_mem_parts (union.mem_parts hd) ?_
          ((areDisjoint_union_iff union anyA (not_isUnion plainA)).1 h d hd))
        have := union.size_lt hd
        omega
      rcases plainA with ⟨as, rfl⟩ | atomicA
      · obtain ⟨c, hc, h⟩ := (allOf_areDisjoint_iff anyB (not_isUnion plainB)).1 h
        have := size_lt_allOf hc
        have apart : Apart c b := inside (allOf_mem_parts hc) b.self_mem_parts (by omega) h
        exact fun v pv hva => apart v pv (accepts_allOf.1 hva c hc)
      have formA : a.IsForm := atomicA.isForm anyA
      rcases plainB with ⟨bs, rfl⟩ | atomicB
      · obtain ⟨d, hd, h⟩ := (areDisjoint_allOf_iff formA).1 h
        have := size_lt_allOf hd
        have apart : Apart d a := turned a.self_mem_parts (allOf_mem_parts hd) (by omega) h
        exact Apart.symm fun v pv hvb => apart v pv (accepts_allOf.1 hvb d hd)
      by_cases same : OneForm a b
      · cases same with
        | scalars x y =>
            rw [areDisjoint] at h
            intro v pv hva hvb
            exact Scalar.apart_of_areDisjoint pa.self pb.self h pv (accepts_scalar_iff.1 hva)
              (accepts_scalar_iff.1 hvb)
        | objects as rules bs others =>
            have smaller {name : String} {c d : Schema} (hc : Keyed.find? as name = some c)
                (hd : Keyed.find? bs name = some d) :
                c.size + d.size < (object as rules).size + (object bs others).size := by
              have := size_le_of_find? hc
              have := size_le_of_find? hd
              simp only [size]; omega
            have part {cs : Keyed Schema} {rules : ObjectRules} {name : String} {c : Schema}
                (hc : cs.find? name = some c) : c ∈ (object cs rules).parts :=
              property_mem_parts (Keyed.mem_of_find? hc)
            rw [areDisjoint, Bool.or_eq_true] at h
            rcases h with h | h
            · refine apart_of_somePropertyDisjoint sa.self (fun name c d hc hd h => ?_) h
              exact inside (part hc) (part hd) (smaller hc hd) h
            · refine (apart_of_somePropertyDisjoint sb.self (fun name d c hd hc h => ?_) h).symm
              exact turned (part hc) (part hd) (smaller hc hd) h
        | arrays x length y length' =>
            rw [areDisjoint] at h
            refine apart_of_items (fun h => inside items_mem_parts items_mem_parts ?_ h) h
            simp only [size]; omega
      · exact apart_of_forms formA (atomicB.isForm anyB) same

/-- **A yes of the test is right about well-formed schemas**, however they are nested: no value is
    accepted by both. -/
theorem areDisjoint_sound {a b : Schema} (wa : a.isWellFormed = true) (pa : a.Proper)
    (wb : b.isWellFormed = true) (pb : b.Proper) (h : a.areDisjoint b = true) :
    ∀ v : Json, v.Proper → ¬ (a.accepts v = true ∧ b.accepts v = true) := by
  rintro v pv ⟨ha, hb⟩
  exact apart_of_areDisjoint (isWellFormed_iff.1 wa) pa (isWellFormed_iff.1 wb) pb h v pv ha hb

/-- An integer up to 3, or an object with the key 1. -/
def upToThreeOrKeyed : Schema :=
  .anyOf [.scalar { kind := .integer, maximum := some (.inclusive (.ofInt 3)) },
    .object [("key", .scalar { kind := .integer, enumeration := some [.int 1] })]
      { required := ["key"] }]

/-- A number above 3, an object without a key, or a list with an item. -/
def aboveThreeOrKeyless : Schema :=
  .oneOf [.scalar { kind := .number, minimum := some ⟨.ofInt 3, true⟩ },
    .object [("size", .any)] { isOpen := false },
    .array .any { least := some 1 }]

theorem areDisjoint_sound_keyed : upToThreeOrKeyed.areDisjoint aboveThreeOrKeyless = true ∧
    ∀ v : Json, v.Proper →
      ¬ (upToThreeOrKeyed.accepts v = true ∧ aboveThreeOrKeyless.accepts v = true) := by
  have disjoint : upToThreeOrKeyed.areDisjoint aboveThreeOrKeyless = true := by
    rw [upToThreeOrKeyed, aboveThreeOrKeyless]
    simp only [areDisjoint, allDisjoint, somePropertyDisjoint]
    decide
  refine ⟨disjoint, areDisjoint_sound (by decide) ?_ (by decide) ?_ disjoint⟩
  all_goals
    simp [Proper, Every, parts, partsOfProperties, partsOfBranches, ProperPart, Scalar.Proper,
      upToThreeOrKeyed, aboveThreeOrKeyless, Json.int, Json.Proper, Number.Proper, Keyed.Ascending,
      Keyed.names, ObjectRules.proper_plain_iff]

/-! ## 4. Unions of disjoint branches -/

/-- Of branches with no value in common, the one that accepts a value is the only one. -/
theorem accepts_oneOf_of_mem {branches : List Schema} (h : branches.Pairwise Apart) {b : Schema}
    (hb : b ∈ branches) {v : Json} (pv : v.Proper) (hv : b.accepts v = true) :
    (Schema.oneOf branches).accepts v = true := by
  rw [accepts_oneOf]
  induction branches with
  | nil => cases hb
  | cons first rest ih =>
      obtain ⟨apart, h⟩ := List.pairwise_cons.1 h
      rcases List.mem_cons.1 hb with rfl | hb
      · rw [List.countP_cons, if_pos hv, List.countP_eq_zero.2 fun c hc => apart c hc v pv hv]
      · rw [List.countP_cons, if_neg fun hf => apart b hb v pv hf hv]
        exact ih h hb

/-- The branches of every union of which exactly one is to accept pass the test for disjointness. -/
def OneOfDisjoint : Schema → Prop := Every fun
  | .oneOf branches => branches.Pairwise fun a b => a.areDisjoint b = true
  | _ => True

theorem OneOfDisjoint.pairwise {branches : List Schema} (h : (oneOf branches).OneOfDisjoint)
    (sound : (oneOf branches).Sound) (proper : (oneOf branches).Proper) :
    branches.Pairwise Apart :=
  List.Pairwise.imp_of_mem (fun ha hb h => apart_of_areDisjoint (sound.oneOf ha) (proper.oneOf ha)
    (sound.oneOf hb) (proper.oneOf hb) h) h.self

end Schema

end TypedPipeline
