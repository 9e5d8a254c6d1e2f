import TypedPipeline.Proofs.Schema.Documents
import TypedPipeline.Proofs.Schema.Enumeration
import TypedPipeline.Proofs.Schema.Keywords

/-!
# Proofs.Schema.Reading: what a reading that succeeds has read

The reader refuses what it does not understand, so a schema that it gives says where it comes from.
This file fixes:

* the bound that is read for an end of a range, from its two keywords (`RangeEnd.Reads`);
* a scalar that is read, with a type or from literal values (`ReadsScalar`);
* the rules of an object and the length of an array (`readRules_keeps`, `readCount_keeps`);
* the four ways in which the typed part of a document accepts a value (`TypedAs`), and that there is
  no other (`typedAs_of_readTyped`);
* the parts of a document (`readAt_cases`), all of which accept what their conjunction accepts.
-/

namespace TypedPipeline

theorem Except.mapM_eq_ok {ε α β : Type} {f : α → Except ε β} {items : List α} {results : List β}
    (h : items.mapM f = .ok results) :
    (∀ a ∈ items, ∃ b ∈ results, f a = .ok b) ∧ ∀ b ∈ results, ∃ a ∈ items, f a = .ok b := by
  induction items generalizing results with
  | nil =>
      cases h
      simp
  | cons first rest ih =>
      rw [List.mapM_cons] at h
      obtain ⟨b, hb, h⟩ := Except.bind_eq_ok.1 h
      obtain ⟨others, ho, h⟩ := Except.bind_eq_ok.1 h
      cases h
      obtain ⟨forth, back⟩ := ih ho
      refine ⟨fun a ha => ?_, fun b hb' => ?_⟩
      · rcases List.mem_cons.1 ha with rfl | ha
        · exact ⟨b, List.mem_cons_self, hb⟩
        · obtain ⟨c, hc, e⟩ := forth a ha
          exact ⟨c, List.mem_cons_of_mem _ hc, e⟩
      · rcases List.mem_cons.1 hb' with rfl | hb'
        · exact ⟨first, List.mem_cons_self, hb⟩
        · obtain ⟨a, ha, e⟩ := back b hb'
          exact ⟨a, List.mem_cons_of_mem _ ha, e⟩

namespace Schema

/-- A schema in order that accepts the value. -/
def Takes (s : Schema) (v : Json) : Prop := s.Sound ∧ s.accepts v = true

theorem Takes.anyOf {branches : List Schema} {v : Json} (h : (Schema.anyOf branches).Takes v) :
    ∃ b ∈ branches, b.Takes v := by
  obtain ⟨b, hb, accepts⟩ := accepts_anyOf.1 h.2
  exact ⟨b, hb, h.1.anyOf hb, accepts⟩

theorem Takes.allOf {branches : List Schema} {v : Json} (h : (Schema.allOf branches).Takes v)
    {b : Schema} (hb : b ∈ branches) : b.Takes v :=
  ⟨h.1.allOf hb, accepts_allOf.1 h.2 b hb⟩

variable {members : Keyed Json} {path : Path}

/-! ## 1. Scalars -/

namespace RangeEnd

def bound : RangeEnd → Scalar → Option Bound
  | .low, s => s.minimum
  | .high, s => s.maximum

/-- The bound of an end is read from its two keywords. -/
def Reads (e : RangeEnd) (members : Keyed Json) (path : Path) (bound : Option Bound) : Prop :=
  ∃ x, readNumber members e.keyword path = .ok x ∧
    readExclusive members e.exclusive (x.map .inclusive) path = .ok bound

end RangeEnd

theorem readNumber_keeps {keyword : String} {o : Option Binary64} {b : Number}
    (h : readNumber members keyword path = .ok o) (hb : members.find? keyword = some (.number b)) :
    o = some b.toBinary64 := by
  rw [readNumber, hb] at h
  cases h
  rfl

theorem readScalar_reads {kind : ScalarKind} {s : Scalar}
    (h : readScalar kind members path = .ok s) :
    s.kind = kind ∧ ∀ e : RangeEnd, e.Reads members path (e.bound s) := by
  unfold readScalar at h
  obtain ⟨low, hlow, h⟩ := Except.bind_eq_ok.1 h
  obtain ⟨high, hhigh, h⟩ := Except.bind_eq_ok.1 h
  obtain ⟨minimum, hmin, h⟩ := Except.bind_eq_ok.1 h
  obtain ⟨maximum, hmax, h⟩ := Except.bind_eq_ok.1 h
  obtain ⟨_, _, h⟩ := Except.bind_eq_ok.1 h
  obtain ⟨_, _, h⟩ := Except.bind_eq_ok.1 h
  obtain ⟨_, _, h⟩ := Except.bind_eq_ok.1 h
  cases h
  refine ⟨rfl, fun e => ?_⟩
  cases e with
  | low => exact ⟨low, hlow, hmin⟩
  | high => exact ⟨high, hhigh, hmax⟩

/-- A scalar that is read from a document: of a type that is named there, with literal values that
    are listed there, and within the range that is given there if it has one. -/
structure ReadsScalar (members : Keyed Json) (path : Path) (s : Scalar) : Prop where
  type : ∀ value, members.find? "type" = some value → NamesType value s.kind.name
  literal : ∀ values, members.find? "enum" = some (.array values) →
    ∃ listed, s.enumeration = some listed ∧ ∀ m ∈ listed, m ∈ values
  range : s.kind.isNumeric = true → ∀ e : RangeEnd, e.Reads members path (e.bound s)

theorem name_of_ofName? {name : String} {kind : ScalarKind} (h : ScalarKind.ofName? name = some kind) :
    kind.name = name := by
  unfold ScalarKind.ofName? at h
  split at h <;> simp only [Option.some.injEq, reduceCtorEq] at h <;> subst h <;> rfl

theorem readMembers_keeps {value : Json} {values : List Json}
    (h : readMembers value path = .ok values) : value = .array values := by
  unfold readMembers at h
  cases value with
  | array items => cases h; rfl
  | _ => cases h

theorem readsScalar_of_readScalarKind {name : String} {several : Bool} {b : Schema}
    (type : ∀ value, members.find? "type" = some value → NamesType value name)
    (h : readScalarKind name several members path = .ok (some b)) :
    ∃ s, b = .scalar s ∧ ReadsScalar members path s := by
  unfold readScalarKind at h
  cases hk : ScalarKind.ofName? name with
  | none => rw [hk] at h; cases h
  | some kind =>
      rw [hk] at h
      obtain ⟨s, hs, h⟩ := Except.bind_eq_ok.1 h
      obtain ⟨rfl, reads⟩ := readScalar_reads hs
      rw [← name_of_ofName? hk] at type
      cases he : members.find? "enum" with
      | none =>
          simp only [he] at h
          cases h
          exact ⟨s, rfl, type, fun _ e => absurd (he ▸ e) (by simp), fun _ => reads⟩
      | some value =>
          simp only [he, Except.bind_eq_ok] at h
          obtain ⟨values, hv, h⟩ := h
          have sub : ∀ m ∈ if several = true then values.filter s.kind.admits else values,
              m ∈ values := by
            intro m hm
            split at hm
            · exact (List.mem_filter.1 hm).1
            · exact hm
          generalize (if several = true then values.filter s.kind.admits else values) = listed at h sub
          split at h
          · cases h
          · cases h
            refine ⟨_, rfl, type, fun values' e => ⟨listed, rfl, ?_⟩, fun _ e => ?_⟩
            · rw [he, readMembers_keeps hv] at e
              cases e
              exact sub
            · have := reads e
              cases e <;> exact this

/-! ## 2. Literal values -/

theorem readsScalar_of_boundEnumeration {s : Scalar} {b : Schema} {listed values : List Json}
    (type : members.find? "type" = none) (literal : members.find? "enum" = some (.array values))
    (he : s.enumeration = some listed) (sub : ∀ m ∈ listed, m ∈ values)
    (h : boundEnumeration members path (.scalar s) = .ok b) :
    ∃ s, b = .scalar s ∧ ReadsScalar members path s := by
  have kept (values' : List Json) (e : members.find? "enum" = some (.array values')) :
      ∀ m ∈ listed, m ∈ values' := by
    rw [literal] at e
    cases e
    exact sub
  have typeless (value : Json) (e : members.find? "type" = some value) :
      NamesType value s.kind.name := absurd (type ▸ e) (by simp)
  simp only [boundEnumeration] at h
  split at h
  · obtain ⟨bounds, hb, h⟩ := Except.bind_eq_ok.1 h
    obtain ⟨_, reads⟩ := readScalar_reads hb
    cases h
    refine ⟨_, rfl, typeless, fun values' e => ⟨listed, he, kept values' e⟩, fun _ e => ?_⟩
    have := reads e
    cases e <;> exact this
  · rename_i other
    cases h
    exact ⟨s, rfl, typeless, fun values' e => ⟨listed, he, kept values' e⟩,
      fun numeric => absurd numeric other⟩

/-- **What is accepted by untyped literal values is accepted by a scalar that is read from them.** -/
theorem readsScalar_of_readEnumeration {value v : Json} {s : Schema}
    (type : members.find? "type" = none) (literal : members.find? "enum" = some value)
    (h : readEnumeration value members path = .ok s) (takes : s.Takes v) :
    ∃ x, ReadsScalar members path x ∧ (Schema.scalar x).Takes v := by
  simp only [readEnumeration, Except.bind_eq_ok] at h
  obtain ⟨values, hv, h⟩ := h
  rw [readMembers_keeps hv] at literal
  have listed {kind : ScalarKind} {b : Schema} (taken : b.Takes v)
      (hb : boundEnumeration members path (.scalar (listedScalar values kind)) = .ok b) :
      ∃ x, ReadsScalar members path x ∧ (Schema.scalar x).Takes v := by
    obtain ⟨x, rfl, reads⟩ := readsScalar_of_boundEnumeration type literal rfl
      (fun m hm => mem_membersOf hm) hb
    exact ⟨x, reads, taken⟩
  split at h
  · cases h
  rcases enumeration_cases values with ⟨kind, -, e⟩ | e
  · rw [e] at h
    exact listed takes h
  · rw [e] at h
    obtain ⟨bounded, hm, h⟩ := Except.bind_eq_ok.1 h
    cases h
    obtain ⟨b, hb, taken⟩ := takes.anyOf
    obtain ⟨a, ha, read⟩ := (Except.mapM_eq_ok hm).2 b hb
    obtain ⟨kind, _, rfl⟩ := List.mem_map.1 ha
    exact listed taken read

/-! ## 3. Objects and arrays -/

theorem readNames_keeps {values : List Json} {keyword : String} {names : Names}
    (h : readNames (.array values) keyword path = .ok names) {name : String}
    (hn : .text name ∈ values) : name ∈ names := by
  simp only [readNames, Json.asArray?, Except.bind_eq_ok] at h
  obtain ⟨listed, hl, h⟩ := h
  cases h
  obtain ⟨b, hb, e⟩ := (Except.mapM_eq_ok hl).1 _ hn
  cases e
  exact Names.mem_ofList.2 hb

/-- Required names are required, and an object that is closed is read as closed. -/
theorem readRules_keeps {defaults : Keyed Json} {rules : ObjectRules}
    (h : readRules members defaults path = .ok rules) :
    (∀ values, members.find? "required" = some (.array values) → ∀ name, .text name ∈ values →
      name ∈ rules.required) ∧
    (members.find? "additionalProperties" = some (.bool false) → rules.isOpen = false) := by
  simp only [readRules] at h
  constructor
  · intro values e name hn
    simp only [e, Except.bind_eq_ok] at h
    obtain ⟨required, hr, h⟩ := h
    have kept : rules.required = required := by
      split at h
      all_goals
        rw [Except.bind_eq_ok] at h
        obtain ⟨_, _, h⟩ := h
        split at h
        all_goals
          obtain ⟨_, _, h⟩ := Except.bind_eq_ok.1 h
          cases h
          rfl
    rw [kept]
    exact readNames_keeps hr hn
  · intro e
    simp only [e] at h
    split at h
    all_goals
      rw [Except.bind_eq_ok] at h
      obtain ⟨_, _, h⟩ := h
      split at h
      all_goals
        obtain ⟨_, _, h⟩ := Except.bind_eq_ok.1 h
        cases h
        rfl

theorem readCount_keeps {keyword : String} {o : Option Nat} {n : Number}
    (h : readCount members keyword path = .ok o) (hn : members.find? keyword = some (.number n)) :
    ∃ k : Nat, o = some k ∧ n = .int k := by
  rw [readCount, hn] at h
  cases n with
  | float x => cases h
  | int i =>
      by_cases pos : 0 ≤ i
      · simp only [Json.asNat?, Number.asNat?, if_pos pos] at h
        cases h
        exact ⟨i.toNat, rfl, by rw [Int.toNat_of_nonneg pos]⟩
      · simp only [Json.asNat?, Number.asNat?, if_neg pos] at h
        cases h

variable {definitions : Keyed Json} {resolving : List String}

/-- Each property is read from its document. -/
theorem readProperties_keeps {documents : List (String × Json)}
    {properties : List (String × Schema)}
    (h : readProperties definitions resolving documents path = .ok properties) :
    Keyed.names properties = Keyed.names documents ∧
      ∀ name document, (name, document) ∈ documents → ∃ s, (name, s) ∈ properties ∧
        readAt definitions resolving document (path.property name) = .ok s := by
  induction documents generalizing properties with
  | nil =>
      rw [readProperties] at h
      cases h
      simp [Keyed.names]
  | cons head rest ih =>
      obtain ⟨key, first⟩ := head
      rw [readProperties] at h
      obtain ⟨s, hs, h⟩ := Except.bind_eq_ok.1 h
      obtain ⟨others, ho, h⟩ := Except.bind_eq_ok.1 h
      cases h
      obtain ⟨names, each⟩ := ih ho
      refine ⟨by simpa [Keyed.names] using names, fun name document hd => ?_⟩
      rcases List.mem_cons.1 hd with e | hd
      · cases e
        exact ⟨s, List.mem_cons_self, hs⟩
      · obtain ⟨t, ht, read⟩ := each name document hd
        exact ⟨t, List.mem_cons_of_mem _ ht, read⟩

/-- An object that is read from a document. -/
theorem readObject_cases {s : Schema}
    (h : readObject definitions resolving members path = .ok s) :
    ∃ properties rules defaults, s = .object properties rules ∧
      readRules members defaults path = .ok rules ∧
      ((members.find? "properties" = none ∧ properties = []) ∨
        ∃ documents, members.find? "properties" = some (.object documents) ∧
          readProperties definitions resolving documents path = .ok properties) := by
  rw [readObject] at h
  split at h
  · rename_i found
    obtain ⟨rules, hr, h⟩ := Except.bind_eq_ok.1 h
    cases h
    exact ⟨[], rules, [], rfl, hr, Or.inl ⟨found, rfl⟩⟩
  · rename_i documents found
    obtain ⟨properties, hp, h⟩ := Except.bind_eq_ok.1 h
    obtain ⟨rules, hr, h⟩ := Except.bind_eq_ok.1 h
    cases h
    exact ⟨properties, rules, _, rfl, hr, Or.inr ⟨documents, found, hp⟩⟩
  · cases h

/-- An array that is read from a document is at least as narrow as its keywords say. -/
theorem readArray_cases {s : Schema} (h : readArray definitions resolving members path = .ok s) :
    ∃ items length least most, s = .array items length ∧
      readCount members "minItems" path = .ok least ∧
      readCount members "maxItems" path = .ok most ∧
      (∀ n ∈ least, ∃ k ∈ length.least, n ≤ k) ∧ (∀ n ∈ most, ∃ k ∈ length.most, k ≤ n) ∧
      ∀ document, members.find? "items" = some document → (∀ list, document ≠ .array list) →
        readAt definitions resolving document path.items = .ok items := by
  rw [readArray] at h
  obtain ⟨least, hleast, h⟩ := Except.bind_eq_ok.1 h
  obtain ⟨most, hmost, h⟩ := Except.bind_eq_ok.1 h
  have self (o : Option Nat) (n : Nat) (hn : n ∈ o) : (∃ k ∈ o, n ≤ k) ∧ ∃ k ∈ o, k ≤ n :=
    ⟨⟨n, hn, Nat.le_refl n⟩, n, hn, Nat.le_refl n⟩
  split at h
  · rename_i found
    cases h
    exact ⟨_, _, least, most, rfl, hleast, hmost, fun n hn => (self _ n hn).1,
      fun n hn => (self _ n hn).2, fun _ e => absurd (found ▸ e) (by simp)⟩
  · rename_i list found
    obtain ⟨branches, _, h⟩ := Except.bind_eq_ok.1 h
    cases h
    refine ⟨_, _, least, most, rfl, hleast, hmost, ?_, ?_, fun document e no => ?_⟩
    · rintro n rfl
      exact ⟨_, rfl, Nat.le_max_left _ _⟩
    · rintro n rfl
      exact ⟨_, rfl, Nat.min_le_left _ _⟩
    · rw [found] at e
      cases e
      exact absurd rfl (no list)
  · rename_i document _ found
    obtain ⟨items, hi, h⟩ := Except.bind_eq_ok.1 h
    cases h
    refine ⟨items, _, least, most, rfl, hleast, hmost, fun n hn => (self _ n hn).1,
      fun n hn => (self _ n hn).2, fun other e _ => ?_⟩
    rw [found] at e
    cases e
    exact hi

/-! ## 4. The typed part of a document -/

/-- A document is read as of this kind: its type is named, or there are no literal values that would
    be read in place of the kind. -/
structure ReadsAs (members : Keyed Json) (kind : String) : Prop where
  type : ∀ value, members.find? "type" = some value → NamesType value kind
  literal : members.find? "type" = none → members.find? "enum" = none

theorem kindsOf_cases {kinds : Kinds} (h : kindsOf members path = .ok kinds) :
    (∃ names, kinds = .listed names ∧ ∀ kind ∈ names, ReadsAs members kind) ∨
    (∃ values, kinds = .literal values ∧ members.find? "type" = none ∧
      members.find? "enum" = some values) ∨
    (kinds = .untyped ∧ members.find? "type" = none ∧ members.find? "enum" = none ∧
      inferKind? members = none) := by
  unfold kindsOf at h
  split at h
  · rename_i kind type
    cases h
    refine Or.inl ⟨[kind], rfl, fun other ho => ⟨fun value e => ?_, fun e => ?_⟩⟩
    · rw [type] at e
      cases e
      exact (List.mem_singleton.1 ho).symm
    · rw [type] at e
      cases e
  · rename_i listed type
    obtain ⟨names, hn, h⟩ := Except.bind_eq_ok.1 h
    cases h
    refine Or.inl ⟨names, rfl, fun kind hk => ⟨fun value e => ?_, fun e => ?_⟩⟩
    · rw [type] at e
      cases e
      obtain ⟨value, hv, read⟩ := (Except.mapM_eq_ok hn).2 kind hk
      cases value with
      | text name => cases read; exact hv
      | _ => cases read
    · rw [type] at e
      cases e
  · cases h
  · rename_i type
    split at h
    · rename_i values literal
      cases h
      exact Or.inr (Or.inl ⟨values, rfl, type, literal⟩)
    · rename_i kind literal _
      cases h
      exact Or.inl ⟨[kind], rfl, fun other _ => ⟨fun value e => absurd (type ▸ e) (by simp),
        fun _ => literal⟩⟩
    · rename_i literal inferred
      cases h
      exact Or.inr (Or.inr ⟨rfl, type, literal, inferred⟩)

/-- A document of no kind has none of the keywords that speak of one. -/
theorem absent_of_inferKind? (h : inferKind? members = none) : ∀ keyword ∈ ["properties", "required",
    "additionalProperties", "items", "minItems", "maxItems", "minimum", "maximum",
    "exclusiveMinimum", "exclusiveMaximum"], members.find? keyword = none := by
  simp only [inferKind?] at h
  split at h
  · cases h
  split at h
  · cases h
  split at h
  · cases h
  simp_all [Keyed.has]

/-- How the typed part of a document accepts a value: it has none, or it is read as a scalar, an
    object or an array that does. -/
inductive TypedAs (definitions : Keyed Json) (resolving : List String) (members : Keyed Json)
    (path : Path) : Json → Prop where
  | untyped {v : Json} : members.find? "type" = none → members.find? "enum" = none →
      inferKind? members = none → TypedAs definitions resolving members path v
  | scalar {v : Json} {s : Scalar} : ReadsScalar members path s → (Schema.scalar s).Takes v →
      TypedAs definitions resolving members path v
  | object {v : Json} {s : Schema} : ReadsAs members "object" →
      readObject definitions resolving members path = .ok s → s.Takes v →
      TypedAs definitions resolving members path v
  | array {v : Json} {s : Schema} : ReadsAs members "array" →
      readArray definitions resolving members path = .ok s → s.Takes v →
      TypedAs definitions resolving members path v

/-- **The typed part accepts a value in one of these ways.** -/
theorem typedAs_of_readTyped {typed : Option Schema} {v : Json}
    (h : readTyped definitions resolving members path = .ok typed)
    (takes : ∀ t ∈ typed, t.Takes v) : TypedAs definitions resolving members path v := by
  rw [readTyped] at h
  obtain ⟨kinds, hk, h⟩ := Except.bind_eq_ok.1 h
  rcases kindsOf_cases hk with ⟨names, rfl, as⟩ | ⟨values, rfl, type, literal⟩ |
    ⟨rfl, type, literal, inferred⟩
  · obtain ⟨branches, hb, h⟩ := Except.bind_eq_ok.1 h
    have listed {b : Schema} (hb : b ∈ branches.filterMap id) : some b ∈ branches := by
      obtain ⟨o, ho, e⟩ := List.mem_filterMap.1 hb
      exact e ▸ ho
    have taken : ∃ b ∈ branches.filterMap id, b.Takes v := by
      split at h
      · cases h
      · rename_i only e
        cases h
        exact ⟨only, e ▸ List.mem_singleton_self only, takes _ rfl⟩
      · cases h
        exact (takes _ rfl).anyOf
    obtain ⟨b, hm, taken⟩ := taken
    obtain ⟨kind, hkind, read⟩ := (Except.mapM_eq_ok hb).2 _ (listed hm)
    have as := as kind hkind
    split at read
    · rename_i object
      subst object
      obtain ⟨s, hs, e⟩ := Except.bind_eq_ok.1 read
      cases e
      exact .object as hs taken
    · split at read
      · rename_i array
        subst array
        obtain ⟨s, hs, e⟩ := Except.bind_eq_ok.1 read
        cases e
        exact .array as hs taken
      · obtain ⟨s, rfl, reads⟩ := readsScalar_of_readScalarKind as.type read
        exact .scalar reads taken
  · obtain ⟨s, hs, h⟩ := Except.bind_eq_ok.1 h
    cases h
    obtain ⟨x, reads, taken⟩ := readsScalar_of_readEnumeration type literal hs (takes s rfl)
    exact .scalar reads taken
  · exact .untyped type literal inferred

/-! ## 5. Documents -/

theorem readItems_eq_mapM (items : List Json) : readItems definitions resolving items path =
    items.mapM fun item => readAt definitions resolving item path := by
  induction items with
  | nil =>
      rw [readItems]
      rfl
  | cons item rest ih =>
      rw [readItems, List.mapM_cons, ih]

/-- The documents under a combinator are read to its branches. -/
theorem readCombinator_keeps {keyword : String} {items : List Json} {o : Option (List Schema)}
    (h : readCombinator definitions resolving members keyword path = .ok o)
    (hk : members.find? keyword = some (.array items)) :
    ∃ branches, o = some branches ∧
      items.mapM (fun item => readAt definitions resolving item path) = .ok branches := by
  rw [readCombinator] at h
  split at h
  · rename_i found
    rw [hk] at found
    cases found
  · rename_i found
    rw [hk] at found
    cases found
    obtain ⟨branches, hb, h⟩ := Except.bind_eq_ok.1 h
    cases h
    exact ⟨branches, rfl, readItems_eq_mapM items ▸ hb⟩
  · cases h

/-- **Parts that are all meant all accept what their conjunction does.** -/
theorem takes_of_mem_conjunction {parts : List Schema} {v : Json} (h : (conjunction parts).Takes v)
    {s : Schema} (hs : s ∈ parts) : s.Takes v := by
  unfold conjunction at h
  split at h
  · cases hs
  · obtain rfl := List.mem_singleton.1 hs
    exact h
  · exact h.allOf hs

/-- The schema of a document that is no reference is a conjunction of its parts. -/
theorem readAt_cases {s : Schema} (reference : members.find? "$ref" = none)
    (h : readAt definitions resolving (.object members) path = .ok s) :
    ∃ (typed : Option Schema) (anyOf allOf oneOf : Option (List Schema)),
      readTyped definitions resolving members path = .ok typed ∧
      readCombinator definitions resolving members "anyOf" path = .ok anyOf ∧
      readCombinator definitions resolving members "allOf" path = .ok allOf ∧
      s = conjunction (typed.toList ++ (anyOf.map Schema.anyOf).toList
        ++ (allOf.map Schema.allOf).toList ++ (oneOf.map Schema.oneOf).toList) := by
  rw [readAt, reference] at h
  dsimp only at h
  split at h
  · cases h
  · obtain ⟨typed, ht, h⟩ := Except.bind_eq_ok.1 h
    obtain ⟨anyOf, hany, h⟩ := Except.bind_eq_ok.1 h
    obtain ⟨allOf, hall, h⟩ := Except.bind_eq_ok.1 h
    obtain ⟨oneOf, _, h⟩ := Except.bind_eq_ok.1 h
    cases h
    exact ⟨typed, anyOf, allOf, oneOf, ht, hany, hall, rfl⟩

/-- **What the schema of a document accepts, its parts do**: the typed part, some branch under `anyOf`
    and all branches under `allOf`. -/
theorem takes_of_readAt {s : Schema} {v : Json} (reference : members.find? "$ref" = none)
    (h : readAt definitions resolving (.object members) path = .ok s) (takes : s.Takes v) :
    TypedAs definitions resolving members path v ∧
    (∀ documents, members.find? "anyOf" = some (.array documents) → ∃ document ∈ documents, ∃ b,
      readAt definitions resolving document path = .ok b ∧ b.Takes v) ∧
    ∀ documents, members.find? "allOf" = some (.array documents) → ∀ document ∈ documents, ∃ b,
      readAt definitions resolving document path = .ok b ∧ b.Takes v := by
  obtain ⟨typed, anyOf, allOf, oneOf, ht, hany, hall, rfl⟩ := readAt_cases reference h
  refine ⟨typedAs_of_readTyped ht fun t e => takes_of_mem_conjunction takes (by simp_all), ?_, ?_⟩
  · intro documents found
    obtain ⟨branches, rfl, hb⟩ := readCombinator_keeps hany found
    have union : (Schema.anyOf branches).Takes v := takes_of_mem_conjunction takes (by simp)
    obtain ⟨b, hm, taken⟩ := union.anyOf
    obtain ⟨document, hd, read⟩ := (Except.mapM_eq_ok hb).2 b hm
    exact ⟨document, hd, b, read, taken⟩
  · intro documents found document hd
    obtain ⟨branches, rfl, hb⟩ := readCombinator_keeps hall found
    have meet : (Schema.allOf branches).Takes v := takes_of_mem_conjunction takes (by simp)
    obtain ⟨b, hm, read⟩ := (Except.mapM_eq_ok hb).1 document hd
    exact ⟨b, read, meet.allOf hm⟩

end Schema

end TypedPipeline
