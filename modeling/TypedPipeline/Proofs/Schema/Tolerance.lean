import TypedPipeline.Proofs.Schema.Relaxation

/-!
# Proofs.Schema.Tolerance: what merging keeps of the invariants, and what it may break

A merge takes over what each of two schemas says and does not check the result. This file fixes:

* that what a merge of scalars lists and bounds comes from the two (`Scalar.parts_of_meet?`,
  `Scalar.members_of_meet?`), and which names and defaults a merge of objects has (`Merges.has_merged`,
  `ObjectRules.mem_meetDefaults`);
* the part of the invariants that every merge keeps (`LastingPart`, `KeptByMerging.lastingPart`) and
  with it the domain (`lasting_domainPart`);
* when one scalar, object or array breaks nothing that another one says (`Tolerates`): no end of its
  range lies beyond the other end, it starts above zero if the other is log-scaled, it declares or
  leaves open what the other names, and it accepts the defaults of the other;
* **that the merge of two that tolerate each other is sound** (`Scalar.Sound.meet`,
  `ObjectRules.Sound.meet`), and that what tolerates both tolerates their merge
  (`KeptByMerging.tolerance`).
-/

namespace TypedPipeline

/-! ## 1. What a merge is made of -/

/-- What is chosen from two options is one of them, if the choice is one of the two. -/
theorem mem_or_mem_of_mergeOption {α : Type} {choose : α → α → α} {o o' : Option α} {c : α}
    (one : ∀ a b, choose a b = a ∨ choose a b = b) (h : c ∈ mergeOption choose o o') :
    c ∈ o ∨ c ∈ o' := by
  cases o with
  | none => exact .inr (by cases o' <;> exact h)
  | some a =>
      cases o' with
      | none => exact .inl h
      | some b =>
          obtain rfl : choose a b = c := Option.some.inj h
          exact (one a b).imp (fun e => by rw [e]; rfl) fun e => by rw [e]; rfl

theorem Binary64.max_eq_or_eq (x y : Binary64) : x.max y = x ∨ x.max y = y := by
  unfold max
  repeat' split
  all_goals simp

theorem Binary64.min_eq_or_eq (x y : Binary64) : x.min y = x ∨ x.min y = y := by
  unfold min
  repeat' split
  all_goals simp

namespace ScalarKind

variable {a b kind : ScalarKind}

/-- Two kinds are merged if they are the same, or if one is that of whole numbers and one that of
    numbers. -/
theorem meet?_cases (h : a.meet? b = some kind) :
    (a = kind ∧ b = kind) ∨
      kind = .integer ∧ ((a = .integer ∧ b = .number) ∨ (a = .number ∧ b = .integer)) := by
  cases a <;> cases b <;> simp [meet?] at h <;> simp [← h]

/-- What agrees with a whole number is a whole number. -/
theorem admits_integer_of_agrees {v w : Json} (pv : v.Proper) (pw : w.Proper)
    (agrees : v.agrees w = true) (h : integer.admits w = true) : integer.admits v = true := by
  rcases Json.agrees_cases (Scalar.isScalar_of_admits h) agrees with rfl | ⟨x, y, rfl, rfl, same⟩
  · exact h
  · have whole (n : Number) : integer.admits (.number n) = true ↔ n.isIntegral = true := by
      cases e : n.isIntegral <;> simp [admits, ofValue?, e]
    rw [whole, Number.isIntegral_iff pw, ← (Number.agrees_iff pv pw).1 same] at h
    rw [whole, Number.isIntegral_iff pv]
    exact h

end ScalarKind

namespace Length

variable {a b : Length} {n : Nat}

theorem least_of_meet (h : n ∈ (a.meet b).least) : n ∈ a.least ∨ n ∈ b.least :=
  mem_or_mem_of_mergeOption (fun x y => (Nat.le_total y x).imp Nat.max_eq_left Nat.max_eq_right) h

theorem most_of_meet (h : n ∈ (a.meet b).most) : n ∈ a.most ∨ n ∈ b.most :=
  mem_or_mem_of_mergeOption (fun x y => (Nat.le_total x y).imp Nat.min_eq_left Nat.min_eq_right) h

end Length

namespace Scalar

variable {s t m : Scalar}

/-- Where two scalars are merged, and into what. -/
theorem meet?_eq_some (h : s.meet? t = some m) :
    s.kind.meet? t.kind = some m.kind ∧ m.enumeration ≠ some [] ∧
      m = { kind := m.kind
            minimum := mergeOption Bound.tighterLower s.minimum t.minimum
            maximum := mergeOption Bound.tighterUpper s.maximum t.maximum
            enumeration := mergeOption sharedMembers s.enumeration t.enumeration
            distribution :=
              if s.distribution = .logUniform ∨ t.distribution = .logUniform then .logUniform
              else .uniform
            minimumForOptimizer :=
              mergeOption Binary64.max s.minimumForOptimizer t.minimumForOptimizer
            maximumForOptimizer :=
              mergeOption Binary64.min s.maximumForOptimizer t.maximumForOptimizer } := by
  obtain ⟨kind, hk, h⟩ := Option.bind_eq_some_iff.1 h
  dsimp only at h
  generalize hd : (if s.distribution = .logUniform ∨ t.distribution = .logUniform
    then Distribution.logUniform else .uniform) = d at h ⊢
  split at h
  · cases h
  · cases h
    exact ⟨hk, ‹_›, rfl⟩

/-- Every end of a range and every hint of a merge is that of one of the two, and so is a scale. -/
theorem parts_of_meet? (h : s.meet? t = some m) :
    (∀ b ∈ m.minimum, ∃ x ∈ [s, t], b ∈ x.minimum) ∧
      (∀ b ∈ m.maximum, ∃ x ∈ [s, t], b ∈ x.maximum) ∧
      (∀ c ∈ m.minimumForOptimizer, ∃ x ∈ [s, t], c ∈ x.minimumForOptimizer) ∧
      (∀ c ∈ m.maximumForOptimizer, ∃ x ∈ [s, t], c ∈ x.maximumForOptimizer) ∧
      (m.distribution = .logUniform → ∃ x ∈ [s, t], x.distribution = .logUniform) := by
  rw [(meet?_eq_some h).2.2]
  simp only [List.mem_cons, List.not_mem_nil, or_false, exists_eq_or_imp, exists_eq_left]
  refine ⟨fun _ => mem_or_mem_of_mergeOption Bound.tighterLower_cases,
    fun _ => mem_or_mem_of_mergeOption Bound.tighterUpper_cases,
    fun _ => mem_or_mem_of_mergeOption Binary64.max_eq_or_eq,
    fun _ => mem_or_mem_of_mergeOption Binary64.min_eq_or_eq, fun log => ?_⟩
  split at log
  · assumption
  · cases log

theorem isNumeric_of_meet? (h : s.meet? t = some m) :
    ∀ x ∈ [s, t], m.kind.isNumeric = x.kind.isNumeric := by
  simp only [List.mem_cons, List.not_mem_nil, or_false, forall_eq_or_imp, forall_eq]
  rcases ScalarKind.meet?_cases (meet?_eq_some h).1 with ⟨e, e'⟩ | ⟨k, ⟨e, e'⟩ | ⟨e, e'⟩⟩
  all_goals simp_all [ScalarKind.isNumeric]

/-- A member of a merged enumeration is one of the first scalar's that agrees with one of the second's,
    or one of the second's where the first lists none. -/
theorem members_of_meet? (h : s.meet? t = some m) {members : List Json}
    (hm : members ∈ m.enumeration) {k : Json} (hk : k ∈ members) :
    (∃ ks ∈ s.enumeration, k ∈ ks ∧ ∀ ns ∈ t.enumeration, ∃ w ∈ ns, k.agrees w = true) ∨
      s.enumeration = none ∧ ∃ ns ∈ t.enumeration, k ∈ ns := by
  rw [(of_meet?_eq_some h).2.2.2] at hm
  cases hs : s.enumeration with
  | none =>
      rw [hs] at hm
      refine .inr ⟨rfl, members, ?_, hk⟩
      cases ht : t.enumeration with
      | none => rw [ht] at hm; cases hm
      | some ns => rw [ht] at hm; exact hm
  | some ks =>
      rw [hs] at hm
      cases ht : t.enumeration with
      | none =>
          rw [ht] at hm
          cases hm
          exact .inl ⟨members, rfl, hk, by simp⟩
      | some ns =>
          rw [ht] at hm
          cases hm
          obtain ⟨hk, agrees⟩ := List.mem_filter.1 hk
          refine .inl ⟨ks, rfl, hk, fun ns' e => ?_⟩
          cases e
          exact List.any_eq_true.1 agrees

theorem optimizerMalformation?_eq_none_iff :
    s.optimizerMalformation? = none ↔
      ∀ a ∈ s.minimumForOptimizer, ∀ b ∈ s.maximumForOptimizer, b.less a = false := by
  unfold optimizerMalformation?
  cases s.minimumForOptimizer with
  | none => simp
  | some a => cases s.maximumForOptimizer <;> simp

end Scalar

namespace Schema

variable {rules others : ObjectRules} {name : String} {as bs merged : Keyed Schema}

/-- A name that is declared in one of two objects stays in their merge if the other declares it or is
    open. -/
theorem Merges.has_merged (h : Merges rules others as bs merged)
    (one : as.has name = true ∨ bs.has name = true)
    (here : rules.isOpen = true ∨ as.has name = true)
    (there : others.isOpen = true ∨ bs.has name = true) : merged.has name = true := by
  have at' := h.at' name
  unfold Keyed.has at *
  cases ha : as.find? name <;> cases hb : bs.find? name <;> cases hm : merged.find? name <;>
    simp_all [MergedAt]

/-- A default of a merge is one of the two. The first one's is there only if the second declares it or
    leaves it open, the second one's only if both are open or the merge declares it. -/
theorem mem_meetDefaults {d : String × Json} (h : d ∈ rules.meetDefaults others as bs merged) :
    (d ∈ rules.defaults ∧ (as.has d.1 = true → others.isOpen = true ∨ bs.has d.1 = true)) ∨
      (d ∈ others.defaults ∧
        ((rules.isOpen = true ∧ others.isOpen = true) ∨ merged.has d.1 = true)) := by
  rcases Keyed.mem_of_mem_foldl_putNew
    (fun name => (rules.isOpen && others.isOpen) || merged.has name) h with h | ⟨h, wanted⟩
  · split at h
    · exact .inl ⟨h, fun _ => .inl ‹_›⟩
    · obtain ⟨h, keep⟩ := List.mem_filter.1 h
      exact .inl ⟨h, fun ha => .inr (by simpa [ha] using keep)⟩
  · exact .inr ⟨h, by simpa using wanted⟩

/-- A default that was declared where it comes from is declared in the merge. -/
theorem Merges.has_of_mem_meetDefaults (h : Merges rules others as bs merged)
    (da : ∀ d ∈ rules.defaults, as.has d.1 = true) (db : ∀ d ∈ others.defaults, bs.has d.1 = true)
    {d : String × Json} (hd : d ∈ rules.meetDefaults others as bs merged) :
    merged.has d.1 = true := by
  rcases mem_meetDefaults hd with ⟨hd, there⟩ | ⟨hd, ⟨here, there⟩ | has⟩
  · exact h.has_merged (.inl (da d hd)) (.inr (da d hd)) (there (da d hd))
  · exact h.has_merged (.inr (db d hd)) (.inl here) (.inl there)
  · exact has

end Schema

/-! ## 2. What every merge keeps -/

/-- The invariants of one scalar that merging keeps. -/
structure Scalar.Lasting (s : Scalar) : Prop where
  low : ∀ b ∈ s.minimum, s.kind.isNumeric = true ∧ b.value.isFinite = true
  high : ∀ b ∈ s.maximum, s.kind.isNumeric = true ∧ b.value.isFinite = true
  log : s.distribution = .logUniform → s.kind.isNumeric = true
  listed : s.enumeration ≠ some []

namespace Scalar

variable {s t m : Scalar}

theorem Sound.lasting (h : s.Sound) : s.Lasting where
  low := h.low
  high := h.high
  log log := by
    have ok := h.log
    cases numeric : s.kind.isNumeric with
    | true => rfl
    | false => simp [logMalformation?, log, numeric] at ok
  listed e := (h.member [] e).1 rfl

theorem Lasting.meet (h : s.meet? t = some m) (each : ∀ x ∈ [s, t], x.Lasting) : m.Lasting := by
  obtain ⟨low, high, _, _, log⟩ := parts_of_meet? h
  refine ⟨fun b hb => ?_, fun b hb => ?_, fun hl => ?_, (meet?_eq_some h).2.1⟩
  · obtain ⟨x, hx, hb⟩ := low b hb
    exact isNumeric_of_meet? h x hx ▸ (each x hx).low b hb
  · obtain ⟨x, hx, hb⟩ := high b hb
    exact isNumeric_of_meet? h x hx ▸ (each x hx).high b hb
  · obtain ⟨x, hx, hl⟩ := log hl
    exact isNumeric_of_meet? h x hx ▸ (each x hx).log hl

end Scalar

theorem ObjectRules.Sound.has_default {properties : Keyed Schema} {rules : ObjectRules}
    (h : rules.Sound properties) : ∀ d ∈ rules.defaults, properties.has d.1 = true := by
  intro d hd
  obtain ⟨s, found, _⟩ := h.default d hd
  rw [Keyed.has, found]
  rfl

namespace Schema

variable {branches : List Schema} {s m : Schema}

/-- The invariants of one schema, those inside it apart, that merging keeps. -/
def LastingPart : Schema → Prop
  | .any => True
  | .scalar s => s.Lasting
  | .object properties rules =>
    (∀ name ∈ rules.required, Keyed.has properties name = true) ∧
      ∀ d ∈ rules.defaults, Keyed.has properties d.1 = true
  | .array _ _ => True
  | .anyOf branches => branches ≠ []
  | .allOf branches => branches ≠ []
  | .oneOf branches => branches ≠ []

theorem SoundPart.lasting {s : Schema} (h : SoundPart s) : LastingPart s := by
  cases s with
  | any => trivial
  | scalar s => exact Scalar.Sound.lasting h
  | object properties rules => exact ⟨h.required, ObjectRules.Sound.has_default h⟩
  | array items length => trivial
  | anyOf branches | allOf branches | oneOf branches => exact h

theorem KeptByMerging.lastingPart : KeptByMerging fun s => RegularPart s ∧ LastingPart s where
  scalar h hs ht :=
    ⟨regularPart.scalar h hs.1 ht.1, Scalar.Lasting.meet h (by simpa using ⟨hs.2, ht.2⟩)⟩
  object h ha hb :=
    have regular := regularPart.object h ha.1 hb.1
    ⟨regular, regular.2, fun _ => h.has_of_mem_meetDefaults ha.2.2 hb.2.2⟩
  array _ _ := ⟨trivial, trivial⟩

/-- **What every merge keeps, the domain keeps.** -/
theorem lasting_domainPart (regular : s.Regular) (h : Every LastingPart s) :
    Every LastingPart s.domainPart := by
  refine every_domainPart trivial (fun properties rules hp => ?_) (fun _ _ _ => trivial)
    (fun branches hb => ?_) (fun branches hb => ?_) (fun branches m hb e => ?_) regular h
  · simp only [LastingPart, Keyed.has_iff, names_domainProperties] at hp ⊢
    exact hp
  · simpa [LastingPart, domainBranches_eq_map] using hb
  · simpa [LastingPart, domainBranches_eq_map] using hb
  · exact (Every.and_iff.1 ((KeptByMerging.lastingPart.steps fun _ => And.left).of_intersectAll e
      fun b h => Every.and_iff.2 (hb b h))).2

end Schema

/-! ## 3. Tolerance -/

/-- There is nothing up to zero in the range, neither between its ends nor in the hints. -/
structure Scalar.StartsAboveZero (s : Scalar) : Prop where
  low : ∀ b ∈ s.minimum, Binary64.zero.less b.value = true ∨
    (b.value.equals .zero = true ∧ b.exclusive = true)
  hint : ∀ x ∈ s.minimumForOptimizer, Binary64.zero.less x = true

/-- Nothing that a scalar says is broken by another one. -/
structure Scalar.Tolerates (s t : Scalar) : Prop where
  range : ∀ a ∈ s.minimum, ∀ b ∈ t.maximum, emptyRange a b = false
  optimizer : ∀ a ∈ s.minimumForOptimizer, ∀ b ∈ t.maximumForOptimizer, b.less a = false
  log : s.distribution = .logUniform → t.StartsAboveZero
  member : s.kind = .integer → s.enumeration = none →
    ∀ members ∈ t.enumeration, ∀ k ∈ members, ScalarKind.integer.admits k = true

/-- The value is accepted, and is so still when intersections that do not merge are cut down. -/
def Schema.Keeps (s : Schema) (v : Json) : Prop := s.accepts v = true ∧ s.OneOfUnconstrained

/-- Nothing that an object says is broken by another one: what it names for the optimizer may be there,
    and its defaults are kept. -/
structure ObjectRules.Tolerates (as : Keyed Schema) (rules : ObjectRules) (bs : Keyed Schema)
    (others : ObjectRules) : Prop where
  relevant : ∀ names ∈ rules.relevant, ∀ name ∈ names, others.isOpen = true ∨ bs.has name = true
  default : ∀ d ∈ rules.defaults, ∀ s, bs.find? d.1 = some s → s.Keeps d.2

namespace Scalar

variable {s t u m : Scalar}

theorem StartsAboveZero.logMalformation? (h : s.StartsAboveZero) (numeric : s.kind.isNumeric = true) :
    s.logMalformation? = none := by
  have above {x : Binary64} (hx : Binary64.zero.less x = true) :
      x.less .zero = false ∧ x.equals .zero = false := by
    rw [Binary64.less_iff] at hx
    rw [Bool.eq_false_iff, Bool.eq_false_iff, ne_eq, ne_eq, Binary64.less_iff, Binary64.equals_iff]
    omega
  unfold Scalar.logMalformation?
  cases hint : s.minimumForOptimizer with
  | some x => simp [numeric, above (h.hint x hint)]
  | none =>
      cases low : s.minimum with
      | none => simp [numeric]
      | some b =>
          rcases h.low b low with lt | ⟨eq, exclusive⟩
          · simp [numeric, above lt]
          · have notLess : b.value.less .zero = false := by
              rw [Binary64.equals_iff] at eq
              rw [Bool.eq_false_iff, ne_eq, Binary64.less_iff]
              omega
            simp [numeric, exclusive, notLess]

theorem StartsAboveZero.meet (h : s.meet? t = some m) (each : ∀ x ∈ [s, t], x.StartsAboveZero) :
    m.StartsAboveZero := by
  obtain ⟨low, _, lowHint, _, _⟩ := parts_of_meet? h
  refine ⟨fun b hb => ?_, fun c hc => ?_⟩
  · obtain ⟨x, hx, hb⟩ := low b hb
    exact (each x hx).low b hb
  · obtain ⟨x, hx, hc⟩ := lowHint c hc
    exact (each x hx).hint c hc

/-- The members that are left are of the merged kind: where one kind is that of whole numbers, a number
    is left only if it agrees with a whole one or if it is tolerated as one. -/
theorem admits_of_meet? (h : s.meet? t = some m) (sound : ∀ x ∈ [s, t], x.Sound)
    (regular : ∀ x ∈ [s, t], x.Regular) (tol : ∀ x ∈ [s, t], ∀ y ∈ [s, t], x.Tolerates y)
    {members : List Json} (hm : members ∈ m.enumeration) {k : Json} (hk : k ∈ members) :
    m.kind.admits k = true := by
  have hs : s ∈ [s, t] := by simp
  have ht : t ∈ [s, t] := by simp
  rcases ScalarKind.meet?_cases (meet?_eq_some h).1 with ⟨ks, kt⟩ | ⟨km, ⟨ks, kt⟩ | ⟨ks, kt⟩⟩
  · rcases members_of_meet? h hm hk with ⟨ms, e, hk, _⟩ | ⟨_, ms, e, hk⟩
    · exact ks ▸ ((sound s hs).member ms e).2 k hk
    · exact kt ▸ ((sound t ht).member ms e).2 k hk
  · rcases members_of_meet? h hm hk with ⟨ms, e, hk, _⟩ | ⟨none, ms, e, hk⟩
    · exact km.trans ks.symm ▸ ((sound s hs).member ms e).2 k hk
    · exact km ▸ (tol s hs t ht).member ks none ms e k hk
  · rcases members_of_meet? h hm hk with ⟨ms, e, hk, agrees⟩ | ⟨_, ms, e, hk⟩
    · rw [km]
      cases et : t.enumeration with
      | none => exact (tol t ht s hs).member kt et ms e k hk
      | some ns =>
          obtain ⟨w, hw, agrees⟩ := agrees ns et
          exact ScalarKind.admits_integer_of_agrees ((regular s hs).proper ms e k hk)
            ((regular t ht).proper ns et w hw) agrees (kt ▸ ((sound t ht).member ns et).2 w hw)
    · exact km.trans kt.symm ▸ ((sound t ht).member ms e).2 k hk

/-- **The merge of two scalars that tolerate each other is sound.** -/
theorem Sound.meet (h : s.meet? t = some m) (sound : ∀ x ∈ [s, t], x.Sound)
    (regular : ∀ x ∈ [s, t], x.Regular) (tol : ∀ x ∈ [s, t], ∀ y ∈ [s, t], x.Tolerates y) :
    m.Sound := by
  obtain ⟨low, high, lowHint, highHint, log⟩ := parts_of_meet? h
  have lasting := Lasting.meet h fun x hx => (sound x hx).lasting
  refine ⟨lasting.low, lasting.high, fun a ha b hb => ?_,
    optimizerMalformation?_eq_none_iff.2 fun a ha b hb => ?_, ?_, fun members hm =>
      ⟨fun e => lasting.listed (by rw [← e]; exact hm), fun k hk => ?_⟩⟩
  · obtain ⟨x, hx, ha⟩ := low a ha
    obtain ⟨y, hy, hb⟩ := high b hb
    exact (tol x hx y hy).range a ha b hb
  · obtain ⟨x, hx, ha⟩ := lowHint a ha
    obtain ⟨y, hy, hb⟩ := highHint b hb
    exact (tol x hx y hy).optimizer a ha b hb
  · cases hd : m.distribution with
    | uniform => rw [Scalar.logMalformation?, if_pos hd]
    | logUniform =>
        obtain ⟨x, hx, hl⟩ := log hd
        exact (StartsAboveZero.meet h fun y hy => (tol x hx y hy).log hl).logMalformation?
          (lasting.log hd)
  · exact admits_of_meet? h sound regular tol hm hk

theorem Tolerates.meet_left (h : s.meet? t = some m) (tol : ∀ x ∈ [s, t], x.Tolerates u) :
    m.Tolerates u := by
  obtain ⟨low, _, lowHint, _, log⟩ := parts_of_meet? h
  refine ⟨fun a ha => ?_, fun a ha => ?_, fun hl => ?_, fun whole unlisted => ?_⟩
  · obtain ⟨x, hx, ha⟩ := low a ha
    exact (tol x hx).range a ha
  · obtain ⟨x, hx, ha⟩ := lowHint a ha
    exact (tol x hx).optimizer a ha
  · obtain ⟨x, hx, hl⟩ := log hl
    exact (tol x hx).log hl
  · rw [(of_meet?_eq_some h).2.2.2, mergeOption_eq_none_iff] at unlisted
    have one : s.kind = .integer ∨ t.kind = .integer := by
      rcases ScalarKind.meet?_cases (meet?_eq_some h).1 with ⟨e, _⟩ | ⟨_, ⟨e, _⟩ | ⟨_, e⟩⟩
      · exact .inl (e.trans whole)
      · exact .inl e
      · exact .inr e
    rcases one with e | e
    · exact (tol s (by simp)).member e unlisted.1
    · exact (tol t (by simp)).member e unlisted.2

theorem Tolerates.meet_right (h : s.meet? t = some m) (tol : ∀ x ∈ [s, t], u.Tolerates x) :
    u.Tolerates m := by
  obtain ⟨_, high, _, highHint, _⟩ := parts_of_meet? h
  refine ⟨fun a ha b hb => ?_, fun a ha b hb => ?_, fun hl => ?_,
    fun whole unlisted members hm k hk => ?_⟩
  · obtain ⟨x, hx, hb⟩ := high b hb
    exact (tol x hx).range a ha b hb
  · obtain ⟨x, hx, hb⟩ := highHint b hb
    exact (tol x hx).optimizer a ha b hb
  · exact StartsAboveZero.meet h fun x hx => (tol x hx).log hl
  · rcases members_of_meet? h hm hk with ⟨ms, e, hk, _⟩ | ⟨_, ms, e, hk⟩
    · exact (tol s (by simp)).member whole unlisted ms e k hk
    · exact (tol t (by simp)).member whole unlisted ms e k hk

end Scalar

/-! ## 4. Objects -/

namespace Schema

variable {rules others : ObjectRules} {name : String} {as bs merged : Keyed Schema}

theorem mem_relevant_meet {names : Names} (h : names ∈ (rules.meet others as bs merged).relevant)
    (hn : name ∈ names) :
    (∃ names ∈ rules.relevant, name ∈ names) ∨ ∃ names ∈ others.relevant, name ∈ names := by
  change names ∈ mergeOption Names.union rules.relevant others.relevant at h
  cases hr : rules.relevant with
  | none =>
      rw [hr] at h
      cases ho : others.relevant with
      | none => rw [ho] at h; cases h
      | some ns => rw [ho] at h; cases h; exact .inr ⟨_, rfl, hn⟩
  | some ms =>
      rw [hr] at h
      cases ho : others.relevant with
      | none => rw [ho] at h; cases h; exact .inl ⟨_, rfl, hn⟩
      | some ns =>
          rw [ho] at h
          cases h
          exact (mem_union.1 hn).imp (fun hn => ⟨_, rfl, hn⟩) fun hn => ⟨_, rfl, hn⟩

/-- What two schemas keep, their merge keeps. -/
theorem Keeps.meet {a b m : Schema} {v : Json} (ra : a.Regular) (rb : b.Regular)
    (e : intersect a b = some m) (pv : v.Proper) (ha : a.Keeps v) (hb : b.Keeps v) : m.Keeps v := by
  refine ⟨(isMeet_of_intersect ra rb e v pv).2 ⟨ha.1, hb.1⟩, ?_⟩
  exact KeptByMerging.of_intersect
    ⟨fun _ _ _ => trivial, fun _ _ _ => trivial, fun _ _ => trivial⟩ ra rb ha.2 hb.2 e

theorem Merges.keeps (h : Merges rules others as bs merged) (ra : (object as rules).Regular)
    (rb : (object bs others).Regular) {v : Json} (pv : v.Proper)
    (ha : ∀ s, as.find? name = some s → s.Keeps v) (hb : ∀ s, bs.find? name = some s → s.Keeps v) :
    ∀ s, merged.find? name = some s → s.Keeps v := by
  intro s hs
  have at' := h.at' name
  rw [hs] at at'
  rcases at'.cases with ⟨x, y, hx, hy, e⟩ | ⟨hx, _⟩ | ⟨_, hy⟩
  · exact (ha x hx).meet (ra.property (Keyed.mem_of_find? hx)) (rb.property (Keyed.mem_of_find? hy)) e
      pv (hb y hy)
  · exact ha s hx
  · exact hb s hy

end Schema

namespace ObjectRules

open Schema

variable {rules others outer : ObjectRules} {as bs cs merged : Keyed Schema}

theorem Tolerates.meet_left (h : Tolerates as rules cs outer) (h' : Tolerates bs others cs outer) :
    Tolerates merged (rules.meet others as bs merged) cs outer := by
  refine ⟨fun names hn name hm => ?_, fun d hd => ?_⟩
  · rcases mem_relevant_meet hn hm with ⟨names, hn, hm⟩ | ⟨names, hn, hm⟩
    · exact h.relevant names hn name hm
    · exact h'.relevant names hn name hm
  · rcases mem_meetDefaults hd with ⟨hd, _⟩ | ⟨hd, _⟩
    · exact h.default d hd
    · exact h'.default d hd

theorem Tolerates.meet_right (merges : Merges rules others as bs merged)
    (ra : (object as rules).Regular) (rb : (object bs others).Regular)
    (proper : ∀ d ∈ outer.defaults, d.2.Proper) (h : Tolerates cs outer as rules)
    (h' : Tolerates cs outer bs others) :
    Tolerates cs outer merged (rules.meet others as bs merged) := by
  refine ⟨fun names hn name hm => ?_, fun d hd =>
    merges.keeps ra rb (proper d hd) (h.default d hd) (h'.default d hd)⟩
  have here := h.relevant names hn name hm
  have there := h'.relevant names hn name hm
  by_cases hasOne : as.has name = true ∨ bs.has name = true
  · exact .inr (merges.has_merged hasOne here there)
  · rw [not_or] at hasOne
    refine .inl ?_
    show (rules.isOpen && others.isOpen) = true
    rw [here.resolve_right hasOne.1, there.resolve_right hasOne.2]
    rfl

/-- **The merge of two objects that tolerate each other is sound.** What is required is declared in any
    merge; the other names are because neither object is closed to those of the other. -/
theorem Sound.meet (merges : Merges rules others as bs merged)
    (ra : RegularPart (.object as rules)) (rb : RegularPart (.object bs others)) (sa : rules.Sound as)
    (sb : others.Sound bs) (ab : Tolerates as rules bs others) (ba : Tolerates bs others as rules)
    (self : Tolerates merged (rules.meet others as bs merged) merged
      (rules.meet others as bs merged)) :
    (rules.meet others as bs merged).Sound merged := by
  refine ⟨(KeptByMerging.regularPart.object merges ra rb).2, fun names hn name hm => ?_,
    fun d hd => ?_⟩
  · rcases mem_relevant_meet hn hm with ⟨names, hn, hm⟩ | ⟨names, hn, hm⟩
    · have declared := sa.relevant names hn name hm
      exact merges.has_merged (.inl declared) (.inr declared) (ab.relevant names hn name hm)
    · have declared := sb.relevant names hn name hm
      exact merges.has_merged (.inr declared) (ba.relevant names hn name hm) (.inr declared)
  · have declared : merged.has d.1 = true :=
      merges.has_of_mem_meetDefaults sa.has_default sb.has_default hd
    obtain ⟨s, found⟩ := Option.isSome_iff_exists.1 declared
    exact ⟨s, found, (self.default d hd s found).1⟩

end ObjectRules

/-! ## 5. Schemas -/

namespace Schema

/-- Nothing that one schema says is broken by another one, those inside them apart. Two of different
    forms are never merged. -/
def Tolerates : Schema → Schema → Prop
  | .scalar s, .scalar t => s.Tolerates t
  | .object as rules, .object bs others => ObjectRules.Tolerates as rules bs others
  | .array _ length, .array _ length' => ∀ a ∈ length.least, ∀ b ∈ length'.most, a ≤ b
  | _, _ => True

/-- The defaults of one schema are proper values. -/
def ProperDefaults : Schema → Prop
  | .object _ rules => ∀ d ∈ rules.defaults, d.2.Proper
  | _ => True

/-- What merging has to know of objects: they are regular with all that is inside. -/
def RegularObject : Schema → Prop
  | .object properties rules => (object properties rules).Regular
  | _ => True

namespace KeptByMerging

theorem properDefaults : KeptByMerging ProperDefaults where
  scalar _ _ _ := trivial
  object _ pa pb d hd := (mem_meetDefaults hd).elim (fun h => pa d h.1) fun h => pb d h.1
  array _ _ := trivial

theorem regularObject : KeptByMerging RegularObject where
  scalar _ _ _ := trivial
  object merges ra rb := Every.object_iff.2 ⟨regularPart.object merges ra.self rb.self,
    merges.every (fun _ _ hs => ra.property hs) (fun _ _ hs => rb.property hs)
      fun _ _ _ _ hx hy e => regular_of_intersect (ra.property (Keyed.mem_of_find? hx))
        (rb.property (Keyed.mem_of_find? hy)) e⟩
  array _ _ := trivial

/-- **What tolerates two schemas, and is tolerated by them, tolerates their merge and is tolerated by
    it.** -/
theorem tolerance {y : Schema} (proper : ProperDefaults y) :
    KeptByMerging fun x => RegularObject x ∧ x.Tolerates y ∧ y.Tolerates x where
  scalar h hs ht := by
    obtain ⟨_, ta, ua⟩ := hs
    obtain ⟨_, tb, ub⟩ := ht
    refine ⟨trivial, ?_⟩
    cases y with
    | scalar u =>
        exact ⟨Scalar.Tolerates.meet_left h (by simpa using ⟨ta, tb⟩),
          Scalar.Tolerates.meet_right h (by simpa using ⟨ua, ub⟩)⟩
    | _ => exact ⟨trivial, trivial⟩
  object merges ha hb := by
    obtain ⟨ra, ta, ua⟩ := ha
    obtain ⟨rb, tb, ub⟩ := hb
    refine ⟨regularObject.object merges ra rb, ?_⟩
    cases y with
    | object cs outer =>
        exact ⟨ObjectRules.Tolerates.meet_left ta tb,
          ObjectRules.Tolerates.meet_right merges ra rb proper ua ub⟩
    | _ => exact ⟨trivial, trivial⟩
  array ha hb := by
    obtain ⟨_, ta, ua⟩ := ha
    obtain ⟨_, tb, ub⟩ := hb
    refine ⟨trivial, ?_⟩
    cases y with
    | array z length =>
        exact ⟨fun n hn k hk => (Length.least_of_meet hn).elim (ta n · k hk) (tb n · k hk),
          fun n hn k hk => (Length.most_of_meet hk).elim (ua n hn k) (ub n hn k)⟩
    | _ => exact ⟨trivial, trivial⟩

end KeptByMerging

end Schema

end TypedPipeline
