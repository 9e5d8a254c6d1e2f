import TypedPipeline.Space.Compile
import TypedPipeline.Proofs.Schema.Acceptance

/-!
# Proofs.Space.Compilation: how a compilation that succeeds is built up

The compiler walks through a schema, passes properties over and drops branches without a domain, and
joins what is left. What is proved of its results goes by induction over how they come about. This
file fixes:

* the leaves of a union, which are no unions themselves (`mem_leaves`);
* the derivation of a result (`Compiles`), with one rule for each way of making one;
* that a compilation which succeeds has a derivation (`compiles_of_compileNode`).
-/

namespace TypedPipeline

namespace Schema

/-! ## 1. Leaves -/

/-- A union, of either sort. -/
def isUnion : Schema → Bool
  | .anyOf _ | .oneOf _ => true
  | _ => false

/-- **The leaves of a union are schemas inside it that are no unions.** -/
theorem mem_leaves {leaf : Schema} {branches : List Schema} (h : leaf ∈ leaves branches) :
    leaf.isUnion = false ∧ leaf ∈ partsOfBranches branches ∧ leaf.size ≤ sizeBranches branches := by
  induction branches using leaves.induct with
  | case1 => simp [leaves] at h
  | case2 inner rest ihi ihr =>
      rw [leaves, List.mem_append] at h
      simp only [partsOfBranches, parts, sizeBranches, size, List.mem_append, List.mem_cons]
      rcases h with h | h
      · obtain ⟨un, hp, hs⟩ := ihi h
        exact ⟨un, Or.inl (Or.inr hp), by omega⟩
      · obtain ⟨un, hp, hs⟩ := ihr h
        exact ⟨un, Or.inr hp, by omega⟩
  | case3 inner rest ihi ihr =>
      rw [leaves, List.mem_append] at h
      simp only [partsOfBranches, parts, sizeBranches, size, List.mem_append, List.mem_cons]
      rcases h with h | h
      · obtain ⟨un, hp, hs⟩ := ihi h
        exact ⟨un, Or.inl (Or.inr hp), by omega⟩
      · obtain ⟨un, hp, hs⟩ := ihr h
        exact ⟨un, Or.inr hp, by omega⟩
  | case4 first rest notAny notOne ih =>
      rw [leaves] at h
      · simp only [partsOfBranches, sizeBranches, List.mem_append]
        rcases List.mem_cons.1 h with rfl | h
        · refine ⟨?_, Or.inl (self_mem_parts _), by omega⟩
          cases leaf with
          | anyOf inner => exact absurd rfl (notAny inner)
          | oneOf inner => exact absurd rfl (notOne inner)
          | _ => rfl
        · obtain ⟨un, hp, hs⟩ := ih h
          exact ⟨un, Or.inr hp, by omega⟩
      · exact notAny
      · exact notOne

end Schema

/-! ## 2. Derivations -/

/-- A property of an object, and what it compiles to if it is tuned. -/
abbrev PropertyEntry := String × Schema × Option Compiled

namespace PropertyEntry

def dimensions (e : PropertyEntry) : List Dimension :=
  match e.2.2 with
  | some c => c.dimensions
  | none => []

/-- The fixed part: that of the compilation, or the default of a property that is not tuned. -/
def skeleton (rules : ObjectRules) (e : PropertyEntry) : Option Json :=
  match e.2.2 with
  | some c => c.skeleton
  | none => rules.defaults.find? e.1

end PropertyEntry

/-- An object of the properties, as they are compiled. -/
def joinProperties (rules : ObjectRules) (entries : List PropertyEntry) : Compiled :=
  ⟨entries.flatMap PropertyEntry.dimensions,
    some (.object (entries.filterMap fun e => (e.skeleton rules).map fun value => (e.1, value)))⟩

/-- A schema compiles to this at a place. -/
inductive Compiles (settings : SpaceSettings) : Schema → Path → Compiled → Prop where
  | scalar {s path c} : compileScalar s path = .ok c → Compiles settings (.scalar s) path c
  | object {properties rules path} (entries : List PropertyEntry) :
      entries.map (fun e => (e.1, e.2.1)) = properties →
      (∀ name s c, (name, s, some c) ∈ entries → Compiles settings s (path.property name) c) →
      (∀ name s, (name, s, none) ∈ entries →
        (rules.defaults.find? name).isSome = true ∨ rules.requires name = false) →
      Compiles settings (.object properties rules) path (joinProperties rules entries)
  | array {items length path} (compiled : List Compiled) :
      fixedLength? length = some compiled.length →
      (∀ i c, compiled[i]? = some c → Compiles settings items (path.index i) c) →
      Compiles settings (.array items length) path (joinItems compiled)
  | choice {u branches choices path c} : u = .anyOf branches ∨ u = .oneOf branches →
      Schema.enumeratedUnion? branches u = some choices → compileChoices choices path = .ok c →
      Compiles settings u path c
  | union {u branches exclusive path c} (kept : List CompiledLeaf) (fault : Option Fault) :
      (u = .anyOf branches ∧ exclusive = false) ∨ (u = .oneOf branches ∧ exclusive = true) →
      (∀ l ∈ kept, Compiles settings l.leaf path l.compiled) →
      (∀ l ∈ kept, (Schema.leaves branches)[l.position]? = some l.leaf) →
      (settings.dropBranches = false → kept.map (·.leaf) = Schema.leaves branches) →
      overlap? (Schema.leaves branches) (kept.map (·.position))
        (Schema.exclusivePairs exclusive branches) = none →
      selectLeaves kept fault path = .ok c → Compiles settings u path c

namespace Compiles

variable {settings : SpaceSettings} {path : Path}

/-! ## 3. The steps of the compiler -/

/-- What the compiler makes of one property, as an entry. -/
theorem exists_entry {rules : ObjectRules} {name : String} {compiled : Compilation}
    {part : PropertyPart}
    (h : (if rules.passesOver name then .ok (rules.untuned name) else rules.partOf name compiled) =
      .ok part) (s : Schema) :
    ∃ c : Option Compiled, (∀ c', c = some c' → compiled = .ok c') ∧
      (c = none → (rules.defaults.find? name).isSome = true ∨ rules.requires name = false) ∧
      PropertyEntry.dimensions (name, s, c) = part.dimensions ∧
      PropertyEntry.skeleton rules (name, s, c) = part.skeleton := by
  split at h
  · rename_i passed
    cases h
    refine ⟨none, by simp, fun _ => ?_, rfl, rfl⟩
    simp only [ObjectRules.passesOver, Bool.and_eq_true, Bool.or_eq_true, Bool.not_eq_true'] at passed
    exact passed.2
  · cases compiled with
    | ok c =>
        cases h
        exact ⟨some c, by simp, by simp, rfl, rfl⟩
    | error e =>
        simp only [ObjectRules.partOf] at h
        split at h
        · rename_i free
          cases h
          exact ⟨none, by simp, fun _ => by simpa using free, rfl, rfl⟩
        · cases h

theorem exists_entries {properties : List (String × Schema)} {rules : ObjectRules}
    {dimensions : List Dimension} {skeleton : List (String × Json)}
    (ih : ∀ name s c, (name, s) ∈ properties →
      compileNode settings s (path.property name) = .ok c → Compiles settings s (path.property name) c)
    (h : compileProperties settings properties rules path = .ok (dimensions, skeleton)) :
    ∃ entries : List PropertyEntry, entries.map (fun e => (e.1, e.2.1)) = properties ∧
      (∀ name s c, (name, s, some c) ∈ entries → Compiles settings s (path.property name) c) ∧
      (∀ name s, (name, s, none) ∈ entries →
        (rules.defaults.find? name).isSome = true ∨ rules.requires name = false) ∧
      joinProperties rules entries = ⟨dimensions, some (.object skeleton)⟩ := by
  induction properties generalizing dimensions skeleton with
  | nil =>
      rw [compileProperties] at h
      cases h
      exact ⟨[], rfl, by simp, by simp, rfl⟩
  | cons p rest ihr =>
      obtain ⟨name, s⟩ := p
      have step : ∃ part : PropertyPart,
          (if rules.passesOver name then .ok (rules.untuned name)
            else rules.partOf name (compileNode settings s (path.property name))) = .ok part ∧
          ∃ ds sk, compileProperties settings rest rules path = .ok (ds, sk) ∧
            dimensions = part.dimensions ++ ds ∧
            skeleton = (part.skeleton.map fun value => (name, value)).toList ++ sk := by
        rw [compileProperties] at h
        split at h
        all_goals
          obtain ⟨part, hp, h⟩ := Except.bind_eq_ok.1 h
          obtain ⟨⟨ds, sk⟩, hr, h⟩ := Except.bind_eq_ok.1 h
          cases h
          exact ⟨part, by simp only [*]; rfl, ds, sk, hr, rfl, rfl⟩
      obtain ⟨part, hp, ds, sk, hr, rfl, rfl⟩ := step
      obtain ⟨c, hc, hn, ed, es⟩ := exists_entry hp s
      obtain ⟨entries, map, each, free, join⟩ := ihr
        (fun name s c hs => ih name s c (List.mem_cons_of_mem _ hs)) hr
      simp only [joinProperties, Compiled.mk.injEq, Option.some.injEq, Json.object.injEq] at join
      refine ⟨(name, s, c) :: entries, by rw [List.map_cons, map], fun name' s' c' hm => ?_,
        fun name' s' hm => ?_, ?_⟩
      · rcases List.mem_cons.1 hm with e | hm
        · cases e
          exact ih _ _ _ (by simp) (hc c' rfl)
        · exact each name' s' c' hm
      · rcases List.mem_cons.1 hm with e | hm
        · cases e
          exact hn rfl
        · exact free name' s' hm
      · simp only [joinProperties, List.flatMap_cons, List.filterMap_cons, ed, es, join.1]
        rw [← join.2]
        cases part.skeleton <;> rfl

theorem exists_items {item : Path → Compilation} {start count : Nat} {compiled : List Compiled}
    (h : compileItems item path start count = .ok compiled) :
    compiled.length = count ∧
      ∀ i c, compiled[i]? = some c → item (path.index (start + i)) = .ok c := by
  induction count generalizing start compiled with
  | zero =>
      rw [compileItems] at h
      cases h
      exact ⟨rfl, by simp⟩
  | succ count ih =>
      rw [compileItems] at h
      obtain ⟨first, hf, h⟩ := Except.bind_eq_ok.1 h
      obtain ⟨rest, hr, h⟩ := Except.bind_eq_ok.1 h
      cases h
      obtain ⟨len, each⟩ := ih hr
      refine ⟨by rw [List.length_cons, len], fun i c hi => ?_⟩
      cases i with
      | zero => cases hi; exact hf
      | succ i => rw [← Nat.add_assoc, Nat.add_right_comm]; exact each i c hi

theorem leafOutcomes_spec {branches : List Schema} {outcomes : List (Schema × Compilation)}
    (h : leafOutcomes settings branches path = .ok outcomes) :
    outcomes.map (·.1) = Schema.leaves branches ∧
      (∀ o ∈ outcomes, o.2 = compileNode settings o.1 path) ∧
      (settings.dropBranches = false → ∀ o ∈ outcomes, ∃ c, o.2 = .ok c) := by
  induction branches using Schema.leaves.induct generalizing outcomes with
  | case1 =>
      rw [leafOutcomes] at h
      cases h
      exact ⟨by rw [Schema.leaves]; rfl, by simp, by simp⟩
  | case2 inner rest ihi ihr | case3 inner rest ihi ihr =>
      rw [leafOutcomes] at h
      obtain ⟨first, hf, h⟩ := Except.bind_eq_ok.1 h
      obtain ⟨later, hl, h⟩ := Except.bind_eq_ok.1 h
      cases h
      obtain ⟨mi, ei, si⟩ := ihi hf
      obtain ⟨mr, er, sr⟩ := ihr hl
      refine ⟨by rw [Schema.leaves, List.map_append, mi, mr], fun o ho => ?_, fun strict o ho => ?_⟩
      · exact (List.mem_append.1 ho).elim (ei o) (er o)
      · exact (List.mem_append.1 ho).elim (si strict o) (sr strict o)
  | case4 leaf rest notAny notOne ih =>
      have h : (settings.dropBranches = false → ∃ c, compileNode settings leaf path = .ok c) ∧
          ∃ later, leafOutcomes settings rest path = .ok later ∧
            outcomes = (leaf, compileNode settings leaf path) :: later := by
        rw [leafOutcomes] at h
        · split at h
          · cases h
          · rename_i kept
            obtain ⟨later, hl, h⟩ := Except.bind_eq_ok.1 h
            cases h
            refine ⟨fun strict => ?_, later, hl, rfl⟩
            cases hc : compileNode settings leaf path with
            | ok c => exact ⟨c, rfl⟩
            | error e => exact absurd strict (kept e hc)
        · exact notAny
        · exact notOne
      obtain ⟨strict, later, hl, rfl⟩ := h
      obtain ⟨map, each, ok⟩ := ih hl
      refine ⟨?_, List.forall_mem_cons.2 ⟨rfl, each⟩, fun hs => List.forall_mem_cons.2 ⟨strict hs, ok hs⟩⟩
      rw [Schema.leaves, List.map_cons, map]
      · exact notAny
      · exact notOne

theorem sortLeaves_spec {start : Nat} {outcomes : List (Schema × Compilation)}
    {kept : List CompiledLeaf} {fault : Option Fault}
    (h : sortLeaves start outcomes = (kept, fault)) :
    (∀ l ∈ kept, start ≤ l.position ∧ outcomes[l.position - start]? = some (l.leaf, .ok l.compiled)) ∧
      ((∀ o ∈ outcomes, ∃ c, o.2 = .ok c) → kept.map (·.leaf) = outcomes.map (·.1)) := by
  induction outcomes generalizing start kept fault with
  | nil =>
      rw [sortLeaves] at h
      cases h
      exact ⟨by simp, fun _ => rfl⟩
  | cons o rest ih =>
      obtain ⟨leaf, outcome⟩ := o
      rw [sortLeaves] at h
      obtain ⟨later, fault', hs⟩ : ∃ later fault', sortLeaves (start + 1) rest = (later, fault') :=
        ⟨_, _, rfl⟩
      obtain ⟨each, all⟩ := ih hs
      have later_at : ∀ l ∈ later, start ≤ l.position ∧
          ((leaf, outcome) :: rest)[l.position - start]? = some (l.leaf, .ok l.compiled) := by
        intro l hl
        obtain ⟨le, e⟩ := each l hl
        refine ⟨by omega, ?_⟩
        rw [show l.position - start = l.position - (start + 1) + 1 by omega]
        exact e
      rw [hs] at h
      cases outcome with
      | ok c =>
          cases h
          refine ⟨List.forall_mem_cons.2 ⟨⟨Nat.le_refl _, by simp⟩, later_at⟩, fun ok => ?_⟩
          rw [List.map_cons, List.map_cons, all (List.forall_mem_cons.1 ok).2]
      | error e =>
          cases h
          refine ⟨later_at, fun ok => ?_⟩
          obtain ⟨c, hc⟩ := (List.forall_mem_cons.1 ok).1
          cases hc

/-- What the compiler makes of a union that is not one choice. -/
theorem of_compileLeaves {u : Schema} {branches : List Schema} {exclusive : Bool}
    {outcomes : List (Schema × Compilation)} {c : Compiled}
    (form : (u = .anyOf branches ∧ exclusive = false) ∨ (u = .oneOf branches ∧ exclusive = true))
    (ih : ∀ leaf ∈ Schema.leaves branches, ∀ c, compileNode settings leaf path = .ok c →
      Compiles settings leaf path c)
    (ho : leafOutcomes settings branches path = .ok outcomes)
    (h : compileLeaves exclusive branches outcomes path = .ok c) : Compiles settings u path c := by
  obtain ⟨map, each, ok⟩ := leafOutcomes_spec ho
  obtain ⟨kept, fault, hs⟩ : ∃ kept fault, sortLeaves 0 outcomes = (kept, fault) := ⟨_, _, rfl⟩
  obtain ⟨at', all⟩ := sortLeaves_spec hs
  simp only [compileLeaves, hs] at h
  split at h
  · cases h
  · rename_i apart
    have found : ∀ l ∈ kept, (l.leaf, .ok l.compiled) ∈ outcomes := fun l hl =>
      List.mem_of_getElem? (at' l hl).2
    refine .union kept fault form (fun l hl => ?_) (fun l hl => ?_) (fun strict => ?_) apart h
    · have leaf : l.leaf ∈ Schema.leaves branches := map ▸ List.mem_map.2 ⟨_, found l hl, rfl⟩
      exact ih l.leaf leaf l.compiled (each _ (found l hl)).symm
    · rw [← map, List.getElem?_map]
      have := (at' l hl).2
      rw [Nat.sub_zero] at this
      rw [this]; rfl
    · rw [all (ok strict), map]

/-- **A compilation that succeeds has a derivation.** -/
theorem compiles_of_compileNode {s : Schema} {c : Compiled}
    (h : compileNode settings s path = .ok c) : Compiles settings s path c := by
  induction hn : s.size using Nat.strongRecOn generalizing s path c with
  | ind n ih =>
      subst hn
      cases s with
      | any => rw [compileNode] at h; cases h
      | allOf branches => rw [compileNode] at h; cases h
      | scalar s => exact .scalar (by rw [compileNode] at h; exact h)
      | object properties rules =>
          rw [compileNode] at h
          obtain ⟨⟨dimensions, skeleton⟩, hp, h⟩ := Except.bind_eq_ok.1 h
          cases h
          obtain ⟨entries, map, each, free, join⟩ := exists_entries (fun name s c hs hc =>
            ih s.size (by
              have := Schema.size_le_of_mem_properties hs
              simp only [Schema.size]; omega) hc rfl) hp
          rw [← join]
          exact .object entries map each free
      | array items length =>
          rw [compileNode] at h
          split at h
          · cases h
          · rename_i count hl
            obtain ⟨compiled, hc, e⟩ : ∃ compiled,
                compileItems (compileNode settings items) path 0 count = .ok compiled ∧
                  joinItems compiled = c := by
              cases hc : compileItems (compileNode settings items) path 0 count with
              | error e => rw [hc] at h; cases h
              | ok compiled => rw [hc] at h; cases h; exact ⟨compiled, rfl, rfl⟩
            obtain ⟨len, each⟩ := exists_items hc
            rw [← e]
            refine .array compiled (by rw [hl, len]) fun i c hi => ?_
            have hi := each i c hi
            rw [Nat.zero_add] at hi
            exact ih items.size (by simp only [Schema.size]; omega) hi rfl
      | anyOf branches =>
          rw [compileNode] at h
          split at h
          · rename_i choices hc
            exact .choice (Or.inl rfl) hc h
          · obtain ⟨outcomes, ho, h⟩ := Except.bind_eq_ok.1 h
            refine of_compileLeaves (Or.inl ⟨rfl, rfl⟩) (fun leaf hl c hc => ih leaf.size ?_ hc rfl) ho h
            have := (Schema.mem_leaves hl).2.2
            simp only [Schema.size]; omega
      | oneOf branches =>
          rw [compileNode] at h
          split at h
          · rename_i choices hc
            exact .choice (Or.inr rfl) hc h
          · obtain ⟨outcomes, ho, h⟩ := Except.bind_eq_ok.1 h
            refine of_compileLeaves (Or.inr ⟨rfl, rfl⟩) (fun leaf hl c hc => ih leaf.size ?_ hc rfl) ho h
            have := (Schema.mem_leaves hl).2.2
            simp only [Schema.size]; omega

end Compiles

/-! ## 4. Shapes of results -/

variable {path : Path} {c : Compiled}

/-- A choice is one dimension, or none at all. -/
theorem compileChoices_cases {choices : List Setting} (h : compileChoices choices path = .ok c) :
    (∃ only, choices = [only] ∧ c = .fixed only.toJson) ∨ c = .plain path (.categorical choices) := by
  unfold compileChoices at h
  split at h
  · cases h
  · cases h; exact Or.inl ⟨_, rfl, rfl⟩
  · cases h; exact Or.inr rfl

/-- **A range is one dimension, or fixed if its ends are equal.** -/
theorem compileNumeric_cases {s : Scalar} (h : compileNumeric s path = .ok c) :
    ∃ low high, s.sampledLow = some low ∧ s.sampledHigh = some high ∧ high.less low = false ∧
      ((low.equals high = true ∧
          c = .fixed (if s.kind = .integer then .int low.toInt64 else .float low)) ∨
        (low.equals high = false ∧ ∃ logScale, c = .plain path
          (if s.kind = .integer then .int low.toInt64 high.toInt64 logScale
            else .float low high logScale))) := by
  unfold compileNumeric at h
  split at h
  · rename_i low high hl hh
    refine ⟨low, high, hl, hh, ?_⟩
    split at h
    · cases h
    · rename_i le
      refine ⟨by simpa using le, ?_⟩
      split at h
      · rename_i e
        cases h
        exact Or.inl ⟨e, rfl⟩
      · rename_i e
        refine Or.inr ⟨by simpa using e,
          s.distribution == .logUniform && Binary64.zero.less low, ?_⟩
        dsimp only at h
        split at h
        · rename_i hk
          cases h
          rw [if_pos hk]
        · rename_i hk
          cases h
          rw [if_neg hk]
  · cases h

/-- A scalar is a choice, a truth value, null or a range. -/
theorem compileScalar_forms {s : Scalar} (h : compileScalar s path = .ok c) :
    (∃ members, s.effectiveEnumeration = some members ∧
        compileChoices (members.filterMap Setting.ofJson?) path = .ok c) ∨
      s.effectiveEnumeration = none ∧
        ((s.kind = .boolean ∧ c = .plain path .boolean) ∨ (s.kind = .null ∧ c = .fixed .null) ∨
          (s.kind.isNumeric = true ∧ compileNumeric s path = .ok c)) := by
  unfold compileScalar at h
  split at h
  · exact Or.inl ⟨_, ‹_›, h⟩
  · refine Or.inr ⟨‹_›, ?_⟩
    split at h
    · cases h; exact Or.inl ⟨‹_›, rfl⟩
    · cases h; exact Or.inr (Or.inl ⟨‹_›, rfl⟩)
    · cases h
    · rename_i hk
      exact Or.inr (Or.inr ⟨by rw [hk]; rfl, h⟩)
    · rename_i hk
      exact Or.inr (Or.inr ⟨by rw [hk]; rfl, h⟩)

/-- **A scalar is one dimension, or none at all.** -/
theorem compileScalar_cases {s : Scalar} (h : compileScalar s path = .ok c) :
    (∃ v, c = .fixed v) ∨ ∃ d, c = .plain path d := by
  rcases compileScalar_forms h with ⟨members, _, h⟩ | ⟨_, ⟨_, rfl⟩ | ⟨_, rfl⟩ | ⟨_, h⟩⟩
  · rcases compileChoices_cases h with ⟨only, _, e⟩ | e
    · exact Or.inl ⟨_, e⟩
    · exact Or.inr ⟨_, e⟩
  · exact Or.inr ⟨_, rfl⟩
  · exact Or.inl ⟨_, rfl⟩
  · obtain ⟨low, high, _, _, _, ⟨_, e⟩ | ⟨_, log, e⟩⟩ := compileNumeric_cases h
    · exact Or.inl ⟨_, e⟩
    · exact Or.inr ⟨_, e⟩

/-- The branch that a leaf becomes. -/
def CompiledLeaf.branch (l : CompiledLeaf) (label : String) : Branch :=
  (label, ⟨label, l.compiled.skeleton, l.leaf, l.leaf⟩, l.compiled.dimensions)

theorem length_distinctLabels (labels : List String) :
    (distinctLabels labels).length = labels.length := by
  unfold distinctLabels
  split
  · rfl
  · rw [List.length_map, List.length_range]

/-- **The leaves that are kept are the only one, or the branches of a selector.** -/
theorem selectLeaves_cases {kept : List CompiledLeaf} {fault : Option Fault}
    (h : selectLeaves kept fault path = .ok c) :
    (∃ only, kept = [only] ∧ c = only.compiled) ∨
      ∃ branches, c = ⟨[.selector (dimensionName path) path branches], none⟩ ∧ branches ≠ [] ∧
        ∀ b ∈ branches, ∃ l ∈ kept, b = l.branch b.1 := by
  unfold selectLeaves at h
  split at h
  · cases h
  · cases h; exact Or.inl ⟨_, rfl, rfl⟩
  · rename_i none _
    cases h
    refine Or.inr ⟨_, rfl, fun empty => ?_, fun b hb => ?_⟩
    · have := congrArg List.length empty
      rw [List.length_zipWith, length_distinctLabels, List.length_map, Nat.min_self] at this
      exact none (List.length_eq_zero_iff.1 this)
    · obtain ⟨i, hi, rfl⟩ := List.mem_iff_getElem.1 hb
      rw [List.getElem_zipWith]
      exact ⟨_, List.getElem_mem _, rfl⟩

theorem mem_of_branch? {name label : String} {branches : List Branch} {b : Branch}
    (h : (Dimension.selector name path branches).branch? label = some b) :
    b ∈ branches ∧ b.1 = label :=
  ⟨List.mem_of_find?_eq_some h, by simpa using List.find?_some h⟩

end TypedPipeline
