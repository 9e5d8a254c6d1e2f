import TypedPipeline.Json.Shape
import TypedPipeline.Proofs.Schema.Domain
import TypedPipeline.Proofs.Space.Assignment
import TypedPipeline.Proofs.Space.Names
import TypedPipeline.Proofs.Space.Unions

/-!
# Proofs.Space.Application: samples of a space are values of its schema

A sample that gives each dimension that counts a setting of its domain is applied to a value that the
schema accepts. This file fixes:

* what the compiler makes of a schema, as a builder of values (`Builds`): the fixed part, and what an
  assignment writes on top of it;
* the builders of fixed values and single dimensions, of objects, of arrays and of unions
  (`builds_of_serves`, `builds_object`, `builds_array`, `builds_union`);
* **that the values built are accepted** (`builds_of_compiles`), by induction on the compilation;
* **that such samples are applied** (`apply_of_assigns`).
-/

namespace TypedPipeline

/-- Every assignment builds a value of a sort at a place, from the fixed part if there is one, and
    otherwise from whatever stands there. -/
def Builds (p : Path) (c : Compiled) (Q : Json → Prop) : Prop :=
  ∀ entries, Assigns c.dimensions entries → ∃ writes, writesOf entries = Json.nested p writes ∧
    (c.skeleton = none → writes ≠ []) ∧ ∀ start, Q ((c.skeleton.getD start).placeAll writes)

variable {p : Path} {c : Compiled} {Q : Json → Prop}

/-! ## 1. Builders -/

theorem builds_of_serves (h : c.Serves p Q) : Builds p c Q := by
  intro entries ha
  rcases h with ⟨v, rfl, hv⟩ | ⟨d, rfl, hd⟩
  · obtain rfl := assigns_nil ha
    exact ⟨[], rfl, fun absent => (by cases absent), fun _ => hv⟩
  · cases ha with
    | @plain _ _ _ _ x _ hx ha =>
        obtain rfl := assigns_nil ha
        refine ⟨[([], x.toJson)], ?_, fun _ => by simp, fun _ => hd x hx⟩
        simp [writesOf, Dimension.writes, Json.nested]

/-- The names of an object that is built are looked up in its entries. -/
theorem find?_skeleton (rules : ObjectRules) {entries : List PropertyEntry}
    (distinct : (entries.map (·.1)).Nodup) :
    (∀ e ∈ entries, Keyed.find? (entries.filterMap fun e =>
      (e.skeleton rules).map fun value => (e.1, value)) e.1 = e.skeleton rules) ∧
    ∀ name, name ∉ entries.map (·.1) → Keyed.find? (entries.filterMap fun e =>
      (e.skeleton rules).map fun value => (e.1, value)) name = none := by
  induction entries with
  | nil => exact ⟨by simp, by simp⟩
  | cons first rest ih =>
      obtain ⟨fresh, distinct⟩ := List.nodup_cons.1 distinct
      obtain ⟨each, other⟩ := ih distinct
      have step (name : String) : Keyed.find? ((first :: rest).filterMap fun e =>
          (e.skeleton rules).map fun value => (e.1, value)) name =
            if first.1 = name ∧ (first.skeleton rules).isSome then first.skeleton rules
            else Keyed.find? (rest.filterMap fun e =>
              (e.skeleton rules).map fun value => (e.1, value)) name := by
        rw [List.filterMap_cons]
        cases hs : first.skeleton rules with
        | none => simp
        | some value => simp [Keyed.find?_cons]
      constructor
      · intro e he
        rw [step]
        rcases List.mem_cons.1 he with rfl | he
        · cases hs : e.skeleton rules with
          | none => simpa using other e.1 fresh
          | some value => simp
        · have ne : first.1 ≠ e.1 := fun eq => fresh (List.mem_map.2 ⟨e, he, eq.symm⟩)
          rw [if_neg fun h => ne h.1, each e he]
      · intro name hn
        rw [List.map_cons, List.mem_cons, not_or] at hn
        rw [step, if_neg fun h => hn.1 h.1.symm, other name hn.2]

theorem ascending_skeleton (rules : ObjectRules) {entries : List PropertyEntry}
    (h : (entries.map (·.1)).Pairwise (· < ·)) :
    Keyed.Ascending (entries.filterMap fun e =>
      (e.skeleton rules).map fun value => (e.1, value)) := by
  refine h.sublist ?_
  rw [Keyed.names, List.map_filterMap]
  induction entries with
  | nil => exact .slnil
  | cons e rest ih =>
      rw [List.filterMap_cons, List.map_cons]
      cases e.skeleton rules with
      | none => exact (ih (List.pairwise_cons.1 h).2).cons _
      | some value => exact (ih (List.pairwise_cons.1 h).2).cons_cons _

/-- The values of a schema. -/
def Schema.Holds (s : Schema) (v : Json) : Prop := v.Proper ∧ s.accepts v = true

/-- The writes of a property build it if it is tuned; otherwise there are none. -/
def PropertyEntry.Written (e : PropertyEntry) (writes : List Json.Write) : Prop :=
  match e.2.2 with
  | some c => (c.skeleton = none → writes ≠ []) ∧
      ∀ start, e.2.1.Holds ((c.skeleton.getD start).placeAll writes)
  | none => writes = []

/-- What stands under a property after its writes. -/
def PropertyEntry.held (rules : ObjectRules) (e : PropertyEntry) (writes : List Json.Write) :
    Option Json :=
  match e.2.2 with
  | some c => some ((c.skeleton.getD .null).placeAll writes)
  | none => rules.defaults.find? e.1

/-- What stands in an object whose fixed part and writes come from properties. -/
theorem placed_properties (rules : ObjectRules) {parts : List (PropertyEntry × List Json.Write)}
    (ascending : (parts.map (·.1.1)).Pairwise (· < ·)) :
    ∃ members : Keyed Json, Keyed.Ascending members ∧
      (Json.object ((parts.map (·.1)).filterMap fun e =>
          (e.skeleton rules).map fun value => (e.1, value))).placeAll
        (parts.flatMap fun x => Json.nested [.property x.1.1] x.2) = .object members ∧
      (∀ x ∈ parts, members.find? x.1.1 = if x.2 = [] then x.1.skeleton rules
        else some (((x.1.skeleton rules).getD .null).placeAll x.2)) ∧
      ∀ name, name ∉ parts.map (·.1.1) → members.find? name = none := by
  have names : (parts.map (·.1)).map (·.1) = parts.map (·.1.1) := List.map_map
  have asc : ((parts.map (·.1)).map (·.1)).Pairwise (· < ·) := names ▸ ascending
  have distinct : ((parts.map (·.1)).map (·.1)).Nodup :=
    asc.imp fun lt e => absurd (e ▸ lt) (String.lt_irrefl _)
  obtain ⟨found, lost⟩ := find?_skeleton rules distinct
  have names' : (parts.map fun x => (x.1.1, x.2)).map (·.1) = parts.map (·.1.1) := List.map_map
  obtain ⟨members, asc', placed, here, there⟩ := Json.placeAll_properties
    (ascending_skeleton rules asc) (show ((parts.map fun x => (x.1.1, x.2)).map (·.1)).Nodup by
      rw [names', ← names]; exact distinct)
  rw [List.flatMap_map] at placed
  refine ⟨members, asc', placed, fun x hx => ?_, fun name hn => ?_⟩
  · rw [here x.1.1 x.2 (List.mem_map.2 ⟨x, hx, rfl⟩), found x.1 (List.mem_map.2 ⟨x, hx, rfl⟩)]
  · rw [there name (names' ▸ hn), lost name (names ▸ hn)]

/-- The writes of a property that is tuned come to a value on top of its fixed part. -/
theorem placed_of_tuned {writes : List Json.Write} (h : c.skeleton = none → writes ≠ []) :
    (if writes = [] then c.skeleton else some ((c.skeleton.getD .null).placeAll writes)) =
      some ((c.skeleton.getD .null).placeAll writes) := by
  split
  · rename_i empty
    cases hs : c.skeleton with
    | none => exact absurd empty (h hs)
    | some value =>
        subst empty
        rfl
  · rfl

/-- What the writes come to, put on the fixed part of the property. -/
theorem PropertyEntry.placed_eq_held {rules : ObjectRules} {e : PropertyEntry}
    {writes : List Json.Write} (h : e.Written writes) :
    (if writes = [] then e.skeleton rules
      else some (((e.skeleton rules).getD .null).placeAll writes)) = e.held rules writes := by
  obtain ⟨name, s, c⟩ := e
  cases c with
  | none => exact if_pos h
  | some c => exact placed_of_tuned h.1

/-- The schema of a property holds what stands there. -/
theorem PropertyEntry.holds_of_held {rules : ObjectRules} {e : PropertyEntry}
    {writes : List Json.Write} (h : e.Written writes)
    (default : ∀ w, rules.defaults.find? e.1 = some w → e.2.1.Holds w) {w : Json}
    (hw : e.held rules writes = some w) : e.2.1.Holds w := by
  obtain ⟨name, s, c⟩ := e
  cases c with
  | none => exact default w hw
  | some c =>
      obtain rfl := Option.some.inj hw
      exact h.2 .null

/-- Nothing stands under a property only if it is not tuned and has no default. -/
theorem PropertyEntry.of_held_eq_none {rules : ObjectRules} {e : PropertyEntry}
    {writes : List Json.Write} (h : e.held rules writes = none) :
    e.2.2 = none ∧ rules.defaults.find? e.1 = none := by
  obtain ⟨name, s, c⟩ := e
  cases c with
  | none => exact ⟨rfl, h⟩
  | some c => cases h

/-- An object holds members that its properties hold, if it has no other and none that is required is
    missing. -/
theorem Schema.holds_object {properties : Keyed Schema} {rules : ObjectRules} {members : Keyed Json}
    (ascending : Keyed.Ascending members)
    (declared : ∀ name s, (name, s) ∈ properties → (∀ w, members.find? name = some w → s.Holds w) ∧
      (members.find? name = none → rules.requires name = false))
    (outside : ∀ name, name ∉ Keyed.names properties → members.find? name = none) :
    (Schema.object properties rules).Holds (.object members) := by
  refine ⟨⟨ascending, Json.properMembers_iff.2 fun m hm => ?_⟩,
    Schema.accepts_object.2 ⟨members, rfl, fun name s hs => ?_, fun _ name hn => ?_⟩⟩
  · have hw := Keyed.find?_of_mem (Keyed.nodup_of_ascending ascending) hm
    by_cases hn : m.1 ∈ Keyed.names properties
    · obtain ⟨⟨name, s⟩, hs, e⟩ := List.mem_map.1 hn
      subst e
      exact ((declared _ s hs).1 _ hw).1
    · rw [outside _ hn] at hw
      cases hw
  · unfold Schema.AcceptsProperty
    cases hw : Keyed.find? members name with
    | some w => exact ((declared name s hs).1 w hw).2
    | none => simpa using (declared name s hs).2 hw
  · rw [Keyed.has_iff]
    refine Classical.byContradiction fun absent => ?_
    exact Keyed.find?_eq_none_iff.1 (outside name absent) hn

/-- **An object is built of what its properties build.** A property that is not tuned has its default
    or, if it is not required, nothing. -/
theorem builds_object {properties : List (String × Schema)} {rules : ObjectRules}
    {entries : List PropertyEntry} (map : entries.map (fun e => (e.1, e.2.1)) = properties)
    (ascending : Keyed.Ascending properties) (proper : rules.Proper) (sound : rules.Sound properties)
    (tuned : ∀ name s c, (name, s, some c) ∈ entries →
      Builds (p ++ [.property name]) c s.Holds)
    (untuned : ∀ name s, (name, s, none) ∈ entries →
      (rules.defaults.find? name).isSome = true ∨ rules.requires name = false) :
    Builds p (joinProperties rules entries) (Schema.object properties rules).Holds := by
  intro es ha
  have names : entries.map (·.1) = Keyed.names properties := by
    rw [← map, Keyed.names, List.map_map]; rfl
  obtain ⟨parts, rfl, eq, each⟩ := @exists_writes PropertyEntry PropertyEntry.dimensions
    (fun e => .property e.1) p PropertyEntry.Written entries es ha (by
    rintro ⟨name, s, c⟩ he es ha
    cases c with
    | none =>
        obtain rfl := assigns_nil ha
        exact ⟨[], rfl, rfl⟩
    | some c =>
        obtain ⟨writes, eq, ne, holds⟩ := tuned name s c he es ha
        exact ⟨writes, eq, ne, holds⟩)
  rw [List.map_map] at names
  obtain ⟨members, asc, placed, found, lost⟩ := @placed_properties rules parts (by
    rw [show parts.map (·.1.1) = _ from names]; exact ascending)
  refine ⟨parts.flatMap fun x => Json.nested [.property x.1.1] x.2, eq, fun absent => (by cases absent),
    fun start => ?_⟩
  show (Schema.object properties rules).Holds (Json.placeAll (.object _) _)
  rw [placed]
  have look : ∀ x ∈ parts, members.find? x.1.1 = x.1.held rules x.2 := fun x hx =>
    (found x hx).trans (PropertyEntry.placed_eq_held (each x hx))
  have entry {name : String} {s : Schema} (hs : (name, s) ∈ properties) :
      ∃ x ∈ parts, x.1.1 = name ∧ x.1.2.1 = s := by
    rw [← map, List.map_map] at hs
    obtain ⟨x, hx, e⟩ := List.mem_map.1 hs
    cases e
    exact ⟨x, hx, rfl, rfl⟩
  refine Schema.holds_object asc (fun name s hs => ?_) fun name hn => lost name (names ▸ hn)
  obtain ⟨x, hx, rfl, rfl⟩ := entry hs
  rw [look x hx]
  constructor
  · refine fun w hw => PropertyEntry.holds_of_held (each x hx) (fun w hw => ?_) hw
    have hd := Keyed.mem_of_find? hw
    obtain ⟨s, found, acc⟩ := sound.default _ hd
    rw [Keyed.find?_of_mem (Keyed.nodup_of_ascending ascending) hs] at found
    cases found
    exact ⟨proper.values _ hd, acc⟩
  · intro absent
    obtain ⟨hc, hd⟩ := PropertyEntry.of_held_eq_none absent
    have free := untuned x.1.1 x.1.2.1 (List.mem_map.2 ⟨x, hx, by rw [← hc]⟩)
    rw [hd] at free
    exact free.resolve_left (by simp)

/-- The positions of a list, from its own numbering. -/
theorem zipIdx_map_of_positions {α β : Type} {xs : List α} {f : α → β} {position : α → Nat}
    (h : xs.map position = List.range' 0 xs.length) :
    (xs.map f).zipIdx = xs.map fun x => (f x, position x) := by
  rw [List.zipIdx_eq_zip_range', List.length_map, ← h, List.zip_map']

/-- What stands in an array whose fixed part and writes come from its items in turn. -/
theorem placed_items {α : Type} (fixed : α → Json) {parts : List ((α × Nat) × List Json.Write)}
    (positions : parts.map (·.1.2) = List.range' 0 parts.length) :
    (Json.array (parts.map fun x => fixed x.1.1)).placeAll
        (parts.flatMap fun x => Json.nested [.index x.1.2] x.2) =
      .array (parts.map fun x => (fixed x.1.1).placeAll x.2) := by
  have placed := @Json.placeAll_items [] (parts.map fun x => (fixed x.1.1, x.2))
  rw [List.nil_append, List.map_map, List.length_nil, zipIdx_map_of_positions positions,
    List.flatMap_map, List.nil_append, List.map_map] at placed
  exact placed

theorem fixedLength?_eq_some_iff {length : Length} {n : Nat} :
    fixedLength? length = some n ↔ length.least = some n ∧ length.most = some n := by
  unfold fixedLength?
  cases length.least <;> cases length.most <;> simp
  grind

/-- **An array is built of what its items build.** -/
theorem builds_array {items : Schema} {length : Length} {compiled : List Compiled}
    (fixed : fixedLength? length = some compiled.length)
    (each : ∀ i c, compiled[i]? = some c → Builds (p ++ [.index i]) c items.Holds) :
    Builds p (joinItems compiled) (Schema.array items length).Holds := by
  intro es ha
  have flat : compiled.flatMap (·.dimensions) = compiled.zipIdx.flatMap (·.1.dimensions) := by
    have := congrArg (List.flatMap Compiled.dimensions) (List.zipIdx_map_fst 0 compiled)
    rw [List.flatMap_map] at this
    exact this.symm
  obtain ⟨parts, eq, writes, built⟩ := @exists_writes (Compiled × Nat) (·.1.dimensions)
    (fun x => .index x.2) p
    (fun x writes => ∀ start, items.Holds ((x.1.skeleton.getD start).placeAll writes))
    compiled.zipIdx es (flat ▸ ha) (by
    intro x hx es ha
    obtain ⟨writes, e, _, holds⟩ := each x.2 x.1 (List.mem_zipIdx_iff_getElem?.1 hx) es ha
    exact ⟨writes, e, holds⟩)
  have count : parts.length = compiled.length := by
    have := congrArg List.length eq
    rwa [List.length_map, List.length_zipIdx] at this
  have positions : parts.map (fun x => x.1.2) = List.range' 0 parts.length := by
    have := congrArg (List.map Prod.snd) eq
    rw [List.map_map, List.zipIdx_map_snd, ← count] at this
    exact this
  have skeletons : compiled.map (fun c => c.skeleton.getD .null) =
      parts.map fun x => x.1.1.skeleton.getD .null := by
    rw [← List.zipIdx_map_fst 0 compiled, ← eq, List.map_map, List.map_map]
    rfl
  refine ⟨_, writes, fun absent => (by cases absent), fun start => ?_⟩
  show (Schema.array items length).Holds (Json.placeAll (.array (compiled.map _)) _)
  rw [skeletons, placed_items (fun c : Compiled => c.skeleton.getD .null) positions]
  have holds : ∀ w ∈ parts.map (fun x => (x.1.1.skeleton.getD Json.null).placeAll x.2),
      items.Holds w := by
    intro w hw
    obtain ⟨x, hx, rfl⟩ := List.mem_map.1 hw
    exact built x hx .null
  refine ⟨Json.properItems_iff.2 fun w hw => (holds w hw).1,
    Schema.accepts_array.2 ⟨_, rfl, ?_, fun w hw => (holds w hw).2⟩⟩
  obtain ⟨least, most⟩ := fixedLength?_eq_some_iff.1 fixed
  rw [List.length_map, count, least, most]
  exact ⟨by rintro _ ⟨⟩; exact Nat.le_refl _, by rintro _ ⟨⟩; exact Nat.le_refl _⟩

/-- **A union is built of what the leaf that is chosen builds.** -/
theorem builds_union {kept : List CompiledLeaf} {fault : Option Fault}
    (each : ∀ l ∈ kept, Builds p l.compiled Q) (h : selectLeaves kept fault p = .ok c) :
    Builds p c Q := by
  rcases selectLeaves_cases h with ⟨only, rfl, rfl⟩ | ⟨branches, rfl, _, from'⟩
  · exact each only (by simp)
  · intro es ha
    cases ha with
    | selector chosen hc hi hr =>
        obtain rfl := assigns_nil hr
        obtain ⟨l, hl, e⟩ := from' chosen (mem_of_branch? hc).1
        rw [e] at hi
        obtain ⟨writes, eq, ne, holds⟩ := each l hl _ hi
        have skeleton : chosen.2.1.skeleton = l.compiled.skeleton := by rw [e]; rfl
        refine ⟨(l.compiled.skeleton.map fun value => ([], value)).toList ++ writes, ?_, ?_, ?_⟩
        · rw [List.append_nil, writesOf_selector hc, skeleton, eq, Json.nested_append]
          cases l.compiled.skeleton <;> simp [Json.nested]
        · intro _ empty
          obtain ⟨none, rfl⟩ := List.append_eq_nil_iff.1 empty
          cases hs : l.compiled.skeleton with
          | none => exact ne hs rfl
          | some value => rw [hs] at none; cases none
        · intro start
          have holds := holds start
          cases hs : l.compiled.skeleton with
          | none => rw [hs] at holds; exact holds
          | some value => rw [hs] at holds; exact holds

/-! ## 2. Choices of unions -/

theorem mem_foldl_addMember {v : Json} {values : List Json} :
    ∀ {found : List Json}, v ∈ values.foldl Schema.addMember found → v ∈ found ∨ v ∈ values := by
  induction values with
  | nil => exact fun h => Or.inl h
  | cons w rest ih =>
      intro found h
      rcases ih h with h | h
      · unfold Schema.addMember at h
        split at h
        · exact Or.inl h
        · rcases List.mem_append.1 h with h | h
          · exact Or.inl h
          · exact Or.inr (List.mem_singleton.1 h ▸ List.mem_cons_self)
      · exact Or.inr (List.mem_cons_of_mem _ h)

/-- The members of a union of enumerations are proper values. -/
theorem proper_of_mem_members {branches : List Schema} {lists : List (List Json)}
    (proper : ∀ leaf ∈ Schema.leaves branches, leaf.Proper)
    (h : (Schema.leaves branches).mapM Schema.leafMembers? = some lists) {w : Json}
    (hw : w ∈ lists.flatten.foldl Schema.addMember []) : w.Proper := by
  rcases mem_foldl_addMember hw with hw | hw
  · cases hw
  · obtain ⟨ms, hms, hw⟩ := List.mem_flatten.1 hw
    obtain ⟨leaf, hl, e⟩ := JsonText.mem_of_mapM h hms
    have proper := (proper leaf hl).self
    cases leaf with
    | scalar s =>
        simp only [Schema.leafMembers?] at e
        split at e
        · rename_i all he
          cases e
          obtain ⟨all, hall, rfl⟩ := Option.map_eq_some_iff.1 he
          exact proper all hall w (List.mem_filter.1 hw).1
        · split at e
          · cases e
            rw [List.mem_singleton.1 hw]
            trivial
          · cases e
    | _ => cases e

/-- **A union of enumerations is a choice among values of the union.** -/
theorem exists_values {u : Schema} {branches : List Schema} {choices : List Setting}
    (proper : ∀ leaf ∈ Schema.leaves branches, leaf.Proper)
    (h : Schema.enumeratedUnion? branches u = some choices) :
    ∃ values : List Json, choices = values.filterMap Setting.ofJson? ∧ ∀ v ∈ values, u.Holds v := by
  obtain ⟨members, hm, h⟩ := Option.bind_eq_some_iff.1 h
  cases h
  refine ⟨_, rfl, fun v hv => ?_⟩
  obtain ⟨hv, acc⟩ := List.mem_filter.1 hv
  exact ⟨proper_of_mem_members proper hm hv, acc⟩

/-! ## 3. Compiled schemas -/

/-- What makes a schema one whose samples are its values: it is well formed, its hints are finite,
    and its integers have small bounds and hints. -/
structure Schema.Sampled (s : Schema) : Prop where
  sound : s.Sound
  proper : s.Proper
  hints : s.FiniteHints
  bounds : s.IntegerBounds
  integerHints : s.IntegerHints

theorem Schema.Sampled.of_mem {s t : Schema} (h : s.Sampled) (ht : t ∈ s.parts) : t.Sampled :=
  ⟨h.sound.of_mem ht, h.proper.of_mem ht, h.hints.of_mem ht, h.bounds.of_mem ht,
    h.integerHints.of_mem ht⟩

theorem Schema.Sampled.scalar {s : Scalar} (h : (Schema.scalar s).Sampled) :
    s.Proper ∧ s.Finite ∧ (s.kind = .integer → s.Small) := by
  refine ⟨h.proper.self, h.sound.finite h.hints, fun hk => ?_⟩
  have bounds := h.bounds.self hk
  have integerHints := h.integerHints.self hk
  exact ⟨bounds.1, bounds.2, integerHints.1, integerHints.2⟩

/-- **What the compiler makes of a schema builds values of the schema.** -/
theorem builds_of_compiles {settings : SpaceSettings} {s : Schema} (h : Compiles settings s p c)
    (sampled : s.Sampled) : Builds p c s.Holds := by
  induction h with
  | @scalar s p c h =>
      obtain ⟨proper, fin, small⟩ := sampled.scalar
      exact builds_of_serves (Scalar.serves_of_compileScalar proper fin small h)
  | @object properties rules p entries map _ untuned ih =>
      have proper := sampled.proper.self
      refine builds_object map proper.1 proper.2 sampled.sound.self (fun name s c he => ?_) untuned
      have hs : (name, s) ∈ properties := map ▸ List.mem_map_of_mem he
      exact ih name s c he (sampled.of_mem (Schema.property_mem_parts hs))
  | @array items length p compiled fixed _ ih =>
      exact builds_array fixed fun i c hi => ih i c hi (sampled.of_mem Schema.items_mem_parts)
  | @choice u branches choices p c form hu h =>
      have proper : ∀ leaf ∈ Schema.leaves branches, leaf.Proper := by
        intro leaf hl
        refine (sampled.of_mem ?_).proper
        have part := (Schema.mem_leaves hl).2.1
        rcases form with rfl | rfl <;> exact List.mem_cons_of_mem _ part
      obtain ⟨values, rfl, holds⟩ := exists_values proper hu
      exact builds_of_serves (serves_of_compileChoices h (accepts_toJson holds))
  | @union u branches exclusive p c kept fault form _ at' _ apart h ih =>
      have leaf {l : Schema} (hl : l ∈ Schema.leaves branches) : l.Sampled := by
        refine sampled.of_mem ?_
        have part := (Schema.mem_leaves hl).2.1
        rcases form with ⟨rfl, _⟩ | ⟨rfl, _⟩ <;> exact List.mem_cons_of_mem _ part
      refine builds_union (fun l hl => ?_) h
      intro es ha
      obtain ⟨writes, eq, ne, holds⟩ := ih l hl (leaf (List.mem_of_getElem? (at' l hl))) es ha
      refine ⟨writes, eq, ne, fun start => ?_⟩
      obtain ⟨pv, acc⟩ := holds start
      exact ⟨pv, Schema.accepts_of_leaf form (at' l hl) acc
        (Schema.alone_of_overlap? (fun l hl => ⟨(leaf hl).sound, (leaf hl).proper⟩) apart
          (List.mem_map_of_mem hl) (at' l hl) pv acc)⟩

/-! ## 4. Samples -/

theorem find?_entries {entries : List Entry} (distinct : (entries.map (·.1.name)).Nodup)
    {e : Entry} (he : e ∈ entries) :
    Keyed.find? (entries.map fun e => (e.1.name, e.2)) e.1.name = some e.2 := by
  refine Keyed.find?_of_mem ?_ (List.mem_map.2 ⟨e, he, rfl⟩)
  rw [Keyed.names, List.map_map]
  exact distinct

/-- **Where dimensions that count together have names of their own, a sample that gives each of them
    a setting of its domain, and nothing else a setting, is applied to a value that the domain of the
    space and its schema accept.** -/
theorem apply_of_assigns {settings : SpaceSettings} {name : String} {schema : Schema} {space : Space}
    (proper : schema.Proper) (free : schema.AllOfFree) (hints : schema.FiniteHints)
    (bounds : schema.IntegerBounds) (integerHints : schema.IntegerHints)
    (h : compileSpace settings name schema = .ok space)
    (distinct : ∀ active, Activates space.dimensions active →
      (active.map Dimension.name).Nodup)
    {entries : List Entry} (ha : Assigns space.dimensions entries) {sample : Sample}
    (given : ∀ n, sample.find? n = Keyed.find? (entries.map fun e => (e.1.name, e.2)) n) :
    ∃ v, space.apply sample = .ok v ∧ space.frame.domain.accepts v = true ∧
      schema.accepts v = true := by
  obtain ⟨sound, c, hc, rfl⟩ := compiles_of_compileSpace h
  rw [Schema.domainPart_of_allOfFree free] at hc ⊢
  have sampled : schema.Sampled := ⟨sound, proper, hints, bounds, integerHints⟩
  obtain ⟨writes, eq, _, holds⟩ := builds_of_compiles hc sampled entries ha
  rw [Json.nested_root] at eq
  obtain ⟨_, acc⟩ := holds .null
  have distinct : (entries.map (·.1.name)).Nodup := by
    have := distinct _ ha.activates
    rwa [List.map_map] at this
  obtain ⟨used, filled, mem⟩ := Space.fillDimensions_eq ha
    (fun e he => by rw [given, find?_entries distinct he]) name ⟨c.skeleton.getD .null, []⟩
  rw [eq] at filled
  refine ⟨_, Space.apply_eq_ok filled (Space.unknownName?_eq_none fun n hn => (mem n).2 ?_) acc acc,
    acc, acc⟩
  rw [Keyed.has, given, ← Keyed.has, Keyed.has_iff, Keyed.names, List.map_map] at hn
  exact Or.inr hn

/-! ## 5. An integer under a key, or null -/

def keyedRules : ObjectRules := { required := ["k"], isOpen := false }

/-- An object with an integer from 1 to 3 under a key and nothing else. -/
def keyed : Schema := .object [("k", .scalar oneToThree)] keyedRules

/-- Such an object, or else null. -/
def keyedOrNull : Schema := .oneOf [keyed, .scalar { kind := .null }]

def keyedDimension : Dimension := .plain "k" [.property "k"] (.int 1 3 false)

/-- What it compiles to. -/
def keyedOrNullSelector : Dimension :=
  .selector "choice" []
    [("k", ⟨"k", some (.object []), keyed, keyed⟩, [keyedDimension]),
      ("1", ⟨"1", some .null, .scalar { kind := .null }, .scalar { kind := .null }⟩, [])]

theorem keyedOrNull_allOfFree : keyedOrNull.AllOfFree := by
  simp [Schema.AllOfFree, Schema.Every, Schema.parts, Schema.partsOfBranches,
    Schema.partsOfProperties, keyedOrNull, keyed]

theorem compileSpace_keyedOrNull (settings : SpaceSettings) (name : String) :
    compileSpace settings name keyedOrNull =
      .ok ⟨⟨name, none, keyedOrNull, keyedOrNull⟩, [keyedOrNullSelector]⟩ := by
  have leaves : Schema.leaves [keyed, .scalar { kind := .null }] =
      [keyed, .scalar { kind := .null }] := by simp [Schema.leaves, keyed]
  have mixed : Schema.enumeratedUnion? [keyed, .scalar { kind := .null }] keyedOrNull = none := by
    rw [Schema.enumeratedUnion?, leaves]
    rfl
  have object : compileNode settings keyed [] = .ok ⟨[keyedDimension], some (.object [])⟩ := by
    rw [keyed, compileNode, compileProperties, compileNode, compileScalar_oneToThree]
    rfl
  have outcomes : leafOutcomes settings [keyed, .scalar { kind := .null }] [] =
      .ok [(keyed, .ok ⟨[keyedDimension], some (.object [])⟩),
        (.scalar { kind := .null }, .ok (.fixed .null))] := by
    rw [keyed] at object ⊢
    simp [leafOutcomes, object]
    simp [compileNode]
    rfl
  have node : compileNode settings keyedOrNull [] = .ok ⟨[keyedOrNullSelector], none⟩ := by
    rw [keyedOrNull, compileNode, ← keyedOrNull, mixed, outcomes]
    dsimp only [bind, Except.bind]
    rw [compileLeaves, leaves]
    simp [sortLeaves, Schema.exclusivePairs, Schema.nestedPairs, overlap?, selectLeaves,
      Schema.leafGroups, Schema.crossPairs, Schema.leafCount, Schema.areDisjoint, keyed]
    rfl
  exact compileSpace_of_compileNode (by decide)
    (Schema.domainPart_of_allOfFree keyedOrNull_allOfFree) node

theorem keyedOrNull_proper : keyedOrNull.Proper := by
  simp [Schema.Proper, Schema.Every, Schema.parts, Schema.partsOfBranches,
    Schema.partsOfProperties, Schema.ProperPart, Scalar.Proper, keyedOrNull, keyed, oneToThree]
  refine ⟨List.pairwise_singleton _ _, List.pairwise_singleton _ _, by simp [keyedRules], .nil, ?_⟩
  simp [keyedRules]

theorem keyedOrNull_bounds : keyedOrNull.IntegerBounds := by
  simp [Schema.IntegerBounds, Schema.Every, Schema.parts, Schema.partsOfBranches,
    Schema.partsOfProperties, keyedOrNull, keyed, oneToThree, Bound.inclusive,
    Binary64.isSmall_ofInt]

/-- The dimensions of the space have names of their own. -/
theorem keyedOrNull_distinct : ∀ active, Activates [keyedOrNullSelector] active →
    (active.map Dimension.name).Nodup := by
  intro active ha
  cases ha with
  | selector chosen hc hi hr =>
      obtain rfl := activates_nil hr
      have member := (mem_of_branch? hc).1
      simp only [List.mem_cons, List.not_mem_nil, or_false] at member
      rcases member with rfl | rfl
      · cases hi with
        | plain hi =>
            obtain rfl := activates_nil hi
            decide
      · obtain rfl := activates_nil hi
        decide

theorem apply_of_assigns_keyedOrNull :
    (keyedOrNull.Proper ∧ keyedOrNull.AllOfFree ∧ keyedOrNull.FiniteHints ∧
      keyedOrNull.IntegerBounds ∧ keyedOrNull.IntegerHints) ∧
    ∃ space, compileSpace {} "s" keyedOrNull = .ok space ∧
      (∀ active, Activates space.dimensions active → (active.map Dimension.name).Nodup) ∧
      Assigns space.dimensions [(keyedOrNullSelector, .text "k"), (keyedDimension, .int 2)] ∧
      ∃ v, space.apply [("choice", .text "k"), ("k", .int 2)] = .ok v ∧
        space.frame.domain.accepts v = true ∧ keyedOrNull.accepts v = true := by
  have hints : keyedOrNull.FiniteHints := by
    simp [Schema.FiniteHints, Schema.Every, Schema.parts, Schema.partsOfBranches,
      Schema.partsOfProperties, keyedOrNull, keyed, oneToThree]
  have integerHints : keyedOrNull.IntegerHints := by
    simp [Schema.IntegerHints, Schema.Every, Schema.parts, Schema.partsOfBranches,
      Schema.partsOfProperties, keyedOrNull, keyed, oneToThree]
  have assigned : Assigns [keyedOrNullSelector]
      [(keyedOrNullSelector, .text "k"), (keyedDimension, .int 2)] :=
    @Assigns.selector "choice" [] _ [] "k" _ []
      ("k", ⟨"k", some (.object []), keyed, keyed⟩, [keyedDimension]) rfl
      (@Assigns.plain "k" [.property "k"] (.int 1 3 false) [] (.int 2) []
        ⟨by decide, by decide⟩ .nil) .nil
  exact ⟨⟨keyedOrNull_proper, keyedOrNull_allOfFree, hints, keyedOrNull_bounds, integerHints⟩, _,
    compileSpace_keyedOrNull {} "s", keyedOrNull_distinct, assigned,
    apply_of_assigns keyedOrNull_proper keyedOrNull_allOfFree hints keyedOrNull_bounds integerHints
      (compileSpace_keyedOrNull {} "s") keyedOrNull_distinct assigned fun n => rfl⟩

end TypedPipeline
