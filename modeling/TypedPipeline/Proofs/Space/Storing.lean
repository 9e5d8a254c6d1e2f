import TypedPipeline.Space.Stored
import TypedPipeline.Proofs.Json.Texts
import TypedPipeline.Proofs.Schema.Documents

/-!
# Proofs.Space.Storing: what is restored of a stored space

A space is stored with every part under its name. A fixed part of null is stored as null, as the lack
of a fixed part is. This file fixes:

* the parts that are read back as they were written: settings and domains with finite numbers, and
  schemas in order (`Setting.restore?_stored`, `Domain.restore?_stored`, `Schema.restore?_toDocument`);
* what holds of all domains and frames inside a dimension (`Dimension.All`);
* the space without the fixed parts that are null (`Space.withoutNull`);
* **that this is what is restored** (`Space.restore?_stored`).
-/

namespace TypedPipeline

open JsonText

/-! ## 1. Parts -/

/-- The list from which results are made one by one is found again. -/
theorem mapM_map_of_inverse {α β : Type} {f : β → Option α} {g : α → β} {items : List α}
    (h : ∀ a ∈ items, f (g a) = some a) : (items.map g).mapM f = some items := by
  induction items with
  | nil => rfl
  | cons a rest ih =>
      obtain ⟨first, later⟩ := List.forall_mem_cons.1 h
      rw [List.map_cons, List.mapM_cons, first, ih later]
      rfl

theorem Segment.restore?_stored (segment : Segment) :
    Segment.restore? (ofJson segment.stored) = some segment := by
  cases segment with
  | property name => rfl
  | index position => simp [stored, ofJson, ofMembers, restore?, variant?, Json.nat, word?, Number.asNat?]
  | items => rfl

theorem Path.restore?_stored (path : Path) : Path.restore? (ofJson path.stored) = some path := by
  unfold Path.restore? Path.stored
  rw [items?_ofJson, List.map_map]
  exact mapM_map_of_inverse fun segment _ => segment.restore?_stored

/-- A signed 64-bit integer. -/
def IsWord (i : Int) : Prop := Binary64.minInt64 ≤ i ∧ i ≤ Binary64.maxInt64

theorem signed?_ofJson {i : Int} (h : IsWord i) : (ofJson (.int i)).signed? = some i := if_pos h

theorem double?_ofJson {x : Binary64} (h : x.isFinite = true) :
    (ofJson (.float x)).double? = some x := by
  rw [Schema.float_of_isFinite h]
  rfl

/-- A setting whose number is finite, or a signed 64-bit integer. -/
def Setting.Storable : Setting → Prop
  | .float x => x.isFinite = true
  | .int i => IsWord i
  | _ => True

theorem Setting.restore?_stored {x : Setting} (h : x.Storable) :
    Setting.restore? (ofJson x.stored) = some x := by
  cases x with
  | float x =>
      show ((ofJson (.float x)).double?.bind fun x => some (Setting.float x)) = _
      rw [double?_ofJson h]
      rfl
  | int i =>
      show ((ofJson (.int i)).signed?.bind fun i => some (Setting.int i)) = _
      rw [signed?_ofJson h]
      rfl
  | text s => rfl
  | bool b => rfl
  | null => rfl

/-- A domain of which every number can be stored. -/
def Domain.Storable : Domain → Prop
  | .float low high _ => low.isFinite = true ∧ high.isFinite = true
  | .int low high _ => IsWord low ∧ IsWord high
  | .categorical choices => ∀ x ∈ choices, x.Storable
  | .boolean => True

theorem namedFields?_range (low high logScale : Json) :
    (ofJson (.object [("low", low), ("high", high), ("log_scale", logScale)])).namedFields?
      rangeFields = some [some (ofJson low), some (ofJson high), some (ofJson logScale)] :=
  @namedFields?_ofJson [("low", low), ("high", high), ("log_scale", logScale)]
    (show ["low", "high", "log_scale"].Nodup by decide) rangeFields

/-- What a domain is stored under, and what is read of it. -/
theorem Domain.restore?_stored {d : Domain} (h : d.Storable) :
    ∃ kind content, (ofJson d.stored).variant? = some (kind, content) ∧ kind ≠ "Conditional" ∧
      Domain.restore? kind content = some d := by
  cases d with
  | float low high logScale =>
      refine ⟨"Float", _, rfl, by decide, ?_⟩
      simp only [Domain.restore?]
      rw [namedFields?_range]
      show ((ofJson (.float low)).double?.bind fun l => (ofJson (.float high)).double?.bind fun h =>
        some (Domain.float l h logScale)) = _
      rw [double?_ofJson h.1, double?_ofJson h.2]
      rfl
  | int low high logScale =>
      refine ⟨"Int", _, rfl, by decide, ?_⟩
      simp only [Domain.restore?]
      rw [namedFields?_range]
      show ((ofJson (.int low)).signed?.bind fun l => (ofJson (.int high)).signed?.bind fun h =>
        some (Domain.int l h logScale)) = _
      rw [signed?_ofJson h.1, signed?_ofJson h.2]
      rfl
  | categorical choices =>
      refine ⟨"Categorical", _, rfl, by decide, ?_⟩
      have field := @namedFields?_ofJson [("choices", .array (choices.map Setting.stored))]
        (List.pairwise_singleton _ _) [{ name := "choices" }]
      have each : ((choices.map Setting.stored).map ofJson).mapM Setting.restore? = some choices := by
        rw [List.map_map]
        exact mapM_map_of_inverse fun x hx => Setting.restore?_stored (h x hx)
      simp only [Domain.restore?]
      rw [field]
      show ((ofJson (.array (choices.map Setting.stored))).items?.bind fun items =>
        (items.mapM Setting.restore?).bind fun choices => some (Domain.categorical choices)) = _
      rw [items?_ofJson, Option.bind_some, each]
      rfl
  | boolean => exact ⟨"Boolean", none, rfl, by decide, rfl⟩

/-- A schema that is in order, and reads back as itself. -/
structure Schema.Storable (s : Schema) : Prop where
  sound : s.Sound
  proper : s.Proper
  hints : s.FiniteHints

theorem Schema.Storable.of_mem {s t : Schema} (h : s.Storable) (ht : t ∈ s.parts) : t.Storable :=
  ⟨h.sound.of_mem ht, h.proper.of_mem ht, h.hints.of_mem ht⟩

theorem Schema.restore?_toDocument {s : Schema} (h : s.Storable) :
    Schema.restore? (ofJson s.toDocument) = some s := by
  unfold Schema.restore?
  rw [toValue?_ofJson (ordered_toDocument h.proper)]
  dsimp only [bind, Option.bind]
  rw [ofDocument_toDocument h.sound h.proper h.hints]
  rfl

/-! ## 2. Dimensions and frames -/

namespace Dimension

mutual

/-- Every domain inside, and the frame of every branch, is of a sort. -/
def All (D : Domain → Prop) (F : Frame → Prop) : Dimension → Prop
  | .plain _ _ domain => D domain
  | .selector _ _ branches => AllBranches D F branches

def AllList (D : Domain → Prop) (F : Frame → Prop) : List Dimension → Prop
  | [] => True
  | d :: rest => All D F d ∧ AllList D F rest

def AllBranches (D : Domain → Prop) (F : Frame → Prop) :
    List (String × Frame × List Dimension) → Prop
  | [] => True
  | (_, frame, dimensions) :: rest =>
    F frame ∧ AllList D F dimensions ∧ AllBranches D F rest

end

variable {D : Domain → Prop} {F : Frame → Prop}

theorem allList_iff {dimensions : List Dimension} :
    AllList D F dimensions ↔ ∀ d ∈ dimensions, d.All D F := by
  induction dimensions with
  | nil => simp [AllList]
  | cons d rest ih => simp [AllList, ih]

theorem allBranches_iff {branches : List Branch} :
    AllBranches D F branches ↔ ∀ b ∈ branches, F b.2.1 ∧ ∀ d ∈ b.2.2, d.All D F := by
  induction branches with
  | nil => simp [AllBranches]
  | cons b rest ih =>
      obtain ⟨label, frame, dimensions⟩ := b
      simp [AllBranches, allList_iff, ih, and_assoc]

end Dimension

/-- A frame whose fixed part is a value, and whose schemas read back as themselves. -/
structure Frame.Storable (frame : Frame) : Prop where
  fixed : ∀ v ∈ frame.skeleton, v.Proper
  schema : frame.schema.Storable
  domain : frame.domain.Storable

/-- There is no fixed part of null. -/
def Frame.NullFree (frame : Frame) : Prop := frame.skeleton ≠ some .null

/-- A value, unless it is null. -/
def unlessNull : Option Json → Option Json
  | some .null => none
  | o => o

/-- The frame without its fixed part, if that is null. -/
def Frame.withoutNull (frame : Frame) : Frame :=
  { frame with skeleton := unlessNull frame.skeleton }

namespace Dimension

/-- Everything inside can be stored. -/
def Storable (d : Dimension) : Prop := d.All Domain.Storable Frame.Storable

/-- No branch inside has a fixed part of null. -/
def NullFree (d : Dimension) : Prop := d.All (fun _ => True) Frame.NullFree

mutual

/-- The dimension, with no fixed part of null in any branch. -/
def withoutNull : Dimension → Dimension
  | .plain name path domain => .plain name path domain
  | .selector name path branches => .selector name path (withoutNullBranches branches)

def withoutNullList : List Dimension → List Dimension
  | [] => []
  | d :: rest => withoutNull d :: withoutNullList rest

def withoutNullBranches : List (String × Frame × List Dimension) →
    List (String × Frame × List Dimension)
  | [] => []
  | (label, frame, dimensions) :: rest =>
    (label, frame.withoutNull, withoutNullList dimensions) :: withoutNullBranches rest

end

end Dimension

namespace Space

/-- Neither the space nor any branch has a fixed part of null. -/
def NullFree (space : Space) : Prop :=
  space.frame.NullFree ∧ ∀ d ∈ space.dimensions, d.NullFree

def Storable (space : Space) : Prop :=
  space.frame.Storable ∧ ∀ d ∈ space.dimensions, d.Storable

/-- The space, with no fixed part of null. -/
def withoutNull (space : Space) : Space :=
  ⟨space.frame.withoutNull, Dimension.withoutNullList space.dimensions⟩

end Space

/-! ## 3. Restoring opened once -/

theorem record?_space (name parameters skeleton schema domain : Json) :
    (ofJson (.object [("name", name), ("parameters", parameters), ("skeleton", skeleton),
      ("schema", schema), ("domain", domain)])).record? spaceFields =
      some [some (ofJson name), some (ofJson parameters), some (ofJson skeleton),
        some (ofJson schema), some (ofJson domain)] :=
  @record?_ofJson [("name", name), ("parameters", parameters), ("skeleton", skeleton),
    ("schema", schema), ("domain", domain)]
    (show ["name", "parameters", "skeleton", "schema", "domain"].Nodup by decide) spaceFields

/-- The fixed part that is read where one, or null, is written. -/
theorem optional?_skeleton {skeleton : Option Json} (h : ∀ v ∈ skeleton, v.Proper) :
    optional? (·.toValue?) (some (ofJson (skeleton.getD .null))) = some (unlessNull skeleton) := by
  cases skeleton with
  | none => rfl
  | some v =>
      have value := toValue?_ofJson (h v rfl).ordered
      cases v with
      | null => rfl
      | bool b => rfl
      | number n => rfl
      | text s => rfl
      | array items => exact congrArg (Option.map some) value
      | object members => exact congrArg (Option.map some) value

theorem restoreSpace?_storedWith {frame : Frame} (h : frame.Storable) {stored : List Json}
    {dimensions : List Dimension}
    (hd : restoreDimensions? (ofJson (.array stored)) = some dimensions) :
    restoreSpace? (ofJson (frame.storedWith stored)) = some (frame.withoutNull, dimensions) := by
  have record := record?_space (.text frame.name) (.array stored) (frame.skeleton.getD .null)
    frame.schema.toDocument frame.domain.toDocument
  rw [Frame.storedWith, restoreSpace?]
  split
  · rename_i name parameters skeleton schema domain found
    rw [record] at found
    cases found
    rw [hd, optional?_skeleton h.fixed, Schema.restore?_toDocument h.schema,
      Schema.restore?_toDocument h.domain]
    rfl
  · rename_i other
    exact absurd record (other _ _ _ _ _)

theorem restoreDimensions?_array (stored : List Json) :
    restoreDimensions? (ofJson (.array stored)) =
      restoreDimensionItems? (stored.map ofJson) := by
  have items := items?_ofJson stored
  rw [restoreDimensions?]
  split
  · rename_i found; rw [items] at found; cases found
  · rename_i found; rw [items] at found; cases found; rfl

theorem record?_dimension (name : String) (path : Path) (type : Json) :
    (ofJson (Dimension.storedWith name path type)).record? dimensionFields =
      some [some (ofJson (.text name)), some (ofJson type), some (ofJson path.stored)] :=
  @record?_ofJson [("name", .text name), ("param_type", type), ("path", path.stored)]
    (show ["name", "param_type", "path"].Nodup by decide) dimensionFields

theorem restoreDimension?_plain (name : String) (path : Path) {domain : Domain}
    (h : domain.Storable) :
    restoreDimension? (ofJson (Dimension.storedWith name path domain.stored)) =
      some (.plain name path domain) := by
  have record := record?_dimension name path domain.stored
  obtain ⟨kind, content, variant, plain, restored⟩ := Domain.restore?_stored h
  rw [restoreDimension?]
  split
  · rename_i found
    rw [record] at found
    cases found
    rw [Path.restore?_stored]
    dsimp only [bind, Option.bind, ofJson, string?]
    split
    · rename_i found; rw [variant] at found; cases found; exact absurd rfl plain
    · rename_i found
      rw [variant] at found
      cases found
      rw [restored]
      rfl
    · rename_i found; rw [variant] at found; cases found
  · rename_i other
    exact absurd record (other _ _ _)

theorem restoreBranches?_array (stored : List Json) :
    restoreBranches? (ofJson (.object [("branches", .array stored)])) =
      restoreBranchItems? (stored.map ofJson) := by
  have field : (ofJson (.object [("branches", .array stored)])).namedFields?
      [{ name := "branches" }] = some [some (ofJson (.array stored))] :=
    @namedFields?_ofJson [("branches", .array stored)] (List.pairwise_singleton _ _) _
  have items := items?_ofJson stored
  rw [restoreBranches?]
  split
  · rename_i found
    rw [field] at found
    cases found
    split
    · rename_i found; rw [items] at found; cases found
    · rename_i found; rw [items] at found; cases found; rfl
  · rename_i other
    exact absurd field (other _)

theorem restoreDimension?_selector (name : String) (path : Path) {stored : List Json}
    {branches : List Branch}
    (h : restoreBranchItems? (stored.map ofJson) = some branches) :
    restoreDimension? (ofJson (Dimension.storedWith name path
      (.object [("Conditional", .object [("branches", .array stored)])]))) =
      some (.selector name path branches) := by
  have record := record?_dimension name path
    (.object [("Conditional", .object [("branches", .array stored)])])
  rw [restoreDimension?]
  split
  · rename_i found
    rw [record] at found
    cases found
    rw [Path.restore?_stored]
    show (restoreBranches? (ofJson (.object [("branches", .array stored)]))).bind _ = _
    rw [restoreBranches?_array, h]
    rfl
  · rename_i other
    exact absurd record (other _ _ _)

theorem restoreBranch?_stored (label : String) {frame : Frame} (h : frame.Storable)
    {stored : List Json} {dimensions : List Dimension}
    (hd : restoreDimensionItems? (stored.map ofJson) = some dimensions) :
    restoreBranch? (ofJson (.object [("label", .text label), ("space", frame.storedWith stored)])) =
      some (label, frame.withoutNull, dimensions) := by
  have record : (ofJson (.object [("label", .text label),
      ("space", frame.storedWith stored)])).record? branchFields =
      some [some (ofJson (.text label)), some (ofJson (frame.storedWith stored))] :=
    @record?_ofJson [("label", .text label), ("space", frame.storedWith stored)]
      (show ["label", "space"].Nodup by decide) branchFields
  rw [restoreBranch?]
  split
  · rename_i found
    rw [record] at found
    cases found
    rw [restoreSpace?_storedWith h (by rw [restoreDimensions?_array, hd])]
    rfl
  · rename_i other
    exact absurd record (other _ _)

/-! ## 4. Restored spaces -/

namespace Dimension

mutual

/-- A dimension is restored without the fixed parts of null. -/
theorem restoreDimension?_stored : ∀ {d : Dimension}, d.Storable →
    restoreDimension? (ofJson (storedWith d.name d.path d.storedType)) = some d.withoutNull
  | .plain name path _, h => restoreDimension?_plain name path h
  | .selector name path _, h =>
      restoreDimension?_selector name path (restoreBranchItems?_stored h)

theorem restoreDimensionItems?_stored : ∀ {dimensions : List Dimension},
    AllList Domain.Storable Frame.Storable dimensions →
    restoreDimensionItems? ((storedList dimensions).map ofJson) = some (withoutNullList dimensions)
  | [], _ => by rw [storedList, List.map_nil, restoreDimensionItems?]; rfl
  | d :: rest, h => by
      rw [storedList, List.map_cons, restoreDimensionItems?, restoreDimension?_stored h.1,
        restoreDimensionItems?_stored h.2]
      rfl

theorem restoreBranchItems?_stored : ∀ {branches : List (String × Frame × List Dimension)},
    AllBranches Domain.Storable Frame.Storable branches →
    restoreBranchItems? ((storedBranches branches).map ofJson) =
      some (withoutNullBranches branches)
  | [], _ => by rw [storedBranches, List.map_nil, restoreBranchItems?]; rfl
  | (label, frame, dimensions) :: rest, h => by
      rw [storedBranches, List.map_cons, restoreBranchItems?,
        restoreBranch?_stored label h.1 (restoreDimensionItems?_stored h.2.1),
        restoreBranchItems?_stored h.2.2]
      rfl

end

end Dimension

/-- **A space is restored without the fixed parts of null.** -/
theorem Space.restore?_stored {space : Space} (h : space.Storable) :
    Space.restore? (ofJson space.stored) = some space.withoutNull := by
  have dimensions := Dimension.restoreDimensionItems?_stored (Dimension.allList_iff.2 h.2)
  rw [restore?, stored, restoreSpace?_storedWith h.1 (by rw [restoreDimensions?_array, dimensions])]
  rfl

end TypedPipeline
