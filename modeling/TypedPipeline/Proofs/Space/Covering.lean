import TypedPipeline.Proofs.Space.Application

/-!
# Proofs.Space.Covering: every value of a schema has a sample

Where nothing is left to defaults and hints, and no branch may be dropped, the space of a schema loses
no value: each value that the schema accepts is built from some sample, up to the equality that does
not tell `1` from `1.0`. This file fixes:

* agreement of arrays and objects, item by item and name by name (`agrees_array`, `agrees_object`);
* assignments put together piece by piece (`Assigns.append`, `exists_pieces`);
* what it means that a value is built of some assignment (`Covers`), for choices and ranges
  (`covers_choices`, `covers_numeric`), objects, arrays and unions (`covers_object`, `covers_array`,
  `covers_union`);
* **that every accepted value is built** (`covers_of_compiles`), by induction on the compilation, and
  that a sample is applied to it (`exists_sample`).
-/

namespace TypedPipeline

/-! ## 1. Agreement -/

namespace Json

/-- Objects agree if they have the same names, and what stands under each agrees. -/
theorem agrees_object {xs ys : Keyed Json} (hx : Keyed.Ascending xs) (hy : Keyed.Ascending ys)
    (names : ∀ name, name ∈ xs.names ↔ name ∈ ys.names)
    (each : ∀ name x y, xs.find? name = some x → ys.find? name = some y → x.agrees y = true) :
    (Json.object xs).agrees (.object ys) = true := by
  have count : xs.length = ys.length := by
    have perm := (List.perm_ext_iff_of_nodup (Keyed.nodup_of_ascending hx)
      (Keyed.nodup_of_ascending hy)).2 names
    simpa [Keyed.names] using perm.length_eq
  rw [agrees_object_iff]
  refine ⟨count, fun m hm => ?_⟩
  have found := Keyed.find?_of_mem (Keyed.nodup_of_ascending hx) hm
  have there := (names m.1).1 (List.mem_map.2 ⟨m, hm, rfl⟩)
  obtain ⟨y, hy⟩ := Option.isSome_iff_exists.1 (Keyed.has_iff.2 there)
  exact ⟨y, hy, each _ _ _ found hy⟩

/-- Arrays agree if their items do. -/
theorem agrees_array {α : Type} {f g : α → Json} {xs : List α}
    (each : ∀ x ∈ xs, (f x).agrees (g x) = true) :
    (Json.array (xs.map f)).agrees (.array (xs.map g)) = true := by
  rw [agrees_array_iff, List.forall₂_map_left_iff, List.forall₂_map_right_iff, List.forall₂_same]
  exact each

end Json

/-! ## 2. Assignments -/

theorem Assigns.append {xs ys : List Dimension} {as bs : List Entry} (h : Assigns xs as)
    (h' : Assigns ys bs) : Assigns (xs ++ ys) (as ++ bs) := by
  induction h with
  | nil => exact h'
  | plain hx _ ih => exact .plain hx ih
  | selector chosen hc hi _ _ ih =>
      rw [List.cons_append, List.cons_append, List.append_assoc]
      exact .selector chosen hc hi ih

/-- **Assignments of several pieces make one of the whole, which writes what each does at its own
    place.** -/
theorem exists_pieces {α : Type} {f : α → List Dimension} {step : α → Segment} {p : Path}
    {Q : α → List Json.Write → Prop} {xs : List α}
    (each : ∀ x ∈ xs, ∃ es writes, Assigns (f x) es ∧
      writesOf es = Json.nested (p ++ [step x]) writes ∧ Q x writes) :
    ∃ entries, ∃ parts : List (α × List Json.Write), Assigns (xs.flatMap f) entries ∧
      parts.map (·.1) = xs ∧
      writesOf entries = Json.nested p (parts.flatMap fun x => Json.nested [step x.1] x.2) ∧
      ∀ x ∈ parts, Q x.1 x.2 := by
  induction xs with
  | nil => exact ⟨[], [], .nil, rfl, rfl, by simp⟩
  | cons x rest ih =>
      obtain ⟨first, later⟩ := List.forall_mem_cons.1 each
      obtain ⟨es, writes, ha, e, q⟩ := first
      obtain ⟨entries, parts, ha', rfl, e', qs⟩ := ih later
      refine ⟨es ++ entries, (x, writes) :: parts, ha.append ha', rfl, ?_,
        List.forall_mem_cons.2 ⟨q, qs⟩⟩
      rw [writesOf_append, e, e', List.flatMap_cons, Json.nested_append, Json.nested_nested]

/-! ## 3. Builders -/

/-- Some assignment builds the value at a place, from the fixed part if there is one, and otherwise
    from whatever stands there. -/
def Covers (p : Path) (c : Compiled) (v : Json) : Prop :=
  ∃ entries writes, Assigns c.dimensions entries ∧ writesOf entries = Json.nested p writes ∧
    (c.skeleton = none → writes ≠ []) ∧
    ∀ start, ((c.skeleton.getD start).placeAll writes).agrees v = true

variable {p : Path} {c : Compiled} {v : Json} {s : Scalar}

theorem covers_fixed {w : Json} (h : w.agrees v = true) : Covers p (.fixed w) v :=
  ⟨[], [], .nil, rfl, fun absent => (by cases absent), fun _ => h⟩

theorem covers_plain {d : Domain} {x : Setting} (hx : d.Contains x)
    (h : x.toJson.agrees v = true) : Covers p (.plain p d) v :=
  ⟨[(.plain (dimensionName p) p d, x)], [([], x.toJson)], .plain hx .nil,
    by simp [writesOf, Dimension.writes, Json.nested], fun _ => by simp, fun _ => h⟩

/-- A choice covers what agrees with a member. -/
theorem covers_choices {members : List Json}
    (h : compileChoices (members.filterMap Setting.ofJson?) p = .ok c) {m : Json} (hm : m ∈ members)
    (pm : m.Proper) (hv : v.isScalar = true) (a : m.agrees v = true) : Covers p c v := by
  have hs := Json.isScalar_of_agrees hv a
  obtain ⟨x, hx⟩ : ∃ x, Setting.ofJson? m = some x := by
    cases m with
    | array items => cases hs
    | object members => cases hs
    | number n =>
        rw [Setting.ofJson?]
        split <;> exact ⟨_, rfl⟩
    | _ => exact ⟨_, rfl⟩
  have there : x ∈ members.filterMap Setting.ofJson? := List.mem_filterMap.2 ⟨m, hm, hx⟩
  obtain ⟨_, scalar, agrees⟩ := Setting.agrees_toJson pm hx
  have back : x.toJson.agrees v = true :=
    Json.agrees_trans (Json.agrees_symm scalar agrees) a
  rcases compileChoices_cases h with ⟨only, e, rfl⟩ | rfl
  · rw [e, List.mem_singleton] at there
    exact covers_fixed (there ▸ back)
  · exact covers_plain (d := .categorical _) there back

/-! ## 4. Ranges -/

namespace Scalar

open Binary64

theorem sampledLow_of_none (h : s.minimumForOptimizer = none) :
    s.sampledLow = s.minimum.map (lowEnd (s.kind == .integer)) := by
  rw [sampledLow, h]
  cases s.minimum <;> rfl

theorem sampledHigh_of_none (h : s.maximumForOptimizer = none) :
    s.sampledHigh = s.maximum.map (highEnd (s.kind == .integer)) := by
  rw [sampledHigh, h]
  cases s.maximum <;> rfl

/-- No value lies between a lower bound and the end that is made of it. -/
theorem lowEnd_le (fin : s.Finite) {b : Bound} (hb : b ∈ s.minimum) {n : Number} (pn : n.Proper)
    (fits : s.Fits (.number n)) :
    (lowEnd (s.kind == .integer) b).units ≤ n.toBinary64.units := by
  have nan := Number.isNaN_toBinary64 pn
  have within := fits.low n rfl b hb
  by_cases hk : s.kind = .integer
  · have within := below_wholeLower pn (fits.whole hk) (fin.low b hb) within
    have number := (isEnd_lowEnd fin hb).nan
    have e : lowEnd (s.kind == .integer) b = wholeLower b := by
      rw [hk]; unfold lowEnd wholeLower; cases b.exclusive <;> rfl
    rw [e] at number ⊢
    exact ((below_eq_false_iff nan number).1 within).1
  · obtain ⟨le, ne⟩ := (below_eq_false_iff nan (isNaN_of_isFinite (fin.low b hb))).1 within
    rw [beq_false_of_ne hk]
    unfold lowEnd
    cases e : b.exclusive with
    | true =>
        have := ne e
        exact nextUp_le_units (fin.low b hb) (by omega)
    | false => exact le

/-- No value lies between an upper bound and the end that is made of it. -/
theorem le_highEnd (fin : s.Finite) {b : Bound} (hb : b ∈ s.maximum) {n : Number} (pn : n.Proper)
    (fits : s.Fits (.number n)) :
    n.toBinary64.units ≤ (highEnd (s.kind == .integer) b).units := by
  have nan := Number.isNaN_toBinary64 pn
  have within := fits.high n rfl b hb
  by_cases hk : s.kind = .integer
  · have within := above_wholeUpper pn (fits.whole hk) (fin.high b hb) within
    have number := (isEnd_highEnd fin hb).nan
    have e : highEnd (s.kind == .integer) b = wholeUpper b := by
      rw [hk]; unfold highEnd wholeUpper; cases b.exclusive <;> rfl
    rw [e] at number ⊢
    exact ((above_eq_false_iff nan number).1 within).1
  · obtain ⟨le, ne⟩ := (above_eq_false_iff nan (isNaN_of_isFinite (fin.high b hb))).1 within
    rw [beq_false_of_ne hk]
    unfold highEnd
    cases e : b.exclusive with
    | true =>
        have := ne e
        exact units_le_nextDown (fin.high b hb) (by omega)
    | false => exact le

/-- **A range without hints covers the numbers that fit.** -/
theorem covers_numeric (fin : s.Finite) (small : s.kind = .integer → s.Small)
    (numeric : s.kind.isNumeric = true) (noLow : s.minimumForOptimizer = none)
    (noHigh : s.maximumForOptimizer = none) (h : compileNumeric s p = .ok c) (pv : v.Proper)
    (fits : s.Fits v) : Covers p c v := by
  obtain ⟨n, rfl⟩ := exists_number numeric fits.kind
  have pv : n.Proper := pv
  obtain ⟨low, high, hl, hh, _, cases⟩ := compileNumeric_cases h
  rw [sampledLow_of_none noLow] at hl
  rw [sampledHigh_of_none noHigh] at hh
  obtain ⟨a, ha, rfl⟩ := Option.map_eq_some_iff.1 hl
  obtain ⟨b, hb, rfl⟩ := Option.map_eq_some_iff.1 hh
  have le := lowEnd_le fin ha pv fits
  have le' := le_highEnd fin hb pv fits
  have lower := isEnd_lowEnd fin ha
  have upper := isEnd_highEnd fin hb
  revert lower upper le le' cases
  generalize lowEnd (s.kind == .integer) a = low
  generalize highEnd (s.kind == .integer) b = high
  intro cases le le' lower upper
  by_cases hk : s.kind = .integer
  · obtain ⟨m, hm⟩ := (Number.isIntegral_iff pv).1 (fits.whole hk)
    obtain ⟨lowUnits, _⟩ := (lower.whole hk (small hk)).toInt64
    obtain ⟨highUnits, _⟩ := (upper.whole hk (small hk)).toInt64
    have atLeast : low.toInt64 ≤ m :=
      Int.le_of_mul_le_mul_right (by rw [← lowUnits, ← hm]; exact le) unitsPerOne_pos
    have atMost : m ≤ high.toInt64 :=
      Int.le_of_mul_le_mul_right (by rw [← highUnits, ← hm]; exact le') unitsPerOne_pos
    simp only [if_pos hk] at cases
    rcases cases with ⟨e, rfl⟩ | ⟨_, log, rfl⟩
    · have same : low.toInt64 = high.toInt64 := by
        refine Int.eq_of_mul_eq_mul_right (Int.ne_of_gt unitsPerOne_pos) ?_
        rw [← lowUnits, ← highUnits]
        exact (equals_iff.1 e).2.2
      rw [show low.toInt64 = m by omega]
      exact covers_fixed (int_agrees pv hm)
    · exact covers_plain (x := .int m) ⟨atLeast, atMost⟩ (int_agrees pv hm)
  · have fine := Number.isFinite_toBinary64 pv
    have nan := isNaN_of_isFinite fine
    have agrees (x : Binary64) (hx : x.units = n.toBinary64.units) :
        (Json.float x).agrees (.number n) = true := by
      have finite : x.isFinite = true := by
        rw [isFinite_iff_units, hx]
        exact isFinite_iff_units.1 fine
      rw [show Json.float x = .number (.float x) from if_pos finite, Json.agrees]
      exact equals_iff.2 ⟨isNaN_of_isFinite finite, nan, hx⟩
    simp only [if_neg hk] at cases
    rcases cases with ⟨e, rfl⟩ | ⟨_, log, rfl⟩
    · have same := (equals_iff.1 e).2.2
      exact covers_fixed (agrees low (by omega))
    · refine covers_plain (x := .float n.toBinary64) ⟨fine, ?_, ?_⟩ (agrees _ rfl)
      · exact (less_eq_false_iff nan lower.nan).2 le
      · exact (less_eq_false_iff upper.nan nan).2 le'

/-- **A scalar covers what it accepts.** -/
theorem covers_scalar (proper : s.Proper) (fin : s.Finite) (small : s.kind = .integer → s.Small)
    (noLow : s.minimumForOptimizer = none) (noHigh : s.maximumForOptimizer = none)
    (h : compileScalar s p = .ok c) (pv : v.Proper) (fits : s.Fits v) : Covers p c v := by
  rcases compileScalar_forms h with ⟨members, e, h⟩ | ⟨e, ⟨hk, rfl⟩ | ⟨hk, rfl⟩ | ⟨numeric, h⟩⟩
  · obtain ⟨m, hm, a, pm⟩ := exists_effective proper pv e fits
    exact covers_choices h hm pm (isScalar_of_acceptsKind fits.kind) a
  · have kind := fits.kind
    cases v with
    | bool b => exact covers_plain (x := .bool b) trivial (by simp [Setting.toJson, Json.agrees])
    | _ => simp [acceptsKind, hk] at kind
  · have kind := fits.kind
    cases v with
    | null => exact covers_fixed rfl
    | _ => simp [acceptsKind, hk] at kind
  · exact covers_numeric fin small numeric noLow noHigh h pv fits

end Scalar

/-! ## 5. Objects, arrays and unions -/

/-- **An object is covered by what covers its members, if every property is tuned.** -/
theorem covers_properties (rules : ObjectRules) {entries : List PropertyEntry} {members : Keyed Json}
    (ascending : (entries.map (·.1)).Pairwise (· < ·)) (ordered : Keyed.Ascending members)
    (each : ∀ e ∈ entries, ∃ d w, e.2.2 = some d ∧ members.find? e.1 = some w ∧
      Covers (p ++ [.property e.1]) d w)
    (closed : ∀ name ∈ members.names, name ∈ entries.map (·.1)) :
    Covers p (joinProperties rules entries) (.object members) := by
  obtain ⟨es, parts, ha, rfl, eq, built⟩ := @exists_pieces PropertyEntry PropertyEntry.dimensions
    (fun e => .property e.1) p (fun e writes => ∃ d w, e.2.2 = some d ∧ members.find? e.1 = some w ∧
      (d.skeleton = none → writes ≠ []) ∧
      ∀ start, ((d.skeleton.getD start).placeAll writes).agrees w = true) entries (by
    intro e he
    obtain ⟨d, w, hd, hw, es, writes, ha, eq, ne, agrees⟩ := each e he
    exact ⟨es, writes, by rw [PropertyEntry.dimensions, hd]; exact ha, eq, d, w, hd, hw, ne, agrees⟩)
  have names : (parts.map (·.1)).map (·.1) = parts.map (·.1.1) := List.map_map
  rw [names] at ascending closed
  obtain ⟨members', asc, placed, found, lost⟩ := placed_properties rules ascending
  refine ⟨es, _, ha, eq, fun absent => (by cases absent), fun start => ?_⟩
  show (Json.placeAll (.object _) _).agrees _ = true
  rw [placed]
  have look : ∀ x ∈ parts, ∃ u w, members'.find? x.1.1 = some u ∧ members.find? x.1.1 = some w ∧
      u.agrees w = true := by
    intro x hx
    obtain ⟨d, w, hd, hw, ne, agrees⟩ := built x hx
    have skeleton : x.1.skeleton rules = d.skeleton := by rw [PropertyEntry.skeleton, hd]
    refine ⟨_, w, ?_, hw, agrees .null⟩
    rw [found x hx, skeleton, placed_of_tuned ne]
  have entry {name : String} (hn : name ∈ parts.map (·.1.1)) : ∃ u w, members'.find? name = some u ∧
      members.find? name = some w ∧ u.agrees w = true := by
    obtain ⟨x, hx, rfl⟩ := List.mem_map.1 hn
    exact look x hx
  refine Json.agrees_object asc ordered (fun name => ⟨fun hn => ?_, fun hn => ?_⟩)
    fun name u w hu hw => ?_
  · refine Classical.byContradiction fun absent => ?_
    have outside : name ∉ parts.map (·.1.1) := fun hn => by
      obtain ⟨_, w, _, hw, _⟩ := entry hn
      rw [Keyed.find?_eq_none_iff.2 absent] at hw
      cases hw
    exact Keyed.find?_eq_none_iff.1 (lost name outside) hn
  · obtain ⟨u, _, hu, _⟩ := entry (closed name hn)
    exact Keyed.has_iff.1 (by rw [Keyed.has, hu]; rfl)
  · have there := closed name (Keyed.has_iff.1 (by rw [Keyed.has, hw]; rfl))
    obtain ⟨_, _, hu', hw', agrees⟩ := entry there
    rw [hu] at hu'
    rw [hw] at hw'
    cases hu'
    cases hw'
    exact agrees

/-- **An array is covered by what covers its items.** -/
theorem covers_items {compiled : List Compiled} {values : List Json}
    (count : compiled.length = values.length)
    (each : ∀ i d w, compiled[i]? = some d → values[i]? = some w → Covers (p ++ [.index i]) d w) :
    Covers p (joinItems compiled) (.array values) := by
  have pairs : (compiled.zip values).zipIdx.map (·.1) = compiled.zip values := List.zipIdx_map_fst ..
  have left : (compiled.zip values).zipIdx.map (·.1.1) = compiled := by
    have := congrArg (List.map Prod.fst) pairs
    rwa [List.map_map, List.map_fst_zip (Nat.le_of_eq count)] at this
  have right : (compiled.zip values).zipIdx.map (·.1.2) = values := by
    have := congrArg (List.map Prod.snd) pairs
    rwa [List.map_map, List.map_snd_zip (Nat.le_of_eq count.symm)] at this
  obtain ⟨es, parts, ha, eq, writes, built⟩ := @exists_pieces ((Compiled × Json) × Nat)
    (·.1.1.dimensions) (fun x => .index x.2) p
    (fun x writes => ∀ start, ((x.1.1.skeleton.getD start).placeAll writes).agrees x.1.2 = true)
    (compiled.zip values).zipIdx (by
    rintro ⟨⟨d, w⟩, i⟩ hx
    obtain ⟨hd, hw⟩ := List.getElem?_zip_eq_some.1 (List.mem_zipIdx_iff_getElem?.1 hx)
    obtain ⟨es, writes, ha, eq, _, agrees⟩ := each i d w hd hw
    exact ⟨es, writes, ha, eq, agrees⟩)
  have positions : parts.map (·.1.2) = List.range' 0 parts.length := by
    have := congrArg (List.map Prod.snd) eq
    rw [List.map_map, List.zipIdx_map_snd] at this
    rw [show parts.map (·.1.2) = _ from this, ← List.length_zipIdx (i := 0), ← eq, List.length_map]
  refine ⟨es, _, ?_, writes, fun absent => (by cases absent), fun start => ?_⟩
  · show Assigns (compiled.flatMap (·.dimensions)) es
    rw [← left, List.flatMap_map]
    exact ha
  · show (Json.placeAll (.array (compiled.map _)) _).agrees (.array values) = true
    have skeletons : compiled.map (fun d => d.skeleton.getD .null) =
        parts.map fun x => x.1.1.1.skeleton.getD .null := by
      conv_lhs => rw [← left, ← eq]
      rw [List.map_map, List.map_map]
      rfl
    have items : values = parts.map fun x => x.1.1.2 := by
      conv_lhs => rw [← right, ← eq]
      rw [List.map_map]
      rfl
    rw [skeletons, placed_items (fun x : Compiled × Json => x.1.skeleton.getD .null) positions, items]
    exact Json.agrees_array fun x hx => built x hx .null

/-- The labels of the branches of a selector are different. -/
theorem nodup_distinctLabels (labels : List String) : (distinctLabels labels).Nodup := by
  unfold distinctLabels
  split
  · assumption
  · refine List.Nodup.map (fun i j e => ?_) List.nodup_range
    have digits : Nat.toDigits 10 i = Nat.toDigits 10 j := by
      have := congrArg String.toList e
      simpa only [Nat.toString_eq_repr, Nat.toList_repr] using this
    rw [← Nat.ofDigitChars_ten_toDigits (n := i), digits, Nat.ofDigitChars_ten_toDigits]

/-- **Every leaf that is kept is the only one, or can be chosen by a label.** -/
theorem exists_label {kept : List CompiledLeaf} {fault : Option Fault}
    (h : selectLeaves kept fault p = .ok c) {l : CompiledLeaf} (hl : l ∈ kept) :
    c = l.compiled ∨ ∃ branches label, c = ⟨[.selector (dimensionName p) p branches], none⟩ ∧
      (Dimension.selector (dimensionName p) p branches).branch? label = some (l.branch label) := by
  unfold selectLeaves at h
  split at h
  · cases h
  · cases h
    exact Or.inl (by rw [List.mem_singleton.1 hl])
  · cases h
    have count : (distinctLabels (kept.map (·.label))).length = kept.length := by
      rw [length_distinctLabels, List.length_map]
    obtain ⟨i, hi, rfl⟩ := List.mem_iff_getElem.1 hl
    refine Or.inr ⟨_, (distinctLabels (kept.map (·.label)))[i], rfl, ?_⟩
    refine branch?_of_mem ?_ (b := kept[i].branch _) ?_
    · refine (congrArg List.Nodup (List.ext_getElem ?_ fun j _ _ => ?_)).mpr
        (nodup_distinctLabels (kept.map (·.label)))
      · rw [List.length_map, List.length_zipWith, count, Nat.min_self]
      · rw [List.getElem_map, List.getElem_zipWith]
    · refine List.mem_iff_getElem.2 ⟨i, ?_, ?_⟩
      · rw [List.length_zipWith, count, Nat.min_self]
        exact hi
      · rw [List.getElem_zipWith]
        rfl

/-- **A union is covered by a leaf that covers the value.** -/
theorem covers_leaf {kept : List CompiledLeaf} {fault : Option Fault}
    (h : selectLeaves kept fault p = .ok c) {l : CompiledLeaf} (hl : l ∈ kept)
    (covers : Covers p l.compiled v) : Covers p c v := by
  rcases exists_label h hl with rfl | ⟨branches, label, rfl, hb⟩
  · exact covers
  · obtain ⟨es, writes, ha, eq, ne, agrees⟩ := covers
    refine ⟨(.selector (dimensionName p) p branches, .text label) :: (es ++ []),
      (l.compiled.skeleton.map fun value => ([], value)).toList ++ writes,
      .selector _ hb ha .nil, ?_, fun _ empty => ?_, fun start => ?_⟩
    · rw [List.append_nil, writesOf_selector hb, eq, Json.nested_append]
      show (l.compiled.skeleton.map _).toList ++ _ = _
      cases l.compiled.skeleton <;> simp [Json.nested]
    · obtain ⟨none, rfl⟩ := List.append_eq_nil_iff.1 empty
      cases hs : l.compiled.skeleton with
      | none => exact ne hs rfl
      | some value => rw [hs] at none; cases none
    · have agrees := agrees start
      cases hs : l.compiled.skeleton with
      | none => rw [hs] at agrees; exact agrees
      | some value => rw [hs] at agrees; exact agrees

/-! ## 6. Choices of unions -/

theorem mem_foldl_addMember_of_mem {w : Json} {values : List Json} :
    ∀ {found : List Json}, w ∈ found → w ∈ values.foldl Schema.addMember found := by
  induction values with
  | nil => exact fun h => h
  | cons x rest ih =>
      intro found h
      refine ih ?_
      unfold Schema.addMember
      split
      · exact h
      · exact List.mem_append_left _ h

/-- Nothing is lost by leaving out what agrees with a member that is there. -/
theorem exists_agrees_of_mem {m : Json} {values : List Json} (hm : m ∈ values)
    (self : m.agrees m = true) :
    ∀ {found : List Json}, ∃ w ∈ values.foldl Schema.addMember found, w.agrees m = true := by
  induction values with
  | nil => cases hm
  | cons x rest ih =>
      intro found
      rw [List.foldl_cons]
      rcases List.mem_cons.1 hm with rfl | hm
      · unfold Schema.addMember
        split
        · rename_i there
          obtain ⟨w, hw, a⟩ := List.any_eq_true.1 there
          exact ⟨w, mem_foldl_addMember_of_mem hw, a⟩
        · exact ⟨m, mem_foldl_addMember_of_mem (by simp), self⟩
      · exact ih hm

theorem exists_mem_of_mapM {α β : Type} {f : α → Option β} {xs : List α} {ys : List β}
    (h : xs.mapM f = some ys) {x : α} (hx : x ∈ xs) : ∃ y ∈ ys, f x = some y := by
  induction xs generalizing ys with
  | nil => cases hx
  | cons first rest ih =>
      rw [List.mapM_cons] at h
      obtain ⟨y, hy, h⟩ := Option.bind_eq_some_iff.1 h
      obtain ⟨later, hl, h⟩ := Option.bind_eq_some_iff.1 h
      cases h
      rcases List.mem_cons.1 hx with rfl | hx
      · exact ⟨y, List.mem_cons_self, hy⟩
      · obtain ⟨y', hy', e⟩ := ih hl hx
        exact ⟨y', List.mem_cons_of_mem _ hy', e⟩

/-- A value that a leaf accepts agrees with one of its members. -/
theorem exists_mem_of_leafMembers {leaf : Schema} {members : List Json} (proper : leaf.Proper)
    (e : leaf.leafMembers? = some members) (pv : v.Proper) (acc : leaf.accepts v = true) :
    v.isScalar = true ∧ ∃ m ∈ members, m.agrees v = true ∧ m.Proper := by
  cases leaf with
  | scalar s =>
      have fits := Schema.accepts_scalar_iff.1 acc
      refine ⟨Scalar.isScalar_of_acceptsKind fits.kind, ?_⟩
      rw [Schema.leafMembers?] at e
      split at e
      · rename_i all he
        cases e
        exact Scalar.exists_effective proper.self pv he fits
      · split at e
        · rename_i hk
          cases e
          have kind := fits.kind
          cases v with
          | null => exact ⟨.null, List.mem_singleton.2 rfl, rfl, trivial⟩
          | _ => simp [Scalar.acceptsKind, hk] at kind
        · cases e
  | _ => cases e

/-- A value that a union accepts is accepted by one of its leaves. -/
theorem exists_leaf_of_union {u : Schema} {branches : List Schema}
    (union : u.IsUnion branches) (acc : u.accepts v = true) :
    ∃ leaf ∈ Schema.leaves branches, leaf.accepts v = true := by
  have inside : Schema.leaves [u] = Schema.leaves branches := by
    rcases union with rfl | rfl <;> simp [Schema.leaves]
  exact inside ▸ Schema.exists_mem_leaves acc

/-- **A union of enumerations covers what it accepts.** -/
theorem covers_enumerated {u : Schema} {branches : List Schema} {choices : List Setting}
    (union : u.IsUnion branches) (proper : ∀ leaf ∈ Schema.leaves branches, leaf.Proper)
    (hu : Schema.enumeratedUnion? branches u = some choices) (h : compileChoices choices p = .ok c)
    (pv : v.Proper) (acc : u.accepts v = true) : Covers p c v := by
  obtain ⟨lists, hl, e⟩ := Option.bind_eq_some_iff.1 hu
  cases e
  obtain ⟨leaf, hleaf, accLeaf⟩ := exists_leaf_of_union union acc
  obtain ⟨members, hms, e⟩ := exists_mem_of_mapM hl hleaf
  obtain ⟨hv, m, hm, a, pm⟩ := exists_mem_of_leafMembers (proper leaf hleaf) e pv accLeaf
  have hs := Json.isScalar_of_agrees hv a
  obtain ⟨w, hw, a'⟩ := @exists_agrees_of_mem m lists.flatten (List.mem_flatten.2 ⟨_, hms, hm⟩)
    (Json.agrees_refl hs pm) []
  have agrees := Json.agrees_trans a' a
  have pw := proper_of_mem_members proper hl hw
  have accepted : u.accepts w = true := by
    rw [Schema.accepts_congr hv pw pv agrees]
    exact acc
  exact covers_choices h (List.mem_filter.2 ⟨hw, accepted⟩) pw hv agrees

/-! ## 7. Compiled schemas -/

/-- What leaves no part of a value open: there are no hints and no defaults, objects are closed and
    require what they declare, and there is no intersection. -/
def Schema.Determined : Schema → Prop := Schema.Every fun
  | .scalar s => s.minimumForOptimizer = none ∧ s.maximumForOptimizer = none
  | .object properties rules => rules.isOpen = false ∧ rules.defaults = [] ∧
      ∀ name ∈ Keyed.names properties, rules.requires name = true
  | .allOf _ => False
  | _ => True

namespace Schema.Determined

variable {schema : Schema}

theorem allOfFree (h : schema.Determined) : schema.AllOfFree := fun t ht => by
  have := h t ht
  cases t <;> trivial

theorem finiteHints (h : schema.Determined) : schema.FiniteHints := fun t ht => by
  have := h t ht
  cases t with
  | scalar s => simp [show s.minimumForOptimizer = none from this.1,
      show s.maximumForOptimizer = none from this.2]
  | _ => trivial

theorem integerHints (h : schema.Determined) : schema.IntegerHints := fun t ht => by
  have := h t ht
  cases t with
  | scalar s => simp [show s.minimumForOptimizer = none from this.1,
      show s.maximumForOptimizer = none from this.2]
  | _ => trivial

end Schema.Determined

/-- **What the compiler makes of such a schema, with every branch kept, builds each of its values.** -/
theorem covers_of_compiles {settings : SpaceSettings} {s : Schema} (h : Compiles settings s p c)
    (strict : settings.dropBranches = false) (sampled : s.Sampled) (whole : s.Determined) :
    ∀ v : Json, v.Proper → s.accepts v = true → Covers p c v := by
  induction h with
  | @scalar s p c h =>
      intro v pv acc
      obtain ⟨proper, fin, small⟩ := sampled.scalar
      obtain ⟨noLow, noHigh⟩ := whole.self
      exact Scalar.covers_scalar proper fin small noLow noHigh h pv (Schema.accepts_scalar_iff.1 acc)
  | @object properties rules p entries map _ untuned ih =>
      intro v pv acc
      obtain ⟨members, rfl, each, outside⟩ := Schema.accepts_object.1 acc
      obtain ⟨ordered, values⟩ := pv
      obtain ⟨closed, noDefaults, required⟩ := whole.self
      have names : entries.map (·.1) = Keyed.names properties := by
        rw [← map, Keyed.names, List.map_map]; rfl
      refine covers_properties rules (names ▸ sampled.proper.self.1) ordered (fun e he => ?_)
        fun name hn => names ▸ Keyed.has_iff.1 (outside closed name hn)
      obtain ⟨name, s, d⟩ := e
      have hs : (name, s) ∈ properties := map ▸ List.mem_map_of_mem he
      have needed := required name (List.mem_map.2 ⟨_, hs, rfl⟩)
      cases d with
      | none =>
          rcases untuned name s he with given | free
          · rw [noDefaults] at given; cases given
          · rw [needed] at free; cases free
      | some d =>
          have accepted := each name s hs
          unfold Schema.AcceptsProperty at accepted
          cases hw : Keyed.find? members name with
          | none => simp [hw, needed] at accepted
          | some w =>
              rw [hw] at accepted
              exact ⟨d, w, rfl, rfl, ih name s d he (sampled.of_mem (Schema.property_mem_parts hs))
                (whole.of_mem (Schema.property_mem_parts hs)) w
                (Json.properMembers_iff.1 values _ (Keyed.mem_of_find? hw)) accepted⟩
  | @array items length p compiled fixed _ ih =>
      intro v pv acc
      obtain ⟨values, rfl, ⟨least, most⟩, each⟩ := Schema.accepts_array.1 acc
      obtain ⟨hm, hn⟩ := fixedLength?_eq_some_iff.1 fixed
      have count : compiled.length = values.length :=
        Nat.le_antisymm (least _ hm) (most _ hn)
      refine covers_items count fun i d w hd hw => ?_
      have hw := List.mem_of_getElem? hw
      exact ih i d hd (sampled.of_mem Schema.items_mem_parts) (whole.of_mem Schema.items_mem_parts) w
        (Json.properItems_iff.1 pv w hw) (each w hw)
  | @choice u branches choices p c form hu h =>
      intro v pv acc
      refine covers_enumerated form (fun leaf hl => ?_) hu h pv acc
      refine (sampled.of_mem ?_).proper
      have part := (Schema.mem_leaves hl).2.1
      rcases form with rfl | rfl <;> exact List.mem_cons_of_mem _ part
  | @union u branches exclusive p c kept fault form _ at' all _ h ih =>
      intro v pv acc
      obtain ⟨leaf, hleaf, accLeaf⟩ :=
        exists_leaf_of_union (form.imp And.left And.left) acc
      obtain ⟨l, hl, rfl⟩ := List.mem_map.1 (all strict ▸ hleaf)
      have part : l.leaf ∈ u.parts := by
        have part := (Schema.mem_leaves hleaf).2.1
        rcases form with ⟨rfl, _⟩ | ⟨rfl, _⟩ <;> exact List.mem_cons_of_mem _ part
      exact covers_leaf h hl (ih l hl (sampled.of_mem part) (whole.of_mem part) v pv accLeaf)

/-! ## 8. Samples -/

/-- The entries of a list, in order. -/
theorem Keyed.exists_ascending {α : Type} (entries : List (String × α)) :
    ∃ ordered : Keyed α, Keyed.Ascending ordered ∧
      ∀ name, ordered.find? name = Keyed.find? entries name := by
  induction entries with
  | nil => exact ⟨[], .nil, fun _ => rfl⟩
  | cons e rest ih =>
      obtain ⟨ordered, ascending, same⟩ := ih
      refine ⟨ordered.put e.1 e.2, Keyed.ascending_put ascending _ _, fun name => ?_⟩
      rw [Keyed.find?_put, same]
      rfl

/-- **Where dimensions that count together have names of their own and no branch may be dropped, every
    value of a schema that leaves nothing open is what some sample is applied to: one that gives each
    dimension that counts a setting of its domain. The values agree up to the kind of number.** -/
theorem exists_sample {settings : SpaceSettings} {name : String} {schema : Schema} {space : Space}
    (proper : schema.Proper) (whole : schema.Determined) (bounds : schema.IntegerBounds)
    (strict : settings.dropBranches = false) (h : compileSpace settings name schema = .ok space)
    (distinct : ∀ active, Activates space.dimensions active →
      (active.map Dimension.name).Nodup)
    {v : Json} (pv : v.Proper) (acc : schema.accepts v = true) :
    ∃ entries, ∃ sample : Sample, Assigns space.dimensions entries ∧ Keyed.Ascending sample ∧
      (∀ n, sample.find? n = Keyed.find? (entries.map fun e => (e.1.name, e.2)) n) ∧
      ∃ w, space.apply sample = .ok w ∧ w.agrees v = true := by
  obtain ⟨sound, c, hc, rfl⟩ := compiles_of_compileSpace h
  rw [Schema.domainPart_of_allOfFree whole.allOfFree] at hc ⊢
  have sampled : schema.Sampled := ⟨sound, proper, whole.finiteHints, bounds, whole.integerHints⟩
  obtain ⟨entries, writes, ha, eq, _, agrees⟩ := covers_of_compiles hc strict sampled whole v pv acc
  obtain ⟨writes', eq', _, holds⟩ := builds_of_compiles hc sampled entries ha
  rw [Json.nested_root] at eq eq'
  obtain rfl : writes = writes' := eq.symm.trans eq'
  have distinct : (entries.map (·.1.name)).Nodup := by
    have := distinct _ ha.activates
    rwa [List.map_map] at this
  obtain ⟨sample, ascending, given⟩ := Keyed.exists_ascending (entries.map fun e => (e.1.name, e.2))
  obtain ⟨used, filled, mem⟩ := Space.fillDimensions_eq ha
    (fun e he => by rw [given, find?_entries distinct he]) name ⟨c.skeleton.getD .null, []⟩
  rw [eq] at filled
  have accepted := (holds .null).2
  refine ⟨entries, sample, ha, ascending, given, _,
    Space.apply_eq_ok filled (Space.unknownName?_eq_none fun n hn => (mem n).2 ?_) accepted accepted,
    agrees .null⟩
  rw [Keyed.has, given, ← Keyed.has, Keyed.has_iff, Keyed.names, List.map_map] at hn
  exact Or.inr hn

/-- The integer is found for a value that holds it in double precision. -/
theorem exists_sample_keyedOrNull :
    (keyedOrNull.Proper ∧ keyedOrNull.Determined ∧ keyedOrNull.IntegerBounds) ∧
    ∃ space, compileSpace { dropBranches := false } "s" keyedOrNull = .ok space ∧
      (∀ active, Activates space.dimensions active → (active.map Dimension.name).Nodup) ∧
      (Json.object [("k", .float (.ofInt 2))]).Proper ∧
      keyedOrNull.accepts (.object [("k", .float (.ofInt 2))]) = true ∧
      ∃ sample w, space.apply sample = .ok w ∧
        w.agrees (.object [("k", .float (.ofInt 2))]) = true := by
  have whole : keyedOrNull.Determined := by
    simp [Schema.Determined, Schema.Every, Schema.parts, Schema.partsOfBranches,
      Schema.partsOfProperties, keyedOrNull, keyed, keyedRules, oneToThree, Keyed.names,
      ObjectRules.requires]
  have finite : (Binary64.ofInt 2).isFinite = true := by decide +kernel
  have proper : (Json.object [("k", .float (.ofInt 2))]).Proper := by
    refine ⟨List.pairwise_singleton _ _, ?_, trivial⟩
    rw [Json.float, if_pos finite]
    exact finite
  have accepted : keyedOrNull.accepts (.object [("k", .float (.ofInt 2))]) = true := by
    decide +kernel
  obtain ⟨_, sample, _, _, _, w, applied, agrees⟩ := exists_sample keyedOrNull_proper whole
    keyedOrNull_bounds rfl (compileSpace_keyedOrNull { dropBranches := false } "s")
    keyedOrNull_distinct proper accepted
  exact ⟨⟨keyedOrNull_proper, whole, keyedOrNull_bounds⟩, _, compileSpace_keyedOrNull _ "s",
    keyedOrNull_distinct, proper, accepted, sample, w, applied, agrees⟩

end TypedPipeline
