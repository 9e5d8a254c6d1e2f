import Mathlib.Data.List.Nodup
import Mathlib.Data.List.Perm.Subperm
import TypedPipeline.Proofs.Schema.Domain
import TypedPipeline.Proofs.Space.Sampling

/-!
# Proofs.Space.Names: when two dimensions share a name

A dimension is named by the steps to its place, joined by points. This file fixes:

* when the names of two places are equal (`dimensionName_inj`, `dimensionName_ne_of_parted`);
* how the places of dimensions that count together lie (`Laid`): apart, or the one below the other
  if that is a selector, or at one place if one is a selector and the other is not;
* that the compiler lays dimensions so (`laid_of_compiles`);
* the two ways to share a name (`Clash`): a selector shares its name with a plain dimension at its
  place, and a selector at the root with the property of that name. There are no others, and random
  samples set as many names as dimensions count unless they clash (`names_nodup_iff_not_clash`).
-/

namespace TypedPipeline

/-! ## 1. Names of places -/

namespace Segment

/-- A step that the compiler makes, under a name without a point. -/
def Plain : Segment → Prop
  | .property name => '.' ∉ name.toList
  | .index _ => True
  | .items => False

/-- Two steps of one sort that are not equal. -/
def Differs : Segment → Segment → Prop
  | .property m, .property n => m ≠ n
  | .index i, .index j => i ≠ j
  | _, _ => False

end Segment

theorem dotless_segmentName {s : Segment} (h : s.Plain) : '.' ∉ (segmentName s).toList := by
  cases s with
  | property name => exact h
  | index i =>
      intro hc
      rw [segmentName, Nat.toString_eq_repr, Nat.toList_repr] at hc
      have := Nat.isDigit_of_mem_toDigits (by decide) (by decide) hc
      cases this
  | items => exact h.elim

theorem segmentName_ne {a b : Segment} (h : a.Differs b) : segmentName a ≠ segmentName b := by
  cases a <;> cases b <;> simp only [Segment.Differs] at h
  · exact h
  · rename_i i j
    intro e
    have digits := congrArg String.toList e
    simp only [segmentName, Nat.toString_eq_repr, Nat.toList_repr] at digits
    refine h ?_
    rw [← Nat.ofDigitChars_ten_toDigits (n := i), digits, Nat.ofDigitChars_ten_toDigits]

/-- **Names of places inside are equal only if the names of the steps are.** -/
theorem dimensionName_inj {p q : Path} (hp : ∀ s ∈ p, s.Plain) (hq : ∀ s ∈ q, s.Plain)
    (np : p ≠ []) (nq : q ≠ []) (h : dimensionName p = dimensionName q) :
    p.map segmentName = q.map segmentName := by
  unfold dimensionName at h
  rw [if_neg np, if_neg nq] at h
  have parts {r : Path} (hr : ∀ s ∈ r, s.Plain) (nr : r ≠ []) :
      List.splitOn '.' (String.intercalate "." (r.map segmentName)).toList =
        (r.map segmentName).map String.toList := by
    rw [String.toList_intercalate]
    refine List.splitOn_intercalate '.' ?_ (by simpa using nr)
    simp only [List.map_map, List.mem_map]
    rintro _ ⟨s, hs, rfl⟩
    exact dotless_segmentName (hr s hs)
  have e := parts hp np
  rw [h, parts hq nq] at e
  exact ((List.map_inj_right fun _ _ => String.toList_inj.1).1 e).symm

/-- Two paths that come to a step of one sort, under two names. -/
def Parted (p q : Path) : Prop := ∃ (common : Path) (a b : Segment) (p' q' : Path),
  p = common ++ a :: p' ∧ q = common ++ b :: q' ∧ a.Differs b

theorem dimensionName_ne_of_parted {p q : Path} (hp : ∀ s ∈ p, s.Plain) (hq : ∀ s ∈ q, s.Plain)
    (h : Parted p q) : dimensionName p ≠ dimensionName q := by
  obtain ⟨common, a, b, p', q', rfl, rfl, differs⟩ := h
  intro e
  have names := dimensionName_inj hp hq (by simp) (by simp) e
  simp only [List.map_append, List.map_cons, List.append_cancel_left_eq, List.cons.injEq] at names
  exact segmentName_ne differs names.1

/-- A place below another one, which is not the root, has another name. -/
theorem dimensionName_ne_below {p q : Path} (h : ∀ s ∈ p ++ q, s.Plain) (np : p ≠ []) (nq : q ≠ []) :
    dimensionName p ≠ dimensionName (p ++ q) := by
  intro e
  have names := dimensionName_inj (fun s hs => h s (List.mem_append_left _ hs)) h np (by simp [np]) e
  have := congrArg List.length names
  simp only [List.length_map, List.length_append] at this
  exact nq (List.length_eq_zero_iff.1 (by omega))

/-- The one place below the root with the name of the root. -/
theorem dimensionName_eq_root {q : Path} (h : ∀ s ∈ q, s.Plain) (nq : q ≠ []) :
    dimensionName [] = dimensionName q ↔ q = [.property rootSelector] := by
  have root : dimensionName [] = dimensionName [.property rootSelector] := by decide
  constructor
  · intro e
    rw [root] at e
    have names := dimensionName_inj (by simp [Segment.Plain, rootSelector]) h (by simp) nq e
    cases q with
    | nil => cases names
    | cons s rest =>
        simp only [List.map_cons, List.map_nil, List.cons.injEq] at names
        obtain rfl : rest = [] := by simpa using names.2
        cases s with
        | property name => rw [show name = rootSelector from names.1.symm]
        | index i =>
            have digits := congrArg String.toList names.1
            simp only [segmentName, Nat.toString_eq_repr, Nat.toList_repr, rootSelector] at digits
            have hc : 'c' ∈ Nat.toDigits 10 i := by rw [← digits]; decide
            cases Nat.isDigit_of_mem_toDigits (by decide) (by decide) hc
        | items => exact (h .items (by simp)).elim
  · rintro rfl
    exact root

/-! ## 2. Places of dimensions -/

/-- A dimension named by its place, which is at or below a path. -/
structure Under (p : Path) (d : Dimension) : Prop where
  name : d.name = dimensionName d.path
  below : ∃ q : Path, d.path = p ++ q ∧ ∀ s ∈ q, s.Plain

/-- The place of a later dimension next to that of an earlier one: the two are parted, or the earlier
    one is a selector and the later one is below it, or is no selector and at its place. -/
def Precedes (d e : Dimension) : Prop :=
  Parted d.path e.path ∨ (d.isSelector = true ∧
    ((∃ q, q ≠ [] ∧ e.path = d.path ++ q) ∨ (e.isSelector = false ∧ e.path = d.path)))

/-- How dimensions that count together lie. -/
structure Laid (p : Path) (active : List Dimension) : Prop where
  under : ∀ d ∈ active, Under p d
  order : active.Pairwise Precedes

theorem Laid.nil {p : Path} : Laid p [] := ⟨by simp, .nil⟩

theorem Under.outer {p : Path} {s : Segment} {d : Dimension} (hs : s.Plain)
    (h : Under (p ++ [s]) d) : Under p d := by
  obtain ⟨name, q, e, plain⟩ := h
  refine ⟨name, s :: q, by rw [e]; simp, ?_⟩
  exact List.forall_mem_cons.2 ⟨hs, plain⟩

/-- **Dimensions below different steps are parted.** -/
theorem laid_join {α : Type} {step : α → Segment} {dims : α → List Dimension} {p : Path}
    {xs : List α} {active : List Dimension} (h : Activates (xs.flatMap dims) active)
    (distinct : xs.Pairwise fun x y => (step x).Differs (step y))
    (plain : ∀ x ∈ xs, (step x).Plain)
    (each : ∀ x ∈ xs, ∀ active, Activates (dims x) active → Laid (p ++ [step x]) active) :
    Laid p active ∧ ∀ d ∈ active, ∃ x ∈ xs, ∃ q, d.path = p ++ step x :: q := by
  revert distinct plain each
  refine activates_flatMap (P := fun xs active =>
    (xs.Pairwise fun x y => (step x).Differs (step y)) → (∀ x ∈ xs, (step x).Plain) →
    (∀ x ∈ xs, ∀ active, Activates (dims x) active → Laid (p ++ [step x]) active) →
    Laid p active ∧ ∀ d ∈ active, ∃ x ∈ xs, ∃ q, d.path = p ++ step x :: q) ?_ ?_ h
  · exact fun _ _ _ => ⟨.nil, by simp⟩
  · intro x xs a b ha ih distinct plain each
    obtain ⟨apart, distinct⟩ := List.pairwise_cons.1 distinct
    obtain ⟨first, rest⟩ := List.forall_mem_cons.1 each
    obtain ⟨hx, plain⟩ := List.forall_mem_cons.1 plain
    obtain ⟨laid, inside⟩ := ih distinct plain rest
    have laid' := first a ha
    have inside' : ∀ d ∈ a, ∃ q, d.path = p ++ step x :: q := fun d hd => by
      obtain ⟨q, e, _⟩ := (laid'.under d hd).below
      exact ⟨q, by rw [e]; simp⟩
    refine ⟨⟨fun d hd => ?_, List.pairwise_append.2 ⟨laid'.order, laid.order, ?_⟩⟩, fun d hd => ?_⟩
    · rcases List.mem_append.1 hd with hd | hd
      · exact (laid'.under d hd).outer hx
      · exact laid.under d hd
    · intro d hd e he
      obtain ⟨q, ed⟩ := inside' d hd
      obtain ⟨y, hy, q', ee⟩ := inside e he
      exact Or.inl ⟨p, step x, step y, q, q', ed, ee, apart y hy⟩
    · rcases List.mem_append.1 hd with hd | hd
      · exact ⟨x, by simp, inside' d hd⟩
      · obtain ⟨y, hy, q⟩ := inside d hd
        exact ⟨y, List.mem_cons_of_mem _ hy, q⟩

/-- What is below a step is not at the place itself. -/
theorem path_ne_of_inside {α : Type} {step : α → Segment} {p : Path} {xs : List α} {d : Dimension}
    (h : ∃ x ∈ xs, ∃ q, d.path = p ++ step x :: q) : d.path ≠ p := by
  obtain ⟨x, _, q, e⟩ := h
  intro e'
  rw [e'] at e
  simp at e

/-- A selector goes before what counts in its branch, if no selector of the branch is at its place. -/
theorem Laid.selector {p : Path} {branches : List Branch} {active : List Dimension}
    (laid : Laid p active) (h : ∀ d ∈ active, d.isSelector = true → d.path ≠ p) :
    Laid p (.selector (dimensionName p) p branches :: active) := by
  refine ⟨List.forall_mem_cons.2 ⟨⟨rfl, [], by simp [Dimension.path], by simp⟩, laid.under⟩,
    List.pairwise_cons.2 ⟨fun d hd => Or.inr ⟨rfl, ?_⟩, laid.order⟩⟩
  obtain ⟨q, e, _⟩ := (laid.under d hd).below
  by_cases hq : q = []
  · subst hq
    rw [List.append_nil] at e
    refine Or.inr ⟨?_, e⟩
    cases sel : d.isSelector with
    | false => rfl
    | true => exact absurd e (h d hd sel)
  · exact Or.inl ⟨q, hq, e⟩

/-- The names of properties are dotless and not repeated, everywhere inside. -/
def Schema.WellNamed : Schema → Prop := Schema.Every fun
  | .object properties _ => (Keyed.names properties).Nodup ∧
      ∀ name ∈ Keyed.names properties, '.' ∉ name.toList
  | _ => True

theorem laid_plain {p : Path} {d : Domain} {active : List Dimension}
    (h : Activates (Compiled.plain p d).dimensions active) :
    Laid p active ∧ ∀ d ∈ active, d.isSelector = false := by
  cases h with
  | plain h =>
      obtain rfl := activates_nil h
      refine ⟨⟨?_, by simp⟩, ?_⟩
      · intro d hd
        rw [List.mem_singleton.1 hd]
        exact ⟨rfl, [], by simp [Dimension.path], by simp⟩
      · intro d hd
        rw [List.mem_singleton.1 hd]; rfl

/-- **The compiler lays dimensions so.** That a selector and a branch of it are not both selectors at
    one place is because the leaves of a union are no unions. -/
theorem laid_of_compiles {settings : SpaceSettings} {s : Schema} {p : Path} {c : Compiled}
    (h : Compiles settings s p c) (named : s.WellNamed) {active : List Dimension}
    (ha : Activates c.dimensions active) :
    Laid p active ∧ (s.isUnion = false → ∀ d ∈ active, d.isSelector = true → d.path ≠ p) := by
  induction h generalizing active with
  | scalar h =>
      rcases compileScalar_cases h with ⟨v, rfl⟩ | ⟨d, rfl⟩
      · obtain rfl := activates_nil ha
        exact ⟨.nil, by simp⟩
      · obtain ⟨laid, plain⟩ := laid_plain ha
        exact ⟨laid, fun _ d hd sel => by rw [plain d hd] at sel; cases sel⟩
  | @object properties rules p entries map _ _ ih =>
      have distinct : entries.Pairwise fun x y => x.1 ≠ y.1 := by
        have := named.self.1
        rw [← map] at this
        simpa [Keyed.names, List.Nodup, List.pairwise_map] using this
      have mem : ∀ e ∈ entries, (e.1, e.2.1) ∈ properties := fun e he =>
        map ▸ List.mem_map_of_mem he
      obtain ⟨laid, inside⟩ := @laid_join PropertyEntry (fun e => .property e.1) _ _ _ _ ha
        distinct (fun e he => named.self.2 e.1 (List.mem_map.2 ⟨_, mem e he, rfl⟩))
        fun e he active hd => by
          obtain ⟨name, s, c⟩ := e
          cases c with
          | none =>
              obtain rfl := activates_nil hd
              exact .nil
          | some c => exact (ih name s c he (named.property (mem _ he)) hd).1
      exact ⟨laid, fun _ d hd _ => path_ne_of_inside (inside d hd)⟩
  | @array items length p compiled _ _ ih =>
      have flat : compiled.flatMap (·.dimensions) = compiled.zipIdx.flatMap (·.1.dimensions) := by
        have := congrArg (List.flatMap Compiled.dimensions) (List.zipIdx_map_fst 0 compiled)
        rw [List.flatMap_map] at this
        exact this.symm
      have ha : Activates (compiled.zipIdx.flatMap (·.1.dimensions)) active := flat ▸ ha
      have distinct : compiled.zipIdx.Pairwise fun x y => x.2 ≠ y.2 := by
        have := @List.nodup_range' 0 compiled.length 1 (by decide)
        rw [← List.zipIdx_map_snd 0 compiled] at this
        exact List.pairwise_map.1 this
      obtain ⟨laid, inside⟩ := @laid_join (Compiled × Nat) (fun e => .index e.2) _ p _ _ ha
        distinct (fun _ _ => trivial)
        fun e he active hd => (ih e.2 e.1 (List.mem_zipIdx_iff_getElem?.1 he) named.items hd).1
      exact ⟨laid, fun _ d hd _ => path_ne_of_inside (inside d hd)⟩
  | choice form _ h =>
      have union {s : Schema} (hu : s.isUnion = false) {branches : List Schema}
          (form : s = .anyOf branches ∨ s = .oneOf branches) : False := by
        rcases form with rfl | rfl <;> cases hu
      rcases compileChoices_cases h with ⟨only, _, rfl⟩ | rfl
      · obtain rfl := activates_nil ha
        exact ⟨.nil, by simp⟩
      · obtain ⟨laid, plain⟩ := laid_plain ha
        exact ⟨laid, fun hu => (union hu form).elim⟩
  | @union u branches exclusive p c kept fault form _ at' _ _ h ih =>
      have leaf : ∀ l ∈ kept, l.leaf.isUnion = false ∧ l.leaf.WellNamed := by
        intro l hl
        obtain ⟨un, part, _⟩ := Schema.mem_leaves (List.mem_of_getElem? (at' l hl))
        refine ⟨un, named.of_mem ?_⟩
        rcases form with ⟨rfl, _⟩ | ⟨rfl, _⟩ <;> exact List.mem_cons_of_mem _ part
      have union : u.isUnion = true := by
        rcases form with ⟨rfl, _⟩ | ⟨rfl, _⟩ <;> rfl
      refine ⟨?_, fun hu => by rw [union] at hu; cases hu⟩
      rcases selectLeaves_cases h with ⟨only, rfl, rfl⟩ | ⟨branches', rfl, _, from'⟩
      · exact (ih only (by simp) (leaf only (by simp)).2 ha).1
      · cases ha with
        | selector chosen hc hi hr =>
            obtain rfl := activates_nil hr
            obtain ⟨l, hl, e⟩ := from' chosen (mem_of_branch? hc).1
            rw [e] at hi
            obtain ⟨laid, none⟩ := ih l hl (leaf l hl).2 hi
            rw [List.append_nil]
            exact laid.selector (none (leaf l hl).1)

/-! ## 3. Shared names -/

/-- A selector counts together with a plain dimension at its place, or at the root together with the
    property that has the name of selectors there. -/
def Clash (active : List Dimension) : Prop :=
  ∃ d ∈ active, ∃ e ∈ active, d.isSelector = true ∧
    ((e.isSelector = false ∧ e.path = d.path) ∨ (d.path = [] ∧ e.path = [.property rootSelector]))

/-- **Where dimensions are laid so, names are shared in these two ways only.** -/
theorem Laid.nodup_iff {active : List Dimension} (h : Laid [] active) :
    (active.map Dimension.name).Nodup ↔ ¬ Clash active := by
  have place : ∀ d ∈ active, d.name = dimensionName d.path ∧ ∀ s ∈ d.path, s.Plain := by
    intro d hd
    obtain ⟨name, q, e, plain⟩ := h.under d hd
    exact ⟨name, by rw [e]; exact plain⟩
  constructor
  · rintro nodup ⟨d, hd, e, he, sel, clash⟩
    have inj := List.inj_on_of_nodup_map nodup hd he
    rw [(place d hd).1, (place e he).1] at inj
    rcases clash with ⟨plain, same⟩ | ⟨root, prop⟩
    · rw [inj (by rw [same]), plain] at sel
      cases sel
    · have : d.path = e.path := by rw [inj (by rw [root, prop]; decide)]
      rw [root, prop] at this
      cases this
  · intro free
    refine List.pairwise_map.2 (h.order.imp_of_mem fun {d e} hd he precedes => ?_)
    rw [(place d hd).1, (place e he).1]
    rcases precedes with parted | ⟨sel, ⟨q, nq, below⟩ | ⟨plain, same⟩⟩
    · exact dimensionName_ne_of_parted (place d hd).2 (place e he).2 parted
    · have plain := (place e he).2
      by_cases root : d.path = []
      · rw [root]
        intro shared
        have inside : e.path ≠ [] := by simp [below, nq]
        exact free ⟨d, hd, e, he, sel,
          Or.inr ⟨root, (dimensionName_eq_root plain inside).1 shared⟩⟩
      · rw [below] at plain ⊢
        exact dimensionName_ne_below plain root nq
    · exact (free ⟨d, hd, e, he, sel, Or.inl ⟨plain, same⟩⟩).elim

theorem Schema.wellNamed_domainPart {s : Schema} (regular : s.Regular) (dotless : s.Dotless) :
    s.domainPart.WellNamed := by
  intro t ht
  have regular := regular_domainPart regular t ht
  have dotless := allNames_domainPart ‹s.Regular› dotless t ht
  cases t with
  | object properties rules => exact ⟨Keyed.nodup_of_ascending regular.1, dotless⟩
  | _ => trivial

/-- A well-formed schema has a space once its domain is compiled. -/
theorem compileSpace_of_compileNode {settings : SpaceSettings} {name : String} {schema domain : Schema}
    {dimensions : List Dimension} {skeleton : Option Json} (wf : schema.isWellFormed = true)
    (opened : schema.domainPart = domain)
    (h : compileNode settings domain [] = .ok ⟨dimensions, skeleton⟩) :
    compileSpace settings name schema = .ok ⟨⟨name, skeleton, schema, domain⟩, dimensions⟩ := by
  obtain ⟨u, ok⟩ := Except.isOk_iff.1 wf
  rw [compileSpace, ok]
  dsimp only
  rw [opened]
  show (compileNode settings domain [] >>= _) = _
  rw [h]
  rfl

theorem compiles_of_compileSpace {settings : SpaceSettings} {name : String} {schema : Schema}
    {space : Space} (h : compileSpace settings name schema = .ok space) :
    schema.Sound ∧ ∃ c, Compiles settings schema.domainPart [] c ∧
      space = ⟨⟨name, c.skeleton, schema, schema.domainPart⟩, c.dimensions⟩ := by
  unfold compileSpace at h
  split at h
  · cases h
  · rename_i wf
    obtain ⟨c, hc, h⟩ := Except.bind_eq_ok.1 h
    cases h
    refine ⟨Schema.isWellFormed_iff.1 ?_, c, Compiles.compiles_of_compileNode hc, rfl⟩
    rw [Schema.isWellFormed, wf]
    rfl

/-- A list without repetitions has as many members as one with the same members, if that has none. -/
theorem length_eq_iff_nodup {α : Type} {xs ys : List α} (nodup : xs.Nodup)
    (h : ∀ x, x ∈ xs ↔ x ∈ ys) : xs.length = ys.length ↔ ys.Nodup := by
  have sub : xs.Subperm ys := nodup.subperm fun x hx => (h x).1 hx
  constructor
  · intro len
    exact (sub.perm_of_length_le (by omega)).nodup nodup
  · intro nodup'
    exact Nat.le_antisymm sub.length_le (nodup'.subperm fun x hx => (h x).2 hx).length_le

/-- **Dimensions that count together have names of their own unless a selector clashes with one of
    them, and then only a random sample sets fewer names than dimensions count.** -/
theorem names_nodup_iff_not_clash {settings : SpaceSettings} {name : String} {schema : Schema}
    {space : Space} (proper : schema.Proper) (dotless : schema.Dotless)
    (h : compileSpace settings name schema = .ok space) :
    (∀ active, Activates space.dimensions active →
      ((active.map Dimension.name).Nodup ↔ ¬ Clash active)) ∧
    ∀ r, ∃ active, Activates space.dimensions active ∧
      (∀ n, n ∈ (space.sample r).1.names ↔ n ∈ active.map Dimension.name) ∧
      ((space.sample r).1.length = active.length ↔ ¬ Clash active) := by
  obtain ⟨sound, c, hc, rfl⟩ := compiles_of_compileSpace h
  have named := Schema.wellNamed_domainPart (sound.regular proper) dotless
  have distinct : ∀ active, Activates c.dimensions active →
      ((active.map Dimension.name).Nodup ↔ ¬ Clash active) := fun active ha =>
    (laid_of_compiles hc named ha).1.nodup_iff
  refine ⟨distinct, fun r => ?_⟩
  obtain ⟨active, ha, ascending, names⟩ := @Space.exists_activates_sample
    ⟨⟨name, c.skeleton, schema, schema.domainPart⟩, c.dimensions⟩ (labelled_of_compiles hc) r
  refine ⟨active, ha, names, ?_⟩
  rw [← distinct active ha, ← length_eq_iff_nodup (Keyed.nodup_of_ascending ascending) names]
  rw [Keyed.names, List.length_map, List.length_map]

/-! ## 4. A range or null -/

/-- An integer from 1 to 3. -/
def oneToThree : Scalar :=
  { kind := .integer, minimum := some (.inclusive (.ofInt 1))
    maximum := some (.inclusive (.ofInt 3)) }

/-- Null, or an integer from 1 to 3. -/
def oneToThreeOrNull : Schema := .anyOf [.scalar { kind := .null }, .scalar oneToThree]

/-- What it compiles to: the branch of null has no dimension, and that of the integer one which is
    named as the selector is. -/
def oneToThreeOrNullSelector (path : Path) : Dimension :=
  .selector (dimensionName path) path
    [("0", ⟨"0", some .null, .scalar { kind := .null }, .scalar { kind := .null }⟩, []),
      ("1", ⟨"1", none, .scalar oneToThree, .scalar oneToThree⟩,
        [.plain (dimensionName path) path (.int 1 3 false)])]

theorem compileScalar_oneToThree (path : Path) :
    compileScalar oneToThree path = .ok (.plain path (.int 1 3 false)) := by
  have low : oneToThree.sampledLow = some (.ofInt 1) := by decide +kernel
  have high : oneToThree.sampledHigh = some (.ofInt 3) := by decide +kernel
  show compileNumeric oneToThree path = _
  rw [compileNumeric, low, high]
  dsimp only
  rw [if_neg (by decide +kernel), if_neg (by decide +kernel),
    if_pos (show oneToThree.kind = .integer from rfl),
    show (Binary64.ofInt 1).toInt64 = 1 by decide +kernel,
    show (Binary64.ofInt 3).toInt64 = 3 by decide +kernel]
  rfl

theorem compileNode_oneToThreeOrNull (path : Path) :
    compileNode {} oneToThreeOrNull path = .ok ⟨[oneToThreeOrNullSelector path], none⟩ := by
  have leaves : Schema.leaves [.scalar { kind := .null }, .scalar oneToThree] =
      [.scalar { kind := .null }, .scalar oneToThree] := by simp [Schema.leaves]
  have mixed : Schema.enumeratedUnion? [.scalar { kind := .null }, .scalar oneToThree]
      oneToThreeOrNull = none := by
    rw [Schema.enumeratedUnion?, leaves]
    rfl
  have outcomes : leafOutcomes {} [.scalar { kind := .null }, .scalar oneToThree] path =
      .ok [(.scalar { kind := .null }, .ok (.fixed .null)),
        (.scalar oneToThree, .ok (.plain path (.int 1 3 false)))] := by
    simp [leafOutcomes, compileNode, compileScalar_oneToThree]
    rfl
  rw [oneToThreeOrNull, compileNode, ← oneToThreeOrNull, mixed, outcomes]
  dsimp only [bind, Except.bind]
  rw [compileLeaves, leaves]
  simp [sortLeaves, Schema.exclusivePairs, Schema.nestedPairs, overlap?, selectLeaves]
  rfl

theorem compileSpace_oneToThreeOrNull (name : String) :
    compileSpace {} name oneToThreeOrNull =
      .ok ⟨⟨name, none, oneToThreeOrNull, oneToThreeOrNull⟩, [oneToThreeOrNullSelector []]⟩ := by
  have free : oneToThreeOrNull.AllOfFree := by
    simp [Schema.AllOfFree, Schema.Every, Schema.parts, Schema.partsOfBranches, oneToThreeOrNull]
  exact compileSpace_of_compileNode (by decide) (Schema.domainPart_of_allOfFree free)
    (compileNode_oneToThreeOrNull [])

theorem oneToThreeOrNull_proper : oneToThreeOrNull.Proper := by
  simp [Schema.Proper, Schema.Every, Schema.parts, Schema.partsOfBranches, Schema.ProperPart,
    Scalar.Proper, oneToThreeOrNull, oneToThree]

theorem oneToThreeOrNull_dotless : oneToThreeOrNull.Dotless := by
  simp [Schema.Dotless, Schema.AllNames, Schema.Every, Schema.parts, Schema.partsOfBranches,
    oneToThreeOrNull]

/-- What counts if the integer is chosen. -/
theorem activates_oneToThree :
    Activates [oneToThreeOrNullSelector []]
      [oneToThreeOrNullSelector [], .plain "choice" [] (.int 1 3 false)] :=
  @Activates.selector "choice" [] _ [] "1" _ []
    ("1", ⟨"1", none, .scalar oneToThree, .scalar oneToThree⟩,
      [.plain "choice" [] (.int 1 3 false)]) rfl (.plain .nil) .nil

/-- What counts if null is chosen. -/
theorem activates_null : Activates [oneToThreeOrNullSelector []] [oneToThreeOrNullSelector []] :=
  @Activates.selector "choice" [] _ [] "0" _ []
    ("0", ⟨"0", some .null, .scalar { kind := .null }, .scalar { kind := .null }⟩, []) rfl .nil .nil

theorem names_nodup_iff_not_clash_oneToThreeOrNull :
    (oneToThreeOrNull.Proper ∧ oneToThreeOrNull.Dotless ∧
      compileSpace {} "s" oneToThreeOrNull =
        .ok ⟨⟨"s", none, oneToThreeOrNull, oneToThreeOrNull⟩, [oneToThreeOrNullSelector []]⟩) ∧
    ([oneToThreeOrNullSelector []].map Dimension.name).Nodup ∧
    ¬ ([oneToThreeOrNullSelector [], .plain "choice" [] (.int 1 3 false)].map Dimension.name).Nodup := by
  obtain ⟨iff, _⟩ := names_nodup_iff_not_clash oneToThreeOrNull_proper oneToThreeOrNull_dotless
    (compileSpace_oneToThreeOrNull "s")
  refine ⟨⟨oneToThreeOrNull_proper, oneToThreeOrNull_dotless, compileSpace_oneToThreeOrNull "s"⟩,
    (iff _ activates_null).2 ?_, fun nodup => (iff _ activates_oneToThree).1 nodup ?_⟩
  · rintro ⟨d, hd, e, he, _, clash⟩
    obtain rfl := List.mem_singleton.1 hd
    obtain rfl := List.mem_singleton.1 he
    rcases clash with ⟨plain, _⟩ | ⟨_, inside⟩
    · cases plain
    · cases inside
  · exact ⟨_, List.mem_cons_self, _, List.mem_cons_of_mem _ List.mem_cons_self, rfl,
      Or.inl ⟨rfl, rfl⟩⟩

/-- **Names can be shared**: if the integer is chosen, the selector and the integer count, and both
    are named `choice`, so a sample that sets the one sets the other. -/
theorem oneToThreeOrNull_shares_name :
    ¬ ∀ (settings : SpaceSettings) (name : String) (schema : Schema) (space : Space),
      schema.Proper → schema.Dotless → compileSpace settings name schema = .ok space →
      ∀ active, Activates space.dimensions active → (active.map Dimension.name).Nodup := by
  intro unambiguous
  have nodup := unambiguous {} "s" _ _ oneToThreeOrNull_proper oneToThreeOrNull_dotless
    (compileSpace_oneToThreeOrNull "s") _ activates_oneToThree
  exact absurd nodup (by decide)

end TypedPipeline
