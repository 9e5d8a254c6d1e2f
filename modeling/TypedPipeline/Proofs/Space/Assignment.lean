import TypedPipeline.Space.Apply
import TypedPipeline.Proofs.Space.Activation
import TypedPipeline.Proofs.Space.Domains
import TypedPipeline.Proofs.Space.Placement

/-!
# Proofs.Space.Assignment: settings for the dimensions that count

An assignment gives each dimension that counts a setting of its domain, and each selector that counts
a label. This file fixes:

* the assignments (`Assigns`), which say what counts as well (`Assigns.activates`);
* what an assignment writes, and where (`Dimension.writes`);
* **that a sample of the same settings fills in these writes and leaves no name over**
  (`fillDimensions_eq`, `unknownName?_eq_none`);
* that the writes of several lists of dimensions are those of each (`exists_writes`).
-/

namespace TypedPipeline

/-- A dimension and the setting it is given. -/
abbrev Entry := Dimension × Setting

/-- Each dimension that counts is given a setting of its domain, or the label of one of its
    branches. -/
inductive Assigns : List Dimension → List Entry → Prop where
  | nil : Assigns [] []
  | plain {name path domain rest x entries} : Domain.Contains domain x → Assigns rest entries →
      Assigns (.plain name path domain :: rest) ((.plain name path domain, x) :: entries)
  | selector {name path branches rest label inner entries} (chosen : Branch) :
      (Dimension.selector name path branches).branch? label = some chosen →
      Assigns chosen.2.2 inner → Assigns rest entries →
      Assigns (.selector name path branches :: rest)
        ((.selector name path branches, .text label) :: (inner ++ entries))

theorem Assigns.activates {ds : List Dimension} {entries : List Entry} (h : Assigns ds entries) :
    Activates ds (entries.map (·.1)) := by
  induction h with
  | nil => exact .nil
  | plain _ _ ih => exact .plain ih
  | selector chosen hc _ _ ihi ih =>
      rw [List.map_cons, List.map_append]
      exact .selector chosen hc ihi ih

theorem assigns_append {xs ys : List Dimension} {entries : List Entry}
    (h : Assigns (xs ++ ys) entries) :
    ∃ a b, entries = a ++ b ∧ Assigns xs a ∧ Assigns ys b := by
  induction xs generalizing entries with
  | nil => exact ⟨[], entries, rfl, .nil, h⟩
  | cons d rest ih =>
      cases h with
      | plain hx h =>
          obtain ⟨a, b, rfl, ha, hb⟩ := ih h
          exact ⟨_, b, rfl, .plain hx ha, hb⟩
      | selector chosen hc hi h =>
          obtain ⟨a, b, rfl, ha, hb⟩ := ih h
          exact ⟨_, b, by simp, .selector chosen hc hi ha, hb⟩

theorem assigns_nil {entries : List Entry} (h : Assigns [] entries) : entries = [] := by
  cases h; rfl

/-! ## 1. Writes -/

/-- What a setting writes: its value, or the fixed part of the branch it chooses. -/
def Dimension.writes (d : Dimension) (x : Setting) : List Json.Write :=
  match d with
  | .plain _ path _ => [(path, x.toJson)]
  | .selector _ path _ =>
    match x.asText?.bind d.branch? with
    | some b => (b.2.1.skeleton.map fun value => (path, value)).toList
    | none => []

/-- What an assignment writes. -/
def writesOf (entries : List Entry) : List Json.Write := entries.flatMap fun e => e.1.writes e.2

theorem writesOf_append (xs ys : List Entry) : writesOf (xs ++ ys) = writesOf xs ++ writesOf ys :=
  List.flatMap_append

theorem writesOf_selector {name label : String} {path : Path} {branches : List Branch}
    {chosen : Branch} (h : (Dimension.selector name path branches).branch? label = some chosen)
    (rest : List Entry) :
    writesOf ((.selector name path branches, .text label) :: rest) =
      (chosen.2.1.skeleton.map fun value => (path, value)).toList ++ writesOf rest := by
  show Dimension.writes _ _ ++ _ = _
  rw [Dimension.writes, show Setting.asText? (.text label) = some label from rfl,
    Option.bind_some, h]
  rfl

/-- **The writes of the dimensions of several pieces are those of each piece at its own place.** -/
theorem exists_writes {α : Type} {f : α → List Dimension} {step : α → Segment} {p : Path}
    {Q : α → List Json.Write → Prop} {xs : List α} {entries : List Entry}
    (h : Assigns (xs.flatMap f) entries)
    (each : ∀ x ∈ xs, ∀ es, Assigns (f x) es →
      ∃ writes, writesOf es = Json.nested (p ++ [step x]) writes ∧ Q x writes) :
    ∃ parts : List (α × List Json.Write), parts.map (·.1) = xs ∧
      writesOf entries =
        Json.nested p (parts.flatMap fun x => Json.nested [step x.1] x.2) ∧
      ∀ x ∈ parts, Q x.1 x.2 := by
  induction xs generalizing entries with
  | nil =>
      obtain rfl := assigns_nil h
      exact ⟨[], rfl, rfl, by simp⟩
  | cons x rest ih =>
      obtain ⟨a, b, rfl, ha, hb⟩ := assigns_append h
      obtain ⟨first, later⟩ := List.forall_mem_cons.1 each
      obtain ⟨writes, e, q⟩ := first a ha
      obtain ⟨parts, rfl, e', qs⟩ := ih hb later
      refine ⟨(x, writes) :: parts, rfl, ?_, List.forall_mem_cons.2 ⟨q, qs⟩⟩
      rw [writesOf_append, e, e', List.flatMap_cons, Json.nested_append, Json.nested_nested]

/-! ## 2. Filling -/

namespace Space

variable {sample : Sample}

theorem fillBranch_eq {name label : String} {path : Path} {branches : List Branch} {b : Branch}
    (h : (Dimension.selector name path branches).branch? label = some b) (f : Filling) :
    fillBranch sample name path (some label) branches f =
      some (fillDimensions b.2.1.name sample b.2.2 (f.enter name path b.2.1.skeleton)) := by
  induction branches with
  | nil => cases h
  | cons first rest ih =>
      obtain ⟨label', frame, dimensions⟩ := first
      rw [Dimension.branch?, List.find?_cons] at h
      rw [fillBranch]
      by_cases e : label = label'
      · rw [if_pos (congrArg some e)]
        simp only [e, beq_self_eq_true] at h
        cases h; rfl
      · rw [if_neg (by simpa using e)]
        simp only [beq_eq_false_iff_ne.2 (Ne.symm e)] at h
        exact ih h

theorem enter_value (f : Filling) (name : String) (path : Path) (skeleton : Option Json) :
    (f.enter name path skeleton).value =
      f.value.placeAll (skeleton.map fun value => (path, value)).toList ∧
    (f.enter name path skeleton).used = name :: f.used := by
  cases skeleton <;> exact ⟨rfl, rfl⟩

/-- **A sample of the settings of an assignment fills in what that writes.** -/
theorem fillDimensions_eq {ds : List Dimension} {entries : List Entry} (h : Assigns ds entries)
    (given : ∀ e ∈ entries, sample.find? e.1.name = some e.2) (space : String) (f : Filling) :
    ∃ used, fillDimensions space sample ds f =
        .ok ⟨f.value.placeAll (writesOf entries), used⟩ ∧
      ∀ n, n ∈ used ↔ n ∈ f.used ∨ n ∈ entries.map (·.1.name) := by
  induction h generalizing space f with
  | nil =>
      rw [fillDimensions]
      exact ⟨f.used, rfl, by simp⟩
  | @plain name path domain rest x entries _ _ ih =>
      obtain ⟨here, later⟩ := List.forall_mem_cons.1 given
      obtain ⟨used, e, mem⟩ := ih later space (f.set name path x.toJson)
      rw [fillDimensions, show sample.find? name = some x from here]
      refine ⟨used, e, fun n => (mem n).trans ?_⟩
      simp only [Filling.set, List.mem_cons, List.map_cons]
      rw [or_assoc, or_left_comm]
      rfl
  | @selector name path branches rest label inner entries chosen hc _ _ ihi ih =>
      obtain ⟨here, later⟩ := List.forall_mem_cons.1 given
      obtain ⟨value, used⟩ := enter_value f name path chosen.2.1.skeleton
      obtain ⟨usedi, ei, memi⟩ := ihi (fun e he => later e (List.mem_append_left _ he))
        chosen.2.1.name (f.enter name path chosen.2.1.skeleton)
      obtain ⟨used', e, mem⟩ := ih (fun e he => later e (List.mem_append_right _ he)) space
        ⟨(f.enter name path chosen.2.1.skeleton).value.placeAll (writesOf inner), usedi⟩
      refine ⟨used', ?_, fun n => (mem n).trans ?_⟩
      · rw [fillDimensions, show sample.find? name = some (.text label) from here]
        dsimp only [Setting.asText?]
        rw [fillBranch_eq hc, ei, writesOf_selector hc, writesOf_append, Json.placeAll_append,
          Json.placeAll_append, ← value]
        exact e
      · rw [memi, used]
        simp only [List.mem_cons, List.map_cons, List.map_append, List.mem_append]
        rw [or_assoc, or_assoc, or_left_comm]
        rfl

/-- **No name of such a sample is left over.** -/
theorem unknownName?_eq_none {space : Space} {used : List String}
    (h : ∀ n, sample.has n = true → n ∈ used) : space.unknownName? sample used = none := by
  have none : (sample.names.filter fun name => !used.contains name) = [] := by
    refine List.filter_eq_nil_iff.2 fun n hn => ?_
    simpa using h n (Keyed.has_iff.2 hn)
  rw [unknownName?, none, List.find?_nil]

/-- A sample is applied if it fills in a value that is accepted, and leaves no name over. -/
theorem apply_eq_ok {space : Space} {f : Filling}
    (filled : fillDimensions space.frame.name sample space.dimensions
      ⟨space.frame.skeleton.getD .null, []⟩ = .ok f)
    (known : space.unknownName? sample f.used = none)
    (domain : space.frame.domain.accepts f.value = true)
    (schema : space.frame.schema.accepts f.value = true) : space.apply sample = .ok f.value := by
  have accepted {s : Schema} {v : Json} (origin : Origin) (h : s.accepts v = true) :
      space.acceptedBy s origin v = .ok () := by
    obtain ⟨u, e⟩ := Except.isOk_iff.1 h
    rw [acceptedBy, e]
  rw [apply, filled]
  dsimp only [bind, Except.bind]
  rw [known]
  dsimp only
  rw [accepted .optimizer domain, accepted .constraint schema]
  rfl

/-- What a sample is applied to has been filled in, and the domain accepts it. -/
theorem accepts_of_apply {space : Space} {v : Json} (h : space.apply sample = .ok v) :
    ∃ f, fillDimensions space.frame.name sample space.dimensions
        ⟨space.frame.skeleton.getD .null, []⟩ = .ok f ∧
      f.value = v ∧ space.frame.domain.accepts v = true := by
  obtain ⟨f, filled, h⟩ := Except.bind_eq_ok.1 h
  split at h
  · cases h
  · obtain ⟨_, domain, h⟩ := Except.bind_eq_ok.1 h
    obtain ⟨_, _, h⟩ := Except.bind_eq_ok.1 h
    cases h
    refine ⟨f, filled, rfl, ?_⟩
    unfold acceptedBy at domain
    split at domain
    · rename_i ok
      rw [Schema.accepts, ok]
      rfl
    · cases domain

end Space

end TypedPipeline
