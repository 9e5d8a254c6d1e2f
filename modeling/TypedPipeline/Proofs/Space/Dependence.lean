import TypedPipeline.Proofs.Space.Assignment

/-!
# Proofs.Space.Dependence: what the application of a sample depends on

A sample may hold settings for dimensions that do not count under its choices. This file fixes:

* the dimensions that count under the choices of a sample (`activeUnder`), which are some of all
  dimensions (`mem_nestedList_of_mem_activeUnder`);
* that a filling depends on their settings alone, also where it ends in a fault
  (`fillDimensions_congr`);
* what a filling does: it visits them one after the other (`fillDimensions_eq_foldl`), so it uses
  names of dimensions only (`exists_of_mem_used`);
* **that two samples which agree on them are applied alike, and that a sample with the name of no
  dimension is not applied** (`Space.apply_eq_of_agree`).
-/

namespace TypedPipeline

namespace Space

/-! ## 1. The dimensions that count under a sample -/

mutual

/-- The dimensions that count under the choices of a sample: those of the list, and after each
    selector those of the branch it chooses, if it is given the label of one. -/
def activeUnder (sample : Sample) : List Dimension → List Dimension
  | [] => []
  | .plain name path domain :: rest => .plain name path domain :: activeUnder sample rest
  | .selector name path branches :: rest =>
    .selector name path branches ::
      (activeInBranch sample ((sample.find? name).bind Setting.asText?) branches ++
        activeUnder sample rest)
termination_by ds => sizeOf ds

/-- The dimensions that count in the first branch with the label chosen. -/
def activeInBranch (sample : Sample) (chosen : Option String) :
    List (String × Frame × List Dimension) → List Dimension
  | [] => []
  | (label, _, dimensions) :: rest =>
    if chosen = some label then activeUnder sample dimensions
    else activeInBranch sample chosen rest
termination_by branches => sizeOf branches

end

variable {sample : Sample}

mutual

theorem mem_nestedList_of_mem_activeUnder (ds : List Dimension) {d : Dimension}
    (h : d ∈ activeUnder sample ds) : d ∈ Dimension.nestedList ds := by
  cases ds with
  | nil => rw [activeUnder] at h; cases h
  | cons first rest =>
      rw [Dimension.nestedList]
      cases first with
      | plain name path domain =>
          rw [activeUnder, List.mem_cons] at h
          rw [Dimension.withNested, List.mem_append, List.mem_singleton]
          exact h.imp_right (mem_nestedList_of_mem_activeUnder rest)
      | selector name path branches =>
          rw [activeUnder, List.mem_cons, List.mem_append] at h
          rw [Dimension.withNested, List.mem_append, List.mem_cons, or_assoc]
          exact h.imp_right (Or.imp (mem_nestedBranches_of_mem_activeInBranch _ branches)
            (mem_nestedList_of_mem_activeUnder rest))
termination_by sizeOf ds

theorem mem_nestedBranches_of_mem_activeInBranch (chosen : Option String)
    (branches : List (String × Frame × List Dimension)) {d : Dimension}
    (h : d ∈ activeInBranch sample chosen branches) : d ∈ Dimension.nestedBranches branches := by
  match branches with
  | [] => rw [activeInBranch] at h; cases h
  | (label, frame, dimensions) :: rest =>
      rw [activeInBranch] at h
      rw [Dimension.nestedBranches, List.mem_append]
      split at h
      · exact .inl (mem_nestedList_of_mem_activeUnder dimensions h)
      · exact .inr (mem_nestedBranches_of_mem_activeInBranch chosen rest h)
termination_by sizeOf branches

end

/-! ## 2. Agreement -/

variable {s t : Sample}

mutual

/-- **A filling depends on the settings of the dimensions that count under its sample alone.** -/
theorem fillDimensions_congr (ds : List Dimension)
    (agree : ∀ d ∈ activeUnder s ds, s.find? d.name = t.find? d.name) (space : String)
    (f : Filling) : fillDimensions space s ds f = fillDimensions space t ds f := by
  cases ds with
  | nil => rw [fillDimensions, fillDimensions]
  | cons first rest =>
      cases first with
      | plain name path domain =>
          rw [activeUnder] at agree
          obtain ⟨here, later⟩ := List.forall_mem_cons.1 agree
          have here : s.find? name = t.find? name := here
          rw [fillDimensions, fillDimensions, here]
          cases t.find? name with
          | none => exact fillDimensions_congr rest later space f
          | some setting => exact fillDimensions_congr rest later space _
      | selector name path branches =>
          rw [activeUnder] at agree
          obtain ⟨here, below⟩ := List.forall_mem_cons.1 agree
          obtain ⟨inner, later⟩ := List.forall_mem_append.1 below
          have here : s.find? name = t.find? name := here
          rw [fillDimensions, fillDimensions, ← here]
          cases given : s.find? name with
          | none => rfl
          | some setting =>
              rw [given] at inner
              dsimp only
              rw [fillBranch_congr setting.asText? branches inner name path f]
              cases fillBranch t name path setting.asText? branches f with
              | none => rfl
              | some outcome =>
                  cases outcome with
                  | error fault => rfl
                  | ok f => exact fillDimensions_congr rest later space f
termination_by sizeOf ds

theorem fillBranch_congr (chosen : Option String)
    (branches : List (String × Frame × List Dimension))
    (agree : ∀ d ∈ activeInBranch s chosen branches, s.find? d.name = t.find? d.name)
    (selector : String) (path : Path) (f : Filling) :
    fillBranch s selector path chosen branches f = fillBranch t selector path chosen branches f := by
  match branches with
  | [] => rw [fillBranch, fillBranch]
  | (label, frame, dimensions) :: rest =>
      rw [activeInBranch] at agree
      rw [fillBranch, fillBranch]
      split at agree
      · rename_i here
        rw [if_pos here, if_pos here, fillDimensions_congr dimensions agree]
      · rename_i elsewhere
        rw [if_neg elsewhere, if_neg elsewhere]
        exact fillBranch_congr chosen rest agree selector path f
termination_by sizeOf branches

end

/-! ## 3. Visits -/

end Space

/-- What a filling does with a dimension that counts: it puts the setting that the sample has for it,
    if any, at its place, or the fixed part of the branch that the setting chooses. -/
def Filling.visit (sample : Sample) (f : Filling) (d : Dimension) : Filling :=
  match sample.find? d.name with
  | none => f
  | some setting =>
    match d with
    | .plain name path _ => f.set name path setting.toJson
    | .selector name path _ =>
      match setting.asText?.bind d.branch? with
      | some b => f.enter name path b.2.1.skeleton
      | none => f

namespace Space

variable {sample : Sample}

mutual

/-- **A filling that succeeds visits the dimensions that count, in order.** -/
theorem fillDimensions_eq_foldl (ds : List Dimension) {space : String} {f f' : Filling}
    (h : fillDimensions space sample ds f = .ok f') :
    f' = (activeUnder sample ds).foldl (Filling.visit sample) f := by
  cases ds with
  | nil =>
      rw [fillDimensions] at h
      cases h
      rw [activeUnder, List.foldl_nil]
  | cons first rest =>
      cases first with
      | plain name path domain =>
          rw [fillDimensions] at h
          rw [activeUnder, List.foldl_cons, Filling.visit, Dimension.name]
          cases given : sample.find? name with
          | none =>
              rw [given] at h
              exact fillDimensions_eq_foldl rest h
          | some setting =>
              rw [given] at h
              exact fillDimensions_eq_foldl rest h
      | selector name path branches =>
          rw [fillDimensions] at h
          rw [activeUnder, List.foldl_cons, List.foldl_append, Filling.visit, Dimension.name]
          cases given : sample.find? name with
          | none => rw [given] at h; cases h
          | some setting =>
              rw [given] at h
              dsimp only at h
              split at h
              · cases h
              · rename_i outcome entered
                obtain ⟨inner, filled, h⟩ := Except.bind_eq_ok.1 h
                obtain ⟨b, chosen, e⟩ := fillBranch_eq_foldl branches (entered.trans (by rw [filled]))
                rw [fillDimensions_eq_foldl rest h, e]
                dsimp only [Option.bind_some]
                rw [show setting.asText?.bind (Dimension.selector name path branches).branch? = some b
                  from chosen]
termination_by sizeOf ds

theorem fillBranch_eq_foldl {chosen : Option String} {selector : String} {path : Path}
    (branches : List (String × Frame × List Dimension)) {f f' : Filling}
    (h : fillBranch sample selector path chosen branches f = some (.ok f')) :
    ∃ b : Branch, (chosen.bind fun label => branches.find? fun b => b.1 == label) = some b ∧
      f' = (activeInBranch sample chosen branches).foldl (Filling.visit sample)
        (f.enter selector path b.2.1.skeleton) := by
  match branches with
  | [] => rw [fillBranch] at h; cases h
  | (label, frame, dimensions) :: rest =>
      rw [fillBranch] at h
      rw [activeInBranch]
      by_cases here : chosen = some label
      · rw [if_pos here] at h ⊢
        refine ⟨(label, frame, dimensions), ?_, fillDimensions_eq_foldl dimensions (Option.some.inj h)⟩
        rw [here, Option.bind_some]
        exact List.find?_cons_of_pos (beq_self_eq_true label)
      · rw [if_neg here] at h ⊢
        obtain ⟨b, found, e⟩ := fillBranch_eq_foldl rest h
        refine ⟨b, ?_, e⟩
        cases chosen with
        | none => cases found
        | some wanted =>
            have other : (label == wanted) = false :=
              beq_false_of_ne fun e => here (congrArg some e.symm)
            simpa [List.find?_cons, other] using found
termination_by sizeOf branches

end

/-- A visit uses the name of the dimension, or nothing. -/
theorem mem_used_visit {f : Filling} {d : Dimension} {n : String}
    (h : n ∈ (f.visit sample d).used) : n ∈ f.used ∨ d.name = n := by
  unfold Filling.visit at h
  split at h
  · exact .inl h
  · split at h
    · exact (List.mem_cons.1 h).symm.imp_right Eq.symm
    · split at h
      · rw [(enter_value f _ _ _).2] at h
        exact (List.mem_cons.1 h).symm.imp_right Eq.symm
      · exact .inl h

theorem exists_of_mem_used {ds : List Dimension} {f : Filling} {n : String}
    (h : n ∈ (ds.foldl (Filling.visit sample) f).used) :
    n ∈ f.used ∨ ∃ d ∈ ds, d.name = n := by
  induction ds generalizing f with
  | nil => exact .inl h
  | cons d rest ih =>
      rcases ih h with h | ⟨e, he, name⟩
      · exact (mem_used_visit h).imp_right fun name => ⟨d, List.mem_cons_self, name⟩
      · exact .inr ⟨e, List.mem_cons_of_mem _ he, name⟩

/-! ## 4. Application -/

/-- The name is that of a dimension of the space, in any branch. -/
def Knows (space : Space) (n : String) : Prop := ∃ d ∈ space.allDimensions, d.name = n

theorem unknownName?_of_knows {space : Space} (known : ∀ n ∈ sample.names, space.Knows n)
    (used : List String) : space.unknownName? sample used = none := by
  rw [unknownName?, List.find?_eq_none]
  intro n hn
  obtain ⟨d, hd, name⟩ := known n (List.mem_filter.1 hn).1
  simpa using ⟨d, hd, name⟩

/-- A sample that is applied has names of dimensions only. -/
theorem knows_of_apply {space : Space} {v : Json} (h : space.apply sample = .ok v) :
    ∀ n ∈ sample.names, space.Knows n := by
  intro n hn
  obtain ⟨f, filled, h⟩ := Except.bind_eq_ok.1 h
  split at h
  · cases h
  · rename_i none'
    rw [unknownName?, List.find?_eq_none] at none'
    by_cases used : n ∈ f.used
    · rw [fillDimensions_eq_foldl _ filled] at used
      rcases exists_of_mem_used used with start | ⟨d, hd, name⟩
      · cases start
      · exact ⟨d, mem_nestedList_of_mem_activeUnder _ hd, name⟩
    · have := none' n (List.mem_filter.2 ⟨hn, by simpa using used⟩)
      rw [Knows]
      simpa using this

/-- **Whatever the space: two samples that agree on the dimensions which count under the choices of
    one of them, and have names of dimensions only, are applied to the same value or refused for
    the same fault; and a sample with a name that no dimension has, in any branch, is not
    applied.** -/
theorem apply_eq_of_agree (space : Space) :
    (∀ s t : Sample,
      (∀ d ∈ activeUnder s space.dimensions, s.find? d.name = t.find? d.name) →
      (∀ n ∈ s.names, space.Knows n) → (∀ n ∈ t.names, space.Knows n) →
      space.apply s = space.apply t) ∧
    ∀ (s : Sample) (n : String), n ∈ s.names → ¬ space.Knows n → ∀ v, space.apply s ≠ .ok v := by
  refine ⟨fun s t agree ks kt => ?_, fun s n hn strange v applied => ?_⟩
  · rw [apply, apply, fillDimensions_congr _ agree]
    cases fillDimensions space.frame.name t space.dimensions
        ⟨space.frame.skeleton.getD .null, []⟩ with
    | error fault => rfl
    | ok f =>
        dsimp only [bind, Except.bind]
        rw [unknownName?_of_knows ks, unknownName?_of_knows kt]
  · exact strange (knows_of_apply applied n hn)

/-- A flag or a level. -/
def flagOrLevel : Space :=
  ⟨⟨"s", none, .any, .any⟩,
    [.selector "choice" []
      [("flag", ⟨"flag", none, .any, .any⟩, [.plain "flag" [.property "flag"] .boolean]),
        ("level", ⟨"level", none, .any, .any⟩,
          [.plain "level" [.property "level"] (.int 0 3 false)])]]⟩

theorem knows_flagOrLevel {n : String} :
    flagOrLevel.Knows n ↔ n = "choice" ∨ n = "flag" ∨ n = "level" := by
  simp [Knows, flagOrLevel, allDimensions, Dimension.nestedList, Dimension.withNested,
    Dimension.nestedBranches, Dimension.name, eq_comm]

/-- The choice of a flag. -/
def flagged : Sample := [("choice", .text "flag"), ("flag", .bool true)]

/-- A level beside the flag that is chosen changes nothing, whatever it is; another name is
    refused. -/
theorem apply_eq_of_agree_flagged :
    ((∀ d ∈ activeUnder flagged flagOrLevel.dimensions,
        flagged.find? d.name = (flagged.put "level" (.int 7)).find? d.name) ∧
      (∀ n ∈ flagged.names, flagOrLevel.Knows n) ∧
      (∀ n ∈ (flagged.put "level" (.int 7)).names, flagOrLevel.Knows n) ∧
      "other" ∈ (flagged.put "other" .null).names ∧ ¬ flagOrLevel.Knows "other") ∧
    flagOrLevel.apply flagged = flagOrLevel.apply (flagged.put "level" (.int 7)) ∧
    ∀ v, flagOrLevel.apply (flagged.put "other" .null) ≠ .ok v := by
  have agree : ∀ d ∈ activeUnder flagged flagOrLevel.dimensions,
      flagged.find? d.name = (flagged.put "level" (.int 7)).find? d.name := by
    simp [activeUnder, activeInBranch, flagOrLevel, flagged, Keyed.find?_cons, Keyed.find?_put,
      Setting.asText?, Dimension.name]
  have known : ∀ n ∈ flagged.names, flagOrLevel.Knows n := by
    simp [flagged, Keyed.names, knows_flagOrLevel]
  have known' : ∀ n ∈ (flagged.put "level" (.int 7)).names, flagOrLevel.Knows n := by
    intro n hn
    rcases Keyed.mem_names_put.1 hn with rfl | hn
    · exact knows_flagOrLevel.2 (.inr (.inr rfl))
    · exact known n hn
  have listed : "other" ∈ (flagged.put "other" .null).names := Keyed.mem_names_put.2 (.inl rfl)
  have strange : ¬ flagOrLevel.Knows "other" := by simp [knows_flagOrLevel]
  obtain ⟨alike, refused⟩ := apply_eq_of_agree flagOrLevel
  exact ⟨⟨agree, known, known', listed, strange⟩, alike _ _ agree known known',
    refused _ _ listed strange⟩

end Space

end TypedPipeline
