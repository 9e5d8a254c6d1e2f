import TypedPipeline.Proofs.Schema.WellFormed
import TypedPipeline.Proofs.Space.Compilation
import TypedPipeline.Space.Compiler

/-!
# Proofs.Space.Faults: how a compilation fails

A compilation fails because a schema is malformed, or because some place in it has no domain. This
file fixes:

* that a schema which is compiled, malformed or not, fails for want of a domain only
  (`faultsUnbounded_compileNode`): malformed schemas are turned away before;
* **that no well-formed schema is called malformed**, by a compiler that has kept spaces or has not
  (`faultsUnbounded_compile`).
-/

namespace TypedPipeline

/-- The fault is that some place has no domain. -/
def Fault.IsUnbounded : Fault → Prop
  | .unbounded _ _ => True
  | _ => False

/-- If it fails, then because some place has no domain. -/
def FaultsUnbounded {α : Type} (x : Except Fault α) : Prop := ∀ e, x = .error e → e.IsUnbounded

/-! ## 1. Results in a row -/

section Results

variable {α β : Type}

theorem faultsUnbounded_ok (a : α) : FaultsUnbounded (.ok a : Except Fault α) :=
  fun _ h => nomatch h

theorem faultsUnbounded_error {e : Fault} (h : e.IsUnbounded) :
    FaultsUnbounded (.error e : Except Fault α) := by
  rintro _ ⟨⟩
  exact h

theorem faultsUnbounded_bind {x : Except Fault α} {f : α → Except Fault β} (hx : FaultsUnbounded x)
    (hf : ∀ a, x = .ok a → FaultsUnbounded (f a)) : FaultsUnbounded (x >>= f) := by
  cases x with
  | error e => exact faultsUnbounded_error (hx e rfl)
  | ok a => exact hf a rfl

theorem faultsUnbounded_map {x : Except Fault α} {f : α → β} (hx : FaultsUnbounded x) :
    FaultsUnbounded (f <$> x) := by
  cases x with
  | error e => exact faultsUnbounded_error (hx e rfl)
  | ok a => exact faultsUnbounded_ok (f a)

end Results

/-! ## 2. Scalars -/

variable {path : Path}

theorem faultsUnbounded_compileChoices (choices : List Setting) :
    FaultsUnbounded (compileChoices choices path) := by
  unfold compileChoices
  split
  · exact faultsUnbounded_error trivial
  · exact faultsUnbounded_ok _
  · exact faultsUnbounded_ok _

theorem faultsUnbounded_compileNumeric (s : Scalar) : FaultsUnbounded (compileNumeric s path) := by
  unfold compileNumeric
  split
  · dsimp only
    split
    · exact faultsUnbounded_error trivial
    · split
      · exact faultsUnbounded_ok _
      · split <;> exact faultsUnbounded_ok _
  · exact faultsUnbounded_error trivial

theorem faultsUnbounded_compileScalar (s : Scalar) : FaultsUnbounded (compileScalar s path) := by
  unfold compileScalar
  split
  · exact faultsUnbounded_compileChoices _
  · split
    · exact faultsUnbounded_ok _
    · exact faultsUnbounded_ok _
    · exact faultsUnbounded_error trivial
    · exact faultsUnbounded_compileNumeric s
    · exact faultsUnbounded_compileNumeric s

/-! ## 3. Unions, objects and arrays -/

/-- The fault that is remembered is one of a leaf. -/
theorem mem_of_sortLeaves {start : Nat} {outcomes : List (Schema × Compilation)} {e : Fault}
    (h : (sortLeaves start outcomes).2 = some e) : ∃ leaf, (leaf, .error e) ∈ outcomes := by
  induction outcomes generalizing start with
  | nil => cases h
  | cons first rest ih =>
      obtain ⟨leaf, outcome⟩ := first
      rw [sortLeaves] at h
      cases outcome with
      | ok c =>
          have later : (sortLeaves (start + 1) rest).2 = some e := h
          obtain ⟨other, mem⟩ := ih later
          exact ⟨other, List.mem_cons_of_mem _ mem⟩
      | error f =>
          cases h
          exact ⟨leaf, List.mem_cons_self⟩

theorem faultsUnbounded_compileLeaves {exclusive : Bool} {branches : List Schema}
    {outcomes : List (Schema × Compilation)} (each : ∀ o ∈ outcomes, FaultsUnbounded o.2) :
    FaultsUnbounded (compileLeaves exclusive branches outcomes path) := by
  unfold compileLeaves
  dsimp only
  split
  · exact faultsUnbounded_error trivial
  · unfold selectLeaves
    split
    · cases remembered : (sortLeaves 0 outcomes).2 with
      | none => exact faultsUnbounded_error trivial
      | some e =>
          obtain ⟨leaf, mem⟩ := mem_of_sortLeaves remembered
          exact faultsUnbounded_error (each _ mem e rfl)
    · exact faultsUnbounded_ok _
    · exact faultsUnbounded_ok _

variable {settings : SpaceSettings}

theorem faultsUnbounded_leafOutcomes {branches : List Schema}
    (each : ∀ leaf ∈ Schema.leaves branches, FaultsUnbounded (compileNode settings leaf path)) :
    FaultsUnbounded (leafOutcomes settings branches path) := by
  induction branches using Schema.leaves.induct with
  | case1 =>
      rw [leafOutcomes]
      exact faultsUnbounded_ok _
  | case2 inner rest ihi ihr | case3 inner rest ihi ihr =>
      rw [Schema.leaves, List.forall_mem_append] at each
      rw [leafOutcomes]
      exact faultsUnbounded_bind (ihi each.1) fun _ _ =>
        faultsUnbounded_bind (ihr each.2) fun _ _ => faultsUnbounded_ok _
  | case4 leaf rest notAny notOne ih =>
      rw [Schema.leaves, List.forall_mem_cons] at each
      · rw [leafOutcomes]
        · split
          · rename_i failed _
            exact faultsUnbounded_error (each.1 _ failed)
          · exact faultsUnbounded_bind (ih each.2) fun _ _ => faultsUnbounded_ok _
        · exact notAny
        · exact notOne
      · exact notAny
      · exact notOne

/-- A union that is not one choice fails as its leaves do, or on account of an overlap. -/
theorem faultsUnbounded_compileUnion {exclusive : Bool} {branches : List Schema}
    (each : ∀ leaf ∈ Schema.leaves branches, FaultsUnbounded (compileNode settings leaf path)) :
    FaultsUnbounded (leafOutcomes settings branches path >>= fun outcomes =>
      compileLeaves exclusive branches outcomes path) := by
  refine faultsUnbounded_bind (faultsUnbounded_leafOutcomes each) fun outcomes ho => ?_
  obtain ⟨map, own, _⟩ := Compiles.leafOutcomes_spec ho
  refine faultsUnbounded_compileLeaves fun o mem => ?_
  rw [own o mem]
  exact each o.1 (map ▸ List.mem_map_of_mem mem)

theorem faultsUnbounded_compileProperties {properties : List (String × Schema)}
    {rules : ObjectRules}
    (each : ∀ name s, (name, s) ∈ properties →
      FaultsUnbounded (compileNode settings s (path.property name))) :
    FaultsUnbounded (compileProperties settings properties rules path) := by
  induction properties with
  | nil =>
      rw [compileProperties]
      exact faultsUnbounded_ok _
  | cons p rest ih =>
      obtain ⟨name, s⟩ := p
      have first := each name s List.mem_cons_self
      have later := ih fun name s hs => each name s (List.mem_cons_of_mem _ hs)
      have part : FaultsUnbounded (rules.partOf name (compileNode settings s (path.property name))) := by
        cases hc : compileNode settings s (path.property name) with
        | ok c => exact faultsUnbounded_ok _
        | error e =>
            unfold ObjectRules.partOf
            dsimp only
            split
            · exact faultsUnbounded_ok _
            · exact faultsUnbounded_error (first e hc)
      rw [compileProperties]
      split
      · exact faultsUnbounded_bind (faultsUnbounded_ok _) fun _ _ =>
          faultsUnbounded_bind later fun _ _ => faultsUnbounded_ok _
      · exact faultsUnbounded_bind part fun _ _ =>
          faultsUnbounded_bind later fun _ _ => faultsUnbounded_ok _

theorem faultsUnbounded_compileItems {item : Path → Compilation}
    (each : ∀ path, FaultsUnbounded (item path)) (start count : Nat) :
    FaultsUnbounded (compileItems item path start count) := by
  induction count generalizing start with
  | zero =>
      rw [compileItems]
      exact faultsUnbounded_ok _
  | succ count ih =>
      rw [compileItems]
      exact faultsUnbounded_bind (each _) fun _ _ =>
        faultsUnbounded_bind (ih _) fun _ _ => faultsUnbounded_ok _

/-! ## 4. Schemas -/

/-- **What is compiled fails for want of a domain only.** -/
theorem faultsUnbounded_compileNode (s : Schema) (path : Path) :
    FaultsUnbounded (compileNode settings s path) := by
  induction hn : s.size using Nat.strongRecOn generalizing s path with
  | ind n ih =>
      subst hn
      have leaves (branches : List Schema) (small : s.size = 1 + Schema.sizeBranches branches) :
          ∀ leaf ∈ Schema.leaves branches, FaultsUnbounded (compileNode settings leaf path) :=
        fun leaf hl => ih leaf.size (by have := (Schema.mem_leaves hl).2.2; omega) leaf path rfl
      cases s with
      | any | allOf branches =>
          rw [compileNode]
          exact faultsUnbounded_error trivial
      | scalar s =>
          rw [compileNode]
          exact faultsUnbounded_compileScalar s
      | object properties rules =>
          rw [compileNode]
          refine faultsUnbounded_bind (faultsUnbounded_compileProperties fun name s hs => ?_)
            fun _ _ => faultsUnbounded_ok _
          refine ih s.size ?_ s _ rfl
          have := Schema.size_le_of_mem_properties hs
          simp only [Schema.size]; omega
      | array items length =>
          rw [compileNode]
          split
          · exact faultsUnbounded_error trivial
          · exact faultsUnbounded_map (faultsUnbounded_compileItems
              (fun path => ih items.size (by simp only [Schema.size]; omega) items path rfl) _ _)
      | anyOf branches | oneOf branches =>
          rw [compileNode]
          split
          · exact faultsUnbounded_compileChoices _
          · exact faultsUnbounded_compileUnion (leaves branches (by rw [Schema.size]))

theorem faultsUnbounded_compileSpace {name : String} {s : Schema} (h : s.isWellFormed = true) :
    FaultsUnbounded (compileSpace settings name s) := by
  obtain ⟨_, checked⟩ := Except.isOk_iff.1 h
  unfold compileSpace
  rw [checked]
  exact faultsUnbounded_bind (faultsUnbounded_compileNode _ _) fun _ _ => faultsUnbounded_ok _

/-- **No compiler calls a well-formed schema malformed**, whatever spaces it has kept. -/
theorem faultsUnbounded_compile (compiler : Compiler) (name : String) {s : Schema}
    (h : s.isWellFormed = true) : FaultsUnbounded (compiler.compile name s).1 := by
  unfold Compiler.compile
  dsimp only
  split
  · exact faultsUnbounded_ok _
  · have own : FaultsUnbounded (compileSpace compiler.settings name s) :=
      faultsUnbounded_compileSpace h
    split
    · rename_i e failed
      exact faultsUnbounded_error (own e failed)
    · exact faultsUnbounded_ok _

end TypedPipeline
