import TypedPipeline.Space.Sample
import TypedPipeline.Proofs.Keyed
import TypedPipeline.Proofs.Space.Activation
import TypedPipeline.Proofs.Space.Compilation

/-!
# Proofs.Space.Sampling: which dimensions a random sample sets

This file fixes:

* that a draw from a list that is not empty gives a member of it (`exists_nextOf`);
* the spaces whose selectors all have a branch (`Labelled`), among them what the compiler makes
  (`labelled_of_compiles`);
* that a random sample of such a space sets the dimensions that count under some choice of branches,
  by their names (`exists_activates_sample`).
-/

namespace TypedPipeline

/-! ## 1. Draws -/

namespace RandomStream

theorem nextBelowWithin_lt {range : Nat} (h : 0 < range) (fuel : Nat) (r : RandomStream) :
    (nextBelowWithin fuel range r).1 < range := by
  have high (word : UInt64) : word.toNat * range / 2 ^ 64 < range := by
    rw [Nat.div_lt_iff_lt_mul (by decide), Nat.mul_comm range]
    exact Nat.mul_lt_mul_of_pos_right word.toNat_lt h
  induction fuel generalizing r with
  | zero => exact high _
  | succ fuel ih =>
      rw [nextBelowWithin]
      split
      rename_i word r' _
      dsimp only
      split
      · exact high word
      · exact ih r'

/-- **Of several, one is drawn.** -/
theorem exists_nextOf {α : Type} {items : List α} (h : items ≠ []) (r : RandomStream) :
    ∃ x ∈ items, (r.nextOf items).1 = some x := by
  have lt := nextBelowWithin_lt (List.length_pos_iff.2 h) 256 r
  exact ⟨_, List.getElem_mem lt, List.getElem?_eq_getElem lt⟩

end RandomStream

/-! ## 2. Selectors with branches -/

/-- Every selector, in branches too, has a branch. -/
inductive Labelled : List Dimension → Prop where
  | nil : Labelled []
  | plain {name path domain rest} : Labelled rest → Labelled (.plain name path domain :: rest)
  | selector {name path branches rest} : branches ≠ [] → (∀ b ∈ branches, Labelled b.2.2) →
      Labelled rest → Labelled (.selector name path branches :: rest)

theorem labelled_append {xs ys : List Dimension} (hx : Labelled xs) (hy : Labelled ys) :
    Labelled (xs ++ ys) := by
  induction hx with
  | nil => exact hy
  | plain _ ih => exact .plain ih
  | selector ne each _ _ ih => exact .selector ne each ih

theorem labelled_flatMap {α : Type} {xs : List α} {f : α → List Dimension}
    (h : ∀ x ∈ xs, Labelled (f x)) : Labelled (xs.flatMap f) := by
  induction xs with
  | nil => exact .nil
  | cons x rest ih =>
      obtain ⟨first, later⟩ := List.forall_mem_cons.1 h
      exact labelled_append first (ih later)

theorem labelled_of_compiles {settings : SpaceSettings} {s : Schema} {p : Path} {c : Compiled}
    (h : Compiles settings s p c) : Labelled c.dimensions := by
  induction h with
  | scalar h =>
      rcases compileScalar_cases h with ⟨v, rfl⟩ | ⟨d, rfl⟩
      · exact .nil
      · exact .plain .nil
  | object entries _ _ _ ih =>
      refine labelled_flatMap fun e he => ?_
      obtain ⟨name, s, c⟩ := e
      cases c with
      | none => exact .nil
      | some c => exact ih name s c he
  | array compiled _ _ ih =>
      refine labelled_flatMap fun c hc => ?_
      obtain ⟨i, hi⟩ := List.mem_iff_getElem?.1 hc
      exact ih i c hi
  | choice _ _ h =>
      rcases compileChoices_cases h with ⟨only, _, rfl⟩ | rfl
      · exact .nil
      · exact .plain .nil
  | union kept fault _ _ _ _ _ h ih =>
      rcases selectLeaves_cases h with ⟨only, rfl, rfl⟩ | ⟨branches, rfl, ne, from'⟩
      · exact ih only (by simp)
      · refine .selector ne (fun b hb => ?_) .nil
        obtain ⟨l, hl, e⟩ := from' b hb
        rw [e]
        exact ih l hl

/-! ## 3. Samples -/

namespace Space

theorem exists_branch? {name label : String} {path : Path} {branches : List Branch}
    (h : label ∈ branches.map (·.1)) :
    ∃ b, (Dimension.selector name path branches).branch? label = some b := by
  obtain ⟨b, hb, rfl⟩ := List.mem_map.1 h
  exact Option.isSome_iff_exists.1 (List.find?_isSome.2 ⟨b, hb, by simp⟩)

theorem sampleBranch_eq {name label : String} {path : Path} {branches : List Branch} {b : Branch}
    (h : (Dimension.selector name path branches).branch? label = some b)
    (state : Sample × RandomStream) :
    sampleBranch (some label) branches state = sampleDimensions b.2.2 state := by
  induction branches with
  | nil => cases h
  | cons first rest ih =>
      obtain ⟨label', frame, dimensions⟩ := first
      rw [Dimension.branch?, List.find?_cons] at h
      rw [sampleBranch]
      by_cases e : label = label'
      · rw [if_pos (congrArg some e)]
        simp only [e, beq_self_eq_true] at h
        cases h; rfl
      · rw [if_neg (by simpa using e)]
        simp only [beq_eq_false_iff_ne.2 (Ne.symm e)] at h
        exact ih h

/-- **A sample gains the names of dimensions that count together.** -/
theorem exists_activates_sampleDimensions {ds : List Dimension} (h : Labelled ds) (sample : Sample)
    (ascending : Keyed.Ascending sample) (r : RandomStream) :
    ∃ active, Activates ds active ∧ Keyed.Ascending (sampleDimensions ds (sample, r)).1 ∧
      ∀ n, n ∈ (sampleDimensions ds (sample, r)).1.names ↔
        n ∈ sample.names ∨ n ∈ active.map Dimension.name := by
  induction h generalizing sample r with
  | nil =>
      rw [sampleDimensions]
      exact ⟨[], .nil, ascending, by simp⟩
  | @plain name path domain rest _ ih =>
      rw [sampleDimensions]
      obtain ⟨active, ha, asc, names⟩ := ih (sample.put name (domain.draw r).1)
        (Keyed.ascending_put ascending _ _) (domain.draw r).2
      refine ⟨.plain name path domain :: active, .plain ha, asc, fun n => (names n).trans ?_⟩
      rw [Keyed.mem_names_put, List.map_cons, List.mem_cons, or_assoc, or_left_comm]
      rfl
  | @selector name path branches rest ne _ _ ihb ih =>
      have labels : branches.map (·.1) ≠ [] := by simpa using ne
      obtain ⟨label, hl, drawn⟩ := RandomStream.exists_nextOf labels r
      obtain ⟨chosen, hc⟩ := @exists_branch? name label path branches hl
      obtain ⟨b, r', hd⟩ : ∃ s' r', (Dimension.selector name path branches).draw r = (s', r') :=
        ⟨_, _, rfl⟩
      obtain rfl : b = .text label := by
        have := congrArg Prod.fst hd
        simpa only [Dimension.draw, drawn] using this.symm
      obtain ⟨inner, hi, asci, namesi⟩ := ihb chosen (mem_of_branch? hc).1 sample ascending r'
      obtain ⟨active, ha, asc, names⟩ := ih
        ((sampleDimensions chosen.2.2 (sample, r')).1.put name (.text label))
        (Keyed.ascending_put asci _ _) (sampleDimensions chosen.2.2 (sample, r')).2
      have step : sampleDimensions (.selector name path branches :: rest) (sample, r) =
          sampleDimensions rest ((sampleDimensions chosen.2.2 (sample, r')).1.put name (.text label),
            (sampleDimensions chosen.2.2 (sample, r')).2) := by
        rw [sampleDimensions, hd]
        show sampleDimensions rest _ = _
        rw [show Setting.asText? (.text label) = some label from rfl, sampleBranch_eq hc]
      rw [step]
      refine ⟨.selector name path branches :: (inner ++ active), .selector chosen hc hi ha, asc,
        fun n => (names n).trans ?_⟩
      rw [Keyed.mem_names_put, namesi, List.map_cons, List.map_append, List.mem_cons,
        List.mem_append, or_assoc, or_assoc, or_left_comm]
      rfl

/-- **A random sample sets the dimensions that count under some choice of branches.** -/
theorem exists_activates_sample {space : Space} (h : Labelled space.dimensions)
    (r : RandomStream) :
    ∃ active, Activates space.dimensions active ∧ Keyed.Ascending (space.sample r).1 ∧
      ∀ n, n ∈ (space.sample r).1.names ↔ n ∈ active.map Dimension.name := by
  obtain ⟨active, ha, asc, names⟩ := exists_activates_sampleDimensions h [] List.Pairwise.nil r
  exact ⟨active, ha, asc, fun n => (names n).trans (by simp [Keyed.names])⟩

end Space

end TypedPipeline
