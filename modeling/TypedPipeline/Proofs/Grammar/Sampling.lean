import Mathlib.Data.Stream.Init
import TypedPipeline.Grammar.Sample
import TypedPipeline.Proofs.Grammar.Apart

/-!
# Proofs.Grammar.Sampling: what can be sampled is what is listed

A derivation at random follows one path of the search that an expansion makes in full. This file
fixes:

* the steps of a derivation at random: a tree without pending names ends it (`drawn_of_complete`),
  and from any other tree it goes on with one production (`drawn_of_opened`);
* that, wherever the draws come from, it ends at an operator that the tree leads to
  (`mem_ahead_of_drawn`);
* that some sequence of draws ends at each such operator (`exists_replay`). The sequence is made up
  along the derivation, of the place that each production has among those of its name;
* what this says of samples, which are the first derivation that succeeds (`mem_language_of_sample`,
  `exists_replay_sample`), and of lists of them (`mem_language_of_sampleMany`);
* **that the operators that can be drawn are those an expansion under the same bound gives**
  (`Grammar.drawn_iff_expanded`).
-/

namespace TypedPipeline

/-! ## 1. Draws -/

/-- A sequence of draws read off in order. Whatever stands in the sequence is brought into the range,
    so every sequence can be read, and every draw from a range stands in some sequence. -/
def replay : Draw (Stream' Nat) := fun range draws => (draws.head % range, draws.tail)

theorem replay_cons {range i : Nat} (h : i < range) (draws : Stream' Nat) :
    replay range (Stream'.cons i draws) = (i, draws) := by
  rw [replay, Stream'.head_cons, Stream'.tail_cons, Nat.mod_eq_of_lt h]

/-! ## 2. One derivation -/

/-- A name is opened to its productions that fit the bound. -/
theorem Derivation.mem_openAll {bound depth : Nat} {t x : Derivation} {productions : List Expr}
    {tally : Tally} :
    x ∈ (openAll bound t depth productions tally).1 ↔
      ∃ p ∈ productions, ∃ r, instantiate bound p depth = .ok r ∧ fill r t = x := by
  induction productions generalizing tally with
  | nil => simp [openAll]
  | cons p rest ih =>
      rw [openAll]
      cases placed : instantiate bound p depth with
      | error failure => simp [ih, placed]
      | ok r => simp [ih, placed, eq_comm]

theorem mem_ahead {g : Grammar} {bound : Nat} {stack : List Derivation} {op : Operator} :
    op ∈ ahead g bound stack ↔ ∃ t ∈ stack, op ∈ ahead g bound [t] := by
  induction stack with
  | nil => simp [ahead]
  | cons t rest ih => rw [ahead_cons, List.mem_append, ih]; simp

namespace Grammar

variable {g : Grammar} {bound depth : Nat} {σ : Type} {draw : Draw σ} {t : Derivation}
  {name : String} {op : Operator}

/-- A tree leads to what it leads to after one production, chosen among all. -/
theorem mem_ahead_opened (h : t.leftmost? = some (name, depth)) :
    op ∈ ahead g bound [t] ↔ ∃ p ∈ g.productions name, ∃ r,
      Derivation.instantiate bound p depth = .ok r ∧ op ∈ ahead g bound [.fill r t] := by
  rw [← ahead_openAll h {}, mem_ahead]
  constructor
  · rintro ⟨x, opened, hx⟩
    obtain ⟨p, hp, r, placed, rfl⟩ := Derivation.mem_openAll.1 opened
    exact ⟨p, hp, r, placed, hx⟩
  · rintro ⟨p, hp, r, placed, hx⟩
    exact ⟨_, Derivation.mem_openAll.2 ⟨p, hp, r, placed, rfl⟩, hx⟩

theorem mem_ahead_complete (h : t.Complete) :
    op ∈ ahead g bound [t] ↔ t.operator? = .ok op := by
  rw [ahead_of_complete h, Option.mem_toList]
  cases t.operator? <;> simp [Except.toOption]

/-- A tree without pending names ends a derivation. -/
theorem drawn_of_complete (h : t.Complete) (r : σ) :
    (g.deriveAtRandom draw bound t r).1 = .ok op ↔ t.operator? = .ok op := by
  rw [deriveAtRandom]
  split
  · split <;> simp [*]
  · rename_i pending
    cases h.symm.trans pending

/-- From any other tree it goes on with the production that is drawn. -/
theorem drawn_of_opened {p : Expr} {replacement : Derivation} {r : σ}
    (h : t.leftmost? = some (name, depth))
    (chosen : (g.productions name)[(draw (g.productions name).length r).1]? = some p)
    (placed : Derivation.instantiate bound p depth = .ok replacement) :
    g.deriveAtRandom draw bound t r =
      g.deriveAtRandom draw bound (.fill replacement t) (draw (g.productions name).length r).2 := by
  have some' : (g.productions name).isEmpty = false := by
    cases e : g.productions name with
    | nil => rw [e] at chosen; cases chosen
    | cons => rfl
  conv_lhs => rw [deriveAtRandom]
  split
  · rename_i complete
    cases h.symm.trans complete
  · rename_i found
    cases h.symm.trans found
    rw [if_neg (by rw [some']; exact Bool.false_ne_true)]
    dsimp only
    split
    · rename_i none'
      cases chosen.symm.trans none'
    · rename_i found
      cases chosen.symm.trans found
      split
      · rename_i refused
        cases placed.symm.trans refused
      · rename_i found
        cases placed.symm.trans found
        rfl

/-- **A derivation at random ends at an operator that the tree leads to.** -/
theorem mem_ahead_of_drawn {r : σ} (h : (g.deriveAtRandom draw bound t r).1 = .ok op) :
    op ∈ ahead g bound [t] := by
  fun_induction deriveAtRandom g draw bound t r with
  | case1 t r complete op' made =>
      cases h
      exact (mem_ahead_complete complete).2 made
  | case2 => cases h
  | case3 => cases h
  | case4 => cases h
  | case5 => cases h
  | case6 t r name depth opened _ drawn p chosen replacement placed ih =>
      exact (mem_ahead_opened opened).2
        ⟨p, List.mem_of_getElem? chosen, replacement, placed, ih h⟩

/-- **To each operator that a tree leads to, some sequence of draws leads.** -/
theorem exists_replay {t : Derivation} (h : op ∈ ahead g bound [t]) :
    ∃ draws, (g.deriveAtRandom replay bound t draws).1 = .ok op := by
  cases leftmost : t.leftmost? with
  | none =>
      exact ⟨Stream'.const 0,
        (drawn_of_complete leftmost _).2 ((mem_ahead_complete leftmost).1 h)⟩
  | some pending =>
      obtain ⟨name, depth⟩ := pending
      obtain ⟨p, hp, replacement, placed, later⟩ := (mem_ahead_opened leftmost).1 h
      -- the tree after the production weighs less, so its draws are known
      have := Derivation.weight_fill_lt g leftmost hp placed
      obtain ⟨draws, drawn⟩ := exists_replay later
      obtain ⟨i, lt, rfl⟩ := List.mem_iff_getElem.1 hp
      refine ⟨Stream'.cons i draws, ?_⟩
      have first := replay_cons lt draws
      rw [drawn_of_opened leftmost (by rw [first]; exact List.getElem?_eq_getElem lt) placed, first]
      exact drawn
termination_by t.weight g bound

/-! ## 3. Samples -/

/-- What is tried more than once gives an operator only if a derivation does. -/
theorem mem_language_of_tried {attempts : Nat} {tally : Tally} {r : σ}
    (h : (g.tryDerivations draw bound attempts tally r).1 = .ok op) : op ∈ g.language bound := by
  induction attempts generalizing tally r with
  | zero => cases h
  | succ attempts ih =>
      rw [tryDerivations] at h
      split at h
      · rename_i found r' derived
        cases h
        rw [← ahead_start]
        exact mem_ahead_of_drawn (congrArg Prod.fst derived)
      · exact ih h

/-- The first derivation is enough if it gives an operator. -/
theorem tried_of_drawn {r : σ} (h : (g.deriveAtRandom draw bound (.pending g.start 0) r).1 = .ok op)
    (attempts : Nat) (tally : Tally) :
    (g.tryDerivations draw bound (attempts + 1) tally r).1 = .ok op := by
  rw [tryDerivations]
  split
  · rename_i found r' derived
    rw [derived] at h
    cases h
    rfl
  · rename_i failure r' derived
    rw [derived] at h
    cases h

variable {settings : ExpansionSettings}

/-- A sample is what the attempts that the settings allow give. -/
theorem sampled_iff_tried (hb : g.depthBound settings = .ok bound) {r : σ} :
    (g.sample draw settings r).1 = .ok op ↔
      (g.tryDerivations draw bound settings.attempts {} r).1 = .ok op := by
  rw [sample, hb]
  by_cases none' : settings.attempts = 0
  · rw [ExpansionSettings.check, if_pos none', none', tryDerivations]
    simp
  · rw [ExpansionSettings.check, if_neg none']
    dsimp only
    split <;> simp [*]

/-- A sample is in the language under the bound that the settings give. -/
theorem mem_language_of_sample (hb : g.depthBound settings = .ok bound) {r : σ}
    (h : (g.sample draw settings r).1 = .ok op) : op ∈ g.language bound :=
  mem_language_of_tried ((sampled_iff_tried hb).1 h)

/-- What is in the language can be sampled: the first attempt may give it. -/
theorem exists_replay_sample (hb : g.depthBound settings = .ok bound)
    (some' : settings.attempts ≠ 0) (h : op ∈ g.language bound) :
    ∃ draws, (g.sample replay settings draws).1 = .ok op := by
  obtain ⟨attempts, e⟩ := Nat.exists_eq_succ_of_ne_zero some'
  rw [← ahead_start] at h
  obtain ⟨draws, drawn⟩ := exists_replay h
  refine ⟨draws, (sampled_iff_tried hb).2 ?_⟩
  rw [e]
  exact tried_of_drawn drawn attempts {}

/-- Samples drawn one after the other from a random stream are in the language. -/
theorem mem_language_of_sampleMany (hb : g.depthBound settings = .ok bound) {count : Nat}
    {r : RandomStream} {ops : List Operator} (h : g.sampleMany settings count r = .ok ops) :
    ∀ op ∈ ops, op ∈ g.language bound := by
  induction count generalizing r ops with
  | zero => cases h; simp
  | succ count ih =>
      rw [sampleMany] at h
      split at h
      · cases h
      · rename_i op r' sampled
        cases later : g.sampleMany settings count r' with
        | error fault => rw [later] at h; cases h
        | ok rest =>
            rw [later] at h
            cases h
            exact List.forall_mem_cons.2
              ⟨mem_language_of_sample hb (congrArg Prod.fst sampled), ih later⟩

/-! ## 4. Enumerations -/

/-- An expansion of all pipelines gives those of the language. -/
theorem ok_mem_collect_iff :
    .ok op ∈ (Expansion.mk g bound [.pending g.start 0] none {} false).collect.1 ↔
      op ∈ g.language bound := by
  have results := Expansion.filterMap_collect ⟨g, bound, [.pending g.start 0], none, {}, false⟩
  rw [Expansion.upcoming, if_neg Bool.false_ne_true] at results
  rw [← ahead_start]
  change _ ↔ op ∈ upTo none (ahead g bound [.pending g.start 0])
  rw [← results, List.mem_filterMap]
  constructor
  · exact fun h => ⟨_, h, rfl⟩
  · rintro ⟨result, h, e⟩
    cases result with
    | error fault => cases e
    | ok found => cases e; exact h

/-- An enumeration of all pipelines, in one search or in several, lists the language. -/
theorem mem_enumerate (hb : g.depthBound settings = .ok bound) (all : settings.maxCount = none)
    (h : op ∈ g.language bound) : ∃ ops, g.enumerate settings = .ok ops ∧ op ∈ ops := by
  have wanted : settings.maxCount ≠ some 0 := by rw [all]; exact nofun
  refine ⟨g.language bound, ?_, h⟩
  rw [enumerate_answers hb wanted, answer, all]
  exact if_neg fun both => List.ne_nil_of_mem h both.1

/-- **Whatever the grammar and the depth bound, the operators that a derivation at random can give,
    over all sequences of draws, are those that an expansion under the bound gives if it is to give
    all; and the same holds of samples. No other source of draws gives any other operator, and every
    sample is in the list of an enumeration of all.** -/
theorem drawn_iff_expanded (hb : g.depthBound settings = .ok bound) :
    ∃ e, g.expand { settings with maxCount := none } = .ok e ∧
      (∀ op, (∃ draws, (g.deriveAtRandom replay bound (.pending g.start 0) draws).1 = .ok op) ↔
        .ok op ∈ e.collect.1) ∧
      (settings.attempts ≠ 0 → ∀ op, (∃ draws, (g.sample replay settings draws).1 = .ok op) ↔
        .ok op ∈ e.collect.1) ∧
      ∀ (σ : Type) (draw : Draw σ) (r : σ) (op : Operator),
        ((g.deriveAtRandom draw bound (.pending g.start 0) r).1 = .ok op → .ok op ∈ e.collect.1) ∧
          ((g.sample draw settings r).1 = .ok op → .ok op ∈ e.collect.1 ∧
            ∃ ops, g.enumerate { settings with maxCount := none } = .ok ops ∧ op ∈ ops) := by
  have bounded : g.depthBound { settings with maxCount := none } = .ok bound := hb
  refine ⟨⟨g, bound, [.pending g.start 0], none, {}, false⟩, by rw [expand, bounded]; rfl, ?_⟩
  simp only [ok_mem_collect_iff]
  refine ⟨fun op => ⟨?_, ?_⟩, fun some' op => ⟨?_, exists_replay_sample hb some'⟩,
    fun σ draw r op => ⟨?_, fun h => ?_⟩⟩
  · rintro ⟨draws, h⟩
    exact ahead_start g bound ▸ mem_ahead_of_drawn h
  · exact fun h => exists_replay (ahead_start g bound ▸ h)
  · rintro ⟨draws, h⟩
    exact mem_language_of_sample hb h
  · exact fun h => ahead_start g bound ▸ mem_ahead_of_drawn h
  · have listed := mem_language_of_sample hb h
    exact ⟨listed, mem_enumerate bounded rfl listed⟩

/-- A chain of two steps can be drawn, and is listed. -/
theorem drawn_iff_expanded_chains :
    chains.depthBound { maxDepth := some 5 } = .ok 5 ∧
      ∃ e, chains.expand { maxDepth := some 5, maxCount := none } = .ok e ∧
        ∃ op draws, op.text = "a >> a" ∧ .ok op ∈ e.collect.1 ∧
          (chains.deriveAtRandom replay 5 (.pending chains.start 0) draws).1 = .ok op := by
  have bounded : chains.depthBound { maxDepth := some 5 } = .ok 5 := rfl
  obtain ⟨op, derived, text⟩ : ∃ op ∈ chains.language 5, op.text = "a >> a" := by decide +kernel
  obtain ⟨draws, drawn⟩ := exists_replay ((ahead_start chains 5).symm ▸ derived)
  obtain ⟨e, expanded, drawn_iff, _⟩ := drawn_iff_expanded bounded
  exact ⟨bounded, e, expanded, op, draws, text, (drawn_iff op).1 ⟨draws, drawn⟩, drawn⟩

end Grammar

end TypedPipeline
