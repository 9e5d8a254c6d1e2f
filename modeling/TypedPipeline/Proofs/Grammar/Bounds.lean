import Mathlib.Data.List.Flatten
import TypedPipeline.Proofs.Grammar.Room
import TypedPipeline.Proofs.Grammar.Sampling
import TypedPipeline.Proofs.Space.Sampling

/-!
# Proofs.Grammar.Bounds: what a depth bound leaves out

A larger bound adds derivations between those that a smaller one allows. Past the longest derivation
there are none to add. This file fixes:

* that under a larger bound the language has the operators it had, in the same order
  (`Grammar.language_sublist`);
* what room in the trees means call by call (`Expansion.Roomy.next`), for all results
  (`Expansion.Roomy.collect_withBound`), for the productions of the start on their own
  (`Grammar.count_partsTally`) and for derivations at random (`Grammar.drawn_ne_error`);
* that a grammar put together by its operations has productions for every name that is reached, if it
  checks (`Grammar.IsBuilt.rulesOut`);
* **that bounds are monotone and the bound found for settings without one is enough**
  (`Grammar.depthBound_enough`).
-/

namespace TypedPipeline

/-! ## 1. A larger bound -/

namespace Expr

variable {bound bound' : Nat} {names names' : String → Nat → List Derivation}

mutual

/-- Under a larger bound a production has the trees it had, and perhaps others between them. -/
theorem derived_sublist (le : bound ≤ bound') (h : ∀ name d, (names name d).Sublist (names' name d))
    (e : Expr) (depth : Nat) :
    (e.derived bound names depth).Sublist (e.derived bound' names' depth) := by
  cases e with
  | terminal op =>
      rw [derived, derived]
      split
      · rw [if_pos (by omega)]
      · exact List.nil_sublist _
  | nonterminal name =>
      rw [derived, derived]
      split
      · rw [if_pos (by omega)]
        exact h name depth
      · exact List.nil_sublist _
  | combine combinator children =>
      rw [derived, derived]
      split
      · rw [if_pos (by omega)]
        exact (choices_derivedAll_sublist le h children (depth + 1)).map _
      · exact List.nil_sublist _

theorem choices_derivedAll_sublist (le : bound ≤ bound')
    (h : ∀ name d, (names name d).Sublist (names' name d)) (es : List Expr) (depth : Nat) :
    (choices (derivedAll bound names es depth)).Sublist
      (choices (derivedAll bound' names' es depth)) := by
  cases es with
  | nil => exact List.Sublist.refl _
  | cons e rest =>
      rw [derivedAll, derivedAll, choices, choices]
      -- first more trees of the first child, then more choices for the others with each of them
      refine ((derived_sublist le h e depth).flatMap _).trans ?_
      exact List.Sublist.flatMap_right _ fun a _ =>
        (choices_derivedAll_sublist le h rest depth).map _

end

end Expr

namespace Grammar

variable {g : Grammar} {bound bound' : Nat}

theorem derivedWithin_sublist (le : bound ≤ bound') (levels : Nat) (name : String) (depth : Nat) :
    (g.derivedWithin bound levels name depth).Sublist
      (g.derivedWithin bound' levels name depth) := by
  induction levels generalizing name depth with
  | zero => exact List.Sublist.refl _
  | succ levels ih =>
      exact List.Sublist.flatMap_right _ fun production _ => production.derived_sublist le ih _

/-- **Under a larger bound the language has the operators it had, in the same order.** -/
theorem language_sublist (g : Grammar) (le : bound ≤ bound') :
    (g.language bound).Sublist (g.language bound') := by
  -- the smaller bound is given the levels of the larger one, which change nothing for it
  refine List.Sublist.filterMap _ ?_
  rw [derived, g.derivedWithin_eq (Nat.le_refl _) (Nat.sub_le_sub_right le 0)]
  exact derivedWithin_sublist le _ _ _

end Grammar

/-! ## 2. Expansions with room -/

namespace Expansion

/-- No chain of references goes on for ever, and there is room in every tree still to be searched. -/
structure Roomy (e : Expansion) : Prop where
  settled : e.grammar.Settled e.grammar.start
  stack : ∀ t ∈ e.stack, t.Roomy e.grammar e.bound

/-- The same expansion under another bound. -/
def withBound (e : Expansion) (bound : Nat) : Expansion := { e with bound }

variable {e : Expansion} {failure : Failure} {bound : Nat}

/-- **A call leaves room.** -/
theorem Roomy.next (h : e.Roomy) : e.next.2.Roomy := by
  rw [Expansion.next]
  split
  · exact h
  · split
    · rename_i op rest tally searched
      exact ⟨h.settled, roomy_of_search h.settled h.stack searched⟩
    · dsimp only
      split <;> exact ⟨h.settled, by simp⟩

/-- **It counts nothing for a reason that is ruled out.** -/
theorem Roomy.count_next (h : e.Roomy) (ruledOut : e.grammar.RulesOut failure) :
    e.next.2.tally.count failure = e.tally.count failure := by
  have count := count_search h.settled ruledOut h.stack e.tally
  rw [Expansion.next]
  split
  · rfl
  · split
    · rename_i op rest tally searched
      rw [searched] at count
      exact count
    · rename_i tally searched
      rw [searched] at count
      dsimp only
      split <;> exact count

/-- **It is the same call under any larger bound.** -/
theorem Roomy.next_withBound (h : e.Roomy) (le : e.bound ≤ bound) :
    (e.withBound bound).next = (e.next.1, e.next.2.withBound bound) := by
  have same := search_eq_of_roomy h.settled le h.stack e.tally
  rw [Expansion.next, Expansion.next, withBound, same]
  split
  · rfl
  · split
    · rfl
    · dsimp only
      split <;> rfl

theorem Roomy.count_afterCalls (h : e.Roomy) (ruledOut : e.grammar.RulesOut failure) (k : Nat) :
    (e.afterCalls k).tally.count failure = e.tally.count failure := by
  induction k generalizing e with
  | zero => rfl
  | succ k ih =>
      have ruledOut' : e.next.2.grammar.RulesOut failure := e.next_keeps.1.symm ▸ ruledOut
      rw [afterCalls, ih h.next ruledOut', h.count_next ruledOut]

/-- The fault that ends an expansion says what was counted. -/
theorem tally_of_next_error {after : Expansion} {start : String} {tally : Tally}
    (h : e.next = (some (.error (.grammar (.noDerivation start tally))), after)) :
    after.tally = tally := by
  rw [next] at h
  split at h
  · cases h
  · split at h
    · cases h
    · dsimp only at h
      split at h <;> cases h
      rfl

/-- What is counted in the end, and what a fault among the results says. -/
theorem Roomy.count_collect (h : e.Roomy) (ruledOut : e.grammar.RulesOut failure) :
    e.collect.2.tally.count failure = e.tally.count failure ∧
      ∀ start tally, .error (.grammar (.noDerivation start tally)) ∈ e.collect.1 →
        tally.count failure = e.tally.count failure := by
  fun_induction collect e with
  | case1 e after ended =>
      have count := h.count_next ruledOut
      rw [ended] at count
      exact ⟨count, by simp⟩
  | case2 e result after found less results last collected ih =>
      have count := h.count_next ruledOut
      have room := h.next
      have same := e.next_keeps.1
      rw [found] at count room same
      have later := ih room (same.symm ▸ ruledOut)
      rw [collected] at later
      refine ⟨later.1.trans count, fun start tally listed => ?_⟩
      rcases List.mem_cons.1 listed with rfl | listed
      · rw [← tally_of_next_error found]
        exact count
      · exact (later.2 start tally listed).trans count

/-- **All results are the same under any larger bound.** -/
theorem Roomy.collect_withBound (h : e.Roomy) (le : e.bound ≤ bound) :
    (e.withBound bound).collect = (e.collect.1, e.collect.2.withBound bound) := by
  fun_induction collect e with
  | case1 e after ended =>
      have same := h.next_withBound le
      rw [ended] at same
      exact collect_of_next_none same
  | case2 e result after found less results last collected ih =>
      have same := h.next_withBound le
      have room := h.next
      have keeps := e.next_keeps.2.1
      rw [found] at same room keeps
      have later := ih room (Nat.le_trans (Nat.le_of_eq keeps) le)
      rw [collected] at later
      rw [collect_of_next_some same, later]

end Expansion

/-! ## 3. Enumerations with room -/

theorem Tally.count_empty (failure : Failure) : Tally.count {} failure = 0 := by cases failure <;> rfl

theorem Tally.count_merge (s t : Tally) (failure : Failure) :
    (s.merge t).count failure = s.count failure + t.count failure := by cases failure <;> rfl

theorem Tally.count_foldl_merge {found : List (List Operator × Tally)} {failure : Failure}
    (h : ∀ part ∈ found, part.2.count failure = 0) (tally : Tally) :
    (found.foldl (fun tally part => tally.merge part.2) tally).count failure = tally.count failure := by
  induction found generalizing tally with
  | nil => rfl
  | cons part rest ih =>
      obtain ⟨first, others⟩ := List.forall_mem_cons.1 h
      rw [List.foldl_cons, ih others, count_merge, first, Nat.add_zero]

theorem mem_of_mapM_error {results : List (Except Fault Operator)} {fault : Fault}
    (h : results.mapM id = .error fault) : .error fault ∈ results := by
  induction results with
  | nil => cases h
  | cons result rest ih =>
      rw [List.mapM_cons] at h
      cases result with
      | error first => cases h; exact List.mem_cons_self
      | ok op =>
          cases later : rest.mapM id with
          | error last =>
              rw [later] at h
              cases h
              exact List.mem_cons_of_mem _ (ih later)
          | ok ops => rw [later] at h; cases h

namespace Grammar

variable {g : Grammar} {bound bound' : Nat} {failure : Failure} {settings : ExpansionSettings}

/-- The expansion of the start under a bound. -/
def expansion (g : Grammar) (bound : Nat) (maxCount : Option Nat) : Expansion where
  grammar := g
  bound
  stack := [.pending g.start 0]
  remaining := maxCount

theorem expand_eq (hb : g.depthBound settings = .ok bound) :
    g.expand settings = .ok (g.expansion bound settings.maxCount) := by
  rw [expand, hb]
  rfl

/-- It gives the operators of the language, up to the count that is wanted. -/
theorem operators_expansion (g : Grammar) (bound : Nat) (maxCount : Option Nat) :
    (g.expansion bound maxCount).collect.1.filterMap Except.toOption =
      upTo maxCount (g.language bound) := by
  rw [Expansion.filterMap_collect, ← ahead_start]
  exact if_neg Bool.false_ne_true

theorem roomy_expansion (settled : g.Settled g.start) (le : g.longest ≤ bound)
    (maxCount : Option Nat) : (g.expansion bound maxCount).Roomy :=
  ⟨settled, fun _ ht => List.mem_singleton.1 ht ▸ Derivation.roomy_start le⟩

/-- The tree of a production of the start takes its place, and there is room in it. -/
theorem roomy_production (settled : g.Settled g.start) (le : g.longest ≤ bound) {production : Expr}
    (hp : production ∈ g.productions g.start) :
    Derivation.instantiate bound production 0 = .ok (production.tree 1) ∧
      ∀ maxCount, Expansion.Roomy ⟨g, bound, [production.tree 1], maxCount, {}, false⟩ := by
  have start := Derivation.roomy_start le
  refine ⟨start.instantiate settled rfl hp, fun _ => ⟨settled, fun t ht => ?_⟩⟩
  rw [List.mem_singleton.1 ht]
  exact start.fill settled rfl hp

theorem count_enumerateProduction (settled : g.Settled g.start) (le : g.longest ≤ bound)
    (ruledOut : g.RulesOut failure) (maxCount : Option Nat) {production : Expr}
    (hp : production ∈ g.productions g.start) :
    (g.enumerateProduction bound maxCount production).2.count failure = 0 := by
  obtain ⟨placed, room⟩ := roomy_production settled le hp
  rw [enumerateProduction, placed]
  exact ((room maxCount).count_collect ruledOut).1.trans (Tally.count_empty failure)

theorem enumerateProduction_eq (settled : g.Settled g.start) (le : g.longest ≤ bound)
    (le' : bound ≤ bound') (maxCount : Option Nat) {production : Expr}
    (hp : production ∈ g.productions g.start) :
    g.enumerateProduction bound' maxCount production =
      g.enumerateProduction bound maxCount production := by
  obtain ⟨placed, room⟩ := roomy_production settled le hp
  obtain ⟨placed', _⟩ := roomy_production settled (Nat.le_trans le le') hp
  have same := (room maxCount).collect_withBound le'
  rw [enumerateProduction, enumerateProduction, placed, placed']
  rw [Expansion.withBound] at same
  dsimp only at same ⊢
  rw [same]
  rfl

theorem count_partsTally (settled : g.Settled g.start) (le : g.longest ≤ bound)
    (ruledOut : g.RulesOut failure) (maxCount : Option Nat) :
    (g.partsTally bound maxCount).count failure = 0 := by
  have each : ∀ part ∈ g.parts bound maxCount, part.2.count failure = 0 := fun part listed => by
    obtain ⟨production, hp, rfl⟩ := List.mem_map.1 listed
    exact count_enumerateProduction settled le ruledOut maxCount hp
  rw [partsTally, Tally.count_foldl_merge each]
  split
  · rename_i empty
    refine (Tally.count_record {} ?_).trans (Tally.count_empty failure)
    rintro rfl
    exact ruledOut g.start Relation.ReflTransGen.refl (List.isEmpty_iff.1 empty)
  · exact Tally.count_empty failure

/-- **What an enumeration that fails says of a reason that is ruled out.** -/
theorem count_enumerate (settled : g.Settled g.start) (le : g.longest ≤ bound)
    (hb : g.depthBound settings = .ok bound) (ruledOut : g.RulesOut failure) {start : String}
    {tally : Tally} (h : g.enumerate settings = .error (.grammar (.noDerivation start tally))) :
    tally.count failure = 0 := by
  rw [enumerate] at h
  split at h
  · rw [enumerateApart_of_bound hb] at h
    split at h
    · cases h
      exact count_partsTally settled le ruledOut settings.maxCount
    · cases h
  · rw [expand_eq hb] at h
    have room := roomy_expansion settled le settings.maxCount
    have listed := mem_of_mapM_error h
    exact ((room.count_collect ruledOut).2 start tally listed).trans (Tally.count_empty failure)

/-- **An enumeration is the same under any larger bound.** -/
theorem enumerate_eq_of_le (settled : g.Settled g.start) (le : g.longest ≤ bound)
    (hb : g.depthBound settings = .ok bound) (le' : bound ≤ bound') :
    g.enumerate { settings with maxDepth := some bound' } = g.enumerate settings := by
  have hb' : g.depthBound { settings with maxDepth := some bound' } = .ok bound' := rfl
  rw [enumerate, enumerate]
  dsimp only
  split
  · have same : g.parts bound' settings.maxCount = g.parts bound settings.maxCount :=
      List.map_congr_left fun production hp => enumerateProduction_eq settled le le' _ hp
    rw [enumerateApart_of_bound hb, enumerateApart_of_bound hb', partsTally, partsTally, same]
  · rw [expand_eq hb, expand_eq hb']
    have same := (roomy_expansion settled le settings.maxCount).collect_withBound le'
    exact congrArg (fun collected : _ × Expansion => collected.1.mapM id) same

end Grammar

/-! ## 4. Samples with room -/

/-- The source gives numbers below the ranges that it is asked for. -/
def Draw.Fair {σ : Type} (draw : Draw σ) : Prop := ∀ range r, 0 < range → (draw range r).1 < range

theorem RandomStream.fair_nextBelow : Draw.Fair nextBelow := fun _ r h => nextBelowWithin_lt h 256 r

namespace Grammar

variable {g : Grammar} {bound : Nat} {failure : Failure} {settings : ExpansionSettings} {σ : Type}
  {draw : Draw σ}

/-- **A derivation at random is not given up for a reason that is ruled out.** -/
theorem drawn_ne_error (settled : g.Settled g.start) (ruledOut : g.RulesOut failure)
    (fair : draw.Fair) {t : Derivation} (room : t.Roomy g bound) (r : σ) :
    (g.deriveAtRandom draw bound t r).1 ≠ .error failure := by
  fun_induction deriveAtRandom g draw bound t r with
  | case1 t r complete op made =>
      intro h
      cases h
  | case2 t r complete fault refused =>
      rintro ⟨⟩
      exact ruledOut
  | case3 t r name depth leftmost empty =>
      rintro ⟨⟩
      exact ruledOut name (room.leftmost leftmost).1 (List.isEmpty_iff.1 empty)
  | case4 t r name depth leftmost some' drawn outside =>
      have present : 0 < (g.productions name).length :=
        List.length_pos_iff.2 fun e => some' (by rw [e]; rfl)
      -- a fair draw stands for a production
      have inside := fair _ r present
      rw [List.getElem?_eq_none_iff] at outside
      exact absurd inside (Nat.not_lt.2 outside)
  | case5 t r name depth leftmost some' drawn production chosen failure refused =>
      have placed := room.instantiate settled leftmost (List.mem_of_getElem? chosen)
      cases placed.symm.trans refused
  | case6 t r name depth leftmost some' drawn production chosen replacement placed ih =>
      have hp := List.mem_of_getElem? chosen
      have tree := room.instantiate settled leftmost hp
      cases tree.symm.trans placed
      exact ih (room.fill settled leftmost hp)

/-- **So attempt after attempt counts nothing for it.** -/
theorem count_tryDerivations (settled : g.Settled g.start) (ruledOut : g.RulesOut failure)
    (fair : draw.Fair) (le : g.longest ≤ bound) {attempts : Nat} {tally last : Tally} {r : σ}
    (h : (g.tryDerivations draw bound attempts tally r).1 = .error last) :
    last.count failure = tally.count failure := by
  induction attempts generalizing tally r with
  | zero => cases h; rfl
  | succ attempts ih =>
      have kept := drawn_ne_error settled ruledOut fair (Derivation.roomy_start le) r
      rw [tryDerivations] at h
      split at h
      · cases h
      · rename_i other r' given
        rw [given] at kept
        exact (ih h).trans (tally.count_record fun e => kept (congrArg _ e))

theorem count_sample (settled : g.Settled g.start) (ruledOut : g.RulesOut failure)
    (fair : draw.Fair) (le : g.longest ≤ bound) (hb : g.depthBound settings = .ok bound) {r : σ}
    {start : String} {attempts : Nat} {tally : Tally}
    (h : (g.sample draw settings r).1 = .error (.grammar (.noSample start attempts tally))) :
    tally.count failure = 0 := by
  rw [sample, hb] at h
  split at h
  · rename_i refused
    unfold ExpansionSettings.check at refused
    split at refused <;> cases refused
    cases h
  · rename_i unbounded
    cases unbounded
  · rename_i bounded
    cases bounded
    split at h
    · cases h
    · rename_i last r' given
      cases h
      exact (count_tryDerivations settled ruledOut fair le (congrArg Prod.fst given)).trans
        (Tally.count_empty failure)

/-! ## 5. Grammars that check -/

/-- A grammar that was put together production by production. -/
inductive IsBuilt : Grammar → Prop where
  | new (start : String) : IsBuilt { start }
  | add {g : Grammar} (name : String) (production : Expr) (h : IsBuilt g) :
      IsBuilt (g.addProduction name production)

/-- Each of its rules has a production. -/
theorem IsBuilt.rule_ne_nil (h : g.IsBuilt) : ∀ rule ∈ g.rules, rule.2 ≠ [] := by
  induction h with
  | new start => simp
  | add name production h ih =>
      intro rule hr
      rcases Keyed.mem_of_mem_put hr with rfl | hr
      · simp
      · exact ih rule hr

theorem IsBuilt.productions_ne_nil (h : g.IsBuilt) {name : String} (has : g.has name = true) :
    g.productions name ≠ [] := by
  unfold productions
  cases found : g.rules.find? name with
  | none => exact absurd (Keyed.has_iff.1 has) (Keyed.find?_eq_none_iff.1 found)
  | some listed => exact h.rule_ne_nil _ (Keyed.mem_of_find? found)

/-- What the check says: the start has productions, and what a production refers to has a rule. -/
theorem validate_eq_ok (h : g.validate = .ok ()) : g.productions g.start ≠ [] ∧
    ∀ rule ∈ g.rules, ∀ production ∈ rule.2, ∀ name ∈ production.references,
      g.has name = true := by
  unfold validate at h
  split at h
  · cases h
  · rename_i some'
    split at h
    · cases h
    · rename_i clear
      refine ⟨fun e => some' (by rw [e]; rfl), fun rule hr production hp name hn => ?_⟩
      rw [undefinedReference?, List.findSome?_eq_none_iff] at clear
      have here := List.findSome?_eq_none_iff.1 (clear rule hr) production hp
      rw [Option.map_eq_none_iff, undefined?, List.find?_eq_none] at here
      simpa using here name hn

/-- **In a grammar that checks, every name that is reached has productions.** -/
theorem IsBuilt.rulesOut (h : g.IsBuilt) (checked : g.validate = .ok ()) :
    g.RulesOut .noProduction := by
  obtain ⟨start, each⟩ := validate_eq_ok checked
  intro name reached
  cases reached with
  | refl => exact start
  | tail _ refers =>
      obtain ⟨production, hp, hn⟩ := refers
      obtain ⟨rule, hr, _, hp⟩ := mem_productions hp
      exact h.productions_ne_nil (each rule hr production hp name hn)

/-! ## 6. Bounds -/

/-- An enumeration of all pipelines lists the language, unless that is empty. -/
theorem enumerate_eq_ok_iff (hb : g.depthBound settings = .ok bound)
    (all : settings.maxCount = none) {ops : List Operator} :
    g.enumerate settings = .ok ops ↔ g.language bound ≠ [] ∧ ops = g.language bound := by
  have wanted : settings.maxCount ≠ some 0 := by rw [all]; exact nofun
  have listed : upTo settings.maxCount (g.language bound) = g.language bound := by rw [all]; rfl
  rw [enumerate_answers hb wanted, listed, answer]
  by_cases nothing : g.language bound = []
  · have searched : (search g bound [.pending g.start 0] {}).1 = none :=
      search_eq_none_iff.2 ((ahead_start g bound).trans nothing)
    have given := length_le_failures_search searched
    rw [search_start nothing] at given
    rw [if_pos ⟨nothing, Nat.lt_of_lt_of_le Nat.one_pos given⟩]
    simp [nothing]
  · rw [if_neg fun both => nothing both.1]
    simp [nothing, eq_comm]

/-- No derivation is given up for a reason: not in an expansion, call after call, nor with each
    production of the start on its own, nor at random, whatever is drawn; and the faults that end an
    enumeration or a sample report none. -/
structure NeverCounts (g : Grammar) (settings : ExpansionSettings) (failure : Failure) : Prop where
  calls : ∀ e, g.expand settings = .ok e → ∀ k, (e.afterCalls k).tally.count failure = 0
  apart : ∀ bound, g.depthBound settings = .ok bound →
    (g.partsTally bound settings.maxCount).count failure = 0
  enumerated : ∀ start tally,
    g.enumerate settings = .error (.grammar (.noDerivation start tally)) → tally.count failure = 0
  drawn : ∀ bound, g.depthBound settings = .ok bound → ∀ (σ : Type) (draw : Draw σ), draw.Fair →
    ∀ r, (g.deriveAtRandom draw bound (.pending g.start 0) r).1 ≠ .error failure
  sampled : ∀ (σ : Type) (draw : Draw σ), draw.Fair → ∀ r start attempts tally,
    (g.sample draw settings r).1 = .error (.grammar (.noSample start attempts tally)) →
      tally.count failure = 0

/-- **Under a bound that leaves room for the longest derivation nothing is counted for a reason that is
    ruled out.** -/
theorem neverCounts (settled : g.Settled g.start) (le : g.longest ≤ bound)
    (hb : g.depthBound settings = .ok bound) (ruledOut : g.RulesOut failure) :
    g.NeverCounts settings failure where
  calls e expanded k := by
    cases (expand_eq hb).symm.trans expanded
    exact ((roomy_expansion settled le _).count_afterCalls ruledOut k).trans
      (Tally.count_empty failure)
  apart bound' hb' := by
    cases hb.symm.trans hb'
    exact count_partsTally settled le ruledOut _
  enumerated start tally h := count_enumerate settled le hb ruledOut h
  drawn bound' hb' σ draw fair r := by
    cases hb.symm.trans hb'
    exact drawn_ne_error settled ruledOut fair (Derivation.roomy_start le) r
  sampled σ draw fair r start attempts tally h := count_sample settled ruledOut fair le hb h

/-- **Whatever the grammar: if all pipelines are wanted, those that are given and listed under a bound
    are among those under a larger one, in the same order. If no name is reached from itself, the bound
    of settings without one is the longest derivation; no derivation is then given up as too deep, and
    none for a lack of productions if the grammar checks; and under every larger bound the results and
    the list are the same.** -/
theorem depthBound_enough (g : Grammar) (settings : ExpansionSettings) :
    (settings.maxCount = none → ∀ bound bound', bound ≤ bound' →
      (∃ e e', g.expand { settings with maxDepth := some bound } = .ok e ∧
        g.expand { settings with maxDepth := some bound' } = .ok e' ∧
        (e.collect.1.filterMap Except.toOption).Sublist
          (e'.collect.1.filterMap Except.toOption)) ∧
      ∀ ops, g.enumerate { settings with maxDepth := some bound } = .ok ops →
        ∃ ops', g.enumerate { settings with maxDepth := some bound' } = .ok ops' ∧
          ops.Sublist ops') ∧
    (settings.maxDepth = none → (∀ name, ¬g.OnCycle name) →
      g.depthBound settings = .ok g.longest ∧
      g.NeverCounts settings .tooDeep ∧
      (g.IsBuilt → g.validate = .ok () → g.NeverCounts settings .noProduction) ∧
      ∀ bound, g.longest ≤ bound →
        g.enumerate { settings with maxDepth := some bound } = g.enumerate settings ∧
        ∃ e e', g.expand settings = .ok e ∧
          g.expand { settings with maxDepth := some bound } = .ok e' ∧ e'.collect.1 = e.collect.1) := by
  constructor
  · intro all bound bound' le
    have hb (bound : Nat) : g.depthBound { settings with maxDepth := some bound } = .ok bound := rfl
    have more := g.language_sublist le
    refine ⟨⟨_, _, expand_eq (hb bound), expand_eq (hb bound'), ?_⟩, fun ops listed => ?_⟩
    · rw [operators_expansion, operators_expansion, all]
      exact more
    · obtain ⟨some', rfl⟩ := (enumerate_eq_ok_iff (hb bound) all).1 listed
      refine ⟨_, (enumerate_eq_ok_iff (hb bound') all).2 ⟨fun none' => some' ?_, rfl⟩, more⟩
      exact List.sublist_nil.1 (none' ▸ more)
  · intro unbounded acyclic
    have clear := findCycle_eq_none_iff.2 acyclic
    have settled := settled_of_findCycle clear
    have hb : g.depthBound settings = .ok g.longest := by rw [depthBound, unbounded, clear]
    refine ⟨hb, neverCounts settled (Nat.le_refl _) hb trivial, fun built checked =>
      neverCounts settled (Nat.le_refl _) hb (built.rulesOut checked), fun bound le => ⟨?_, ?_⟩⟩
    · exact enumerate_eq_of_le settled (Nat.le_refl _) hb le
    · refine ⟨_, _, expand_eq hb, expand_eq rfl, ?_⟩
      have same := (roomy_expansion settled (Nat.le_refl _) settings.maxCount).collect_withBound le
      change ((g.expansion g.longest settings.maxCount).withBound bound).collect.1 = _
      rw [same]

/-- A pipeline of one step, on its own or with another one after it. -/
def pair : Grammar :=
  let leaf (name : String) : Expr := .terminal (.leaf name none ⟨.any, .any, .any⟩)
  ((({ start := "pair" } : Grammar).addProduction "pair"
    (.combine .sequential [.nonterminal "step", leaf "b"])).addProduction "pair"
    (.nonterminal "step")).addProduction "step" (leaf "a")

/-- Its longest derivation has three levels. Two levels leave one pipeline of the two. -/
theorem depthBound_enough_pair :
    (pair.IsBuilt ∧ pair.validate = .ok () ∧ ∀ name, ¬pair.OnCycle name) ∧
      pair.depthBound { maxDepth := none, maxCount := none } = .ok 3 ∧
      pair.NeverCounts { maxDepth := none, maxCount := none } .tooDeep ∧
      pair.NeverCounts { maxDepth := none, maxCount := none } .noProduction ∧
      pair.enumerate { maxDepth := some 8, maxCount := none } =
        pair.enumerate { maxDepth := none, maxCount := none } ∧
      ∃ ops ops', pair.enumerate { maxDepth := some 2, maxCount := none } = .ok ops ∧
        pair.enumerate { maxDepth := some 3, maxCount := none } = .ok ops' ∧ ops.Sublist ops' ∧
        ops.map Operator.text = ["a"] ∧ ops'.map Operator.text = ["a >> b", "a"] := by
  have built : pair.IsBuilt := .add _ _ (.add _ _ (.add _ _ (.new _)))
  have checked : pair.validate = .ok () := rfl
  have acyclic : ∀ name, ¬pair.OnCycle name := by
    have rounds := @findCycleWithin_eq pair pair.allReferences
      [(pair.start, pair.successors pair.start)] 5 (by decide)
    exact findCycle_eq_none_iff.1 (Option.some_inj.1 (rounds.symm.trans (by decide)))
  have longest : pair.longest = 3 := by decide
  obtain ⟨larger, enough⟩ := depthBound_enough pair { maxDepth := none, maxCount := none }
  obtain ⟨bounded, deep, lacking, same⟩ := enough rfl acyclic
  have listed : pair.enumerate { maxDepth := some 2, maxCount := none } = .ok (pair.language 2) :=
    (enumerate_eq_ok_iff rfl rfl).2 ⟨by decide +kernel, rfl⟩
  obtain ⟨ops', listed', more⟩ := (larger rfl 2 3 (by decide)).2 _ listed
  refine ⟨⟨built, checked, acyclic⟩, longest ▸ bounded, deep, lacking built checked,
    (same 8 (by rw [longest]; decide)).1, _, ops', listed, listed', more, by decide +kernel, ?_⟩
  obtain ⟨_, rfl⟩ := (enumerate_eq_ok_iff rfl rfl).1 listed'
  decide +kernel

end Grammar

end TypedPipeline
