import TypedPipeline.Proofs.Grammar.Apart
import TypedPipeline.Proofs.Operator.Construction

/-!
# Proofs.Grammar.Ending: an expansion ends, within its bound and never silently

An expansion is asked for one result after the other. This file fixes:

* how deep the operators of a grammar are: what a production at a depth makes reaches no deeper than
  the bound (`Expr.depth_le_of_mem_derived`), since combining does not make its children deeper
  (`Combinator.depth_combine_le`), also where it puts the children of a child in its place;
* that a search that finds nothing has given up a derivation for each tree it began with
  (`length_le_failures_search`);
* how long a search takes: the rounds of its loop counted out (`searchWithin`) are no more than the
  weight of its trees (`searchWithin_eq`);
* the results of call after call (`next_afterCalls`), which are those of `collect` and then none;
* **that an expansion ends after a number of calls and rounds that is known beforehand, gives only
  operators that are less deep than its bound, and gives at least one or else one fault**
  (`Grammar.expansion_ends`).
-/

namespace TypedPipeline

/-! ## 1. Depth -/

theorem Operator.depthBelow_le_iff {ops : List Operator} {n : Nat} :
    depthBelow ops ≤ n ↔ ∀ op ∈ ops, op.depth < n := by
  induction ops with
  | nil => simp [depthBelow]
  | cons op rest ih => rw [depthBelow, Nat.max_le, ih, List.forall_mem_cons, Nat.lt_iff_add_one_le]

/-- A combination is at most one level deeper than what it combines. A child that gives way to its
    own children leaves it less deep. -/
theorem Combinator.depth_combine_le {combinator : Combinator} {ops : List Operator} {op : Operator}
    {n : Nat} (h : combinator.combine ops = .ok op) (below : ∀ part ∈ ops, part.depth < n) :
    op.depth ≤ n := by
  obtain ⟨signature, _, rfl⟩ := combine_eq_ok h
  rw [Operator.depth, Operator.depthBelow_le_iff]
  intro child hc
  obtain ⟨part, hp, hc⟩ := List.mem_flatMap.1 hc
  rcases mem_spliced hc with ⟨rfl, _⟩ | ⟨name, children, _, rfl, inside⟩
  · exact below child hp
  · have inner : child.depth < Operator.depthBelow children :=
      Operator.depthBelow_le_iff.1 (Nat.le_refl _) child inside
    exact Nat.lt_trans inner (below _ hp)

/-- The operators of trees in a row are those of each. -/
theorem Derivation.exists_of_mem_operators {ts : List Derivation} {ops : List Operator}
    (h : operators? ts = .ok ops) : ∀ op ∈ ops, ∃ t ∈ ts, t.operator? = .ok op := by
  induction ts generalizing ops with
  | nil => cases h; simp
  | cons t rest ih =>
      obtain ⟨first, made, h⟩ := Except.bind_eq_ok.1 h
      obtain ⟨later, others, h⟩ := Except.bind_eq_ok.1 h
      cases h
      refine List.forall_mem_cons.2 ⟨⟨t, List.mem_cons_self, made⟩, fun op hop => ?_⟩
      obtain ⟨t', ht', made'⟩ := ih others op hop
      exact ⟨t', List.mem_cons_of_mem _ ht', made'⟩

/-- At a depth, the operator of a tree stays within the bound. -/
def Derivation.Within (bound depth : Nat) (t : Derivation) : Prop :=
  ∀ op, t.operator? = .ok op → depth + op.depth ≤ bound

namespace Expr

variable {bound : Nat} {names : String → Nat → List Derivation}

mutual

/-- **What a production at a depth makes reaches no deeper than the bound**, if that holds of what
    the names make. -/
theorem depth_le_of_mem_derived (h : ∀ name d, ∀ t ∈ names name d, t.Within bound d) (e : Expr)
    {depth : Nat} {t : Derivation} (ht : t ∈ e.derived bound names depth) :
    t.Within bound depth := by
  cases e with
  | terminal op =>
      simp only [derived] at ht
      split at ht
      · intro made e
        rw [List.mem_singleton.1 ht] at e
        cases e
        assumption
      · cases ht
  | nonterminal name =>
      simp only [derived] at ht
      split at ht
      · exact h name depth t ht
      · cases ht
  | combine combinator children =>
      simp only [derived] at ht
      split at ht
      · rename_i within
        obtain ⟨trees, chosen, rfl⟩ := List.mem_map.1 ht
        intro op made
        obtain ⟨ops, parts, combined⟩ := Except.bind_eq_ok.1 made
        -- each part stands one below the combination, so it is less deep than what is left there
        have below : ∀ part ∈ ops, part.depth < bound - depth := fun part hp => by
          obtain ⟨t, ht, made⟩ := Derivation.exists_of_mem_operators parts part hp
          have := forall_mem_of_mem_choices (depth_le_of_mem_derivedAll h children) chosen t ht part
            made
          omega
        have := Combinator.depth_combine_le combined below
        omega
      · cases ht

theorem depth_le_of_mem_derivedAll (h : ∀ name d, ∀ t ∈ names name d, t.Within bound d)
    (es : List Expr) {depth : Nat} :
    ∀ trees ∈ derivedAll bound names es depth, ∀ t ∈ trees, t.Within bound depth := by
  cases es with
  | nil => simp [derivedAll]
  | cons e rest =>
      rw [derivedAll]
      exact List.forall_mem_cons.2
        ⟨fun t ht => depth_le_of_mem_derived h e ht, depth_le_of_mem_derivedAll h rest⟩

end

end Expr

namespace Grammar

/-- The productions of a name stand one below it, so what it makes stays one above the bound. -/
theorem within_of_mem_derived {g : Grammar} {bound depth : Nat} {name : String} {t : Derivation}
    (h : t ∈ g.derived bound name depth) : t.Within bound (depth + 1) := by
  rw [derived] at h
  generalize bound - depth = levels at h
  induction levels generalizing name depth t with
  | zero => cases h
  | succ levels ih =>
      obtain ⟨production, _, h⟩ := List.mem_flatMap.1 h
      refine production.depth_le_of_mem_derived (fun name d t ht op made => ?_) h
      have := ih ht op made
      omega

/-- **The operators of a language are less deep than the bound.** -/
theorem depth_lt_of_mem_language {g : Grammar} {bound : Nat} {op : Operator}
    (h : op ∈ g.language bound) : op.depth < bound := by
  obtain ⟨t, ht, made⟩ := List.mem_filterMap.1 h
  have made : t.operator? = .ok op := by
    cases e : t.operator? with
    | ok other => rw [e] at made; cases made; rfl
    | error fault => rw [e] at made; cases made
  have := within_of_mem_derived ht op made
  omega

end Grammar

/-! ## 2. What is given up -/

theorem Tally.failures_record (t : Tally) (failure : Failure) :
    (t.record failure).failures = t.failures + 1 := by
  cases failure <;> simp only [record, failures] <;> omega

/-- Each production of a name leads to a tree or is given up. -/
theorem Derivation.length_openAll {bound depth : Nat} {t : Derivation} (productions : List Expr)
    (tally : Tally) :
    (openAll bound t depth productions tally).1.length +
      (openAll bound t depth productions tally).2.failures =
        productions.length + tally.failures := by
  induction productions generalizing tally with
  | nil => simp [openAll]
  | cons p rest ih =>
      rw [openAll]
      cases instantiate bound p depth with
      | ok r =>
          have := ih tally
          simp only [List.length_cons]
          omega
      | error failure =>
          have := ih (tally.record failure)
          rw [Tally.failures_record] at this
          simp only [List.length_cons]
          omega

variable {g : Grammar} {bound : Nat}

/-- **A search that finds nothing has given up at least one derivation for each tree it began
    with.** -/
theorem length_le_failures_search {stack : List Derivation} {tally : Tally}
    (h : (search g bound stack tally).1 = none) :
    stack.length + tally.failures ≤ (search g bound stack tally).2.failures := by
  fun_induction search g bound stack tally with
  | case1 tally => simp
  | case2 tally t rest complete op made => cases h
  | case3 tally t rest complete fault refused ih =>
      have := ih h
      rw [Tally.failures_record] at this
      simp only [List.length_cons]
      omega
  | case4 tally t rest name depth leftmost empty ih =>
      have := ih h
      rw [Tally.failures_record] at this
      simp only [List.length_cons]
      omega
  | case5 tally t rest name depth leftmost some opened ih =>
      have later := ih h
      have each := @Derivation.length_openAll bound depth t (g.productions name) tally
      have present : 0 < (g.productions name).length :=
        List.length_pos_iff.2 fun e => some (by rw [e]; rfl)
      rw [List.length_append] at later
      simp only [List.length_cons]
      simp only [opened] at later ⊢
      omega

/-! ## 3. Rounds -/

/-- A search that looks at no more than this many trees; `none` if it is not over by then. -/
def searchWithin (g : Grammar) (bound : Nat) : (rounds : Nat) → List Derivation → Tally →
    Option (Option (Operator × List Derivation) × Tally)
  | _, [], tally => some (none, tally)
  | 0, _ :: _, _ => none
  | rounds + 1, t :: rest, tally =>
    match t.leftmost? with
    | none =>
      match t.operator? with
      | .ok op => some (some (op, rest), { tally with yielded := tally.yielded + 1 })
      | .error _ => searchWithin g bound rounds rest (tally.record .illTyped)
    | some (name, depth) =>
      if (g.productions name).isEmpty then
        searchWithin g bound rounds rest (tally.record .noProduction)
      else
        let opened := Derivation.openAll bound t depth (g.productions name) tally
        searchWithin g bound rounds (opened.1 ++ rest) opened.2

/-- **A search is over after as many rounds as its trees weigh**: each round replaces a tree by trees
    that weigh less together. -/
theorem searchWithin_eq {stack : List Derivation} {tally : Tally} {rounds : Nat}
    (enough : Derivation.weightOnStack g bound stack ≤ rounds) :
    searchWithin g bound rounds stack tally = some (search g bound stack tally) := by
  induction rounds generalizing stack tally with
  | zero =>
      cases stack with
      | nil => rw [search]; rfl
      | cons t rest =>
          have := t.weight_pos g bound
          rw [Derivation.weightOnStack] at enough
          omega
  | succ rounds ih =>
      cases stack with
      | nil => rw [search]; rfl
      | cons t rest =>
          have := t.weight_pos g bound
          rw [Derivation.weightOnStack] at enough
          have passed (tally : Tally) : searchWithin g bound rounds rest tally =
              some (search g bound rest tally) := ih (by omega)
          rw [searchWithin]
          cases leftmost : t.leftmost? with
          | none =>
              rw [search_of_complete leftmost]
              cases t.operator? with
              | ok op => rfl
              | error fault => exact passed _
          | some pending =>
              obtain ⟨name, depth⟩ := pending
              have less := Derivation.weightOnStack_openAll_lt g bound leftmost tally
              rw [search_of_pending leftmost]
              dsimp only
              split
              · exact passed _
              · refine ih ?_
                rw [Derivation.weightOnStack_append]
                omega

/-! ## 4. Calls -/

theorem mem_of_mem_upTo {α : Type} {limit : Option Nat} {list : List α} {a : α}
    (h : a ∈ upTo limit list) : a ∈ list := by
  cases limit with
  | none => exact h
  | some n => exact List.mem_of_mem_take h

namespace Expansion

/-- The expansion after it has been asked for so many results. -/
def afterCalls : (calls : Nat) → Expansion → Expansion
  | 0, e => e
  | calls + 1, e => e.next.2.afterCalls calls

variable {e after : Expansion}

/-- An expansion that has given no result gives none any more. -/
theorem next_of_next_none (h : e.next = (none, after)) : after.next = (none, after) := by
  unfold next at h
  split at h
  · rename_i ended
    cases h
    rw [next, if_pos ended]
  · split at h
    · cases h
    · dsimp only at h
      split at h
      · cases h
      · cases h
        rw [next, if_pos (Or.inl rfl)]

theorem next_afterCalls_of_none (h : e.next.1 = none) (k : Nat) : (e.afterCalls k).next.1 = none := by
  induction k generalizing e with
  | zero => exact h
  | succ k ih =>
      refine ih ?_
      rw [@next_of_next_none e e.next.2 (Prod.ext h rfl)]

/-- **Call after call gives the results in order, and none after the last.** -/
theorem next_afterCalls (e : Expansion) (k : Nat) : (e.afterCalls k).next.1 = e.collect.1[k]? := by
  fun_induction collect e generalizing k with
  | case1 e after h => exact next_afterCalls_of_none (by rw [h]) k
  | case2 e result after h less results last collected ih =>
      cases k with
      | zero => rw [afterCalls, h]; rfl
      | succ k =>
          rw [collected] at ih
          rw [afterCalls, h, List.getElem?_cons_succ]
          exact ih k

/-- The results are no more than the weight allows. -/
theorem length_collect_le (e : Expansion) : e.collect.1.length ≤ e.work := by
  fun_induction collect e with
  | case1 e after h => exact Nat.zero_le _
  | case2 e result after h less results last collected ih =>
      rw [collected] at ih
      exact Nat.lt_of_le_of_lt ih less

/-- A call keeps the grammar and the bound, and leaves trees that weigh no more. -/
theorem next_keeps (e : Expansion) : e.next.2.grammar = e.grammar ∧ e.next.2.bound = e.bound ∧
    Derivation.weightOnStack e.grammar e.bound e.next.2.stack ≤
      Derivation.weightOnStack e.grammar e.bound e.stack := by
  rw [next]
  split
  · exact ⟨rfl, rfl, Nat.le_refl _⟩
  · split
    · rename_i op rest tally searched
      exact ⟨rfl, rfl, Nat.le_of_lt (weightOnStack_search_lt searched)⟩
    · dsimp only
      split <;> exact ⟨rfl, rfl, Nat.zero_le _⟩

theorem afterCalls_keeps (e : Expansion) (k : Nat) :
    (e.afterCalls k).grammar = e.grammar ∧ (e.afterCalls k).bound = e.bound ∧
      Derivation.weightOnStack e.grammar e.bound (e.afterCalls k).stack ≤
        Derivation.weightOnStack e.grammar e.bound e.stack := by
  induction k generalizing e with
  | zero => exact ⟨rfl, rfl, Nat.le_refl _⟩
  | succ k ih =>
      obtain ⟨grammar, bound, weight⟩ := e.next_keeps
      obtain ⟨grammar', bound', weight'⟩ := ih e.next.2
      rw [grammar, bound] at weight'
      exact ⟨grammar'.trans grammar, bound'.trans bound, Nat.le_trans weight' weight⟩

end Expansion

/-! ## 5. Grammars -/

namespace Grammar

variable {settings : ExpansionSettings}

/-- **Whatever the grammar and the depth bound, as long as pipelines are wanted**: call after call, the
    expansion gives the results of a list that is no longer than the weight of the start and one,
    and then none for ever, and no call takes more rounds than that weight; each operator in the
    list is less deep than the bound; and the list has operators only, at least one, or else one
    fault alone, which says what was given up. -/
theorem expansion_ends (hb : g.depthBound settings = .ok bound)
    (wanted : settings.maxCount ≠ some 0) :
    ∃ e, g.expand settings = .ok e ∧
      (∀ k, (e.afterCalls k).next.1 = e.collect.1[k]?) ∧
      e.collect.1.length ≤ g.weight bound g.start + 1 ∧
      (∀ k, searchWithin g bound (g.weight bound g.start) (e.afterCalls k).stack
          (e.afterCalls k).tally =
        some (search g bound (e.afterCalls k).stack (e.afterCalls k).tally)) ∧
      (∀ op, .ok op ∈ e.collect.1 → op.depth < bound) ∧
      ((∃ ops, ops ≠ [] ∧ e.collect.1 = ops.map .ok) ∨
        ∃ tally, tally.yielded = 0 ∧ 0 < tally.failures ∧
          e.collect.1 = [.error (.grammar (.noDerivation g.start tally))]) := by
  let e : Expansion := ⟨g, bound, [.pending g.start 0], settings.maxCount, {}, false⟩
  have weight : Derivation.weightOnStack g bound [.pending g.start 0] = g.weight bound g.start := by
    rw [Derivation.weightOnStack, Derivation.weightOnStack, Derivation.weight]
    rfl
  have coming : ahead g bound [.pending g.start 0] = g.language bound := ahead_start g bound
  refine ⟨e, by rw [expand, hb]; rfl, e.next_afterCalls, ?_, fun k => ?_, fun op hop => ?_, ?_⟩
  · exact weight ▸ e.length_collect_le
  · exact searchWithin_eq (weight ▸ (e.afterCalls_keeps k).2.2)
  · have listed : op ∈ e.collect.1.filterMap Except.toOption :=
      List.mem_filterMap.2 ⟨_, hop, rfl⟩
    rw [e.filterMap_collect, Expansion.upcoming, if_neg Bool.false_ne_true] at listed
    exact depth_lt_of_mem_language (coming ▸ @mem_of_mem_upTo _ _ (ahead g bound _) _ listed)
  · by_cases none' : g.language bound = []
    · right
      have nothing := coming.trans none'
      obtain ⟨_, results⟩ := Expansion.collect_of_ahead_nil (e := e) rfl wanted rfl nothing rfl
      have searched : (search g bound [.pending g.start 0] {}).1 = none :=
        search_eq_none_iff.2 nothing
      have given := length_le_failures_search searched
      have count := @yielded_search g bound [.pending g.start 0] {}
      rw [searched] at count
      refine ⟨_, count, ?_, results.trans (if_pos ?_)⟩ <;> exact Nat.lt_of_lt_of_le Nat.one_pos given
    · left
      have first : ahead g bound [.pending g.start 0] ≠ [] := coming ▸ none'
      exact ⟨_, fun h => first ((upTo_eq_nil_iff wanted).1 h),
        Expansion.collect_of_ahead (e := e) rfl wanted first⟩

/-- Of the chains that five levels allow two are wanted: they come in two calls, and then nothing. -/
theorem expansion_ends_chains :
    (chains.depthBound { maxDepth := some 5, maxCount := some 2 } = .ok 5 ∧
      (some 2 : Option Nat) ≠ some 0) ∧
    ∃ e, chains.expand { maxDepth := some 5, maxCount := some 2 } = .ok e ∧
      (∀ k, 2 ≤ k → (e.afterCalls k).next.1 = none) ∧
      ∃ ops : List Operator, e.collect.1 = ops.map .ok ∧ ops.length = 2 ∧ ∀ op ∈ ops, op.depth < 5 := by
  have bounded : chains.depthBound { maxDepth := some 5, maxCount := some 2 } = .ok 5 := rfl
  have wanted : (some 2 : Option Nat) ≠ some 0 := by decide
  obtain ⟨e, expanded, calls, _, _, depth, results⟩ := expansion_ends bounded wanted
  refine ⟨⟨bounded, wanted⟩, e, expanded, ?_⟩
  have found : (e.collect.1.filterMap Except.toOption).length = 2 := by
    cases expanded
    rw [Expansion.filterMap_collect, Expansion.upcoming, if_neg Bool.false_ne_true, ahead_start]
    decide +kernel
  rcases results with ⟨ops, _, results⟩ | ⟨tally, _, _, results⟩
  · rw [results, List.filterMap_map] at found
    have two : ops.length = 2 := by simpa [Function.comp_def, Except.toOption] using found
    refine ⟨fun k hk => ?_, ops, results, two, fun op hop => depth op ?_⟩
    · rw [calls, results, List.getElem?_eq_none (by simpa [two] using hk)]
    · rw [results]
      exact List.mem_map_of_mem hop
  · rw [results] at found
    cases found

end Grammar

end TypedPipeline
