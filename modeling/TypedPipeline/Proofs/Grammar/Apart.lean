import TypedPipeline.Proofs.Grammar.Enumeration

/-!
# Proofs.Grammar.Apart: the productions of the start, each on its own

The pipelines of a grammar can be found by one search from the start, or by one search for each
production of the start, whose results and counts are put together. This file fixes:

* counts: what was counted before a search is only added to (`search_merge`), and a search that finds
  nothing on one part of a stack goes on with the rest (`search_append`);
* the results of an expansion from its start: the operators that are to come if there are any
  (`Expansion.collect_of_ahead`), and otherwise a fault with the count of what was met, or nothing
  (`Expansion.collect_of_ahead_nil`);
* what one production of the start leads to (`enumerateProduction_operators`,
  `enumerateProduction_tally`), and all of them in turn (`search_roots`);
* **that both ways give the same pipelines, or the same fault** (`Grammar.enumerateApart_eq`).
-/

namespace TypedPipeline

/-! ## 1. Counts -/

namespace Tally

theorem merge_assoc (r s t : Tally) : (r.merge s).merge t = r.merge (s.merge t) := by
  simp only [merge, Nat.add_assoc]

theorem merge_comm (s t : Tally) : s.merge t = t.merge s := by
  simp only [merge, Nat.add_comm]

theorem merge_empty (t : Tally) : t.merge {} = t := rfl

theorem merge_record (s t : Tally) (failure : Failure) :
    s.merge (t.record failure) = (s.merge t).record failure := by
  cases failure <;> rfl

/-- What is counted before may as well be added at the end. -/
theorem foldl_merge (s t : Tally) (counts : List Tally) :
    counts.foldl merge (s.merge t) = s.merge (counts.foldl merge t) := by
  induction counts generalizing t with
  | nil => rfl
  | cons count rest ih => rw [List.foldl_cons, List.foldl_cons, merge_assoc, ih]

theorem yielded_record (t : Tally) (failure : Failure) : (t.record failure).yielded = t.yielded := by
  cases failure <;> rfl

end Tally

variable {g : Grammar} {bound : Nat}

namespace Derivation

variable {t : Derivation} {depth : Nat} {productions : List Expr}

theorem openAll_merge (s tally : Tally) :
    openAll bound t depth productions (s.merge tally) =
      ((openAll bound t depth productions tally).1,
        s.merge (openAll bound t depth productions tally).2) := by
  induction productions generalizing tally with
  | nil => rfl
  | cons p rest ih =>
      rw [openAll, openAll]
      cases instantiate bound p depth with
      | ok r => simp only [ih]
      | error failure => simp only [← Tally.merge_record, ih]

theorem yielded_openAll (tally : Tally) :
    (openAll bound t depth productions tally).2.yielded = tally.yielded := by
  induction productions generalizing tally with
  | nil => rfl
  | cons p rest ih =>
      rw [openAll]
      cases instantiate bound p depth with
      | ok r => exact ih tally
      | error failure => exact (ih _).trans (Tally.yielded_record _ _)

end Derivation

/-! ## 2. Searching -/

/-- One step of a search: a tree without pending names makes an operator or does not check. -/
theorem search_of_complete {t : Derivation} (h : t.Complete) (rest : List Derivation) (tally : Tally) :
    search g bound (t :: rest) tally =
      match t.operator? with
      | .ok op => (some (op, rest), { tally with yielded := tally.yielded + 1 })
      | .error _ => search g bound rest (tally.record .illTyped) := by
  rw [search]
  split
  · rfl
  · rename_i pending
    rw [Derivation.Complete.eq_1, pending] at h
    cases h

/-- One step of a search: the leftmost pending name of a tree is opened. -/
theorem search_of_pending {t : Derivation} {name : String} {depth : Nat}
    (h : t.leftmost? = some (name, depth)) (rest : List Derivation) (tally : Tally) :
    search g bound (t :: rest) tally =
      if (g.productions name).isEmpty then search g bound rest (tally.record .noProduction)
      else search g bound
        ((Derivation.openAll bound t depth (g.productions name) tally).1 ++ rest)
        (Derivation.openAll bound t depth (g.productions name) tally).2 := by
  rw [search]
  split
  · rename_i complete
    rw [complete] at h
    cases h
  · rename_i pending
    rw [pending] at h
    cases h
    rfl

/-- **What was counted before a search is only added to.** -/
theorem search_merge (stack : List Derivation) (s tally : Tally) :
    search g bound stack (s.merge tally) =
      ((search g bound stack tally).1, s.merge (search g bound stack tally).2) := by
  fun_induction search g bound stack tally with
  | case1 tally => rw [search]
  | case2 tally t rest complete op made =>
      rw [search_of_complete complete, made]
      rfl
  | case3 tally t rest complete fault refused ih =>
      rw [search_of_complete complete, refused]
      dsimp only
      rw [← Tally.merge_record, ih]
  | case4 tally t rest name depth leftmost empty ih =>
      rw [search_of_pending leftmost, if_pos empty, ← Tally.merge_record, ih]
  | case5 tally t rest name depth leftmost some opened ih =>
      rw [search_of_pending leftmost, if_neg some, Derivation.openAll_merge]
      exact ih

/-- **A search that finds nothing on one part of a stack goes on with the rest.** -/
theorem search_append {stack : List Derivation} {tally : Tally}
    (h : (search g bound stack tally).1 = none) (stack' : List Derivation) :
    search g bound (stack ++ stack') tally =
      search g bound stack' (search g bound stack tally).2 := by
  fun_induction search g bound stack tally with
  | case1 tally => rfl
  | case2 tally t rest complete op made => cases h
  | case3 tally t rest complete fault refused ih =>
      rw [List.cons_append, search_of_complete complete, refused]
      exact ih h
  | case4 tally t rest name depth leftmost empty ih =>
      rw [List.cons_append, search_of_pending leftmost, if_pos empty]
      exact ih h
  | case5 tally t rest name depth leftmost some opened ih =>
      rw [List.cons_append, search_of_pending leftmost, if_neg some, ← List.append_assoc]
      exact ih h

/-- A search counts the operator that it finds. -/
theorem yielded_search (stack : List Derivation) (tally : Tally) :
    (search g bound stack tally).2.yielded =
      tally.yielded + (search g bound stack tally).1.toList.length := by
  fun_induction search g bound stack tally with
  | case1 tally => rfl
  | case2 tally t rest complete op made => rfl
  | case3 tally t rest complete fault refused ih => rw [ih, Tally.yielded_record]
  | case4 tally t rest name depth leftmost empty ih => rw [ih, Tally.yielded_record]
  | case5 tally t rest name depth leftmost some opened ih =>
      rw [ih, Derivation.yielded_openAll]

theorem search_eq_none_iff {stack : List Derivation} {tally : Tally} :
    (search g bound stack tally).1 = none ↔ ahead g bound stack = [] := by
  rw [ahead_eq_found stack tally]
  cases (search g bound stack tally).1 with
  | none => exact ⟨fun _ => rfl, fun _ => rfl⟩
  | some result => exact ⟨fun h => (by cases h), fun h => (by cases h)⟩

/-! ## 3. The results of an expansion -/

namespace Expansion

variable {e after : Expansion} {tally : Tally}

/-- An expansion that has not ended and wants more gives the operator that it finds. -/
theorem next_of_found (going : e.isDone = false) (wanted : e.remaining ≠ some 0) {op : Operator}
    {rest : List Derivation}
    (h : search e.grammar e.bound e.stack e.tally = (some (op, rest), tally)) :
    e.next = (some (.ok op), { e with stack := rest, tally, remaining := e.remaining.map (· - 1) }) := by
  rw [next, if_neg (by simp [going, wanted]), h]

/-- If it finds none it ends, with a fault if it has given none before and something was given up. -/
theorem next_of_nothing (going : e.isDone = false) (wanted : e.remaining ≠ some 0)
    (h : search e.grammar e.bound e.stack e.tally = (none, tally)) :
    e.next =
      (if tally.yielded = 0 ∧ 0 < tally.failures then
        some (.error (.grammar (.noDerivation e.grammar.start tally))) else none,
        { e with stack := [], tally, isDone := true }) := by
  rw [next, if_neg (by simp [going, wanted]), h]
  dsimp only
  split <;> rfl

theorem collect_of_next_some {result : Except Fault Operator} (h : e.next = (some result, after)) :
    e.collect = (result :: after.collect.1, after.collect.2) := by
  rw [collect]
  split
  · rename_i ended
    rw [h] at ended
    cases ended
  · rename_i hn
    rw [h] at hn
    cases hn
    rfl

theorem collect_of_next_none (h : e.next = (none, after)) : e.collect = ([], after) := by
  rw [collect]
  split
  · rename_i ended
    rw [h] at ended
    cases ended
    rfl
  · rename_i hn
    rw [h] at hn
    cases hn

theorem collect_of_isDone (h : e.isDone = true) : e.collect = ([], e) :=
  collect_of_next_none (by rw [next, if_pos (Or.inl h)])

/-- An expansion that has given an operator gives no fault. -/
theorem next_of_yielded (h : 0 < e.tally.yielded) {result : Except Fault Operator}
    (hn : e.next = (some result, after)) : (∃ op, result = .ok op) ∧ 0 < after.tally.yielded := by
  have count := @yielded_search e.grammar e.bound e.stack e.tally
  rw [next] at hn
  split at hn
  · cases hn
  · split at hn
    · rename_i op rest tally searched
      cases hn
      rw [searched] at count
      exact ⟨⟨op, rfl⟩, by dsimp only at count ⊢; omega⟩
    · rename_i tally searched
      rw [searched] at count
      dsimp only at hn count
      rw [if_neg (by omega)] at hn
      cases hn

theorem collect_of_yielded (h : 0 < e.tally.yielded) : e.collect.1 = e.upcoming.map .ok := by
  fun_induction collect e with
  | case1 e after hn => rw [upcoming_of_next_none hn]; rfl
  | case2 e result after hn less results last collected ih =>
      obtain ⟨⟨op, rfl⟩, later⟩ := next_of_yielded h hn
      have ih := ih later
      rw [collected] at ih
      rw [upcoming_of_next_some hn, List.map_append, ← ih]
      rfl

/-- **If operators are to come, they are the results.** -/
theorem collect_of_ahead (going : e.isDone = false) (wanted : e.remaining ≠ some 0)
    (h : ahead e.grammar e.bound e.stack ≠ []) : e.collect.1 = e.upcoming.map .ok := by
  have count := @yielded_search e.grammar e.bound e.stack e.tally
  rcases searched : search e.grammar e.bound e.stack e.tally with ⟨_ | ⟨op, rest⟩, tally⟩
  · exact absurd (search_eq_none_iff.1 (congrArg Prod.fst searched)) h
  · rw [searched] at count
    have first := next_of_found going wanted searched
    rw [collect_of_next_some first, upcoming_of_next_some first, collect_of_yielded]
    · rfl
    · show 0 < tally.yielded
      rw [count]
      exact Nat.succ_pos _

/-- **If none is to come, the result is a fault with the count of what was met, or there is none if
    nothing was given up.** -/
theorem collect_of_ahead_nil (going : e.isDone = false) (wanted : e.remaining ≠ some 0)
    (fresh : e.tally.yielded = 0) (h : ahead e.grammar e.bound e.stack = [])
    (counted : (search e.grammar e.bound e.stack e.tally).2 = tally) :
    e.collect.2.tally = tally ∧ e.collect.1 =
      if 0 < tally.failures then [.error (.grammar (.noDerivation e.grammar.start tally))]
      else [] := by
  have count := @yielded_search e.grammar e.bound e.stack e.tally
  have nothing : (search e.grammar e.bound e.stack e.tally).1 = none := search_eq_none_iff.2 h
  rw [nothing, counted, fresh] at count
  have ended := next_of_nothing going wanted (Prod.ext nothing counted)
  rw [show tally.yielded = 0 from count] at ended
  by_cases given : 0 < tally.failures
  · rw [if_pos ⟨rfl, given⟩] at ended
    rw [collect_of_next_some ended, collect_of_isDone rfl, if_pos given]
    exact ⟨rfl, rfl⟩
  · rw [if_neg fun both => given both.2] at ended
    rw [collect_of_next_none ended, if_neg given]
    exact ⟨rfl, rfl⟩

end Expansion

/-! ## 4. The productions of the start -/

namespace Grammar

variable {maxCount : Option Nat} {productions : List Expr}

/-- The trees that stand in for the start, one for each production that fits the bound. -/
def roots (bound : Nat) (productions : List Expr) : List Derivation :=
  productions.filterMap fun p => (Derivation.instantiate bound p 0).toOption

/-- What is met on the way if a production of the start leads to nothing. -/
def lossOf (g : Grammar) (bound : Nat) (production : Expr) : Tally :=
  match Derivation.instantiate bound production 0 with
  | .ok t => (search g bound [t] {}).2
  | .error failure => Tally.record {} failure

theorem openAll_start (tally : Tally) :
    (Derivation.openAll bound (.pending g.start 0) 0 productions tally).1 =
      roots bound productions := by
  induction productions generalizing tally with
  | nil => rfl
  | cons p rest ih =>
      rw [Derivation.openAll, roots, List.filterMap_cons]
      cases Derivation.instantiate bound p 0 with
      | ok r => exact congrArg _ (ih _)
      | error failure => exact ih _

/-- The operators of one production are those its tree leads to, up to the count that is wanted. -/
theorem enumerateProduction_operators (production : Expr) :
    (g.enumerateProduction bound maxCount production).1 =
      upTo maxCount (ahead g bound (roots bound [production])) := by
  rw [enumerateProduction, roots, List.filterMap_cons]
  cases Derivation.instantiate bound production 0 with
  | ok t => exact Expansion.filterMap_collect _
  | error failure => exact (upTo_nil maxCount).symm

/-- If there are none, the count is that of what was met. -/
theorem enumerateProduction_tally (wanted : maxCount ≠ some 0) {production : Expr}
    (h : ahead g bound (roots bound [production]) = []) :
    (g.enumerateProduction bound maxCount production).2 = g.lossOf bound production := by
  rw [roots, List.filterMap_cons] at h
  rw [enumerateProduction, lossOf]
  cases hi : Derivation.instantiate bound production 0 with
  | ok t =>
      rw [hi] at h
      exact (Expansion.collect_of_ahead_nil (e := ⟨g, bound, [t], maxCount, {}, false⟩) rfl wanted rfl
        h rfl).1
  | error failure => rfl

theorem roots_cons (p : Expr) (rest : List Expr) :
    roots bound (p :: rest) = roots bound [p] ++ roots bound rest :=
  List.filterMap_append (l := [p])

theorem ahead_roots (productions : List Expr) :
    ahead g bound (roots bound productions) =
      productions.flatMap fun p => ahead g bound (roots bound [p]) := by
  induction productions with
  | nil => rfl
  | cons p rest ih => rw [roots_cons, ahead_append, ih, List.flatMap_cons]

/-- The language is what the productions of the start lead to. -/
theorem language_eq_flatMap (g : Grammar) (bound : Nat) :
    g.language bound =
      (g.productions g.start).flatMap fun p => ahead g bound (roots bound [p]) := by
  rw [← ahead_start, ← @ahead_openAll g bound (.pending g.start 0) g.start 0 rfl {},
    openAll_start, ahead_roots]

/-- **If nothing is found, one search over all productions meets what the searches for each meet
    together.** -/
theorem search_roots (h : ahead g bound (roots bound productions) = []) (tally : Tally) :
    (search g bound (roots bound productions)
      (Derivation.openAll bound (.pending g.start 0) 0 productions tally).2).2 =
      (productions.map (g.lossOf bound)).foldl Tally.merge tally := by
  induction productions generalizing tally with
  | nil =>
      rw [roots, List.filterMap_nil, search]
      rfl
  | cons p rest ih =>
      rw [roots_cons, ahead_append, List.append_eq_nil_iff] at h
      obtain ⟨first, later⟩ := h
      rw [roots_cons, Derivation.openAll, List.map_cons, List.foldl_cons, lossOf]
      rw [roots, List.filterMap_cons] at first ⊢
      cases hi : Derivation.instantiate bound p 0 with
      | error failure =>
          dsimp only [Except.toOption, List.filterMap_nil]
          rw [List.nil_append, ih later, Tally.merge_record, Tally.merge_empty]
      | ok t =>
          rw [hi] at first
          dsimp only [Except.toOption, List.filterMap_nil] at first ⊢
          rw [search_append (search_eq_none_iff.2 first)]
          -- the count of the first search is carried through the others
          have carried := fun s : Tally => @search_merge g bound [t] s {}
          simp only [Tally.merge_empty] at carried
          rw [carried]
          dsimp only
          rw [Tally.merge_comm, search_merge, ih later, Tally.merge_comm tally, Tally.foldl_merge]

/-- What is met on the way if the start leads to nothing. -/
def startLoss (g : Grammar) (bound : Nat) : Tally :=
  ((g.productions g.start).map (g.lossOf bound)).foldl Tally.merge
    (if (g.productions g.start).isEmpty then Tally.record {} .noProduction else {})

theorem search_start (h : g.language bound = []) :
    (search g bound [.pending g.start 0] {}).2 = g.startLoss bound := by
  rw [search_of_pending (t := .pending g.start 0) rfl, startLoss]
  split
  · rename_i empty
    rw [List.isEmpty_iff.1 empty, search]
    rfl
  · rw [List.append_nil, openAll_start]
    exact search_roots (by rw [ahead_roots, ← language_eq_flatMap, h]) {}

/-! ## 5. Enumerations -/

variable {settings : ExpansionSettings}

/-- A limit on each piece changes nothing up to that limit. -/
theorem take_flatMap_take_of_le {α β : Type} {limit n : Nat} (f : α → List β) (items : List α)
    (h : n ≤ limit) :
    (items.flatMap fun a => (f a).take limit).take n = (items.flatMap f).take n := by
  induction items generalizing n with
  | nil => rfl
  | cons a rest ih =>
      rw [List.flatMap_cons, List.flatMap_cons, List.take_append, List.take_append, List.take_take,
        List.length_take, Nat.min_eq_left h, ih (by omega)]
      rcases Nat.le_total (f a).length limit with short | long
      · rw [Nat.min_eq_right short]
      · rw [Nat.min_eq_left long, Nat.sub_eq_zero_of_le h, Nat.sub_eq_zero_of_le (by omega)]

theorem upTo_flatMap_upTo {α β : Type} (limit : Option Nat) (f : α → List β) (items : List α) :
    upTo limit (items.flatMap fun a => upTo limit (f a)) = upTo limit (items.flatMap f) := by
  cases limit with
  | none => rfl
  | some n => exact take_flatMap_take_of_le f items (Nat.le_refl n)

theorem upTo_eq {α : Type} (limit : Option Nat) (list : List α) :
    (match limit with
      | some n => list.take n
      | none => list) = upTo limit list := by
  cases limit <;> rfl

theorem upTo_eq_nil_iff {α : Type} {limit : Option Nat} (wanted : limit ≠ some 0) {list : List α} :
    upTo limit list = [] ↔ list = [] := by
  cases list with
  | nil => simp [upTo_nil]
  | cons a rest => simp [upTo_cons wanted]

theorem mapM_ok (ops : List Operator) :
    (ops.map Except.ok).mapM id = (.ok ops : Except Fault (List Operator)) := by
  induction ops with
  | nil => rfl
  | cons op rest ih => rw [List.map_cons, List.mapM_cons, ih]; rfl

/-- The answer to an enumeration: the operators that were found, or else a fault if something was
    given up. -/
def answer (g : Grammar) (found : List Operator) (tally : Tally) : Except Fault (List Operator) :=
  if found = [] ∧ 0 < tally.failures then .error (.grammar (.noDerivation g.start tally))
  else .ok found

/-- **One search gives the language up to the count that is wanted, or the count of what was met.** -/
theorem enumerate_eq_answer (hb : g.depthBound settings = .ok bound)
    (wanted : settings.maxCount ≠ some 0) :
    g.enumerate { settings with isParallel := false } =
      g.answer (upTo settings.maxCount (g.language bound)) (g.startLoss bound) := by
  let e : Expansion := ⟨g, bound, [.pending g.start 0], settings.maxCount, {}, false⟩
  have run : g.enumerate { settings with isParallel := false } = e.collect.1.mapM id := by
    rw [enumerate, if_neg Bool.false_ne_true, expand,
      show g.depthBound { settings with isParallel := false } = .ok bound from hb]
    rfl
  have coming : ahead g bound [.pending g.start 0] = g.language bound := ahead_start g bound
  rw [run, answer]
  by_cases h : g.language bound = []
  · obtain ⟨_, results⟩ := Expansion.collect_of_ahead_nil (e := e) rfl wanted rfl
      (coming.trans h) (search_start h)
    rw [results, h, upTo_nil]
    by_cases given : 0 < (g.startLoss bound).failures
    · rw [if_pos given, if_pos ⟨rfl, given⟩]
      rfl
    · rw [if_neg given, if_neg fun both => given both.2]
      rfl
  · rw [Expansion.collect_of_ahead (e := e) rfl wanted (coming ▸ h), mapM_ok,
      if_neg fun both => h ((upTo_eq_nil_iff wanted).1 both.1), ← coming]
    rfl

/-- The operators and counts of the productions of the start, each expanded on its own. -/
def parts (g : Grammar) (bound : Nat) (maxCount : Option Nat) : List (List Operator × Tally) :=
  (g.productions g.start).map (g.enumerateProduction bound maxCount)

/-- What was counted with them. Of a start without productions that alone is counted. -/
def partsTally (g : Grammar) (bound : Nat) (maxCount : Option Nat) : Tally :=
  (g.parts bound maxCount).foldl (fun tally part => tally.merge part.2)
    (if (g.productions g.start).isEmpty then Tally.record {} .noProduction else {})

theorem enumerateApart_of_bound (hb : g.depthBound settings = .ok bound) :
    g.enumerateApart settings =
      if (g.parts bound settings.maxCount).flatMap (·.1) = [] ∧
          0 < (g.partsTally bound settings.maxCount).failures then
        .error (.grammar (.noDerivation g.start (g.partsTally bound settings.maxCount)))
      else .ok (upTo settings.maxCount ((g.parts bound settings.maxCount).flatMap (·.1))) := by
  rw [enumerateApart, hb]
  simp only [← List.isEmpty_iff]
  by_cases given : ((g.parts bound settings.maxCount).flatMap (·.1)).isEmpty = true ∧
      0 < (g.partsTally bound settings.maxCount).failures
  · rw [if_pos given]
    exact if_pos given
  · rw [if_neg given]
    exact (if_neg given).trans (congrArg Except.ok (upTo_eq settings.maxCount _))

/-- **A search for each production gives the same.** -/
theorem enumerateApart_eq_answer (hb : g.depthBound settings = .ok bound)
    (wanted : settings.maxCount ≠ some 0) :
    g.enumerateApart settings =
      g.answer (upTo settings.maxCount (g.language bound)) (g.startLoss bound) := by
  have listed : upTo settings.maxCount ((g.parts bound settings.maxCount).flatMap (·.1)) =
      upTo settings.maxCount (g.language bound) := by
    simp only [parts, List.flatMap_map, enumerateProduction_operators]
    rw [upTo_flatMap_upTo, ← language_eq_flatMap]
  have empty : (g.parts bound settings.maxCount).flatMap (·.1) = [] ↔
      upTo settings.maxCount (g.language bound) = [] := by
    rw [← listed, upTo_eq_nil_iff wanted]
  rw [enumerateApart_of_bound hb, listed, answer]
  by_cases h : upTo settings.maxCount (g.language bound) = []
  · have counted : g.partsTally bound settings.maxCount = g.startLoss bound := by
      have pieces := (upTo_eq_nil_iff wanted).1 h
      rw [language_eq_flatMap, List.flatMap_eq_nil_iff] at pieces
      have each : (g.parts bound settings.maxCount).map (·.2) =
          (g.productions g.start).map (g.lossOf bound) := by
        rw [parts, List.map_map]
        exact List.map_congr_left fun p hp => enumerateProduction_tally wanted (pieces p hp)
      rw [startLoss, ← each, List.foldl_map, partsTally]
    simp only [counted, empty]
  · rw [if_neg fun both => h (empty.1 both.1), if_neg fun both => h both.1]

/-- So does an enumeration, whichever way the settings ask for. -/
theorem enumerate_answers (hb : g.depthBound settings = .ok bound)
    (wanted : settings.maxCount ≠ some 0) :
    g.enumerate settings =
      g.answer (upTo settings.maxCount (g.language bound)) (g.startLoss bound) := by
  cases apart : settings.isParallel with
  | true =>
      rw [enumerate, if_pos apart]
      exact enumerateApart_eq_answer hb wanted
  | false => rw [← enumerate_eq_answer hb wanted, ← apart]

/-- **Whatever the grammar and the bounds, as long as pipelines are wanted: to expand each production
    of the start on its own gives the pipelines of one expansion in their order, or the same fault
    with the same counts.** -/
theorem enumerateApart_eq (g : Grammar) {settings : ExpansionSettings}
    (wanted : settings.maxCount ≠ some 0) :
    g.enumerateApart settings = g.enumerate { settings with isParallel := false } := by
  cases hb : g.depthBound settings with
  | error fault =>
      rw [enumerateApart, enumerate, if_neg Bool.false_ne_true, expand, hb,
        show g.depthBound { settings with isParallel := false } = .error fault from hb]
      rfl
  | ok bound => rw [enumerateApart_eq_answer hb wanted, enumerate_eq_answer hb wanted]

theorem enumerateApart_eq_chains :
    (some 2 ≠ some 0) ∧
      chains.enumerateApart { maxDepth := some 5, maxCount := some 2 } =
        chains.enumerate { maxDepth := some 5, maxCount := some 2 } ∧
      (chains.enumerate { maxDepth := some 5, maxCount := some 2 }).map (·.map Operator.text) =
        .ok ["a", "a >> a"] := by
  have wanted : (some 2 : Option Nat) ≠ some 0 := by decide
  let settings : ExpansionSettings := { maxDepth := some 5, maxCount := some 2 }
  refine ⟨wanted, @enumerateApart_eq chains settings wanted, ?_⟩
  rw [show chains.enumerate _ = _ from
    @enumerate_eq_answer chains 5 settings rfl wanted, answer, if_neg]
  · refine congrArg Except.ok (?_ : List.map Operator.text _ = _)
    decide +kernel
  · decide +kernel

end Grammar

end TypedPipeline
