import Mathlib.Data.List.Basic
import TypedPipeline.Grammar.Language
import TypedPipeline.Grammar.Weight

/-!
# Proofs.Grammar.Completion: the trees that a partly derived one leads to

A partly derived tree stands for all trees without pending names that it can be completed to. This
file fixes:

* the recursion behind a language (`derived_eq`): the number of levels in its definition does not
  show, as long as there are enough of them;
* the completions of a tree in order, the leftmost pending name varying slowest (`completions`). A
  tree without pending names is its own and only completion (`completions_of_complete`);
* the completions of a production that has been placed (`completions_place`): those which the
  recursion gives it, and none if it does not fit the bound;
* **that opening the leftmost pending name neither loses, doubles nor moves a completion**
  (`flatMap_completions_openAll`). Behind it stands `completions_fill`: to replace that name by a
  tree comes to the same as to replace it by each completion of the tree in turn.
-/

namespace TypedPipeline

/-! ## 1. The recursion -/

namespace Expr

variable {bound : Nat} {names names' : String → Nat → List Derivation}

mutual

/-- The trees of a production hang on those of the names at its depth and below, within the bound. -/
theorem derived_congr (e : Expr) {depth : Nat}
    (h : ∀ name d, depth ≤ d → d ≤ bound → names name d = names' name d) :
    e.derived bound names depth = e.derived bound names' depth := by
  cases e with
  | terminal op => rfl
  | nonterminal name =>
      simp only [derived]
      split
      · exact h name depth (Nat.le_refl _) ‹_›
      · rfl
  | combine combinator children =>
      simp only [derived]
      rw [derivedAll_congr children fun name d le => h name d (by omega)]

theorem derivedAll_congr (es : List Expr) {depth : Nat}
    (h : ∀ name d, depth ≤ d → d ≤ bound → names name d = names' name d) :
    derivedAll bound names es depth = derivedAll bound names' es depth := by
  cases es with
  | nil => rfl
  | cons e rest => rw [derivedAll, derivedAll, derived_congr e h, derivedAll_congr rest h]

end

/-- A production below the bound has no trees. -/
theorem derived_of_lt (e : Expr) {depth : Nat} (h : bound < depth) :
    e.derived bound names depth = [] := by
  cases e with
  | terminal op => rw [derived, if_neg (by omega)]
  | nonterminal name => rw [derived, if_neg (by omega)]
  | combine combinator children => rw [derived, if_neg (by omega)]

end Expr

namespace Grammar

variable (g : Grammar) {bound : Nat}

theorem derivedWithin_of_le {levels depth : Nat} (h : bound ≤ depth) (name : String) :
    g.derivedWithin bound levels name depth = [] := by
  cases levels with
  | zero => rfl
  | succ levels =>
      rw [derivedWithin, List.flatMap_eq_nil_iff]
      exact fun production _ => production.derived_of_lt (by omega)

/-- As soon as there are as many levels as the bound leaves, further ones change nothing. -/
theorem derivedWithin_eq {m n depth : Nat} (hm : bound - depth ≤ m) (hn : bound - depth ≤ n)
    (name : String) : g.derivedWithin bound m name depth = g.derivedWithin bound n name depth := by
  induction m generalizing n depth name with
  | zero => rw [derivedWithin_of_le g (by omega), derivedWithin_of_le g (by omega)]
  | succ m ih =>
      cases n with
      | zero => rw [derivedWithin_of_le g (by omega), derivedWithin_of_le g (by omega)]
      | succ n =>
          rw [derivedWithin, derivedWithin]
          refine List.flatMap_congr fun production _ => production.derived_congr fun name d le _ => ?_
          exact ih (by omega) (by omega) name

/-- **The trees of a name are those of its productions one level below, in their order.** -/
theorem derived_eq (name : String) (depth : Nat) :
    g.derived bound name depth =
      (g.productions name).flatMap fun p => p.derived bound (g.derived bound) (depth + 1) := by
  rw [derived, g.derivedWithin_eq (Nat.le_refl _) (Nat.le_succ _), derivedWithin]
  refine List.flatMap_congr fun production _ => production.derived_congr fun name d le _ => ?_
  exact g.derivedWithin_eq (by omega) (Nat.le_refl _) name

end Grammar

/-! ## 2. Trees without pending names -/

namespace Derivation

/-- No name is pending. -/
def Complete (t : Derivation) : Prop := t.leftmost? = none

theorem leftmostOf?_eq_none_iff {ts : List Derivation} :
    leftmostOf? ts = none ↔ ∀ t ∈ ts, t.Complete := by
  induction ts with
  | nil => simp [leftmostOf?]
  | cons t rest ih =>
      rw [leftmostOf?, List.forall_mem_cons, Complete, ← ih]
      cases t.leftmost? <;> simp

theorem complete_combine_iff {combinator : Combinator} {children : List Derivation} :
    (combine combinator children).Complete ↔ ∀ t ∈ children, t.Complete := by
  rw [Complete, leftmost?, leftmostOf?_eq_none_iff]

end Derivation

/-- What is chosen comes from the lists in turn. -/
theorem forall_mem_of_mem_choices {α : Type} {P : α → Prop} {lists : List (List α)}
    (h : ∀ list ∈ lists, ∀ a ∈ list, P a) {chosen : List α} (hc : chosen ∈ choices lists) :
    ∀ a ∈ chosen, P a := by
  induction lists generalizing chosen with
  | nil => simp [choices] at hc; simp [hc]
  | cons first rest ih =>
      obtain ⟨a, ha, hc⟩ := List.mem_flatMap.1 hc
      obtain ⟨later, hl, rfl⟩ := List.mem_map.1 hc
      obtain ⟨hf, hr⟩ := List.forall_mem_cons.1 h
      exact List.forall_mem_cons.2 ⟨hf a ha, ih hr hl⟩

namespace Expr

variable {bound : Nat} {names : String → Nat → List Derivation}

mutual

theorem complete_of_mem_derived (h : ∀ name d, ∀ t ∈ names name d, t.Complete) (e : Expr)
    {depth : Nat} {t : Derivation} (ht : t ∈ e.derived bound names depth) : t.Complete := by
  cases e with
  | terminal op =>
      simp only [derived] at ht
      split at ht
      · rw [List.mem_singleton.1 ht]; rfl
      · cases ht
  | nonterminal name =>
      simp only [derived] at ht
      split at ht
      · exact h name depth t ht
      · cases ht
  | combine combinator children =>
      simp only [derived] at ht
      split at ht
      · obtain ⟨trees, hc, rfl⟩ := List.mem_map.1 ht
        exact Derivation.complete_combine_iff.2
          (forall_mem_of_mem_choices (complete_of_mem_derivedAll h children) hc)
      · cases ht

theorem complete_of_mem_derivedAll (h : ∀ name d, ∀ t ∈ names name d, t.Complete) (es : List Expr)
    {depth : Nat} : ∀ trees ∈ derivedAll bound names es depth, ∀ t ∈ trees, t.Complete := by
  cases es with
  | nil => simp [derivedAll]
  | cons e rest =>
      rw [derivedAll]
      exact List.forall_mem_cons.2
        ⟨fun t ht => complete_of_mem_derived h e ht, complete_of_mem_derivedAll h rest⟩

end

end Expr

theorem Grammar.complete_of_mem_derived {g : Grammar} {bound depth : Nat} {name : String}
    {t : Derivation} (h : t ∈ g.derived bound name depth) : t.Complete := by
  rw [Grammar.derived] at h
  generalize bound - depth = levels at h
  induction levels generalizing name depth t with
  | zero => cases h
  | succ levels ih =>
      obtain ⟨production, _, h⟩ := List.mem_flatMap.1 h
      exact production.complete_of_mem_derived (fun name d t ht => ih ht) h

/-! ## 3. Completions -/

namespace Derivation

section

variable (g : Grammar) (bound : Nat)

mutual

/-- The trees without pending names that a tree leads to. -/
def completions : Derivation → List Derivation
  | .operator op => [.operator op]
  | .pending name depth => g.derived bound name depth
  | .combine combinator children => (choices (completionsAll children)).map (.combine combinator)

def completionsAll : List Derivation → List (List Derivation)
  | [] => []
  | child :: rest => completions child :: completionsAll rest

end

end

variable {g : Grammar} {bound : Nat}

mutual

theorem complete_of_mem_completions (t : Derivation) {x : Derivation}
    (hx : x ∈ t.completions g bound) : x.Complete := by
  cases t with
  | operator op => rw [List.mem_singleton.1 hx]; rfl
  | pending name depth => exact Grammar.complete_of_mem_derived hx
  | combine combinator children =>
      obtain ⟨trees, hc, rfl⟩ := List.mem_map.1 hx
      exact complete_combine_iff.2
        (forall_mem_of_mem_choices (complete_of_mem_completionsAll children) hc)

theorem complete_of_mem_completionsAll (ts : List Derivation) :
    ∀ trees ∈ completionsAll g bound ts, ∀ t ∈ trees, t.Complete := by
  cases ts with
  | nil => simp [completionsAll]
  | cons t rest =>
      rw [completionsAll]
      exact List.forall_mem_cons.2
        ⟨fun x hx => complete_of_mem_completions t hx, complete_of_mem_completionsAll rest⟩

end

mutual

/-- **A tree without pending names is its own and only completion.** -/
theorem completions_of_complete (t : Derivation) (h : t.Complete) :
    t.completions g bound = [t] := by
  cases t with
  | operator op => rfl
  | pending name depth => cases h
  | combine combinator children =>
      rw [completions, choices_completionsAll_of_complete children (complete_combine_iff.1 h)]
      rfl

theorem choices_completionsAll_of_complete (ts : List Derivation) (h : ∀ t ∈ ts, t.Complete) :
    choices (completionsAll g bound ts) = [ts] := by
  cases ts with
  | nil => rfl
  | cons t rest =>
      obtain ⟨first, later⟩ := List.forall_mem_cons.1 h
      rw [completionsAll, choices, completions_of_complete t first,
        choices_completionsAll_of_complete rest later]
      rfl

end

/-! ## 4. Placing a production -/

/-- The completions of a tree, if there is one. -/
def completionsOf (g : Grammar) (bound : Nat) : Except Failure Derivation → List Derivation
  | .ok t => t.completions g bound
  | .error _ => []

/-- The choices of completions of trees in a row, if there are trees. -/
def completionsOfAll (g : Grammar) (bound : Nat) :
    Except Failure (List Derivation) → List (List Derivation)
  | .ok ts => choices (completionsAll g bound ts)
  | .error _ => []

mutual

/-- **A production that has been placed has the completions that the recursion gives it.** -/
theorem completions_place (e : Expr) (depth : Nat) :
    completionsOf g bound (place bound e depth) = e.derived bound (g.derived bound) depth := by
  rw [place.eq_def]
  by_cases h : bound < depth
  · rw [if_pos h, e.derived_of_lt h]; rfl
  · rw [if_neg h]
    cases e with
    | terminal op =>
        by_cases h' : bound < depth + op.depth
        · simp only [if_pos h', Expr.derived, if_neg (Nat.not_le.2 h')]; rfl
        · simp only [if_neg h', Expr.derived, if_pos (Nat.not_lt.1 h')]; rfl
    | nonterminal name => rw [Expr.derived, if_pos (Nat.not_lt.1 h)]; rfl
    | combine combinator children =>
        rw [Expr.derived, if_pos (Nat.not_lt.1 h), ← choices_placeAll children (depth + 1)]
        dsimp only
        cases placeAll bound children (depth + 1) <;> rfl

theorem choices_placeAll (es : List Expr) (depth : Nat) :
    completionsOfAll g bound (placeAll bound es depth) =
      choices (Expr.derivedAll bound (g.derived bound) es depth) := by
  cases es with
  | nil => rfl
  | cons e rest =>
      rw [placeAll, Expr.derivedAll, choices, ← completions_place e depth,
        ← choices_placeAll rest depth]
      cases place bound e depth with
      | error failure => rfl
      | ok t =>
          cases placeAll bound rest depth with
          | error failure => simp [completionsOf, completionsOfAll]
          | ok ts => rfl

end

/-! ## 5. Replacing the leftmost pending name -/

mutual

theorem fill_pending (t : Derivation) {name : String} {depth : Nat}
    (h : t.leftmost? = some (name, depth)) : fill (.pending name depth) t = t := by
  cases t with
  | operator op => cases h
  | pending n d => cases h; rfl
  | combine combinator children => rw [fill, fillFirst_pending children h]

theorem fillFirst_pending (ts : List Derivation) {name : String} {depth : Nat}
    (h : leftmostOf? ts = some (name, depth)) : fillFirst (.pending name depth) ts = ts := by
  cases ts with
  | nil => cases h
  | cons t rest =>
      rw [leftmostOf?] at h
      rw [fillFirst]
      cases ht : t.leftmost? with
      | some found =>
          rw [ht] at h
          cases h
          rw [Option.isSome_some, if_pos rfl, fill_pending t ht]
      | none =>
          rw [ht] at h
          rw [Option.isSome_none, if_neg Bool.false_ne_true, fillFirst_pending rest h]

end

mutual

/-- **To replace the leftmost pending name by a tree comes to the same as to replace it by each
    completion of the tree in turn.** -/
theorem completions_fill (t : Derivation) (h : t.leftmost?.isSome) (r : Derivation) :
    (fill r t).completions g bound =
      (r.completions g bound).flatMap fun x => (fill x t).completions g bound := by
  cases t with
  | operator op => cases h
  | pending name depth =>
      -- here the completions of a completion are asked for, which is the completion alone
      simp only [fill]
      rw [List.flatMap_congr fun x hx =>
        completions_of_complete x (complete_of_mem_completions r hx), List.flatMap_singleton']
  | combine combinator children =>
      simp only [fill, completions]
      rw [choices_fillFirst children h r, List.map_flatMap]

theorem choices_fillFirst (ts : List Derivation) (h : (leftmostOf? ts).isSome) (r : Derivation) :
    choices (completionsAll g bound (fillFirst r ts)) =
      (r.completions g bound).flatMap fun x =>
        choices (completionsAll g bound (fillFirst x ts)) := by
  cases ts with
  | nil => cases h
  | cons t rest =>
      simp only [fillFirst]
      cases ht : t.leftmost? with
      | some found =>
          simp only [Option.isSome_some, ↓reduceIte, completionsAll, choices]
          rw [completions_fill t (by rw [ht]; rfl) r, List.flatMap_assoc]
      | none =>
          -- a tree to the left has one completion, which stands before all the others
          rw [leftmostOf?, ht] at h
          simp only [Option.isSome_none, Bool.false_eq_true, ↓reduceIte, completionsAll, choices,
            completions_of_complete t ht, List.flatMap_singleton]
          rw [choices_fillFirst rest h r, List.map_flatMap]

end

/-- The completions of a tree, sorted by what stands in place of the leftmost pending name. -/
theorem completions_eq_flatMap (t : Derivation) {name : String} {depth : Nat}
    (h : t.leftmost? = some (name, depth)) :
    t.completions g bound =
      (g.derived bound name depth).flatMap fun x => (fill x t).completions g bound := by
  calc t.completions g bound
      = (fill (.pending name depth) t).completions g bound := by rw [fill_pending t h]
    _ = _ := completions_fill t (by rw [h]; rfl) (.pending name depth)

/-- Trees in which productions replace the leftmost pending name have the completions in which trees
    of the productions replace it. -/
theorem flatMap_completions_openAll_eq (t : Derivation) (h : t.leftmost?.isSome) (depth : Nat)
    (productions : List Expr) (tally : Tally) :
    (openAll bound t depth productions tally).1.flatMap (completions g bound) =
      (productions.flatMap fun p => p.derived bound (g.derived bound) (depth + 1)).flatMap
        fun x => (fill x t).completions g bound := by
  induction productions generalizing tally with
  | nil => rfl
  | cons p rest ih =>
      rw [openAll, List.flatMap_cons, List.flatMap_append, ← completions_place p (depth + 1),
        ← instantiate_eq_place]
      cases instantiate bound p depth with
      | error failure => exact ih _
      | ok r =>
          simp only [List.flatMap_cons]
          rw [completions_fill t h r, ih]
          rfl

/-- **Opening the leftmost pending name neither loses, doubles nor moves a completion.** -/
theorem flatMap_completions_openAll (t : Derivation) {name : String} {depth : Nat}
    (h : t.leftmost? = some (name, depth)) (tally : Tally) :
    (openAll bound t depth (g.productions name) tally).1.flatMap (completions g bound) =
      t.completions g bound := by
  rw [flatMap_completions_openAll_eq t (by rw [h]; rfl), ← g.derived_eq,
    ← completions_eq_flatMap t h]

end Derivation

end TypedPipeline
