import TypedPipeline.Grammar.Derivation

/-!
# Grammar.Weight: why deriving ends

Under a depth bound every tree has a weight, a number no smaller than the number of steps in which
all derivations from it are found. A pending name with some levels left weighs one more than its
productions do together with one level less, and a combination weighs the product of its children.
Main lemmas:

* a tree weighs more than all trees together that replacing its leftmost pending name leads to
  (`weightOnStack_openAll_lt`);
* it weighs more than any one of them (`weight_fill_lt`).
-/

namespace TypedPipeline

/-! ## 1. Weights -/

namespace Expr

mutual

/-- The weight of a production, given those of the names. -/
def weight (names : String → Nat) : Expr → Nat
  | .terminal _ => 1
  | .nonterminal name => names name
  | .combine _ children => weightOf names children

def weightOf (names : String → Nat) : List Expr → Nat
  | [] => 1
  | child :: rest => child.weight names * weightOf names rest

end

/-- The weight of productions together. -/
def totalWeight (names : String → Nat) : List Expr → Nat
  | [] => 0
  | production :: rest => production.weight names + totalWeight names rest

mutual

theorem weight_le {f g : String → Nat} (h : ∀ name, f name ≤ g name) (e : Expr) :
    e.weight f ≤ e.weight g := by
  cases e with
  | terminal op => simp [weight]
  | nonterminal name => simpa [weight] using h name
  | combine combinator children => simpa [weight] using weightOf_le h children

theorem weightOf_le {f g : String → Nat} (h : ∀ name, f name ≤ g name) (es : List Expr) :
    weightOf f es ≤ weightOf g es := by
  cases es with
  | nil => simp [weightOf]
  | cons e rest => exact Nat.mul_le_mul (weight_le h e) (weightOf_le h rest)

end

theorem totalWeight_le {f g : String → Nat} (h : ∀ name, f name ≤ g name) (es : List Expr) :
    totalWeight f es ≤ totalWeight g es := by
  induction es with
  | nil => simp [totalWeight]
  | cons e rest ih => exact Nat.add_le_add (weight_le h e) ih

theorem le_totalWeight {f : String → Nat} {e : Expr} {es : List Expr} (h : e ∈ es) :
    e.weight f ≤ totalWeight f es := by
  induction es with
  | nil => simp at h
  | cons first rest ih =>
    rcases List.mem_cons.1 h with rfl | h
    · simp [totalWeight]
    · have := ih h; simp only [totalWeight]; omega

end Expr

/-- The weight of a name with a number of levels left. -/
def Grammar.weight (g : Grammar) : (levels : Nat) → String → Nat
  | 0, _ => 1
  | levels + 1, name => 1 + Expr.totalWeight (g.weight levels) (g.productions name)

theorem Grammar.weight_pos (g : Grammar) (levels : Nat) (name : String) :
    0 < g.weight levels name := by
  cases levels <;> simp only [weight] <;> omega

theorem Grammar.weight_le_succ (g : Grammar) (levels : Nat) (name : String) :
    g.weight levels name ≤ g.weight (levels + 1) name := by
  induction levels generalizing name with
  | zero => simp [weight]
  | succ levels ih => exact Nat.add_le_add_left (Expr.totalWeight_le ih _) 1

theorem Grammar.weight_mono (g : Grammar) {m n : Nat} (h : m ≤ n) (name : String) :
    g.weight m name ≤ g.weight n name := by
  induction h with
  | refl => exact Nat.le_refl _
  | step _ ih => exact Nat.le_trans ih (g.weight_le_succ _ name)

namespace Derivation

mutual

/-- The weight of a tree under a depth bound. -/
def weight (g : Grammar) (bound : Nat) : Derivation → Nat
  | .operator _ => 1
  | .pending name depth => g.weight (bound - depth) name
  | .combine _ children => weightOf g bound children

def weightOf (g : Grammar) (bound : Nat) : List Derivation → Nat
  | [] => 1
  | child :: rest => child.weight g bound * weightOf g bound rest

end

/-- The weight of trees that are waiting. -/
def weightOnStack (g : Grammar) (bound : Nat) : List Derivation → Nat
  | [] => 0
  | t :: rest => t.weight g bound + weightOnStack g bound rest

theorem weightOnStack_append (g : Grammar) (bound : Nat) (ts us : List Derivation) :
    weightOnStack g bound (ts ++ us) = weightOnStack g bound ts + weightOnStack g bound us := by
  induction ts with
  | nil => simp [weightOnStack]
  | cons t rest ih => simp only [List.cons_append, weightOnStack, ih]; omega

mutual

theorem weight_pos (g : Grammar) (bound : Nat) (t : Derivation) : 0 < t.weight g bound := by
  cases t with
  | operator op => simp [weight]
  | pending name depth => simpa [weight] using g.weight_pos _ name
  | combine combinator children => simpa [weight] using weightOf_pos g bound children

theorem weightOf_pos (g : Grammar) (bound : Nat) (ts : List Derivation) :
    0 < weightOf g bound ts := by
  cases ts with
  | nil => simp [weightOf]
  | cons t rest => exact Nat.mul_pos (weight_pos g bound t) (weightOf_pos g bound rest)

end

/-! ## 2. The weight of what a production leads to -/

mutual

theorem weight_place (g : Grammar) {bound : Nat} {e : Expr} {depth : Nat} {t : Derivation}
    (h : place bound e depth = .ok t) :
    t.weight g bound ≤ e.weight (g.weight (bound - depth)) := by
  rw [place.eq_def] at h
  split at h
  · simp at h
  · cases e with
    | terminal op =>
      simp only at h
      split at h
      · simp at h
      · simp only [Except.ok.injEq] at h
        subst h
        simp [weight, Expr.weight]
    | nonterminal name =>
      simp only [Except.ok.injEq] at h
      subst h
      simp [weight, Expr.weight]
    | combine combinator children =>
      simp only at h
      split at h
      · rename_i trees hp
        simp only [Except.ok.injEq] at h
        subst h
        refine Nat.le_trans (weightOf_placeAll g hp) ?_
        exact Expr.weightOf_le (g.weight_mono (by omega)) children
      · simp at h

theorem weightOf_placeAll (g : Grammar) {bound : Nat} {es : List Expr} {depth : Nat}
    {ts : List Derivation} (h : placeAll bound es depth = .ok ts) :
    weightOf g bound ts ≤ Expr.weightOf (g.weight (bound - depth)) es := by
  cases es with
  | nil =>
    simp only [placeAll, Except.ok.injEq] at h
    subst h
    simp [weightOf, Expr.weightOf]
  | cons e rest =>
    rw [placeAll] at h
    split at h
    · rename_i t hp
      split at h
      · rename_i trees hr
        simp only [Except.ok.injEq] at h
        subst h
        exact Nat.mul_le_mul (weight_place g hp) (weightOf_placeAll g hr)
      · simp at h
    · simp at h

end

theorem weight_instantiate (g : Grammar) {bound : Nat} {production : Expr} {depth : Nat}
    {t : Derivation} (h : instantiate bound production depth = .ok t) :
    depth < bound ∧ t.weight g bound ≤ production.weight (g.weight (bound - (depth + 1))) := by
  rw [instantiate_eq_place] at h
  refine ⟨?_, weight_place g h⟩
  rw [place.eq_def] at h
  split at h
  · simp at h
  · omega

mutual

/-- Replacing the leftmost pending name trades its weight for that of what replaces it. -/
theorem weight_fill (g : Grammar) (bound : Nat) (replacement : Derivation) {t : Derivation}
    {name : String} {depth : Nat} (h : t.leftmost? = some (name, depth)) :
    (fill replacement t).weight g bound * g.weight (bound - depth) name
      = t.weight g bound * replacement.weight g bound := by
  cases t with
  | operator op => simp [leftmost?] at h
  | pending n d =>
    simp only [leftmost?, Option.some.injEq, Prod.mk.injEq] at h
    obtain ⟨rfl, rfl⟩ := h
    simp [fill, weight, Nat.mul_comm]
  | combine combinator children =>
    simp only [leftmost?] at h
    simpa [fill, weight] using weightOf_fillFirst g bound replacement h

theorem weightOf_fillFirst (g : Grammar) (bound : Nat) (replacement : Derivation)
    {ts : List Derivation} {name : String} {depth : Nat}
    (h : leftmostOf? ts = some (name, depth)) :
    weightOf g bound (fillFirst replacement ts) * g.weight (bound - depth) name
      = weightOf g bound ts * replacement.weight g bound := by
  cases ts with
  | nil => simp [leftmostOf?] at h
  | cons t rest =>
    rw [leftmostOf?] at h
    split at h
    · rename_i found hl
      simp only [Option.some.injEq] at h
      subst h
      have ih := weight_fill g bound replacement hl
      simp only [fillFirst, hl, Option.isSome_some, ↓reduceIte, weightOf]
      rw [Nat.mul_right_comm, ih, Nat.mul_right_comm]
    · rename_i hl
      have ih := weightOf_fillFirst g bound replacement h
      simp only [fillFirst, hl, Option.isSome_none, Bool.false_eq_true, ↓reduceIte, weightOf]
      rw [Nat.mul_assoc, ih, Nat.mul_assoc]

end

/-- A tree weighs more than the one in which a production replaces its leftmost pending name. -/
theorem weight_fill_lt (g : Grammar) {bound : Nat} {t replacement : Derivation} {name : String}
    {depth : Nat} {production : Expr} (hl : t.leftmost? = some (name, depth))
    (hp : production ∈ g.productions name)
    (hi : instantiate bound production depth = .ok replacement) :
    (fill replacement t).weight g bound < t.weight g bound := by
  obtain ⟨hd, hw⟩ := weight_instantiate g hi
  have hfill := weight_fill g bound replacement hl
  have hlevels : bound - depth = bound - (depth + 1) + 1 := by omega
  rw [hlevels, Grammar.weight] at hfill
  have hsum := Expr.le_totalWeight (f := g.weight (bound - (depth + 1))) hp
  refine Nat.lt_of_mul_lt_mul_right (a := 1 + Expr.totalWeight (g.weight (bound - (depth + 1)))
    (g.productions name)) ?_
  rw [hfill]
  exact Nat.mul_lt_mul_of_pos_left (by omega) (weight_pos g bound t)

/-! ## 3. All productions at once -/

/-- The trees in which productions replace the leftmost pending name of a tree, and the count of
    those that do not fit the bound. -/
def openAll (bound : Nat) (t : Derivation) (depth : Nat) :
    List Expr → Tally → List Derivation × Tally
  | [], tally => ([], tally)
  | production :: rest, tally =>
    match instantiate bound production depth with
    | .ok replacement =>
      let (trees, tally) := openAll bound t depth rest tally
      (fill replacement t :: trees, tally)
    | .error failure => openAll bound t depth rest (tally.record failure)

theorem weightOnStack_openAll_mul_le (g : Grammar) (bound : Nat) {t : Derivation} {name : String}
    {depth : Nat} (hl : t.leftmost? = some (name, depth)) (productions : List Expr)
    (tally : Tally) :
    weightOnStack g bound (openAll bound t depth productions tally).1 * g.weight (bound - depth) name
      ≤ t.weight g bound * Expr.totalWeight (g.weight (bound - (depth + 1))) productions := by
  induction productions generalizing tally with
  | nil => simp [openAll, weightOnStack]
  | cons production rest ih =>
    rw [openAll]
    split
    · rename_i replacement hi
      obtain ⟨_, hw⟩ := weight_instantiate g hi
      simp only [weightOnStack, Expr.totalWeight, Nat.add_mul, Nat.mul_add]
      refine Nat.add_le_add ?_ (ih tally)
      rw [weight_fill g bound replacement hl]
      exact Nat.mul_le_mul_left _ hw
    · rename_i failure _
      refine Nat.le_trans (ih _) (Nat.mul_le_mul_left _ ?_)
      simp [Expr.totalWeight]

/-- A production that would stand below the bound leads nowhere. -/
theorem openAll_eq_nil {bound depth : Nat} (h : bound ≤ depth) (t : Derivation)
    (productions : List Expr) (tally : Tally) :
    (openAll bound t depth productions tally).1 = [] := by
  induction productions generalizing tally with
  | nil => rfl
  | cons production rest ih =>
    rw [openAll]
    split
    · rename_i replacement hi
      have := (weight_instantiate ⟨"", []⟩ hi).1
      omega
    · exact ih _

/-- A tree weighs more than all trees together that replacing its leftmost pending name leads to. -/
theorem weightOnStack_openAll_lt (g : Grammar) (bound : Nat) {t : Derivation} {name : String}
    {depth : Nat} (hl : t.leftmost? = some (name, depth)) (tally : Tally) :
    weightOnStack g bound (openAll bound t depth (g.productions name) tally).1
      < t.weight g bound := by
  by_cases h : bound ≤ depth
  · rw [openAll_eq_nil h]
    simpa [weightOnStack] using weight_pos g bound t
  · have hmul := weightOnStack_openAll_mul_le g bound hl (g.productions name) tally
    have hlevels : bound - depth = bound - (depth + 1) + 1 := by omega
    rw [hlevels, Grammar.weight] at hmul
    refine Nat.lt_of_mul_lt_mul_right (a := 1 + Expr.totalWeight (g.weight (bound - (depth + 1)))
      (g.productions name)) (Nat.lt_of_le_of_lt hmul ?_)
    exact Nat.mul_lt_mul_of_pos_left (by omega) (weight_pos g bound t)

end Derivation

end TypedPipeline
