import TypedPipeline.Proofs.Grammar.Construction
import TypedPipeline.Proofs.Grammar.Ending
import TypedPipeline.Proofs.Grammar.Lengths

/-!
# Proofs.Grammar.Room: trees that a bound leaves room for

Whether a production fits a bound is found out while its tree is built; how far derivations reach is
known beforehand from the rules alone. This file fixes how the two agree:

* that a production becomes its tree under every bound that it does not reach beyond
  (`Derivation.place_eq_tree`);
* the names that are pending in a tree (`Derivation.pendings`) and where they come from
  (`mem_pendings_fill`, `mem_pendings_tree`);
* trees with room for the longest derivation of everything pending (`Derivation.Roomy`). With such a
  tree every production can take the place of a name, and leaves such a tree (`Roomy.instantiate`,
  `Roomy.fill`);
* what follows for a search: it stays with such trees (`roomy_of_search`), counts nothing as too deep,
  and nothing for a lack of productions if no name that is reached lacks them (`count_search`), and
  is the same under any larger bound (`search_eq_of_roomy`).
-/

namespace TypedPipeline

/-! ## 1. Trees without a bound -/

namespace Derivation

mutual

/-- The names still to be replaced, each with the depth it stands at. -/
def pendings : Derivation → List (String × Nat)
  | .operator _ => []
  | .pending name depth => [(name, depth)]
  | .combine _ children => pendingsOf children

def pendingsOf : List Derivation → List (String × Nat)
  | [] => []
  | child :: rest => child.pendings ++ pendingsOf rest

end

mutual

theorem mem_pendings_of_leftmost {p : String × Nat} (t : Derivation) (h : t.leftmost? = some p) :
    p ∈ t.pendings := by
  cases t with
  | operator op => cases h
  | pending name depth => cases h; exact List.mem_singleton_self _
  | combine combinator children => exact mem_pendingsOf_of_leftmost children h

theorem mem_pendingsOf_of_leftmost {p : String × Nat} (ts : List Derivation)
    (h : leftmostOf? ts = some p) : p ∈ pendingsOf ts := by
  cases ts with
  | nil => cases h
  | cons t rest =>
      rw [leftmostOf?] at h
      rw [pendingsOf, List.mem_append]
      split at h
      · rename_i found leftmost
        cases h
        exact .inl (mem_pendings_of_leftmost t leftmost)
      · exact .inr (mem_pendingsOf_of_leftmost rest h)

end

mutual

/-- What is pending once a tree has been put in was pending before, or is in the tree. -/
theorem mem_pendings_fill {r : Derivation} {p : String × Nat} (t : Derivation)
    (h : p ∈ (fill r t).pendings) : p ∈ r.pendings ∨ p ∈ t.pendings := by
  cases t with
  | operator op => exact .inr h
  | pending name depth => exact .inl h
  | combine combinator children => exact mem_pendingsOf_fillFirst children h

theorem mem_pendingsOf_fillFirst {r : Derivation} {p : String × Nat} (ts : List Derivation)
    (h : p ∈ pendingsOf (fillFirst r ts)) : p ∈ r.pendings ∨ p ∈ pendingsOf ts := by
  cases ts with
  | nil => exact .inr h
  | cons t rest =>
      rw [fillFirst] at h
      rw [pendingsOf, List.mem_append]
      split at h
      · rcases List.mem_append.1 h with h | h
        · exact (mem_pendings_fill t h).imp_right .inl
        · exact .inr (.inr h)
      · rcases List.mem_append.1 h with h | h
        · exact .inr (.inl h)
        · exact (mem_pendingsOf_fillFirst rest h).imp_right .inr

end

variable {lengths : Keyed Nat} {bound : Nat}

mutual

/-- A production that reaches no further than the bound fits it. -/
theorem fits_of_extent (e : Expr) {depth : Nat}
    (room : depth + Grammar.extent lengths e ≤ bound) : e.Fits bound depth := by
  cases e with
  | terminal op =>
      rw [Grammar.extent] at room
      exact Expr.fits_terminal.2 ⟨by omega, by omega⟩
  | nonterminal name => exact Expr.fits_nonterminal.2 (by omega)
  | combine combinator children =>
      rw [Grammar.extent] at room
      exact Expr.fits_combine.2 ⟨by omega, fits_of_extentOf children (by omega)⟩

theorem fits_of_extentOf (es : List Expr) {depth : Nat}
    (room : depth + Grammar.extentOf lengths es ≤ bound) : ∀ e ∈ es, e.Fits bound depth := by
  cases es with
  | nil => simp
  | cons e rest =>
      rw [Grammar.extentOf] at room
      have here : e.Fits bound depth := fits_of_extent e (by omega)
      have later : ∀ e ∈ rest, e.Fits bound depth := fits_of_extentOf rest (by omega)
      exact List.forall_mem_cons.2 ⟨here, later⟩

end

/-- **A production that reaches no further than the bound is placed.** -/
theorem place_eq_tree (e : Expr) {depth : Nat} (room : depth + Grammar.extent lengths e ≤ bound) :
    place bound e depth = .ok (e.tree depth) := by
  rw [place_eq, if_pos (fits_of_extent e room)]

mutual

/-- What is pending in the tree of a production is a reference of it, and reaches no further. -/
theorem mem_pendings_tree {p : String × Nat} (e : Expr) {depth : Nat}
    (h : p ∈ (e.tree depth).pendings) :
    p.1 ∈ e.references ∧
      p.2 + Grammar.lengthOf lengths p.1 ≤ depth + Grammar.extent lengths e := by
  cases e with
  | terminal op => cases h
  | nonterminal name =>
      cases List.mem_singleton.1 h
      exact ⟨List.mem_singleton_self _, Nat.le_refl _⟩
  | combine combinator children =>
      obtain ⟨refers, reach⟩ := mem_pendingsOf_trees children h
      rw [Grammar.extent]
      exact ⟨refers, by omega⟩

theorem mem_pendingsOf_trees {p : String × Nat} (es : List Expr) {depth : Nat}
    (h : p ∈ pendingsOf (Expr.trees es depth)) :
    p.1 ∈ Expr.referencesOf es ∧
      p.2 + Grammar.lengthOf lengths p.1 ≤ depth + Grammar.extentOf lengths es := by
  cases es with
  | nil => cases h
  | cons e rest =>
      rw [Expr.referencesOf, List.mem_append, Grammar.extentOf]
      rcases List.mem_append.1 h with h | h
      · obtain ⟨refers, reach⟩ := mem_pendings_tree e h
        exact ⟨.inl refers, by omega⟩
      · obtain ⟨refers, reach⟩ := mem_pendingsOf_trees rest h
        exact ⟨.inr refers, by omega⟩

end

end Derivation

/-! ## 2. Room for every derivation -/

namespace Derivation

/-- Every pending name is reached, and the bound leaves room for its longest derivation. -/
def Roomy (g : Grammar) (bound : Nat) (t : Derivation) : Prop :=
  ∀ p ∈ t.pendings, g.Reached p.1 ∧ p.2 + g.longestFrom p.1 ≤ bound

variable {g : Grammar} {bound bound' depth : Nat} {name : String} {production : Expr}
  {t : Derivation}

theorem Roomy.mono (h : t.Roomy g bound) (le : bound ≤ bound') : t.Roomy g bound' :=
  fun p hp => ⟨(h p hp).1, Nat.le_trans (h p hp).2 le⟩

theorem roomy_start (le : g.longest ≤ bound) : Roomy g bound (.pending g.start 0) := by
  intro p hp
  cases List.mem_singleton.1 hp
  exact ⟨Relation.ReflTransGen.refl, by rw [Nat.zero_add]; exact le⟩

theorem Roomy.leftmost (h : t.Roomy g bound) (leftmost : t.leftmost? = some (name, depth)) :
    g.Reached name ∧ depth + g.longestFrom name ≤ bound :=
  h _ (mem_pendings_of_leftmost t leftmost)

/-- One below a name its productions reach no further than its longest derivation. -/
theorem extent_le_longestFrom (settled : g.Settled name) (h : production ∈ g.productions name) :
    1 + Grammar.extent (g.lengths g.rules.length) production ≤ g.longestFrom name :=
  Grammar.longestFrom_eq settled ▸ Grammar.le_furthest h

/-- **Where there is room every production of a name can take its place.** -/
theorem Roomy.instantiate (settled : g.Settled g.start) (h : t.Roomy g bound)
    (leftmost : t.leftmost? = some (name, depth)) (hp : production ∈ g.productions name) :
    instantiate bound production depth = .ok (production.tree (depth + 1)) := by
  obtain ⟨reached, room⟩ := h.leftmost leftmost
  have := extent_le_longestFrom (settled.reaches reached) hp
  have fits : depth + 1 + Grammar.extent (g.lengths g.rules.length) production ≤ bound := by omega
  rw [instantiate_eq_place]
  exact place_eq_tree production fits

/-- And there is room in what comes of it. -/
theorem Roomy.fill (settled : g.Settled g.start) (h : t.Roomy g bound)
    (leftmost : t.leftmost? = some (name, depth)) (hp : production ∈ g.productions name) :
    (fill (production.tree (depth + 1)) t).Roomy g bound := by
  intro p hpending
  -- the names of the production reach no further than the one it replaces did
  rcases mem_pendings_fill t hpending with inside | before
  · obtain ⟨reached, room⟩ := h.leftmost leftmost
    have := extent_le_longestFrom (settled.reaches reached) hp
    obtain ⟨refers, reach⟩ := @mem_pendings_tree (g.lengths g.rules.length) p production _ inside
    refine ⟨reached.tail ⟨production, hp, refers⟩, ?_⟩
    rw [Grammar.longestFrom]
    omega
  · exact h p before

/-- So opening a name gives a tree for each of its productions, and gives nothing up. -/
theorem openAll_eq_map {productions : List Expr} (t : Derivation) (tally : Tally)
    (h : ∀ production ∈ productions,
      Derivation.instantiate bound production depth = .ok (production.tree (depth + 1))) :
    openAll bound t depth productions tally =
      (productions.map fun production => Derivation.fill (production.tree (depth + 1)) t, tally) := by
  induction productions with
  | nil => rfl
  | cons production rest ih =>
      obtain ⟨first, others⟩ := List.forall_mem_cons.1 h
      rw [openAll, first, ih others]
      rfl

end Derivation

/-! ## 3. What is counted where there is room -/

/-- The number of derivations that were given up for a reason. -/
def Tally.count (t : Tally) : Failure → Nat
  | .tooDeep => t.tooDeep
  | .noProduction => t.noProduction
  | .illTyped => t.illTyped

theorem Tally.count_record (t : Tally) {failure other : Failure} (h : other ≠ failure) :
    (t.record other).count failure = t.count failure := by
  cases other <;> cases failure <;> first | rfl | exact absurd rfl h

/-- The reasons that do not arise where there is room: a depth never, and a lack of productions if every
    name that is reached has some. -/
def Grammar.RulesOut (g : Grammar) : Failure → Prop
  | .tooDeep => True
  | .noProduction => ∀ name, g.Reached name → g.productions name ≠ []
  | .illTyped => False

variable {g : Grammar} {bound bound' : Nat} {failure : Failure} {stack : List Derivation}

/-- Trees with room are opened to trees with room. -/
theorem Derivation.roomy_openAll {t : Derivation} {name : String} {depth : Nat} (tally : Tally)
    (settled : g.Settled g.start) (h : t.Roomy g bound) (leftmost : t.leftmost? = some (name, depth))
    (rest : ∀ t ∈ stack, t.Roomy g bound) :
    (openAll bound t depth (g.productions name) tally).2 = tally ∧
      ∀ x ∈ (openAll bound t depth (g.productions name) tally).1 ++ stack, x.Roomy g bound := by
  have placed := openAll_eq_map t tally
    fun production hp => h.instantiate settled leftmost hp
  rw [placed]
  refine ⟨rfl, List.forall_mem_append.2 ⟨List.forall_mem_map.2 fun production hp => ?_, rest⟩⟩
  exact h.fill settled leftmost hp

/-- **A search of trees with room leaves trees with room.** -/
theorem roomy_of_search (settled : g.Settled g.start) {tally tally' : Tally} {op : Operator}
    {rest : List Derivation} (roomy : ∀ t ∈ stack, t.Roomy g bound)
    (h : search g bound stack tally = (some (op, rest), tally')) : ∀ t ∈ rest, t.Roomy g bound := by
  fun_induction search g bound stack tally with
  | case1 tally => cases h
  | case2 tally t rest complete op made =>
      cases h
      exact (List.forall_mem_cons.1 roomy).2
  | case3 tally t rest complete fault refused ih => exact ih (List.forall_mem_cons.1 roomy).2 h
  | case4 tally t rest name depth leftmost empty ih => exact ih (List.forall_mem_cons.1 roomy).2 h
  | case5 tally t rest name depth leftmost some opened ih =>
      obtain ⟨room, others⟩ := List.forall_mem_cons.1 roomy
      exact ih (Derivation.roomy_openAll tally settled room leftmost others).2 h

/-- **And it counts nothing for a reason that is ruled out.** -/
theorem count_search (settled : g.Settled g.start) (ruledOut : g.RulesOut failure)
    (roomy : ∀ t ∈ stack, t.Roomy g bound) (tally : Tally) :
    (search g bound stack tally).2.count failure = tally.count failure := by
  fun_induction search g bound stack tally with
  | case1 tally => rfl
  | case2 tally t rest complete op made => cases failure <;> rfl
  | case3 tally t rest complete fault refused ih =>
      refine (ih (List.forall_mem_cons.1 roomy).2).trans (tally.count_record ?_)
      rintro rfl
      exact ruledOut
  | case4 tally t rest name depth leftmost empty ih =>
      obtain ⟨room, others⟩ := List.forall_mem_cons.1 roomy
      -- the name is reached, so this is counted only where it is not ruled out
      refine (ih others).trans (tally.count_record ?_)
      rintro rfl
      exact ruledOut name (room.leftmost leftmost).1 (List.isEmpty_iff.1 empty)
  | case5 tally t rest name depth leftmost some opened ih =>
      obtain ⟨room, others⟩ := List.forall_mem_cons.1 roomy
      obtain ⟨same, later⟩ := Derivation.roomy_openAll tally settled room leftmost others
      exact (ih later).trans (congrArg (Tally.count · failure) same)

/-- **It is the same search under any larger bound.** -/
theorem search_eq_of_roomy (settled : g.Settled g.start) (le : bound ≤ bound')
    (roomy : ∀ t ∈ stack, t.Roomy g bound) (tally : Tally) :
    search g bound' stack tally = search g bound stack tally := by
  fun_induction search g bound stack tally with
  | case1 tally => rw [search]
  | case2 tally t rest complete op made => rw [search_of_complete complete, made]
  | case3 tally t rest complete fault refused ih =>
      rw [search_of_complete complete, refused]
      exact ih (List.forall_mem_cons.1 roomy).2
  | case4 tally t rest name depth leftmost empty ih =>
      rw [search_of_pending leftmost, if_pos empty]
      exact ih (List.forall_mem_cons.1 roomy).2
  | case5 tally t rest name depth leftmost some opened ih =>
      obtain ⟨room, others⟩ := List.forall_mem_cons.1 roomy
      have placed := Derivation.openAll_eq_map t tally
        fun production hp => room.instantiate settled leftmost hp
      have placed' := Derivation.openAll_eq_map t tally
        fun production hp => (room.mono le).instantiate settled leftmost hp
      rw [search_of_pending leftmost, if_neg some, placed'.trans placed.symm]
      exact ih (Derivation.roomy_openAll tally settled room leftmost others).2

end TypedPipeline
