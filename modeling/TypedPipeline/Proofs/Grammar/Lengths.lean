import TypedPipeline.Proofs.Grammar.Cycles

/-!
# Proofs.Grammar.Lengths: how far names reach

The longest derivation is found by rounds over all rules. Read as a recursion, from a name to the names
that its productions refer to, with the lengths kept that are known, it would not end on a cycle. This
file fixes:

* the number of rules that a name leads to (`rulesAhead`), which falls with every reference of a
  settled name (`rulesAhead_lt`);
* that as many rounds as that are enough (`lengthOf_lengths_eq`), so that the length of a settled name
  is one more than the furthest reach of its productions (`longestFrom_eq`);
* the recursion with a limit on the names that are open at a time (`longestWithin`). From a settled
  name it gives the length (`gives_longestWithin`), and from no other name does it give any
  (`settled_of_longestWithin`);
* **that the search for a cycle ends, answers rightly, and tells whether the recursion comes to an
  end** (`Grammar.findCycle_finds`).
-/

namespace TypedPipeline

namespace Grammar

open Relation

variable {g : Grammar} {name other : String}

/-! ## 1. Rules ahead -/

open Classical in
/-- The number of rules that references from a name lead to, its own among them. -/
noncomputable def rulesAhead (g : Grammar) (name : String) : Nat :=
  g.nonterminals.countP fun other => ReflTransGen g.Refers name other

theorem rulesAhead_le (g : Grammar) (name : String) : g.rulesAhead name ≤ g.rules.length := by
  have each : g.nonterminals.length = g.rules.length := List.length_map _
  exact each ▸ List.countP_le_length

/-- A name that refers to another one has a rule. -/
theorem mem_nonterminals (h : g.Refers name other) : name ∈ g.nonterminals := by
  obtain ⟨production, hp, _⟩ := h
  obtain ⟨rule, hr, rfl, _⟩ := mem_productions hp
  exact List.mem_map_of_mem hr

/-- **From a settled name on, each reference has fewer rules ahead**: all of its own are, and the rule
    of the name is not among them. -/
theorem rulesAhead_lt (settled : g.Settled name) (h : g.Refers name other) :
    g.rulesAhead other < g.rulesAhead name := by
  classical
  have ahead : ∀ x, ReflTransGen g.Refers other x → ReflTransGen g.Refers name x :=
    fun x => ReflTransGen.head h
  have notBack : ¬ReflTransGen g.Refers other name := fun back =>
    settled.not_transGen (TransGen.head' h back)
  obtain ⟨before, after, split⟩ := List.append_of_mem (mem_nonterminals h)
  have fewer (names : List String) :
      names.countP (fun x => decide (ReflTransGen g.Refers other x)) ≤
        names.countP fun x => decide (ReflTransGen g.Refers name x) :=
    List.countP_mono_left fun x _ hx => decide_eq_true (ahead x (of_decide_eq_true hx))
  have := fewer before
  have := fewer after
  rw [rulesAhead, rulesAhead, split, List.countP_append, List.countP_append, List.countP_cons,
    List.countP_cons, if_neg (by simpa using notBack), if_pos (by simpa using ReflTransGen.refl)]
  omega

/-- A name with productions has its own rule ahead. -/
theorem productions_eq_nil_of_rulesAhead (h : g.rulesAhead name = 0) : g.productions name = [] := by
  classical
  refine List.eq_nil_iff_forall_not_mem.2 fun production hp => ?_
  obtain ⟨rule, hr, rfl, _⟩ := mem_productions hp
  have none' := List.countP_eq_zero.1 h rule.1 (List.mem_map_of_mem hr)
  exact none' (decide_eq_true ReflTransGen.refl)

/-! ## 2. Lengths after enough rounds -/

/-- The length under a name after one more round. -/
theorem lengthOf_lengths_succ (g : Grammar) (rounds : Nat) (name : String) :
    lengthOf (g.lengths (rounds + 1)) name = furthest (g.lengths rounds) (g.productions name) := by
  rw [lengthOf, lengths, Keyed.find?_map, productions]
  cases g.rules.find? name <;> rfl

theorem lengthOf_of_productions_nil (h : g.productions name = []) (rounds : Nat) :
    lengthOf (g.lengths rounds) name = 0 := by
  cases rounds with
  | zero => rfl
  | succ rounds => rw [lengthOf_lengths_succ, h]; rfl

variable {lengths lengths' : Keyed Nat}

mutual

/-- How far a production reaches hangs on the lengths of the names that it refers to. -/
theorem extent_congr (e : Expr)
    (h : ∀ name ∈ e.references, lengthOf lengths name = lengthOf lengths' name) :
    extent lengths e = extent lengths' e := by
  cases e with
  | terminal op => rfl
  | nonterminal name => exact h name List.mem_cons_self
  | combine combinator children => rw [extent, extent, extentOf_congr children h]

theorem extentOf_congr (es : List Expr)
    (h : ∀ name ∈ Expr.referencesOf es, lengthOf lengths name = lengthOf lengths' name) :
    extentOf lengths es = extentOf lengths' es := by
  cases es with
  | nil => rfl
  | cons e rest =>
      rw [Expr.referencesOf] at h
      obtain ⟨first, others⟩ := List.forall_mem_append.1 h
      rw [extentOf, extentOf, extent_congr e first, extentOf_congr rest others]

end

/-- One more than the reach of a production, or of the ones after it. -/
theorem furthest_cons (lengths : Keyed Nat) (production : Expr) (rest : List Expr) :
    furthest lengths (production :: rest) =
      max (1 + extent lengths production) (furthest lengths rest) := by
  have start (n : Nat) : rest.foldl (fun most p => max most (1 + extent lengths p)) n =
      max n (furthest lengths rest) := by
    rw [furthest]
    induction rest generalizing n with
    | nil => simp
    | cons p rest ih => rw [List.foldl_cons, List.foldl_cons, ih, ih (max 0 _)]; omega
  rw [furthest, List.foldl_cons, start, Nat.zero_max]

theorem furthest_congr {productions : List Expr} (h : ∀ production ∈ productions,
    ∀ name ∈ production.references, lengthOf lengths name = lengthOf lengths' name) :
    furthest lengths productions = furthest lengths' productions := by
  induction productions with
  | nil => rfl
  | cons production rest ih =>
      obtain ⟨first, others⟩ := List.forall_mem_cons.1 h
      rw [furthest_cons, furthest_cons, extent_congr production first, ih others]

theorem le_furthest {production : Expr} {productions : List Expr} (h : production ∈ productions) :
    1 + extent lengths production ≤ furthest lengths productions := by
  induction productions with
  | nil => cases h
  | cons first rest ih =>
      rw [furthest_cons]
      rcases List.mem_cons.1 h with rfl | h
      · exact Nat.le_max_left _ _
      · exact Nat.le_trans (ih h) (Nat.le_max_right _ _)

/-- **As soon as there are as many rounds as a settled name has rules ahead, further ones change
    nothing.** -/
theorem lengthOf_lengths_eq (settled : g.Settled name) {m n : Nat} (hm : g.rulesAhead name ≤ m)
    (hn : g.rulesAhead name ≤ n) :
    lengthOf (g.lengths m) name = lengthOf (g.lengths n) name := by
  induction m generalizing name n with
  | zero =>
      have none' := productions_eq_nil_of_rulesAhead (Nat.le_zero.1 hm)
      rw [lengthOf_of_productions_nil none', lengthOf_of_productions_nil none']
  | succ m ih =>
      cases n with
      | zero =>
          have none' := productions_eq_nil_of_rulesAhead (Nat.le_zero.1 hn)
          rw [lengthOf_of_productions_nil none', lengthOf_of_productions_nil none']
      | succ n =>
          -- one round is spent on the name, and its references have at least one rule less ahead
          rw [lengthOf_lengths_succ, lengthOf_lengths_succ]
          refine furthest_congr fun production hp other ho => ?_
          have refers : g.Refers name other := ⟨production, hp, ho⟩
          have := rulesAhead_lt settled refers
          exact ih (settled.refers refers) (by omega) (by omega)

/-- The length of the longest derivation from a name. -/
def longestFrom (g : Grammar) (name : String) : Nat := lengthOf (g.lengths g.rules.length) name

/-- **A settled name is one longer than the furthest reach of its productions.** -/
theorem longestFrom_eq (settled : g.Settled name) :
    g.longestFrom name = furthest (g.lengths g.rules.length) (g.productions name) := by
  have enough := g.rulesAhead_le name
  rw [longestFrom, lengthOf_lengths_eq settled enough (Nat.le_succ_of_le enough),
    lengthOf_lengths_succ]

/-! ## 3. Lengths name by name -/

/-- Looks a name up among the lengths known so far, or finds its length and keeps it. -/
abbrev LookUp := String → Keyed Nat → Option (Nat × Keyed Nat)

mutual

/-- How far a production reaches, the names looked up from left to right. -/
def extentVia (names : LookUp) : Expr → Keyed Nat → Option (Nat × Keyed Nat)
  | .terminal op, known => some (op.depth, known)
  | .nonterminal name, known => names name known
  | .combine _ children, known =>
    match extentOfVia names children known with
    | some (most, known) => some (1 + most, known)
    | none => none

def extentOfVia (names : LookUp) : List Expr → Keyed Nat → Option (Nat × Keyed Nat)
  | [], known => some (0, known)
  | child :: rest, known =>
    match extentVia names child known with
    | some (first, known) =>
      match extentOfVia names rest known with
      | some (most, known) => some (max first most, known)
      | none => none
    | none => none

end

/-- One more than the furthest reach of productions, looked through in order. -/
def furthestVia (names : LookUp) : List Expr → Keyed Nat → Option (Nat × Keyed Nat)
  | [], known => some (0, known)
  | production :: rest, known =>
    match extentVia names production known with
    | some (first, known) =>
      match furthestVia names rest known with
      | some (most, known) => some (max (1 + first) most, known)
      | none => none
    | none => none

/-- The length of the longest derivation from a name by recursion on the grammar, with the lengths that
    are known already; `none` if more than this many names have to be open at a time. -/
def longestWithin (g : Grammar) : (calls : Nat) → LookUp
  | calls, name, known =>
    match known.find? name with
    | some length => some (length, known)
    | none =>
      match calls with
      | 0 => none
      | calls + 1 =>
        match furthestVia (g.longestWithin calls) (g.productions name) known with
        | some (length, known) => some (length, known.put name length)
        | none => none

/-- The lengths known so far are right. -/
def Knows (g : Grammar) (known : Keyed Nat) : Prop :=
  ∀ name length, known.find? name = some length → length = g.longestFrom name

/-- What is looked up gives a right length, and keeps right lengths only. -/
def Gives (g : Grammar) (length : Nat) (found : Option (Nat × Keyed Nat)) : Prop :=
  ∃ known, found = some (length, known) ∧ g.Knows known

variable {names : LookUp}

mutual

theorem gives_extentVia (e : Expr) {known : Keyed Nat} (knows : g.Knows known)
    (h : ∀ name ∈ e.references, ∀ known, g.Knows known →
      g.Gives (g.longestFrom name) (names name known)) :
    g.Gives (extent (g.lengths g.rules.length) e) (extentVia names e known) := by
  cases e with
  | terminal op => exact ⟨known, rfl, knows⟩
  | nonterminal name => exact h name List.mem_cons_self known knows
  | combine combinator children =>
      obtain ⟨known', found, knows'⟩ := gives_extentOfVia children knows h
      exact ⟨known', by rw [extentVia, found]; rfl, knows'⟩

theorem gives_extentOfVia (es : List Expr) {known : Keyed Nat} (knows : g.Knows known)
    (h : ∀ name ∈ Expr.referencesOf es, ∀ known, g.Knows known →
      g.Gives (g.longestFrom name) (names name known)) :
    g.Gives (extentOf (g.lengths g.rules.length) es) (extentOfVia names es known) := by
  cases es with
  | nil => exact ⟨known, rfl, knows⟩
  | cons e rest =>
      rw [Expr.referencesOf] at h
      obtain ⟨first, others⟩ := List.forall_mem_append.1 h
      obtain ⟨known', found, knows'⟩ := gives_extentVia e knows first
      obtain ⟨known'', found', knows''⟩ := gives_extentOfVia rest knows' others
      exact ⟨known'', by rw [extentOfVia, found]; simp only [found']; rfl, knows''⟩

end

theorem gives_furthestVia {productions : List Expr} {known : Keyed Nat} (knows : g.Knows known)
    (h : ∀ production ∈ productions, ∀ name ∈ production.references, ∀ known, g.Knows known →
      g.Gives (g.longestFrom name) (names name known)) :
    g.Gives (furthest (g.lengths g.rules.length) productions)
      (furthestVia names productions known) := by
  induction productions generalizing known with
  | nil => exact ⟨known, rfl, knows⟩
  | cons production rest ih =>
      obtain ⟨first, others⟩ := List.forall_mem_cons.1 h
      obtain ⟨known', found, knows'⟩ := gives_extentVia production knows first
      obtain ⟨known'', found', knows''⟩ := ih knows' others
      refine ⟨known'', ?_, knows''⟩
      rw [furthestVia, found, furthest_cons]
      simp only [found']

/-- **From a settled name the recursion gives the length, with no more names open at a time than have
    rules ahead, and one.** -/
theorem gives_longestWithin (settled : g.Settled name) {calls : Nat}
    (enough : g.rulesAhead name < calls) {known : Keyed Nat} (knows : g.Knows known) :
    g.Gives (g.longestFrom name) (g.longestWithin calls name known) := by
  induction calls generalizing name known with
  | zero => cases enough
  | succ calls ih =>
      rw [longestWithin]
      cases found : known.find? name with
      | some length => exact ⟨known, by rw [knows name length found], knows⟩
      | none =>
          have given : g.Gives (furthest (g.lengths g.rules.length) (g.productions name))
              (furthestVia (g.longestWithin calls) (g.productions name) known) :=
            gives_furthestVia knows fun production hp other ho known knows => by
              have refers : g.Refers name other := ⟨production, hp, ho⟩
              have := rulesAhead_lt settled refers
              exact ih (settled.refers refers) (by omega) knows
          obtain ⟨known', found, knows'⟩ := given
          rw [← longestFrom_eq settled] at found
          simp only [found]
          refine ⟨_, rfl, fun other length kept => ?_⟩
          -- what is kept is the new length, or was right before
          rw [Keyed.find?_put] at kept
          split at kept
          · rename_i e
            cases kept
            rw [e]
          · exact knows' other length kept

/-- The lengths known are those of settled names. -/
def KnowsSettled (g : Grammar) (known : Keyed Nat) : Prop :=
  ∀ name length, known.find? name = some length → g.Settled name

mutual

theorem settled_of_extentVia (e : Expr) {length : Nat} {known known' : Keyed Nat}
    (h : extentVia names e known = some (length, known')) (knows : g.KnowsSettled known)
    (each : ∀ name known length known', g.KnowsSettled known →
      names name known = some (length, known') → g.Settled name ∧ g.KnowsSettled known') :
    (∀ name ∈ e.references, g.Settled name) ∧ g.KnowsSettled known' := by
  cases e with
  | terminal op =>
      cases h
      exact ⟨by simp [Expr.references], knows⟩
  | nonterminal name =>
      obtain ⟨settled, knows'⟩ := each name known length known' knows h
      exact ⟨by simpa [Expr.references] using settled, knows'⟩
  | combine combinator children =>
      rw [extentVia] at h
      split at h
      · rename_i most later found
        cases h
        exact settled_of_extentOfVia children found knows each
      · cases h

theorem settled_of_extentOfVia (es : List Expr) {length : Nat} {known known' : Keyed Nat}
    (h : extentOfVia names es known = some (length, known')) (knows : g.KnowsSettled known)
    (each : ∀ name known length known', g.KnowsSettled known →
      names name known = some (length, known') → g.Settled name ∧ g.KnowsSettled known') :
    (∀ name ∈ Expr.referencesOf es, g.Settled name) ∧ g.KnowsSettled known' := by
  cases es with
  | nil =>
      cases h
      exact ⟨by simp [Expr.referencesOf], knows⟩
  | cons e rest =>
      rw [extentOfVia] at h
      split at h
      · rename_i first between found
        split at h
        · rename_i most later found'
          cases h
          obtain ⟨settled, knows'⟩ := settled_of_extentVia e found knows each
          obtain ⟨settled', knows''⟩ := settled_of_extentOfVia rest found' knows' each
          exact ⟨List.forall_mem_append.2 ⟨settled, settled'⟩, knows''⟩
        · cases h
      · cases h

end

theorem settled_of_furthestVia {productions : List Expr} {length : Nat} {known known' : Keyed Nat}
    (h : furthestVia names productions known = some (length, known')) (knows : g.KnowsSettled known)
    (each : ∀ name known length known', g.KnowsSettled known →
      names name known = some (length, known') → g.Settled name ∧ g.KnowsSettled known') :
    (∀ production ∈ productions, ∀ name ∈ production.references, g.Settled name) ∧
      g.KnowsSettled known' := by
  induction productions generalizing known length with
  | nil =>
      cases h
      exact ⟨by simp, knows⟩
  | cons production rest ih =>
      rw [furthestVia] at h
      split at h
      · rename_i first between found
        split at h
        · rename_i most later found'
          cases h
          obtain ⟨settled, knows'⟩ := settled_of_extentVia production found knows each
          obtain ⟨settled', knows''⟩ := ih found' knows'
          exact ⟨List.forall_mem_cons.2 ⟨settled, settled'⟩, knows''⟩
        · cases h
      · cases h

/-- **The recursion comes to an end from settled names only.** -/
theorem settled_of_longestWithin {calls length : Nat} {known known' : Keyed Nat}
    (knows : g.KnowsSettled known)
    (h : g.longestWithin calls name known = some (length, known')) :
    g.Settled name ∧ g.KnowsSettled known' := by
  induction calls generalizing name known length known' with
  | zero =>
      rw [longestWithin] at h
      split at h
      · rename_i length found
        cases h
        exact ⟨knows name length found, knows⟩
      · cases h
  | succ calls ih =>
      rw [longestWithin] at h
      split at h
      · rename_i length found
        cases h
        exact ⟨knows name length found, knows⟩
      · split at h
        · rename_i length later found
          cases h
          obtain ⟨each, knows'⟩ := settled_of_furthestVia found knows
            fun name known length known' knows h => ih knows h
          have settled : g.Settled name := .of_refers fun other ho => by
            obtain ⟨production, hp, ho⟩ := ho
            exact each production hp other ho
          refine ⟨settled, fun other length kept => ?_⟩
          rw [Keyed.find?_put] at kept
          split at kept
          · rename_i e
            exact e ▸ settled
          · exact knows' other length kept
        · cases h

/-! ## 4. What the search for a cycle is for -/

/-- **The search for a cycle is over after a number of rounds that is known beforehand. It gives a name
    that is reached from the start and again from itself, and none only if there is no such name. If it
    gives none, the recursion for the longest derivation comes to its end, with no more names open at a
    time than there are rules, and one; and otherwise it comes to none, however many may be open.** -/
theorem findCycle_finds (g : Grammar) :
    (∀ rounds, Chain.size [(g.start, g.successors g.start)] + g.roundsFor g.allReferences ≤ rounds →
      g.findCycleWithin rounds g.allReferences [(g.start, g.successors g.start)] =
        some g.findCycle) ∧
      (∀ name, g.findCycle = some name →
        g.OnCycle name ∧ ∀ calls, g.longestWithin calls g.start [] = none) ∧
      (g.findCycle = none →
        (∀ name, g.Reached name → ¬TransGen g.Refers name name) ∧
          ∀ calls, g.rules.length < calls →
            ∃ known, g.longestWithin calls g.start [] = some (g.longest, known)) := by
  refine ⟨fun rounds enough => findCycleWithin_eq enough, fun name found => ?_, fun none' => ?_⟩
  · have cycle := onCycle_of_findCycle found
    refine ⟨cycle, fun calls => Option.eq_none_iff_forall_not_mem.2 fun result h => ?_⟩
    obtain ⟨settled, _⟩ := settled_of_longestWithin (by intro _ _ h; cases h) h
    exact (settled.reaches cycle.1).not_transGen cycle.2
  · have settled := settled_of_findCycle none'
    refine ⟨fun name reached => (settled.reaches reached).not_transGen, fun calls enough => ?_⟩
    have nothing : g.Knows [] := by intro _ _ h; cases h
    obtain ⟨known, found, _⟩ := gives_longestWithin settled
      (Nat.lt_of_le_of_lt (g.rulesAhead_le g.start) enough) nothing
    exact ⟨known, found⟩

end Grammar

end TypedPipeline
