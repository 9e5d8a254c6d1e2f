import Mathlib.Logic.Relation
import TypedPipeline.Grammar.Depth
import TypedPipeline.Proofs.Keyed

/-!
# Proofs.Grammar.Cycles: names that are reached from themselves

The search for a cycle goes depth first from the start and keeps the chain of names it has come by, each
with the references still to be looked at. This file fixes:

* what a name refers to (`Refers`), what is reached from the start (`Reached`), and the names from which
  no chain of references goes on for ever (`Settled`): they are not reached from themselves
  (`Settled.not_transGen`);
* what holds of the chain in every round (`Trail`): each name refers to the one above it, and of its
  references those that are not waiting are settled, but for the one above; and what holds of the names
  that are no longer fresh (`Seen`): they are on the chain or settled;
* that the search gives a name on a cycle (`onCycle_of_findCycle`), or the start is settled
  (`settled_of_findCycle`), so that it gives none exactly if there is no cycle
  (`findCycle_eq_none_iff`);
* how many rounds it takes (`findCycleWithin_eq`).
-/

namespace TypedPipeline

namespace Grammar

open Relation

/-! ## 1. References -/

/-- A production of the name refers to the other one. -/
def Refers (g : Grammar) (name other : String) : Prop :=
  ∃ production ∈ g.productions name, other ∈ production.references

/-- Some chain of references leads from the start to the name. -/
def Reached (g : Grammar) (name : String) : Prop := ReflTransGen g.Refers g.start name

/-- The name is reached, and reached again from itself. -/
def OnCycle (g : Grammar) (name : String) : Prop := g.Reached name ∧ TransGen g.Refers name name

/-- No chain of references from the name goes on for ever. -/
def Settled (g : Grammar) (name : String) : Prop := Acc (fun other name => g.Refers name other) name

variable {g : Grammar} {name other : String}

theorem mem_eraseRepsLoop {last : String} {names kept : List String} :
    name ∈ List.eraseRepsBy.loop (· == ·) last names kept ↔
      name ∈ kept ∨ name = last ∨ name ∈ names := by
  induction names generalizing last kept with
  | nil => simp [List.eraseRepsBy.loop, or_comm]
  | cons next rest ih =>
      rw [List.eraseRepsBy.loop]
      cases same : last == next with
      | true => rw [ih, List.mem_cons, eq_of_beq same, or_self_left]
      | false => rw [ih, List.mem_cons, List.mem_cons, or_assoc, or_left_comm]

/-- No name is lost with the repeats. -/
theorem mem_eraseReps {names : List String} : name ∈ names.eraseReps ↔ name ∈ names := by
  cases names with
  | nil => rfl
  | cons first rest =>
      rw [List.eraseReps, List.eraseRepsBy, mem_eraseRepsLoop, List.mem_cons]
      simp

theorem mem_successors : other ∈ g.successors name ↔ g.Refers name other := by
  rw [successors, List.mem_reverse, mem_eraseReps, List.mem_flatMap]
  rfl

theorem mem_productions {production : Expr} (h : production ∈ g.productions name) :
    ∃ rule ∈ g.rules, rule.1 = name ∧ production ∈ rule.2 := by
  unfold productions at h
  cases found : g.rules.find? name with
  | none => rw [found] at h; cases h
  | some listed =>
      rw [found] at h
      exact ⟨_, Keyed.mem_of_find? found, rfl, h⟩

theorem mem_allReferences (h : g.Refers name other) : other ∈ g.allReferences := by
  obtain ⟨production, hp, ho⟩ := h
  obtain ⟨rule, hr, _, hp⟩ := mem_productions hp
  exact List.mem_flatMap.2 ⟨rule, hr, List.mem_flatMap.2 ⟨production, hp, ho⟩⟩

/-- A name is settled as soon as all its references are. -/
theorem Settled.of_refers (h : ∀ other, g.Refers name other → g.Settled other) : g.Settled name :=
  ⟨_, h⟩

theorem Settled.refers (h : g.Settled name) (refers : g.Refers name other) : g.Settled other :=
  Acc.inv h refers

theorem Settled.reaches (h : g.Settled name) (reaches : ReflTransGen g.Refers name other) :
    g.Settled other := by
  induction reaches with
  | refl => exact h
  | tail _ refers ih => exact ih.refers refers

/-- **A settled name is not reached from itself.** -/
theorem Settled.not_transGen (h : g.Settled name) : ¬TransGen g.Refers name name := by
  induction h with
  | intro name _ ih =>
      intro cycle
      obtain ⟨other, refers, back⟩ := TransGen.head'_iff.1 cycle
      exact ih other refers (TransGen.tail' back refers)

/-! ## 2. The search -/

/-- The chain below a name, or all of it: each name refers to the one above it, the last is the start,
    and the references of a name are waiting, above it or settled. -/
inductive Trail (g : Grammar) : (above : Option String) → Chain → Prop where
  | start {above} : (∀ upper ∈ above, upper = g.start) → Trail g above []
  | next {above name waiting rest} : (∀ upper ∈ above, g.Refers name upper) →
      (∀ other ∈ waiting, g.Refers name other) →
      (∀ other, g.Refers name other → other ∈ waiting ∨ other ∈ above ∨ g.Settled other) →
      Trail g (some name) rest → Trail g above ((name, waiting) :: rest)

/-- The names referred to that are not fresh any more are on the chain or settled. -/
def Seen (g : Grammar) (fresh : List String) (chain : Chain) : Prop :=
  ∀ name ∈ g.allReferences, name ∉ fresh → name ∈ chain.map (·.1) ∨ g.Settled name

variable {fresh waiting : List String} {chain rest : Chain} {above : Option String}

theorem trail_start (g : Grammar) : Trail g none [(g.start, g.successors g.start)] :=
  .next (by simp) (fun _ ho => mem_successors.1 ho) (fun _ ho => .inl (mem_successors.2 ho))
    (.start (by simp))

theorem seen_start (g : Grammar) : g.Seen g.allReferences [(g.start, g.successors g.start)] :=
  fun _ hn gone => absurd hn gone

/-- What stands above the chain is reached. -/
theorem Trail.reached (h : Trail g (some name) chain) : g.Reached name := by
  generalize e : some name = above at h
  induction h generalizing name with
  | start start =>
      subst e
      exact start name rfl ▸ ReflTransGen.refl
  | next refers _ _ _ ih =>
      -- the name below is reached by the rest of the trail
      subst e
      exact (ih rfl).tail (refers name rfl)

/-- Every name on the chain leads to what stands above it. -/
theorem Trail.leads (h : Trail g (some name) chain) :
    ∀ lower ∈ chain.map (·.1), TransGen g.Refers lower name := by
  generalize e : some name = above at h
  induction h generalizing name with
  | start _ => simp
  | @next _ lower _ _ refers _ _ _ ih =>
      subst e
      refine List.forall_mem_cons.2 ⟨TransGen.single (refers name rfl), fun low hl => ?_⟩
      exact (ih rfl low hl).tail (refers name rfl)

/-- What stood above the chain need not stand there any more once it is settled. -/
theorem Trail.settle (h : Trail g (some name) chain) (settled : g.Settled name) :
    Trail g none chain := by
  cases h with
  | start _ => exact .start (by simp)
  | next refers waits covered rest =>
      refine .next (by simp) waits (fun other ho => ?_) rest
      rcases covered other ho with waiting | upper | done
      · exact .inl waiting
      · cases upper
        exact .inr (.inr settled)
      · exact .inr (.inr done)

/-- A name without waiting references is settled. -/
theorem Trail.settled (h : Trail g none ((name, []) :: rest)) : g.Settled name := by
  cases h with
  | next _ _ covered _ =>
      refine .of_refers fun other ho => ?_
      rcases covered other ho with waiting | upper | done
      · cases waiting
      · cases upper
      · exact done

theorem Trail.lower (h : Trail g above ((name, waiting) :: rest)) : Trail g (some name) rest := by
  cases h with
  | next _ _ _ lower => exact lower

/-- The next reference is that of the name on top. -/
theorem Trail.refers (h : Trail g above ((name, other :: waiting) :: rest)) :
    g.Refers name other := by
  cases h with
  | next _ waits _ _ => exact waits other List.mem_cons_self

/-- A reference that is settled is passed over. -/
theorem Trail.pass (h : Trail g none ((name, other :: waiting) :: rest)) (settled : g.Settled other) :
    Trail g none ((name, waiting) :: rest) := by
  cases h with
  | next refers waits covered rest =>
      refine .next refers (fun other ho => waits other (List.mem_cons_of_mem _ ho)) (fun x hx => ?_) rest
      rcases covered x hx with waiting | upper | done
      · rcases List.mem_cons.1 waiting with rfl | waiting
        · exact .inr (.inr settled)
        · exact .inl waiting
      · exact .inr (.inl upper)
      · exact .inr (.inr done)

/-- A reference that is fresh comes on top, with all its own references waiting. -/
theorem Trail.push (h : Trail g none ((name, other :: waiting) :: rest)) :
    Trail g none ((other, g.successors other) :: (name, waiting) :: rest) := by
  refine .next (by simp) (fun x hx => mem_successors.1 hx) (fun x hx => .inl (mem_successors.2 hx)) ?_
  have refers := h.refers
  cases h with
  | next _ waits covered rest =>
      refine .next (fun upper hu => ?_) (fun x hx => waits x (List.mem_cons_of_mem _ hx))
        (fun x hx => ?_) rest
      · cases hu
        exact refers
      · rcases covered x hx with waiting | upper | done
        · rcases List.mem_cons.1 waiting with rfl | waiting
          · exact .inr (.inl rfl)
          · exact .inl waiting
        · cases upper
        · exact .inr (.inr done)

theorem Seen.pop (h : g.Seen fresh ((name, waiting) :: rest)) (settled : g.Settled name) :
    g.Seen fresh rest := by
  intro other ho gone
  rcases h other ho gone with on | done
  · rcases List.mem_cons.1 on with rfl | on
    · exact .inr settled
    · exact .inl on
  · exact .inr done

theorem Seen.push {waiting' : List String}
    (h : g.Seen fresh ((name, waiting) :: rest)) :
    g.Seen (without fresh other) ((other, g.successors other) :: (name, waiting') :: rest) := by
  intro x hx gone
  by_cases e : x = other
  · exact .inl (by simp [e])
  · have gone : x ∉ fresh := fun fresh => gone (List.mem_filter.2 ⟨fresh, by simpa using e⟩)
    exact (h x hx gone).imp_left fun on => List.mem_cons_of_mem _ on

/-- What the search says of a chain: a name on a cycle, or that there is none. -/
def Answers (g : Grammar) (chain : Chain) : Option String → Prop
  | some name => g.OnCycle name
  | none => chain = [] ∨ g.Settled g.start

/-- What is said of a chain with names on it is said of any chain. -/
theorem Answers.of_cons {answer : Option String} {entry : String × List String} {chain' : Chain}
    (h : g.Answers (entry :: chain) answer) : g.Answers chain' answer := by
  cases answer with
  | some found => exact h
  | none => exact .inr (h.resolve_left (List.cons_ne_nil _ _))

/-- What is said of the chain below a settled name is said of the chain with it. -/
theorem Answers.push {answer : Option String} (h : g.Answers rest answer)
    (trail : Trail g none ((name, []) :: rest)) : g.Answers ((name, []) :: rest) answer := by
  cases answer with
  | some found => exact h
  | none =>
      refine .inr (h.elim (fun e => ?_) id)
      subst e
      cases trail.lower with
      | start start => exact start name rfl ▸ trail.settled

/-- **The search gives a name on a cycle, or else the start is settled.** -/
theorem answers_findCycleFrom (trail : Trail g none chain) (seen : g.Seen fresh chain) :
    g.Answers chain (g.findCycleFrom fresh chain) := by
  fun_induction findCycleFrom g fresh chain with
  | case1 fresh => exact .inl rfl
  | case2 fresh name rest ih =>
      -- the references of the top name have all been looked at, so it leaves the chain settled
      exact (ih (trail.lower.settle trail.settled) (seen.pop trail.settled)).push trail
  | case3 fresh name next waiting rest on =>
      rw [if_pos on]
      refine ⟨trail.lower.reached.tail trail.refers, ?_⟩
      rcases List.mem_cons.1 on with rfl | on
      · exact TransGen.single trail.refers
      · exact (trail.lower.leads _ on).tail trail.refers
  | case4 fresh name next waiting rest there off ih =>
      rw [if_neg off, if_pos there]
      exact (ih trail.push seen.push).of_cons
  | case5 fresh name next waiting rest gone off ih =>
      rw [if_neg off, if_neg gone]
      -- neither fresh nor on the chain: it was settled when it left
      have settled := (seen next (mem_allReferences trail.refers) gone).resolve_left off
      exact (ih (trail.pass settled) seen).of_cons

/-- **The name that the search gives is reached, and reached again from itself.** -/
theorem onCycle_of_findCycle (h : g.findCycle = some name) : g.OnCycle name := by
  have answers := answers_findCycleFrom g.trail_start g.seen_start
  rw [findCycle] at h
  rw [h] at answers
  exact answers

/-- **If it gives none, no chain of references goes on for ever.** -/
theorem settled_of_findCycle (h : g.findCycle = none) : g.Settled g.start := by
  have answers := answers_findCycleFrom g.trail_start g.seen_start
  rw [findCycle] at h
  rw [h] at answers
  exact answers.resolve_left (List.cons_ne_nil _ _)

theorem findCycle_eq_none_iff : g.findCycle = none ↔ ∀ name, ¬g.OnCycle name := by
  constructor
  · intro h name cycle
    exact ((settled_of_findCycle h).reaches cycle.1).not_transGen cycle.2
  · intro h
    cases found : g.findCycle with
    | none => rfl
    | some name => exact absurd (onCycle_of_findCycle found) (h name)

/-! ## 3. Rounds -/

/-- A search of no more than this many rounds; `none` if it is not over by then. -/
def findCycleWithin (g : Grammar) : (rounds : Nat) → (fresh : List String) → Chain →
    Option (Option String)
  | _, _, [] => some none
  | 0, _, _ :: _ => none
  | rounds + 1, fresh, (_, []) :: rest => g.findCycleWithin rounds fresh rest
  | rounds + 1, fresh, (name, next :: waiting) :: rest =>
    if next ∈ name :: rest.map (·.1) then some (some next)
    else if next ∈ fresh then
      g.findCycleWithin rounds (without fresh next)
        ((next, g.successors next) :: (name, waiting) :: rest)
    else g.findCycleWithin rounds fresh ((name, waiting) :: rest)

/-- The rounds that names are good for: one for each, and one for each of their references. -/
def roundsFor (g : Grammar) : List String → Nat
  | [] => 0
  | name :: rest => 1 + (g.successors name).length + g.roundsFor rest

theorem without_cons (first : String) (rest : List String) (name : String) :
    without (first :: rest) name =
      if first = name then without rest name else first :: without rest name := by
  rw [without, List.filter_cons]
  by_cases h : first = name
  · simp [h, without]
  · simp [h, without]

theorem roundsFor_without_le (g : Grammar) (fresh : List String) (name : String) :
    g.roundsFor (without fresh name) ≤ g.roundsFor fresh := by
  induction fresh with
  | nil => exact Nat.le_refl _
  | cons first rest ih =>
      rw [without_cons]
      split <;> simp only [roundsFor] <;> omega

/-- A name that is taken off leaves the rounds of the others. -/
theorem roundsFor_without {fresh : List String} (h : name ∈ fresh) :
    1 + (g.successors name).length + g.roundsFor (without fresh name) ≤ g.roundsFor fresh := by
  induction fresh with
  | nil => cases h
  | cons first rest ih =>
      rw [without_cons, roundsFor]
      split
      · rename_i e
        subst e
        exact Nat.add_le_add_left (g.roundsFor_without_le rest first) _
      · rename_i e
        have := ih ((List.mem_cons.1 h).resolve_left (Ne.symm e))
        rw [roundsFor]
        omega

/-- **The search is over after as many rounds as its chain is long and the fresh names are good
    for.** -/
theorem findCycleWithin_eq {rounds : Nat} (enough : Chain.size chain + g.roundsFor fresh ≤ rounds) :
    g.findCycleWithin rounds fresh chain = some (g.findCycleFrom fresh chain) := by
  induction rounds generalizing fresh chain with
  | zero =>
      cases chain with
      | nil => rw [findCycleWithin, findCycleFrom]
      | cons entry rest =>
          obtain ⟨name, waiting⟩ := entry
          simp only [Chain.size] at enough
          omega
  | succ rounds ih =>
      rcases chain with _ | ⟨⟨name, _ | ⟨next, waiting⟩⟩, rest⟩
      · rw [findCycleWithin, findCycleFrom]
      · rw [findCycleWithin, findCycleFrom]
        refine ih ?_
        simp only [Chain.size] at enough
        omega
      · simp only [Chain.size, List.length_cons] at enough
        rw [findCycleWithin, findCycleFrom, List.map_cons]
        split
        · rfl
        · split
          · rename_i there
            have := @roundsFor_without g next fresh there
            refine ih ?_
            simp only [Chain.size]
            omega
          · refine ih ?_
            simp only [Chain.size]
            omega

end Grammar

end TypedPipeline
