import TypedPipeline.Proofs.Schema.Containment
import TypedPipeline.Proofs.Schema.Disjointness

/-!
# Proofs.Schema.Symmetry: the test for disjointness has no first side

The test opens a union on its left before one on its right, and of two enumerations it looks at the
members of the left one only. This file fixes:

* that it makes no difference which of two scalars comes first (`Scalar.areDisjoint_comm`): where the
  second refuses every member of the first, no member of the second can agree with one of them;
* that a union is disjoint from a schema if its branches are, on whichever side it stands
  (`areDisjoint_union_left`, `areDisjoint_union_right`). It needs a branch for this, since anything is
  disjoint from nothing;
* **that the test gives the same answer both ways** (`areDisjoint_swap`), by induction on the size of
  both schemas together, where there are no intersections.
-/

namespace TypedPipeline

namespace Scalar

variable {x y : Scalar}

/-- **Where one enumerated scalar refuses all members of another, the other refuses all of its.** -/
theorem refusesAll_swap (rx : x.Regular) (ry : y.Regular) {members others : List Json}
    (hx : x.effectiveEnumeration = some members) (hy : y.effectiveEnumeration = some others)
    (h : y.refusesAll members = true) : x.refusesAll others = true := by
  refine List.all_eq_true.2 fun n hn => ?_
  obtain ⟨pn, own⟩ := fits_of_mem_effective ry hy hn
  cases e : x.fault? n with
  | some reason => rfl
  | none =>
      have both : x.Fits n := fault?_eq_none_iff.1 e
      exact absurd own (not_fits_of_refusesAll rx.proper pn hx h both)

theorem areDisjoint_comm (rx : x.Regular) (ry : y.Regular) :
    x.areDisjoint y = y.areDisjoint x := by
  have kinds : (y.kind = x.kind || (y.kind.isNumeric && x.kind.isNumeric)) =
      (x.kind = y.kind || (x.kind.isNumeric && y.kind.isNumeric)) :=
    congrArg₂ or (decide_eq_decide.2 eq_comm) (Bool.and_comm _ _)
  unfold areDisjoint
  rw [kinds]
  split
  · rfl
  · rename_i compatible
    cases hx : x.effectiveEnumeration with
    | some members =>
        cases hy : y.effectiveEnumeration with
        | some others =>
            exact Bool.eq_iff_iff.2 ⟨refusesAll_swap rx ry hx hy, refusesAll_swap ry rx hy hx⟩
        | none => rfl
    | none =>
        cases hy : y.effectiveEnumeration with
        | some others => rfl
        | none =>
            have numeric : x.kind.isNumeric = y.kind.isNumeric := by
              simp only [Bool.not_eq_true', Bool.not_eq_false, Bool.or_eq_true, decide_eq_true_eq,
                Bool.and_eq_true] at compatible
              obtain same | ⟨nx, ny⟩ := compatible
              · rw [same]
              · rw [nx, ny]
            dsimp only
            rw [numeric, Bool.or_comm]

end Scalar

namespace Length

theorem areDisjoint_comm (x y : Length) : x.areDisjoint y = y.areDisjoint x := Bool.or_comm _ _

theorem forcesItem_comm (x y : Length) : x.forcesItem y = y.forcesItem x := by
  rw [forcesItem, forcesItem, show ∀ m n : Nat, m.max n = n.max m from Nat.max_comm]

end Length

namespace Schema

variable {a b u : Schema} {branches : List Schema}

/-! ## 1. Unions -/

/-- **A union on the left is disjoint from a schema if all its branches are.** -/
theorem areDisjoint_union_left (union : IsUnion u branches) (some : branches ≠ []) :
    u.areDisjoint b = true ↔ ∀ c ∈ branches, c.areDisjoint b = true := by
  by_cases any : b = .any
  · obtain ⟨c, hc⟩ := List.exists_mem_of_ne_nil branches some
    subst any
    refine iff_of_false (by simp) fun all => ?_
    simpa using all c hc
  · exact union.areDisjoint_iff any

/-- **So is one on the right, if there is none on the left.** -/
theorem areDisjoint_union_right (union : IsUnion u branches) (some : branches ≠ [])
    (atomic : a.IsAtomic) : a.areDisjoint u = true ↔ ∀ c ∈ branches, c.areDisjoint a = true := by
  by_cases any : a = .any
  · obtain ⟨c, hc⟩ := List.exists_mem_of_ne_nil branches some
    subst any
    refine iff_of_false (by simp) fun all => ?_
    simpa using all c hc
  · exact areDisjoint_union_iff union any (not_isUnion (Or.inr atomic))

/-! ## 2. Schemas -/

/-- A schema as the compiler tests them: well formed, and without intersections. -/
structure Testable (s : Schema) : Prop where
  sound : s.Sound
  proper : s.Proper
  free : s.AllOfFree

namespace Testable

theorem of_mem {s t : Schema} (h : s.Testable) (ht : t ∈ s.parts) : t.Testable :=
  ⟨h.sound.of_mem ht, h.proper.of_mem ht, h.free.of_mem ht⟩

/-- A union to be tested has a branch, and its branches can be tested. -/
theorem inside (h : u.Testable) (union : IsUnion u branches) :
    branches ≠ [] ∧ ∀ c ∈ branches, c.Testable ∧ c.size < u.size := by
  refine ⟨?_, fun c hc => ⟨h.of_mem (union.mem_parts hc), union.size_lt hc⟩⟩
  rcases union with rfl | rfl
  · exact h.sound.self
  · exact h.sound.self

end Testable

/-- Schemas without branches, given that the test is symmetric for what is inside. -/
theorem areDisjoint_swap_atomic (ca : a.Testable) (cb : b.Testable) (atomic : a.IsAtomic)
    (atomic' : b.IsAtomic)
    (items : ∀ x length y length', a = .array x length → b = .array y length' →
      x.areDisjoint y = true → y.areDisjoint x = true)
    (h : a.areDisjoint b = true) : b.areDisjoint a = true := by
  by_cases same : OneForm a b
  · cases same with
    | scalars x y =>
        rw [areDisjoint] at h ⊢
        have rx : x.Regular := (ca.sound.regular ca.proper).self
        have ry : y.Regular := (cb.sound.regular cb.proper).self
        rw [Scalar.areDisjoint_comm ry rx]
        exact h
    | objects as rules bs others =>
        -- both sides are asked, one after the other
        rw [areDisjoint] at h ⊢
        rw [Bool.or_comm]
        exact h
    | arrays x length y length' =>
        rw [areDisjoint, Bool.or_eq_true, Bool.and_eq_true] at h ⊢
        rw [Length.areDisjoint_comm length' length, Length.forcesItem_comm length' length]
        exact h.imp_right (And.imp_right (items x length y length' rfl rfl))
  · rcases atomic.cases with rfl | ⟨x, rfl⟩ | ⟨as, rules, rfl⟩ | ⟨x, length, rfl⟩ <;>
      rcases atomic'.cases with rfl | ⟨y, rfl⟩ | ⟨bs, others, rfl⟩ | ⟨y, length', rfl⟩ <;>
      simp_all [areDisjoint]

/-- **What is disjoint one way round is disjoint the other way round.** -/
theorem areDisjoint_swap (ca : a.Testable) (cb : b.Testable) (h : a.areDisjoint b = true) :
    b.areDisjoint a = true := by
  induction hn : a.size + b.size using Nat.strongRecOn generalizing a b with
  | ind n ih =>
      subst hn
      have swap {c d : Schema} (cc : c.Testable) (cd : d.Testable)
          (lt : c.size + d.size < a.size + b.size) (h : c.areDisjoint d = true) :
          d.areDisjoint c = true := ih _ lt cc cd h rfl
      obtain ⟨as, fa⟩ | pa := ca.free.union_or_atomic
      · obtain ⟨someA, as'⟩ := ca.inside fa
        have h := (areDisjoint_union_left fa someA).1 h
        obtain ⟨bs, fb⟩ | pb := cb.free.union_or_atomic
        · obtain ⟨someB, bs'⟩ := cb.inside fb
          refine (areDisjoint_union_left fb someB).2 fun d hd => ?_
          obtain ⟨cd, lt⟩ := bs' d hd
          -- every branch of `a` is disjoint from `d`, by two turns inside `b`, so `a` is
          refine swap ca cd (by omega) ((areDisjoint_union_left fa someA).2 fun c hc => ?_)
          obtain ⟨cc, lt'⟩ := as' c hc
          have turned : b.areDisjoint c = true := swap cc cb (by omega) (h c hc)
          have one : d.areDisjoint c = true := (areDisjoint_union_left fb someB).1 turned d hd
          exact swap cd cc (by omega) one
        · exact (areDisjoint_union_right fa someA pb).2 h
      · obtain ⟨bs, fb⟩ | pb := cb.free.union_or_atomic
        · obtain ⟨someB, -⟩ := cb.inside fb
          exact (areDisjoint_union_left fb someB).2 ((areDisjoint_union_right fb someB pa).1 h)
        · refine areDisjoint_swap_atomic ca cb pa pb ?_ h
          intro x length y length' ea eb
          subst ea eb
          exact swap (ca.of_mem items_mem_parts) (cb.of_mem items_mem_parts)
            (by simp only [size]; omega)

/-- **The test for disjointness gives the same answer both ways.** -/
theorem Testable.areDisjoint_comm (ca : a.Testable) (cb : b.Testable) :
    a.areDisjoint b = b.areDisjoint a :=
  Bool.eq_iff_iff.2 ⟨areDisjoint_swap ca cb, areDisjoint_swap cb ca⟩

end Schema

end TypedPipeline
