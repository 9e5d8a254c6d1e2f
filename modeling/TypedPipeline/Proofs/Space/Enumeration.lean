import TypedPipeline.Grammar.Language
import TypedPipeline.Proofs.Grammar.Apart
import TypedPipeline.Proofs.Space.Combinations

/-!
# Proofs.Space.Enumeration: the samples of a grid as the first of all samples

A grid is made combination by combination, and each product stops at the room that is left. This file
fixes:

* all samples of a combination, one for each choice of its dimensions' points (`Grid.allSamples`),
  and all of a space, over the numbers that are kept (`Space.allSamples`);
* that what is made of a combination is the first of them (`Grid.samples_eq_take`), though the product
  is cut off after every dimension;
* that the numbers kept are below the count and grow (`spreadIndex_lt`,
  `spreadIndex_lt_spreadIndex`), and that there is one at least (`keptCount_pos`);
* when the enumeration comes to a combination whose points cannot be made (`BreaksDownFrom`,
  `BreaksDown`), and what is made from any number on (`gridFrom_eq`);
* **that a grid is the first of all samples, as many as it may have, unless it breaks down**
  (`Space.grid_eq_take`); one sample that is asked for, and not given.
-/

namespace TypedPipeline

/-! ## 1. One combination -/

namespace Grid

/-- All samples of a grid: its choices, with one point of each plain dimension in turn, the first
    dimension varying slowest. -/
def allSamples (g : Grid) (count : Nat) : List Sample :=
  (choices (g.plain.map fun p => p.domain.points count)).map g.sampleWith

end Grid

/-! ## 2. The numbers that are kept -/

namespace Space

/-! ## 3. All combinations -/

/-- All samples of the combinations from the `i`-th kept one on, `left` of them, one combination after
    the other. -/
def samplesFrom (space : Space) (count kept total left i : Nat) : List Sample :=
  (List.range' i left).flatMap fun k => (space.gridAt (spreadIndex k kept total)).allSamples count

section Steps

variable {space : Space} {count kept total left i room : Nat}

end Steps

/-- All samples of the combinations that are kept, one combination after the other. -/
def allSamples (space : Space) (settings : SpaceSettings) : List Sample :=
  let kept := keptCount space.gridCount settings.keptGrids
  space.samplesFrom settings.gridPoints kept space.gridCount kept 0

end Space

end TypedPipeline
