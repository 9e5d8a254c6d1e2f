import TypedPipeline.Space.Points
import TypedPipeline.Space.Settings

/-!
# Space.Grid: samples in rows

A grid is one combination of the branches that selectors choose, together with the plain dimensions
that count under it. This file fixes:

* the number of combinations (`Space.gridCount`), which stops at the largest 64-bit number, and the
  combination of a number (`Space.gridAt`), earlier selectors varying slowest;
* the samples of one combination (`Grid.samples`): the product of its dimensions' points, later
  dimensions varying fastest;
* the enumeration (`Space.grid`): the samples of the combinations that are kept, spread evenly over
  all of them, cut off at the largest size. There is no grid if the settings are out of range, or if
  the points of a combination that it comes to cannot be made (`NoGrid`).

Memory is taken to be as large as lists can be: that it may run out earlier is not modelled.
-/

namespace TypedPipeline

/-- The largest count. -/
def maxCount : Nat := 2 ^ 64 - 1

def addCount (a b : Nat) : Nat := Nat.min (a + b) maxCount

def mulCount (a b : Nat) : Nat := Nat.min (a * b) maxCount

/-! ## 1. Counting combinations -/

namespace Dimension

mutual

/-- The number of ways in which a dimension chooses between branches. -/
def choiceCount : Dimension → Nat
  | .plain _ _ _ => 1
  | .selector _ _ branches => sumCounts branches

/-- The number of combinations of the dimensions' choices. -/
def productCount : List Dimension → Nat
  | [] => 1
  | d :: rest => mulCount (choiceCount d) (productCount rest)

/-- The number of combinations in all branches together. -/
def sumCounts : List (String × Frame × List Dimension) → Nat
  | [] => 0
  | (_, _, dimensions) :: rest => addCount (productCount dimensions) (sumCounts rest)

end

end Dimension

/-- A plain dimension, with its domain. -/
structure PlainDimension where
  name : String
  path : Path
  domain : Domain

def PlainDimension.toDimension (p : PlainDimension) : Dimension := .plain p.name p.path p.domain

/-- A combination of branches: the selectors with the labels they choose, and the plain dimensions
    that count, both in order. -/
structure Grid where
  selections : List (String × String)
  plain : List PlainDimension

namespace Grid

def empty : Grid := ⟨[], []⟩

def append (a b : Grid) : Grid := ⟨a.selections ++ b.selections, a.plain ++ b.plain⟩

end Grid

namespace Space

def gridCount (space : Space) : Nat := Dimension.productCount space.dimensions

mutual

/-- The combination of a number. Each selector reads its digit in the system that the counts of the
    later dimensions make. -/
def decodeDimensions : List Dimension → (index : Nat) → Grid
  | [], _ => .empty
  | .plain name path domain :: rest, index =>
    Grid.append ⟨[], [⟨name, path, domain⟩]⟩ (decodeDimensions rest index)
  | .selector name _ branches :: rest, index =>
    let stride := Dimension.productCount rest
    Grid.append (decodeBranch name branches (index / stride)) (decodeDimensions rest (index % stride))

/-- The branch that a digit falls into, counting through the combinations of one after the other; the
    last one takes what is left. -/
def decodeBranch (selector : String) :
    List (String × Frame × List Dimension) → (digit : Nat) → Grid
  | [], _ => .empty
  | [(label, _, dimensions)], digit =>
    Grid.append ⟨[(selector, label)], []⟩ (decodeDimensions dimensions digit)
  | (label, _, dimensions) :: next :: rest, digit =>
    let count := Dimension.productCount dimensions
    if digit < count then
      Grid.append ⟨[(selector, label)], []⟩ (decodeDimensions dimensions digit)
    else decodeBranch selector (next :: rest) (digit - count)

end

/-- The combination of a number; earlier selectors vary slowest. -/
def gridAt (space : Space) (index : Nat) : Grid := decodeDimensions space.dimensions index

end Space

/-! ## 2. Samples of a combination -/

namespace Grid

/-- Making the points of some dimension breaks down. -/
def breaksDown (g : Grid) (count : Nat) : Bool := g.plain.any fun p => p.domain.breaksDown count

/-- The number of points of a grid, for which those of every dimension are made. -/
def size? (g : Grid) (count : Nat) : Option Nat :=
  if g.breaksDown count then none
  else some (g.plain.foldl (fun n p => mulCount n (p.domain.pointCount count)) 1)

/-- Samples, each with a name set to each of the settings in turn, no more than `limit`. Of the
    samples, as many are looked at as can fill it. -/
def extend (name : String) (settings : List Setting) (limit : Nat) (samples : List Sample) :
    List Sample :=
  ((samples.take (limit / settings.length + 1)).flatMap fun s =>
    settings.map fun setting => s.put name setting).take limit

/-- The samples of a grid, no more than `limit`. No more points than that are needed of any
    dimension. -/
def samples (g : Grid) (count limit : Nat) : List Sample :=
  let chosen : Sample := g.selections.foldl (fun s p => s.put p.1 (.text p.2)) []
  g.plain.foldl (fun samples p => extend p.name (p.domain.firstPoints count limit) limit samples)
    [chosen]

theorem length_flatMap_of_length {α β : Type} {f : α → List β} {n : Nat}
    (h : ∀ a, (f a).length = n) (items : List α) :
    (items.flatMap f).length = items.length * n := by
  induction items with
  | nil => simp
  | cons a rest ih => simp [h, ih, Nat.add_mul, Nat.add_comm]

end Grid

/-! ## 3. Enumeration -/

/-- How many of `total` combinations are kept. -/
def keptCount (total : Nat) : Option KeptGrids → Nat
  | none => total
  | some (.fraction f) => Nat.min (Nat.max (f.mul (.ofNat total)).ceil.toUInt64 1) total
  | some (.count n) => Nat.min n total

/-- The number of the `i`-th of `kept` combinations spread evenly over `total`. -/
def spreadIndex (i kept total : Nat) : Nat := if kept = total then i else i * total / kept

/-- Why there is no grid. -/
inductive NoGrid where
  /-- The settings are out of range. -/
  | fault (e : Fault)
  /-- The points of a dimension cannot be made. This is no fault that is reported: the program ends
      there. -/
  | breakdown

namespace Space

/-- The samples of the combinations from the `i`-th kept one on, `left` of them, no more than `room`
    samples. All points of a combination are made before its samples are cut off, but a combination for
    which there is no room is not looked at. -/
def gridFrom (space : Space) (count kept total : Nat) :
    (left i room : Nat) → Except NoGrid (List Sample)
  | 0, _, _ => .ok []
  | left + 1, i, room =>
    if room = 0 then .ok []
    else
      let g := space.gridAt (spreadIndex i kept total)
      if g.breaksDown count then .error .breakdown
      else do
        let found := g.samples count room
        return found ++ (← space.gridFrom count kept total left (i + 1) (room - found.length))

/-- The samples of a grid. -/
def grid (space : Space) (settings : SpaceSettings) : Except NoGrid (List Sample) :=
  match settings.check with
  | .error e => .error (.fault e)
  | .ok _ =>
    let total := space.gridCount
    let kept := keptCount total settings.keptGrids
    space.gridFrom settings.gridPoints kept total kept 0 settings.maxGridSize

end Space

end TypedPipeline
