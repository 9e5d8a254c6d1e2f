import TypedPipeline.Space.Apply
import TypedPipeline.Random.Stream

/-!
# Space.Sample: random samples of a space

This file fixes what is drawn for one dimension (`Domain.draw`, `Dimension.draw`): a number anywhere
in its range, evenly or, on a log scale, evenly in its logarithm; one of the choices; one of the
labels. A sample (`Space.sample`) draws the dimensions in order, and after the choice of a selector
those of the branch it chose.
-/

namespace TypedPipeline

namespace Binary64

/-- The number moved to the nearer end of a range that it lies outside of. A NaN stays. -/
def clamp (x low high : Binary64) : Binary64 :=
  if x.less low then low else if high.less x then high else x

end Binary64

namespace RandomStream

/-- A number in `[0, 1)`. -/
def nextUnit (r : RandomStream) : Binary64 × RandomStream :=
  let (n, r) := r.nextFraction
  (.ofScaled false n (1022 + 52 - 53), r)

/-- A number between two others, as far in as the next number of the stream says. -/
def nextBetween (low high : Binary64) (r : RandomStream) : Binary64 × RandomStream :=
  let (u, r) := r.nextUnit
  ((u.mul (high.sub low)).add low, r)

/-- One of several, each as likely as the others; `none` if there are none. -/
def nextOf {α : Type} (items : List α) (r : RandomStream) : Option α × RandomStream :=
  let (i, r) := r.nextBelow items.length
  (items[i]?, r)

end RandomStream

namespace Domain

/-- A setting drawn from a domain. -/
def draw (d : Domain) (r : RandomStream) : Setting × RandomStream :=
  match d with
  | .float low high logScale =>
    if logScale then
      let (x, r) := r.nextBetween low.log high.log
      (.float (x.exp.clamp low high), r)
    else
      let (x, r) := r.nextBetween low high
      (.float (x.clamp low high), r)
  | .int low high logScale =>
    if logScale then
      let (x, r) := r.nextBetween (Binary64.ofInt low).log ((Binary64.ofInt high).add (.ofInt 1)).log
      (.int (Max.max low (Min.min high x.exp.floor.toInt64)), r)
    else
      let (i, r) := r.nextInt low high
      (.int i, r)
  | .categorical choices =>
    let (choice, r) := r.nextOf choices
    (choice.getD .null, r)
  | .boolean =>
    let (b, r) := r.nextBool
    (.bool b, r)

end Domain

/-- A setting drawn for a dimension; for a selector one of its labels. -/
def Dimension.draw (d : Dimension) (r : RandomStream) : Setting × RandomStream :=
  match d with
  | .plain _ _ domain => domain.draw r
  | .selector _ _ branches =>
    let (label, r) := r.nextOf (branches.map (·.1))
    (match label with
      | some label => .text label
      | none => .null, r)

namespace Space

mutual

/-- Draw the dimensions in order. -/
def sampleDimensions : List Dimension → Sample × RandomStream → Sample × RandomStream
  | [], state => state
  | .plain name _ domain :: rest, (sample, r) =>
    let (setting, r) := domain.draw r
    sampleDimensions rest (sample.put name setting, r)
  | .selector name path branches :: rest, (sample, r) =>
    let (setting, r) := (Dimension.selector name path branches).draw r
    let (sample, r) := sampleBranch setting.asText? branches (sample, r)
    sampleDimensions rest (sample.put name setting, r)

/-- Draw the dimensions of the first branch with the label chosen. -/
def sampleBranch (chosen : Option String) :
    List (String × Frame × List Dimension) → Sample × RandomStream → Sample × RandomStream
  | [], state => state
  | (label, _, dimensions) :: rest, state =>
    if chosen = some label then sampleDimensions dimensions state
    else sampleBranch chosen rest state

end

/-- A random sample of the dimensions that count. -/
def sample (space : Space) (r : RandomStream) : Sample × RandomStream :=
  sampleDimensions space.dimensions ([], r)

end Space

end TypedPipeline
