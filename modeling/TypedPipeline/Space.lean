import TypedPipeline.Space.Setting
import TypedPipeline.Schema

/-!
# Space: search spaces

A search space lists the dimensions an optimizer gives values to. A dimension is plain, with a domain
of its own, or it is a selector between branches, each of which is a space whose dimensions count
only if the selector chooses it. This file fixes:

* the domains (`Domain`), the dimensions (`Dimension`) and the spaces (`Space`);
* the names of dimensions, made from their places (`dimensionName`);
* the list of all dimensions, a selector before those of its branches (`Space.allDimensions`).
-/

namespace TypedPipeline

/-- The values of a plain dimension. -/
inductive Domain where
  | float (low high : Binary64) (logScale : Bool)
  | int (low high : Int) (logScale : Bool)
  | categorical (choices : List Setting)
  | boolean

/-- What a space is beside its dimensions: its name, which faults report; the part of every value
    that is fixed; the schema it comes from; and that schema without its intersections. -/
structure Frame where
  name : String
  skeleton : Option Json
  schema : Schema
  domain : Schema

/-- One dimension: a value of a domain, or the choice between labelled branches. -/
inductive Dimension where
  | plain (name : String) (path : Path) (domain : Domain)
  | selector (name : String) (path : Path) (branches : List (String × Frame × List Dimension))

/-- A search space. -/
structure Space where
  frame : Frame
  dimensions : List Dimension

/-- A labelled branch of a selector. -/
abbrev Branch := String × Frame × List Dimension

namespace Branch

def label (branch : Branch) : String := branch.1

def space (branch : Branch) : Space := ⟨branch.2.1, branch.2.2⟩

end Branch

namespace Dimension

def name : Dimension → String
  | .plain name _ _ => name
  | .selector name _ _ => name

def path : Dimension → Path
  | .plain _ path _ => path
  | .selector _ path _ => path

def isSelector : Dimension → Bool
  | .plain _ _ _ => false
  | .selector _ _ _ => true

/-- The branch of a selector that carries a label; the first one, if there are several. -/
def branch? (d : Dimension) (label : String) : Option Branch :=
  match d with
  | .plain _ _ _ => none
  | .selector _ _ branches => branches.find? fun b => b.1 == label

end Dimension

/-! ## 1. Names -/

/-- The name of a selector at the root. -/
def rootSelector : String := "choice"

def segmentName : Segment → String
  | .property name => name
  | .index position => toString position
  | .items => "[]"

/-- The name of a dimension at a place: the steps to it, joined by points. -/
def dimensionName (path : Path) : String :=
  if path = [] then rootSelector else String.intercalate "." (path.map segmentName)

/-! ## 2. All dimensions -/

namespace Dimension

mutual

/-- The dimension, then those of its branches. -/
def withNested : Dimension → List Dimension
  | .plain name path domain => [.plain name path domain]
  | .selector name path branches => .selector name path branches :: nestedBranches branches

def nestedList : List Dimension → List Dimension
  | [] => []
  | d :: rest => withNested d ++ nestedList rest

def nestedBranches : List (String × Frame × List Dimension) → List Dimension
  | [] => []
  | (_, _, dimensions) :: rest => nestedList dimensions ++ nestedBranches rest

end

end Dimension

namespace Space

/-- Every dimension, those of all branches included. -/
def allDimensions (space : Space) : List Dimension := Dimension.nestedList space.dimensions

/-- The first dimension of a name, in any branch. -/
def find? (space : Space) (name : String) : Option Dimension :=
  space.allDimensions.find? fun d => d.name == name

/-- The names of the dimensions outside of branches. -/
def names (space : Space) : List String := space.dimensions.map (·.name)

end Space

end TypedPipeline
