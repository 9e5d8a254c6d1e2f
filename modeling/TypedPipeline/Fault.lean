import TypedPipeline.Schema.WellFormed
import TypedPipeline.Schema.Subsumption

/-!
# Fault: everything that can go wrong

A fault is a cause with the place or the names that belong to it. This file fixes the causes that no
module further down has fixed, gathers them all (`Fault`), and says how each is worded
(`Fault.text`).
-/

namespace TypedPipeline

/-- Where refused hyperparameters come from. -/
inductive Origin where
  /-- They were written by hand. -/
  | user
  /-- They are a sample outside the domains it was to be drawn from. -/
  | optimizer
  /-- They are a sample inside its domains that breaks a constraint between them. -/
  | constraint
  deriving DecidableEq

def Origin.text : Origin → String
  | .user => "user error"
  | .optimizer => "optimizer contract violation"
  | .constraint => "constraint violation"

/-- Why a schema has no domain to sample from. -/
inductive Unbounded where
  | unconstrained
  | openLength
  | overlap (first second : Nat)
  | noBranch
  | freeText
  | missingBound
  | emptyRange (low high : Binary64)
  | noMember

def Unbounded.text : Unbounded → String
  | .unconstrained => "unconstrained value has no search domain"
  | .openLength => "only fixed-length arrays have a search domain"
  | .overlap first second => s!"oneOf branches {first} and {second} may overlap"
  | .noBranch => "no branch has a search domain"
  | .freeText => "string without enum has no search domain"
  | .missingBound =>
    "numeric range needs both bounds or minimumForOptimizer/maximumForOptimizer"
  | .emptyRange low high => s!"empty range [{low.messageText}, {high.messageText}]"
  | .noMember => "no enum member satisfies the schema"

/-- The number of derivations of each outcome. -/
structure Tally where
  yielded : Nat := 0
  tooDeep : Nat := 0
  noProduction : Nat := 0
  illTyped : Nat := 0
  deriving DecidableEq

def Tally.failures (t : Tally) : Nat := t.tooDeep + t.noProduction + t.illTyped

/-- Why a grammar yields no pipeline. -/
inductive GrammarFault where
  | noProductions (start : String)
  | undefined (production name missing : String)
  | noDerivation (start : String) (tally : Tally)
  | noSample (start : String) (attempts : Nat) (tally : Tally)
  | leftUnexpanded (name : String)

def GrammarFault.text : GrammarFault → String
  | .noProductions start => "start symbol '" ++ start ++ "' has no productions"
  | .undefined production name missing =>
    "production " ++ production ++ " of '" ++ name ++ "' references undefined nonterminal '"
      ++ missing ++ "'"
  | .noDerivation start t =>
    "no pipeline derived from '" ++ start ++ "': "
      ++ s!"{t.tooDeep} branches exceeded the depth bound, {t.noProduction} reached nonterminals without productions, {t.illTyped} were ill-typed"
  | .noSample start attempts t =>
    "no pipeline sampled from '" ++ start ++ "' "
      ++ s!"in {attempts} attempts ({t.tooDeep} too deep, {t.noProduction} without productions, {t.illTyped} ill-typed)"
  | .leftUnexpanded name => "nonterminal '" ++ name ++ "' left unexpanded"

/-- A setting out of range. -/
inductive SettingFault where
  | noGridPoints
  | noGridSize
  | keptFraction (fraction : Binary64)
  | noKeptGrids
  | noOperatorName
  | noSampleAttempts

def SettingFault.text : SettingFault → String
  | .noGridPoints => "grid_points must be at least 1"
  | .noGridSize => "max_grid_size must be at least 1"
  | .keptFraction fraction =>
    s!"keep_grids fraction must be in (0, 1), got {fraction.messageText}"
  | .noKeptGrids => "keep_grids count must be at least 1"
  | .noOperatorName => "operator name must not be empty"
  | .noSampleAttempts => "sample_attempts must be at least 1"

/-- Everything that can go wrong. -/
inductive Fault where
  | malformed (e : Malformed)
  | mismatch (e : Mismatch)
  | hyperparameters (operator : String) (origin : Origin) (e : Invalid)
  | invalid (e : Invalid)
  | unbounded (path : Path) (reason : Unbounded)
  | grammar (e : GrammarFault)
  | unboundedRecursion (nonterminal : String)
  | emptyComposition (combinator : String)
  | operatorNotFound (name : String)
  | duplicateOperator (name : String)
  | setting (e : SettingFault)
  /-- A file is not there. -/
  | missingFile
  /-- A document does not have the shape asked for. -/
  | unreadable

namespace Fault

/-- The wording of the operating system for a file that is not there. -/
def missingFileText : String := "No such file or directory (os error 2)"

def text : Fault → String
  | .malformed e => s!"Malformed schema at {e.path.text}: {e.reason.text}"
  | .mismatch e => e.text
  | .hyperparameters operator origin e =>
    s!"Hyperparameter validation failed for {operator} ({origin.text}): {e.text}"
  | .invalid e => s!"Invalid value: {e.text}"
  | .unbounded path reason => s!"Unbounded domain at {path.text}: {reason.text}"
  | .grammar e => s!"Grammar expansion error: {e.text}"
  | .unboundedRecursion nonterminal =>
    "Unbounded recursion: nonterminal '" ++ nonterminal
      ++ "' is reachable from itself and no depth bound was given"
  | .emptyComposition combinator => s!"Empty composition: {combinator} needs at least one child"
  | .operatorNotFound name => s!"Operator not found: {name}"
  | .duplicateOperator name => s!"Duplicate operator: {name}"
  | .setting e => s!"Configuration error: {e.text}"
  | .missingFile => s!"IO error: {missingFileText}"
  | .unreadable => "Serialization error"

/-- The place that a fault points at, if it points at one. -/
def path? : Fault → Option Path
  | .malformed e => some e.path
  | .mismatch e => some e.path
  | .hyperparameters _ _ e => some e.path
  | .invalid e => some e.path
  | .unbounded path _ => some path
  | _ => none

end Fault

end TypedPipeline
