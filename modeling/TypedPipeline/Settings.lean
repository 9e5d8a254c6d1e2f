import TypedPipeline.Space.Settings
import TypedPipeline.Grammar.Settings
import TypedPipeline.Json.Shape
import TypedPipeline.Json.Writer

/-!
# Settings: everything that can be set, in one document

This file fixes the document that holds the settings: how they are written (`Settings.document`,
`Settings.saved`), read (`Settings.read?`) and loaded from the text of a file (`Settings.load`). A
section that is absent has its defaults; inside a section a field may be absent only if it may be
null.
-/

namespace TypedPipeline

structure Settings where
  space : SpaceSettings := {}
  expansion : ExpansionSettings := {}
  deriving DecidableEq

/-! ## 1. Writing -/

/-- A count, or null for none. -/
def countDocument : Option Nat → Json
  | some n => .nat n
  | none => .null

def KeptGrids.document : KeptGrids → Json
  | .fraction value => .object [("Fraction", .float value)]
  | .count value => .object [("Count", .nat value)]

def SpaceSettings.document (s : SpaceSettings) : Json :=
  .object [("grid_points", .nat s.gridPoints), ("max_grid_size", .nat s.maxGridSize),
    ("keep_grids", (s.keptGrids.map KeptGrids.document).getD .null),
    ("drop_uncompilable_branches", .bool s.dropBranches), ("cache_enabled", .bool s.cached)]

def ExpansionSettings.document (s : ExpansionSettings) : Json :=
  .object [("max_depth", countDocument s.maxDepth), ("max_count", countDocument s.maxCount),
    ("parallel", .bool s.isParallel), ("sample_attempts", .nat s.attempts),
    ("seed", countDocument s.seed)]

/-- The document of settings, its fields in a fixed order. -/
def Settings.document (s : Settings) : Json :=
  .object [("compiler", s.space.document), ("expansion", s.expansion.document)]

/-- The text that settings are saved as. -/
def Settings.saved (s : Settings) : String := s.document.pretty

/-! ## 2. Reading -/

open JsonText

def KeptGrids.read? (t : JsonText) : Option KeptGrids := do
  match ← t.variant? with
  | ("Fraction", some content) => return .fraction (← content.double?)
  | ("Count", some content) => return .count (← content.word?)
  | _ => none

def spaceSettingsFields : List ShapeField :=
  [{ name := "grid_points" }, { name := "max_grid_size" }, { name := "keep_grids" },
    { name := "drop_uncompilable_branches" }, { name := "cache_enabled" }]

def SpaceSettings.read? (t : JsonText) : Option SpaceSettings := do
  match ← t.record? spaceSettingsFields with
  | [some gridPoints, some maxGridSize, keptGrids, some dropBranches, some cached] =>
    return {
      gridPoints := ← gridPoints.word?
      maxGridSize := ← maxGridSize.word?
      keptGrids := ← optional? KeptGrids.read? keptGrids
      dropBranches := ← dropBranches.flag?
      cached := ← cached.flag? }
  | _ => none

def expansionSettingsFields : List ShapeField :=
  [{ name := "max_depth" }, { name := "max_count" }, { name := "parallel" },
    { name := "sample_attempts" }, { name := "seed" }]

def ExpansionSettings.read? (t : JsonText) : Option ExpansionSettings := do
  match ← t.record? expansionSettingsFields with
  | [maxDepth, maxCount, some isParallel, some attempts, seed] =>
    return {
      maxDepth := ← optional? word? maxDepth
      maxCount := ← optional? word? maxCount
      isParallel := ← isParallel.flag?
      attempts := ← attempts.word?
      seed := ← optional? word? seed }
  | _ => none

/-- A section that is there is read; one that is not has its defaults. -/
def readSection? {α : Type} (read : JsonText → Option α) (usual : α) : Option JsonText → Option α
  | some t => read t
  | none => some usual

def settingsFields : List ShapeField :=
  [{ name := "compiler", defaulted := true }, { name := "expansion", defaulted := true }]

def Settings.read? (t : JsonText) : Option Settings := do
  match ← t.record? settingsFields with
  | [space, expansion] =>
    return {
      space := ← readSection? SpaceSettings.read? {} space
      expansion := ← readSection? ExpansionSettings.read? {} expansion }
  | _ => none

/-! ## 3. Loading -/

/-- Every setting is in its range; those of spaces are looked at first. -/
def Settings.check (s : Settings) : Except Fault Unit := do
  s.space.check
  s.expansion.check

/-- The settings in a file, which is `none` if it is not there. -/
def Settings.load (file : Option String) : Except Fault Settings :=
  match file with
  | none => .error .missingFile
  | some content =>
    match (JsonText.parse? content).bind Settings.read? with
    | none => .error .unreadable
    | some settings => do
      settings.check
      return settings

end TypedPipeline
