import TypedPipeline.Fault

/-!
# Space.Settings: how spaces are compiled and enumerated

This file fixes the settings, their defaults, and the ranges they have to be in (`check`).
-/

namespace TypedPipeline

/-- How many combinations of branches to keep. -/
inductive KeptGrids where
  /-- A fraction of them, between zero and one, ends excluded. -/
  | fraction (value : Binary64)
  | count (value : Nat)
  deriving DecidableEq

structure SpaceSettings where
  /-- The number of points on a numeric dimension of a grid. -/
  gridPoints : Nat := 5
  /-- The largest number of configurations a grid may have. -/
  maxGridSize : Nat := 10000
  /-- The combinations of branches to keep; `none` keeps them all. -/
  keptGrids : Option KeptGrids := none
  /-- A branch of a union without a domain is dropped; otherwise it is a fault. -/
  dropBranches : Bool := true
  /-- Spaces are kept by name and schema. -/
  cached : Bool := true
  deriving DecidableEq

namespace SpaceSettings

def check (s : SpaceSettings) : Except Fault Unit :=
  if s.gridPoints = 0 then .error (.setting .noGridPoints)
  else if s.maxGridSize = 0 then .error (.setting .noGridSize)
  else match s.keptGrids with
    | some (.fraction f) =>
      if Binary64.zero.less f && f.less (.ofInt 1) then .ok ()
      else .error (.setting (.keptFraction f))
    | some (.count 0) => .error (.setting .noKeptGrids)
    | some (.count _) | none => .ok ()

end SpaceSettings

end TypedPipeline
