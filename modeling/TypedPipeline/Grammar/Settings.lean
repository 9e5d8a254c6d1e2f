import TypedPipeline.Fault

/-!
# Grammar.Settings: how grammars are expanded

This file fixes the limits of an expansion, their defaults, and the ranges they have to be in
(`check`).
-/

namespace TypedPipeline

structure ExpansionSettings where
  /-- The deepest node that a derivation may have; `none` sets no bound. -/
  maxDepth : Option Nat := some 6
  /-- The largest number of pipelines. -/
  maxCount : Option Nat := some 1000
  /-- The productions of the start are expanded independently of each other. -/
  isParallel : Bool := false
  /-- The number of derivations that are tried for one sample. -/
  attempts : Nat := 100
  /-- The seed of the stream that samples are drawn from. -/
  seed : Option Nat := some 42
  deriving DecidableEq

def ExpansionSettings.check (s : ExpansionSettings) : Except Fault Unit :=
  if s.attempts = 0 then .error (.setting .noSampleAttempts) else .ok ()

end TypedPipeline
