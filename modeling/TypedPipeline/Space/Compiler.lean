import TypedPipeline.Space.Compile
import TypedPipeline.Schema.Document

/-!
# Space.Compiler: spaces that are compiled once

A compiler keeps the spaces it has made by the name and the document of their schemas, and hands out
the same space again when both are asked for again. This file fixes:

* the key of a space (`Compiler.key`): name and document, kept apart by a character that no document
  contains;
* the request (`Compiler.compile`). Every space that is made carries a ticket of its own, so a space
  that is handed out again is told from an equal one that has been made anew.

A fault is not kept.
-/

namespace TypedPipeline

/-- A space, and the ticket it was made under. -/
structure IssuedSpace where
  space : Space
  ticket : Nat

structure Compiler where
  settings : SpaceSettings
  kept : Keyed IssuedSpace := []
  nextTicket : Nat := 0

namespace Compiler

/-- The name of spaces that are compiled without one. -/
def defaultName : String := "hyperparameters"

def key (name : String) (schema : Schema) : String := name ++ "\x00" ++ schema.text

/-- The space that is kept under a key, if spaces are kept at all. -/
def kept? (c : Compiler) (key : String) : Option IssuedSpace :=
  if c.settings.cached then c.kept.find? key else none

/-- The space of a schema, under a name. -/
def compile (c : Compiler) (name : String) (schema : Schema) :
    Except Fault IssuedSpace × Compiler :=
  let key := key name schema
  match c.kept? key with
  | some issued => (.ok issued, c)
  | none =>
    match compileSpace c.settings name schema with
    | .error e => (.error e, c)
    | .ok space =>
      let issued : IssuedSpace := ⟨space, c.nextTicket⟩
      let kept := if c.settings.cached then c.kept.put key issued else c.kept
      (.ok issued, { c with kept, nextTicket := c.nextTicket + 1 })

def clear (c : Compiler) : Compiler := { c with kept := [] }

end Compiler

end TypedPipeline
