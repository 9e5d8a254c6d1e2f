import TypedPipeline.Grammar.Weight
import TypedPipeline.Grammar.Depth
import TypedPipeline.Random.Stream

/-!
# Grammar.Sample: pipelines drawn at random

A sample replaces the leftmost pending name by one of its productions, each as likely as the others,
until no name is left. A derivation that leads nowhere is given up and a new one tried, as often as
the settings allow; all of them draw from one source. What the source is does not matter here: it
gives a number for a range, and itself as it is afterwards (`Draw`). `sampleMany` draws from a
random stream.
-/

namespace TypedPipeline

/-- How a source in some state gives a number below a range. -/
abbrev Draw (σ : Type) := (range : Nat) → σ → Nat × σ

namespace Grammar

variable {σ : Type}

/-- The operator of one random derivation that goes on from a tree, or why it was given up. -/
def deriveAtRandom (g : Grammar) (draw : Draw σ) (bound : Nat) (t : Derivation) (r : σ) :
    Except Failure Operator × σ :=
  match _hl : t.leftmost? with
  | none =>
    match t.operator? with
    | .ok op => (.ok op, r)
    | .error _ => (.error .illTyped, r)
  | some (name, depth) =>
    if (g.productions name).isEmpty then (.error .noProduction, r)
    else
      let drawn := draw (g.productions name).length r
      match _hp : (g.productions name)[drawn.1]? with
      | none => (.error .noProduction, drawn.2)
      | some production =>
        match _hi : Derivation.instantiate bound production depth with
        | .error failure => (.error failure, drawn.2)
        | .ok replacement => deriveAtRandom g draw bound (.fill replacement t) drawn.2
termination_by t.weight g bound
decreasing_by exact Derivation.weight_fill_lt g _hl (List.mem_of_getElem? _hp) _hi

/-- The operator of the first derivation that succeeds, or the count of those that did not. -/
def tryDerivations (g : Grammar) (draw : Draw σ) (bound : Nat) :
    (attempts : Nat) → Tally → σ → Except Tally Operator × σ
  | 0, tally, r => (.error tally, r)
  | attempts + 1, tally, r =>
    match g.deriveAtRandom draw bound (.pending g.start 0) r with
    | (.ok op, r) => (.ok op, r)
    | (.error failure, r) => g.tryDerivations draw bound attempts (tally.record failure) r

/-- A pipeline drawn at random. -/
def sample (g : Grammar) (draw : Draw σ) (settings : ExpansionSettings) (r : σ) :
    Except Fault Operator × σ :=
  match settings.check, g.depthBound settings with
  | .error e, _ => (.error e, r)
  | .ok _, .error e => (.error e, r)
  | .ok _, .ok bound =>
    match g.tryDerivations draw bound settings.attempts {} r with
    | (.ok op, r) => (.ok op, r)
    | (.error tally, r) => (.error (.grammar (.noSample g.start settings.attempts tally)), r)

/-- Pipelines drawn one after the other from a random stream; the first fault ends them. -/
def sampleMany (g : Grammar) (settings : ExpansionSettings) :
    (count : Nat) → RandomStream → Except Fault (List Operator)
  | 0, _ => .ok []
  | count + 1, r =>
    match g.sample RandomStream.nextBelow settings r with
    | (.error e, _) => .error e
    | (.ok op, r) => do return op :: (← g.sampleMany settings count r)

end Grammar

end TypedPipeline
