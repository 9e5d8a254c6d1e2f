import TypedPipeline.Json
import TypedPipeline.Path

/-!
# Space.Placement: writing at a place inside a value

The value of a dimension goes to the place that its path describes. This file fixes:

* the write (`place`), which makes the objects and arrays it needs on the way: a value of another
  kind gives way to them, and an array that is too short is filled up with nulls;
* the read (`placed?`) that says what stands at a place.
-/

namespace TypedPipeline

namespace Json

/-- Apply a change to the item at a position of a list that is filled up with nulls. -/
def modifyItem (change : Json → Json) : (position : Nat) → List Json → List Json
  | 0, [] => [change .null]
  | 0, item :: rest => change item :: rest
  | n + 1, [] => .null :: modifyItem change n []
  | n + 1, item :: rest => item :: modifyItem change n rest

/-- Put `value` at a place inside `target`. -/
def place (target : Json) : Path → Json → Json
  | [], value => value
  | .property name :: rest, value =>
    let members := target.asObject?.getD []
    .object (members.put name (place ((members.find? name).getD .null) rest value))
  | .index position :: rest, value =>
    let items := target.asArray?.getD []
    .array (modifyItem (fun item => place item rest value) position items)
  | .items :: rest, value => place target rest value

/-- What stands at a place, if anything does. -/
def placed? (target : Json) : Path → Option Json
  | [] => some target
  | .property name :: rest => (target.member? name).bind fun value => placed? value rest
  | .index position :: rest =>
    (target.asArray?.bind fun items => items[position]?).bind fun value => placed? value rest
  | .items :: rest => placed? target rest

end Json

end TypedPipeline
