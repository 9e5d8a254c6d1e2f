import TypedPipeline.Operator
import TypedPipeline.Json.Shape

/-!
# Operator.Description: the shape of an operator

A description keeps the combinators of an operator and the names of its leaves, and leaves the
signatures out. This file fixes:

* the description of an operator (`Operator.describe`), in which a composite shows its name only if
  it has been given one;
* the written form (`Description.toJson`): an object with the tag `type`, and a name, steps or
  branches;
* its reading (`Description.read?`), from an object with a tag or from an array that begins with
  one. Below the outermost description the tag may also be the position of the alternative.
-/

namespace TypedPipeline

/-- The combinators of an operator and the names of its leaves. -/
inductive Description where
  | leaf (name : String)
  /-- Without a name the composite has the default one. -/
  | composite (combinator : Combinator) (name : Option String) (children : List Description)

instance : Inhabited Description := ⟨.leaf ""⟩

/-! ## 1. Describing -/

namespace Operator

mutual

def describe : Operator → Description
  | .leaf name _ _ => .leaf name
  | .composite name combinator children _ =>
    .composite combinator (if name = combinator.defaultName then none else some name)
      (describeAll children)

def describeAll : List Operator → List Description
  | [] => []
  | child :: rest => child.describe :: describeAll rest

end

end Operator

namespace Description

mutual

/-- The names of the leaves, from left to right. -/
def leafNames : Description → List String
  | .leaf name => [name]
  | .composite _ _ children => leafNamesOf children

def leafNamesOf : List Description → List String
  | [] => []
  | child :: rest => child.leafNames ++ leafNamesOf rest

end

/-! ## 2. The written form -/

/-- The tag of a combination, and the field that holds its children. -/
def combinatorTag : Combinator → String
  | .sequential => "sequential"
  | .choice => "choice"
  | .parallel => "parallel"

def childrenField : Combinator → String
  | .sequential => "steps"
  | .choice | .parallel => "branches"

mutual

def toJson : Description → Json
  | .leaf name => .object (Keyed.ofList [("type", .text "operator"), ("name", .text name)])
  | .composite combinator name children =>
    let shown := match name with
      | some name => [("name", .text name)]
      | none => []
    .object (Keyed.ofList (("type", .text (combinatorTag combinator))
      :: (childrenField combinator, .array (toJsonItems children)) :: shown))

def toJsonItems : List Description → List Json
  | [] => []
  | child :: rest => child.toJson :: toJsonItems rest

end

/-! ## 3. Reading it back -/

/-- The alternatives in their order: a leaf, or a combination. -/
def alternatives : List (String × Option Combinator) :=
  [("operator", none), ("sequential", some .sequential), ("choice", some .choice),
    ("parallel", some .parallel)]

/-- The alternative that a tag names, or whose position it is. -/
def alternative? (byPosition : Bool) : JsonText → Option (Option Combinator)
  | .text (some tag) => (alternatives.find? fun a => a.1 == tag).map (·.2)
  | .number (some n) =>
    if byPosition then n.asNat?.bind fun i => (alternatives[i]?).map (·.2) else none
  | _ => none

/-- A tag, and what it belongs to without it. -/
def tagged? : JsonText → Option (JsonText × JsonText)
  | .object members =>
    match JsonText.named members "type" with
    | [tag] => some (tag, .object (members.filter fun m => m.1 != some "type"))
    | _ => none
  | .array (tag :: fields) => some (tag, .array fields)
  | _ => none

theorem sizeMembers_filter_le (keep : Option String × JsonText → Bool)
    (members : List (Option String × JsonText)) :
    JsonText.sizeMembers (members.filter keep) ≤ JsonText.sizeMembers members := by
  induction members with
  | nil => simp
  | cons head rest ih =>
    obtain ⟨name, value⟩ := head
    by_cases h : keep (name, value) <;> simp [h, JsonText.sizeMembers] <;> omega

theorem size_le_of_tagged? {t tag body : JsonText} (h : tagged? t = some (tag, body)) :
    body.size ≤ t.size := by
  unfold tagged? at h
  split at h
  · rename_i members
    split at h
    · simp only [Option.some.injEq, Prod.mk.injEq] at h
      obtain ⟨_, rfl⟩ := h
      have := sizeMembers_filter_le (fun m => m.1 != some "type") members
      simp only [JsonText.size]; omega
    · simp at h
  · simp only [Option.some.injEq, Prod.mk.injEq] at h
    obtain ⟨_, rfl⟩ := h
    simp [JsonText.size, JsonText.sizeItems]
  · simp at h

def leafFields : List ShapeField := [{ name := "name" }]

def compositeFields (combinator : Combinator) : List ShapeField :=
  [{ name := "name", defaulted := true }, { name := childrenField combinator }]

mutual

/-- The description in a text that has been judged as a value already. -/
def readTagged? (byPosition : Bool) (t : JsonText) : Option Description :=
  match ht : tagged? t with
  | none => none
  | some (tag, body) =>
    have := size_le_of_tagged? ht
    match alternative? byPosition tag with
    | none => none
    | some none =>
      match body.record? leafFields with
      | some [some name] => name.string?.map .leaf
      | _ => none
    | some (some combinator) =>
      match hb : body.record? (compositeFields combinator) with
      | some [name, some children] =>
        match hi : children.items? with
        | none => none
        | some items => do
          have : children.size < body.size := JsonText.size_lt_of_record? hb (by simp)
          have := JsonText.size_lt_of_items? hi
          let name ← JsonText.optional? JsonText.string? name
          return .composite combinator name (← readItems? items)
      | _ => none
termination_by 2 * t.size
decreasing_by omega

def readItems? (items : List JsonText) : Option (List Description) :=
  match items with
  | [] => some []
  | item :: rest => do
    have := item.size_pos
    let child ← readTagged? true item
    return child :: (← readItems? rest)
termination_by 2 * JsonText.sizeItems items + 1
decreasing_by all_goals (simp only [JsonText.sizeItems]; omega)

end

/-- The description in a text, all of which has to make a value. -/
def read? (t : JsonText) : Option Description := do
  let _ ← t.toJson? JsonText.maxLevels
  readTagged? false t

end Description

end TypedPipeline
