import TypedPipeline.Json.Reader

/-!
# Json.Shape: documents of a fixed shape

Settings, catalogs, descriptions and stored spaces are records and alternatives written as JSON. This
file fixes how they are read out of a `JsonText`, so that what a value no longer shows can still be
refused:

* a record (`record?`) is an object with the fields it has, in any order, or an array of them in
  their own order. A field that is given twice is refused, and a name that is no field is passed over;
* an alternative (`variant?`) is its name alone, or an object with that name and its content. Where
  the content has fields of its own, it is an object with these (`namedFields?`), never an array;
* scalars of a kind (`word?`, `signed?`, `double?`, `flag?`, `string?`), where a whole number is
  accepted for a double-precision one but not the other way round;
* an absent value and null both read as nothing (`optional?`).
-/

namespace TypedPipeline

/-- A field of a record. One that may be left out at the end of an array has a default. -/
structure ShapeField where
  name : String
  defaulted : Bool := false

namespace JsonText

/-! ## 1. Records -/

/-- The entries that carry a name. -/
def named (members : List (Option String × JsonText)) (name : String) : List JsonText :=
  (members.filter fun m => m.1 == some name).map (·.2)

/-- The field of an object: at most one entry carries its name. -/
def field? (members : List (Option String × JsonText)) (name : String) :
    Option (Option JsonText) :=
  match named members name with
  | [] => some none
  | [only] => some (some only)
  | _ => none

/-- The fields from the items of an array. -/
def positional? : List ShapeField → List JsonText → Option (List (Option JsonText))
  | [], [] => some []
  | [], _ :: _ => none
  | field :: fields, [] =>
    if field.defaulted then (positional? fields []).map (none :: ·) else none
  | _ :: fields, item :: items => (positional? fields items).map (some item :: ·)

/-- What an object has under the names of the fields, in their order. -/
def namedFields? (fields : List ShapeField) : JsonText → Option (List (Option JsonText))
  | .object members =>
    if members.any (·.1.isNone) then none else fields.mapM fun f => field? members f.name
  | _ => none

/-- What a record has in each of its fields, in their order. -/
def record? (fields : List ShapeField) : JsonText → Option (List (Option JsonText))
  | .array items => positional? fields items
  | t => t.namedFields? fields

/-! ## 2. Alternatives -/

/-- The name of an alternative, and its content if it has any. -/
def variant? : JsonText → Option (String × Option JsonText)
  | .text (some name) => some (name, none)
  | .object [(some name, content)] => some (name, some content)
  | _ => none

/-- An alternative that has no content. -/
def isBare : Option JsonText → Bool
  | none => true
  | some .null => true
  | some _ => false

/-! ## 3. Scalars -/

def string? : JsonText → Option String
  | .text s => s
  | _ => none

def flag? : JsonText → Option Bool
  | .bool b => some b
  | _ => none

def double? : JsonText → Option Binary64
  | .number (some n) => some n.toBinary64
  | _ => none

/-- A signed 64-bit integer. -/
def signed? : JsonText → Option Int
  | .number (some n) => n.asInt64?
  | _ => none

/-- An unsigned 64-bit integer. -/
def word? : JsonText → Option Nat
  | .number (some n) => n.asNat?
  | _ => none

def items? : JsonText → Option (List JsonText)
  | .array items => some items
  | _ => none

/-- Nothing, for an absent value and for null; otherwise what `read` makes of the value. -/
def optional? {α : Type} (read : JsonText → Option α) : Option JsonText → Option (Option α)
  | none => some none
  | some .null => some none
  | some t => (read t).map some

/-! ## 4. Sizes -/

mutual

/-- The number of nodes. -/
def size : JsonText → Nat
  | .array items => 1 + sizeItems items
  | .object members => 1 + sizeMembers members
  | _ => 1

def sizeItems : List JsonText → Nat
  | [] => 0
  | item :: rest => item.size + sizeItems rest

def sizeMembers : List (Option String × JsonText) → Nat
  | [] => 0
  | (_, item) :: rest => item.size + sizeMembers rest

end

theorem size_pos (t : JsonText) : 0 < t.size := by
  cases t <;> simp only [size] <;> omega

/-- The value that is meant, however deep it nests: no text nests deeper than it has nodes. -/
def toValue? (t : JsonText) : Option Json := t.toJson? t.size

theorem size_le_of_mem_items {item : JsonText} {items : List JsonText} (h : item ∈ items) :
    item.size ≤ sizeItems items := by
  induction items with
  | nil => simp at h
  | cons first rest ih =>
    rcases List.mem_cons.1 h with rfl | h
    · simp [sizeItems]
    · have := ih h; simp [sizeItems]; omega

theorem size_le_of_mem_members {name : Option String} {item : JsonText}
    {members : List (Option String × JsonText)} (h : (name, item) ∈ members) :
    item.size ≤ sizeMembers members := by
  induction members with
  | nil => simp at h
  | cons first rest ih =>
    obtain ⟨key, value⟩ := first
    rcases List.mem_cons.1 h with h | h
    · cases h; simp [sizeMembers]
    · have := ih h; simp [sizeMembers]; omega

theorem size_lt_of_items? {t : JsonText} {items : List JsonText} (h : t.items? = some items) :
    sizeItems items < t.size := by
  cases t <;> simp [items?] at h
  subst h
  simp [size]

/-- A member of the results of a map that may fail is the result of a member. -/
theorem mem_of_mapM {α β : Type} {f : α → Option β} {items : List α} {results : List β} {b : β}
    (h : items.mapM f = some results) (hb : b ∈ results) : ∃ a ∈ items, f a = some b := by
  induction items generalizing results with
  | nil => simp_all
  | cons a rest ih =>
    simp only [List.mapM_cons, Option.bind_eq_bind, Option.bind_eq_some_iff, Option.pure_def,
      Option.some.injEq] at h
    obtain ⟨first, hf, others, ho, rfl⟩ := h
    rcases List.mem_cons.1 hb with rfl | hb
    · exact ⟨a, List.mem_cons_self, hf⟩
    · obtain ⟨c, hc, hcb⟩ := ih ho hb
      exact ⟨c, List.mem_cons_of_mem _ hc, hcb⟩

theorem mem_of_field? {members : List (Option String × JsonText)} {name : String} {t : JsonText}
    (h : field? members name = some (some t)) : (some name, t) ∈ members := by
  unfold field? at h
  split at h
  · simp at h
  · rename_i only heq
    simp only [Option.some.injEq] at h
    subst h
    have : only ∈ named members name := by simp [heq]
    simp only [named, List.mem_map, List.mem_filter, beq_iff_eq] at this
    obtain ⟨⟨key, value⟩, ⟨hm, hk⟩, hv⟩ := this
    simp only at hk hv
    subst hk hv
    exact hm
  · simp at h

theorem mem_of_positional? {fields : List ShapeField} {items : List JsonText}
    {parts : List (Option JsonText)} {t : JsonText} (h : positional? fields items = some parts)
    (ht : some t ∈ parts) : t ∈ items := by
  induction fields generalizing items parts with
  | nil => cases items <;> simp_all [positional?]
  | cons field fields ih =>
    cases items with
    | nil =>
      simp only [positional?] at h
      split at h
      · obtain ⟨rest, hr, rfl⟩ := Option.map_eq_some_iff.1 h
        have := ih hr (by simpa using ht)
        simp at this
      · simp at h
    | cons item items =>
      simp only [positional?] at h
      obtain ⟨rest, hr, rfl⟩ := Option.map_eq_some_iff.1 h
      rcases List.mem_cons.1 ht with ht | ht
      · simp only [Option.some.injEq] at ht
        subst ht
        exact List.mem_cons_self
      · exact List.mem_cons_of_mem _ (ih hr ht)

/-- What an object has under the names of fields is smaller than the object. -/
theorem size_lt_of_namedFields? {fields : List ShapeField} {t part : JsonText}
    {parts : List (Option JsonText)} (h : t.namedFields? fields = some parts)
    (hp : some part ∈ parts) : part.size < t.size := by
  cases t with
  | object members =>
    simp only [namedFields?] at h
    split at h
    · simp at h
    · obtain ⟨f, _, hf⟩ := mem_of_mapM h hp
      have := size_le_of_mem_members (mem_of_field? hf)
      simp only [size]; omega
  | _ => simp [namedFields?] at h

/-- What a record holds is smaller than the record. -/
theorem size_lt_of_record? {fields : List ShapeField} {t part : JsonText}
    {parts : List (Option JsonText)} (h : t.record? fields = some parts) (hp : some part ∈ parts) :
    part.size < t.size := by
  cases t with
  | array items =>
    have := size_le_of_mem_items (mem_of_positional? h hp)
    simp only [size]; omega
  | _ =>
    simp only [record?] at h
    exact size_lt_of_namedFields? h hp

/-- The content of an alternative is smaller than the alternative. -/
theorem size_lt_of_variant? {t content : JsonText} {name : String}
    (h : t.variant? = some (name, some content)) : content.size < t.size := by
  unfold variant? at h
  split at h
  · simp at h
  · simp only [Option.some.injEq, Prod.mk.injEq] at h
    obtain ⟨_, rfl⟩ := h
    simp [size, sizeMembers]
  · simp at h

end JsonText

end TypedPipeline
