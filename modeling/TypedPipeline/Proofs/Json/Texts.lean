import TypedPipeline.Json.Shape
import TypedPipeline.Proofs.Keyed
import TypedPipeline.Proofs.Json.Agreement

/-!
# Proofs.Json.Texts: values as texts, and back

A text may repeat names and order them at will; a value may not. This file fixes:

* the values that are listed in order at every depth (`Json.Ordered`), which proper values are;
* **that such a value is what its text means** (`toValue?_ofJson`);
* the fields of an object written as a text, which are its members (`record?_ofJson`).
-/

namespace TypedPipeline

namespace Json

/-! ## 1. Order -/

mutual

/-- The names of every object inside ascend. -/
def Ordered : Json → Prop
  | .array items => OrderedItems items
  | .object members => Keyed.Ascending members ∧ OrderedMembers members
  | _ => True

def OrderedItems : List Json → Prop
  | [] => True
  | item :: rest => item.Ordered ∧ OrderedItems rest

def OrderedMembers : List (String × Json) → Prop
  | [] => True
  | (_, value) :: rest => value.Ordered ∧ OrderedMembers rest

end

theorem orderedItems_iff {items : List Json} :
    OrderedItems items ↔ ∀ item ∈ items, item.Ordered := by
  induction items with
  | nil => simp [OrderedItems]
  | cons item rest ih => simp [OrderedItems, ih]

theorem orderedMembers_iff {members : List (String × Json)} :
    OrderedMembers members ↔ ∀ m ∈ members, m.2.Ordered := by
  induction members with
  | nil => simp [OrderedMembers]
  | cons m rest ih => obtain ⟨name, value⟩ := m; simp [OrderedMembers, ih]

mutual

theorem Proper.ordered : ∀ {v : Json}, v.Proper → v.Ordered
  | .null, _ => trivial
  | .bool _, _ => trivial
  | .number _, _ => trivial
  | .text _, _ => trivial
  | .array _, h => ProperItems.ordered h
  | .object _, h => ⟨h.1, ProperMembers.ordered h.2⟩

theorem ProperItems.ordered : ∀ {items : List Json}, ProperItems items → OrderedItems items
  | [], _ => trivial
  | _ :: _, h => ⟨h.1.ordered, ProperItems.ordered h.2⟩

theorem ProperMembers.ordered : ∀ {members : List (String × Json)}, ProperMembers members →
    OrderedMembers members
  | [], _ => trivial
  | _ :: _, h => ⟨h.1.ordered, ProperMembers.ordered h.2⟩

end

end Json

namespace JsonText

/-! ## 2. Values -/

mutual

/-- The text of a value means the value, if it may nest as deep as it has nodes. -/
theorem toJson?_ofJson : ∀ {v : Json} {levels : Nat}, v.Ordered → (ofJson v).size ≤ levels →
    (ofJson v).toJson? levels = some v
  | .null, _, _, _ => rfl
  | .bool _, _, _, _ => rfl
  | .number _, _, _, _ => rfl
  | .text _, _, _, _ => rfl
  | .array items, levels, h, room => by
      simp only [ofJson, size] at room
      rw [ofJson, toJson?, if_neg (by omega), itemsToJson?_ofItems h (by omega)]
      rfl
  | .object members, levels, h, room => by
      simp only [ofJson, size] at room
      rw [ofJson, toJson?, if_neg (by omega), membersToJson?_ofMembers h.2 (by omega),
        Option.map_some, Keyed.ofList_of_ascending h.1]

theorem itemsToJson?_ofItems : ∀ {items : List Json} {levels : Nat}, Json.OrderedItems items →
    sizeItems (ofItems items) ≤ levels → itemsToJson? levels (ofItems items) = some items
  | [], _, _, _ => rfl
  | item :: rest, levels, h, room => by
      simp only [ofItems, sizeItems] at room
      rw [ofItems, itemsToJson?, toJson?_ofJson h.1 (by omega), itemsToJson?_ofItems h.2 (by omega)]
      rfl

theorem membersToJson?_ofMembers : ∀ {members : List (String × Json)} {levels : Nat},
    Json.OrderedMembers members → sizeMembers (ofMembers members) ≤ levels →
    membersToJson? levels (ofMembers members) = some members
  | [], _, _, _ => rfl
  | (name, value) :: rest, levels, h, room => by
      simp only [ofMembers, sizeMembers] at room
      rw [ofMembers, membersToJson?, toJson?_ofJson h.1 (by omega),
        membersToJson?_ofMembers h.2 (by omega)]
      rfl

end

/-- **A value in order is what its text means.** -/
theorem toValue?_ofJson {v : Json} (h : v.Ordered) : (ofJson v).toValue? = some v :=
  toJson?_ofJson h (Nat.le_refl _)

/-! ## 3. Fields -/

theorem ofItems_eq_map (items : List Json) : ofItems items = items.map ofJson := by
  induction items with
  | nil => rfl
  | cons item rest ih => rw [ofItems, ih, List.map_cons]

theorem items?_ofJson (items : List Json) :
    (ofJson (.array items)).items? = some (items.map ofJson) := by
  rw [ofJson, items?, ofItems_eq_map]

theorem ofMembers_eq_map (members : List (String × Json)) :
    ofMembers members = members.map fun m => (some m.1, ofJson m.2) := by
  induction members with
  | nil => rfl
  | cons m rest ih => obtain ⟨name, value⟩ := m; rw [ofMembers, ih, List.map_cons]

theorem named_ofMembers_eq_nil {members : Keyed Json} {name : String}
    (h : name ∉ members.names) : named (ofMembers members) name = [] := by
  rw [named, List.map_eq_nil_iff, List.filter_eq_nil_iff, ofMembers_eq_map]
  intro m hm
  obtain ⟨e, he, rfl⟩ := List.mem_map.1 hm
  have ne : e.1 ≠ name := fun e' => h (e' ▸ List.mem_map_of_mem he)
  simpa using ne

theorem field?_ofMembers {members : Keyed Json} (distinct : members.names.Nodup) (name : String) :
    field? (ofMembers members) name = some ((members.find? name).map ofJson) := by
  suffices h : named (ofMembers members) name = ((members.find? name).map ofJson).toList by
    rw [field?, h]
    cases members.find? name <;> rfl
  induction members with
  | nil => rfl
  | cons m rest ih =>
      obtain ⟨key, value⟩ := m
      obtain ⟨fresh, distinct⟩ := List.nodup_cons.1 distinct
      by_cases e : key = name
      · subst e
        have later := named_ofMembers_eq_nil fresh
        rw [named] at later
        rw [ofMembers, named, List.filter_cons_of_pos (by simp), List.map_cons, later,
          Keyed.find?_cons, if_pos rfl]
        rfl
      · have ih := ih distinct
        rw [named] at ih
        rw [ofMembers, named, List.filter_cons_of_neg (by simpa using e), ih, Keyed.find?_cons,
          if_neg e]

/-- What an object has under the names of fields. -/
theorem namedFields?_ofJson {members : Keyed Json} (distinct : members.names.Nodup)
    (fields : List ShapeField) :
    (ofJson (.object members)).namedFields? fields =
      some (fields.map fun f => (members.find? f.name).map ofJson) := by
  have written : (ofMembers members).any (·.1.isNone) = false := by
    rw [List.any_eq_false, ofMembers_eq_map]
    intro m hm
    obtain ⟨e, _, rfl⟩ := List.mem_map.1 hm
    simp
  rw [ofJson, namedFields?, written]
  simp only [Bool.false_eq_true, ↓reduceIte]
  induction fields with
  | nil => rfl
  | cons f rest ih => rw [List.mapM_cons, field?_ofMembers distinct, ih]; rfl

/-- **An object is a record of its members.** -/
theorem record?_ofJson {members : Keyed Json} (distinct : members.names.Nodup)
    (fields : List ShapeField) :
    (ofJson (.object members)).record? fields =
      some (fields.map fun f => (members.find? f.name).map ofJson) := by
  rw [← namedFields?_ofJson distinct, ofJson, record?]
  intro items h
  cases h

end JsonText

end TypedPipeline
