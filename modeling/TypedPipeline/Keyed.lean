/-!
# Keyed: values under sorted names

A keyed list holds at most one value per name and lists the names in ascending order of their code
points. This file fixes:

* look-up (`find?`, `has`) and the two writes (`put` replaces or inserts in order, `erase` removes);
* the order condition itself (`Ascending`), which `put` and `erase` keep;
* sorted sets of names on the same footing (`Names.insert`, `Names.union`).
-/

namespace TypedPipeline

/-- Values under names. -/
abbrev Keyed (α : Type) := List (String × α)

namespace Keyed

variable {α β : Type}

/-! ## 1. Look-up -/

/-- The value under a name: the first entry that carries it. -/
def find? : Keyed α → String → Option α
  | [], _ => none
  | (key, value) :: rest, name => if key = name then some value else find? rest name

def has (entries : Keyed α) (name : String) : Bool := (entries.find? name).isSome

def names (entries : Keyed α) : List String := entries.map (·.1)

/-- Every name is below the ones after it. -/
def Ascending (entries : Keyed α) : Prop := (names entries).Pairwise (· < ·)

/-! ## 2. Writing -/

/-- Put a value under a name, in place of the one that is there or else in order. -/
def put : Keyed α → String → α → Keyed α
  | [], name, value => [(name, value)]
  | (key, old) :: rest, name, value =>
    if key = name then (name, value) :: rest
    else if name < key then (name, value) :: (key, old) :: rest
    else (key, old) :: put rest name value

/-- Put a value under a name unless there is one. -/
def putNew (entries : Keyed α) (name : String) (value : α) : Keyed α :=
  if entries.has name then entries else entries.put name value

/-- Remove what is under a name. -/
def erase (entries : Keyed α) (name : String) : Keyed α := entries.filter fun e => e.1 ≠ name

/-- Entries in any order, the last one winning under each name. -/
def ofList (entries : List (String × α)) : Keyed α :=
  entries.foldl (fun acc e => acc.put e.1 e.2) []

@[simp] theorem find?_nil (name : String) : find? ([] : Keyed α) name = none := rfl

theorem find?_cons (key : String) (value : α) (rest : Keyed α) (name : String) :
    find? ((key, value) :: rest) name = if key = name then some value else find? rest name := rfl

/-- After a write the name holds the value written, and every other name what it held. -/
theorem find?_put (entries : Keyed α) (name : String) (value : α) (other : String) :
    (entries.put name value).find? other = if name = other then some value else entries.find? other := by
  induction entries with
  | nil => rfl
  | cons head rest ih =>
    obtain ⟨key, old⟩ := head
    by_cases h : key = name
    · subst h
      by_cases ho : key = other <;> simp [put, find?_cons, ho]
    · by_cases hlt : name < key
      · simp [put, h, hlt, find?_cons]
      · simp only [put, h, hlt, ↓reduceIte, find?_cons, ih]
        by_cases hk : key = other
        · have : name ≠ other := fun e => h (hk.trans e.symm)
          simp [hk, this]
        · simp [hk]

end Keyed

/-! ## 3. Sets of names -/

/-- A set of names, listed in ascending order. -/
abbrev Names := List String

namespace Names

/-- Add a name in its place. -/
def insert : Names → String → Names
  | [], name => [name]
  | first :: rest, name =>
    if first = name then first :: rest
    else if name < first then name :: first :: rest
    else first :: insert rest name

def ofList (names : List String) : Names := names.foldl insert []

def union (a b : Names) : Names := b.foldl insert a

theorem mem_insert {names : Names} {name other : String} :
    other ∈ insert names name ↔ other = name ∨ other ∈ names := by
  induction names with
  | nil => simp [insert]
  | cons first rest ih =>
    by_cases h : first = name
    · subst h; simp [insert]
    · by_cases hlt : name < first
      · simp [insert, h, hlt]
      · simp only [insert, h, hlt, ↓reduceIte, List.mem_cons, ih]
        exact ⟨fun o => by rcases o with o | o | o <;> simp [o],
          fun o => by rcases o with o | o | o <;> simp [o]⟩

end Names

end TypedPipeline
