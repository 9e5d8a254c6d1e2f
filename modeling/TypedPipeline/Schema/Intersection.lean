import TypedPipeline.Schema

/-!
# Schema.Intersection: one schema for what two schemas both accept

Two schemas are merged into one that accepts exactly what both accept, where such a schema exists
without an intersection in it. This file fixes:

* the merge of ranges, enumerations, lengths and object rules;
* the merge of schemas (`meet`). An intersection on either side is merged into one schema first, so
  the recursion runs on schemas that are made on the way; it ends because a merged schema is never
  larger than the two it comes from together, which the result says of itself;
* the plain readings of it: `intersect` for two schemas, `intersectAll` for the branches of an
  intersection, from left to right.
-/

namespace TypedPipeline

/-! ## 1. Scalars, lengths and rules -/

/-- The larger by `choose` of two optional values; an absent one gives way. -/
def mergeOption {α : Type} (choose : α → α → α) : Option α → Option α → Option α
  | some a, some b => some (choose a b)
  | a, none => a
  | none, b => b

namespace Bound

/-- The tighter of two lower bounds. -/
def tighterLower (a b : Bound) : Bound :=
  if b.value.less a.value || (a.value.equals b.value && a.exclusive) then a else b

/-- The tighter of two upper bounds. -/
def tighterUpper (a b : Bound) : Bound :=
  if a.value.less b.value || (a.value.equals b.value && a.exclusive) then a else b

end Bound

namespace ScalarKind

/-- The kind of the values of both kinds: whole numbers are numbers. -/
def meet? (a b : ScalarKind) : Option ScalarKind :=
  if a = b then some a
  else match a, b with
    | .integer, .number | .number, .integer => some .integer
    | _, _ => none

end ScalarKind

namespace Scalar

/-- The members of both enumerations, in the literal form and order of the first. -/
def sharedMembers (a b : List Json) : List Json := a.filter fun v => b.any (v.agrees ·)

/-- Values in both scalars; `none` if no kind or no listed member is shared. -/
def meet? (a b : Scalar) : Option Scalar := do
  let kind ← a.kind.meet? b.kind
  let enumeration := mergeOption sharedMembers a.enumeration b.enumeration
  match enumeration with
  | some [] => none
  | _ =>
    return {
      kind
      minimum := mergeOption Bound.tighterLower a.minimum b.minimum
      maximum := mergeOption Bound.tighterUpper a.maximum b.maximum
      enumeration
      distribution :=
        if a.distribution = .logUniform ∨ b.distribution = .logUniform then .logUniform else .uniform
      minimumForOptimizer :=
        mergeOption Binary64.max a.minimumForOptimizer b.minimumForOptimizer
      maximumForOptimizer :=
        mergeOption Binary64.min a.maximumForOptimizer b.maximumForOptimizer }

end Scalar

def Length.meet (a b : Length) : Length :=
  ⟨mergeOption Nat.max a.least b.least, mergeOption Nat.min a.most b.most⟩

namespace ObjectRules

/-- The defaults of both sides, the first side's before the second's. A side's default goes where
    the other side is closed and does not declare the property. -/
def meetDefaults (a b : ObjectRules) (as bs merged : Keyed Schema) : Keyed Json :=
  let kept :=
    if b.isOpen then a.defaults
    else a.defaults.filter fun d => !(as.has d.1 && !bs.has d.1)
  b.defaults.foldl
    (fun defaults d =>
      if (a.isOpen && b.isOpen) || merged.has d.1 then defaults.putNew d.1 d.2 else defaults)
    kept

/-- The rules of both sides, for the properties `as` and `bs` merged into `merged`. -/
def meet (a b : ObjectRules) (as bs merged : Keyed Schema) : ObjectRules where
  required := a.required.union b.required
  isOpen := a.isOpen && b.isOpen
  relevant := mergeOption Names.union a.relevant b.relevant
  defaults := meetDefaults a b as bs merged

end ObjectRules

/-! ## 2. Schemas -/

namespace Schema

/-- A schema of at most a given size. -/
abbrev Within (n : Nat) := { m : Schema // m.size ≤ n }

/-- Properties of at most a given size. -/
abbrev PropertiesWithin (n : Nat) := { ps : List (String × Schema) // sizeProperties ps ≤ n }

/-- A property that one side declares and the other does not: it stays if the other side is open,
    and is forbidden otherwise, which leaves nothing if it is required. -/
def loneProperty (rules others : ObjectRules) (name : String) (property : Schema) :
    Option (PropertiesWithin property.size) :=
  if others.isOpen then some ⟨[(name, property)], Nat.le_refl _⟩
  else if rules.requires name then none
  else some ⟨[], Nat.zero_le _⟩

theorem sizeProperties_append (as bs : List (String × Schema)) :
    sizeProperties (as ++ bs) = sizeProperties as + sizeProperties bs := by
  induction as with
  | nil => simp [sizeProperties]
  | cons head rest ih => simp [sizeProperties, ih]; omega

mutual

/-- The intersection of two schemas, where it can be written without an intersection. -/
def meet (a b : Schema) : Option (Within (a.size + b.size)) :=
  match a, b with
  | .any, b => some ⟨b, by omega⟩
  | a, .any => some ⟨a, by omega⟩
  | .allOf branches, b => do
    let ⟨merged, _⟩ ← meetAll branches
    let ⟨m, _⟩ ← meet merged b
    return ⟨m, by simp only [size]; omega⟩
  | a, .allOf branches => do
    let ⟨merged, _⟩ ← meetAll branches
    let ⟨m, _⟩ ← meet merged a
    return ⟨m, by simp only [size]; omega⟩
  | .scalar x, .scalar y => (x.meet? y).map fun m => ⟨.scalar m, by simp only [size]; omega⟩
  | .object as rules, .object bs others => do
    let ⟨merged, _⟩ ← meetProperties rules others as bs
    return ⟨.object merged (rules.meet others as bs merged), by simp only [size]; omega⟩
  | .array x length, .array y length' => do
    let ⟨items, _⟩ ← meet x y
    return ⟨.array items (length.meet length'), by simp only [size]; omega⟩
  | _, _ => none
termination_by (a.size + b.size, 0)
decreasing_by all_goals (simp only [size]; omega)

/-- The intersection of all branches, from left to right; there is none of no branches. -/
def meetAll (branches : List Schema) : Option (Within (sizeBranches branches)) :=
  match branches with
  | [] => none
  | first :: rest => do
    let ⟨m, _⟩ ← meetOnto first rest
    return ⟨m, by simp only [sizeBranches]; omega⟩
termination_by (sizeBranches branches, branches.length + 1)
decreasing_by all_goals (simp only [sizeBranches, List.length_cons]; omega)

/-- What has been merged so far, merged with the branches that are left. -/
def meetOnto (merged : Schema) (branches : List Schema) :
    Option (Within (merged.size + sizeBranches branches)) :=
  match branches with
  | [] => some ⟨merged, by omega⟩
  | branch :: rest => do
    let ⟨m, _⟩ ← meet merged branch
    let ⟨m, _⟩ ← meetOnto m rest
    return ⟨m, by simp only [sizeBranches]; omega⟩
termination_by (merged.size + sizeBranches branches, branches.length + 1)
decreasing_by all_goals (simp only [sizeBranches, List.length_cons]; omega)

/-- The properties of both sides in the order of their names: those that both declare are merged. -/
def meetProperties (rules others : ObjectRules) (as bs : List (String × Schema)) :
    Option (PropertiesWithin (sizeProperties as + sizeProperties bs)) :=
  match as, bs with
  | [], [] => some ⟨[], Nat.zero_le _⟩
  | (name, a) :: as, [] => do
    have := a.size_pos
    let ⟨first, _⟩ ← loneProperty rules others name a
    let ⟨rest, _⟩ ← meetProperties rules others as []
    return ⟨first ++ rest, by simp only [sizeProperties_append, sizeProperties] at *; omega⟩
  | [], (name, b) :: bs => do
    have := b.size_pos
    let ⟨first, _⟩ ← loneProperty others rules name b
    let ⟨rest, _⟩ ← meetProperties rules others [] bs
    return ⟨first ++ rest, by simp only [sizeProperties_append, sizeProperties] at *; omega⟩
  | (m, a) :: as, (n, b) :: bs =>
    have := a.size_pos
    have := b.size_pos
    if m = n then do
      let ⟨merged, _⟩ ← meet a b
      let ⟨rest, _⟩ ← meetProperties rules others as bs
      return ⟨(m, merged) :: rest, by simp only [sizeProperties] at *; omega⟩
    else if m < n then do
      let ⟨first, _⟩ ← loneProperty rules others m a
      let ⟨rest, _⟩ ← meetProperties rules others as ((n, b) :: bs)
      return ⟨first ++ rest, by simp only [sizeProperties_append, sizeProperties] at *; omega⟩
    else do
      let ⟨first, _⟩ ← loneProperty others rules n b
      let ⟨rest, _⟩ ← meetProperties rules others ((m, a) :: as) bs
      return ⟨first ++ rest, by simp only [sizeProperties_append, sizeProperties] at *; omega⟩
termination_by (sizeProperties as + sizeProperties bs, as.length + bs.length + 1)
decreasing_by all_goals (simp only [sizeProperties, List.length_cons]; omega)

end

/-- The intersection of two schemas, where it can be written without an intersection. -/
def intersect (a b : Schema) : Option Schema := (meet a b).map (·.1)

/-- The intersection of all branches, from left to right. -/
def intersectAll (branches : List Schema) : Option Schema := (meetAll branches).map (·.1)

end Schema

end TypedPipeline
