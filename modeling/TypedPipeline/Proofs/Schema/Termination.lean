import TypedPipeline.Proofs.Recursion
import TypedPipeline.Proofs.Schema.Comparison
import TypedPipeline.Proofs.Schema.Relaxation

/-!
# Proofs.Schema.Termination: merging ends

Merging goes on with schemas that it has just made: it merges the branches of an intersection into
one schema and merges that with the other side. The domain of a schema, the search for intersections
that do not merge and the comparison of schemas all go on with such a schema too. Here each of them
is written as what one call does with the calls that it makes itself, for each of

* the merge of two schemas and of the branches of an intersection (`mergeBody`),
* the domain and the search (`domainBody`, `constraintsBody`),
* the comparison (`fitBody`),

and each makes only calls on smaller schemas. So **they all end, at no more calls inside each other
than there are schema nodes, with the answers of the definitions** (`merging_ends`).
-/

namespace TypedPipeline

namespace Schema

/-! ## 1. Merging -/

/-- An attempt that is over, whether it has come to something or not. -/
def attempted {α : Type} (result : Option α) : OptionT Option α := .mk (some result)

section Merging

variable (call : Schema → Schema → OptionT Option Schema)

/-- The branches of an intersection merged, from left to right. -/
def mergeBranches : List Schema → OptionT Option Schema
  | [] => attempted none
  | first :: rest => rest.foldlM call first

/-- The properties of both sides merged, in the order of their names. -/
def mergeProperties (rules others : ObjectRules) :
    (as bs : List (String × Schema)) → OptionT Option (List (String × Schema))
  | [], [] => pure []
  | (name, a) :: as, [] => do
    let first ← attempted (loneProperty rules others name a)
    return first.1 ++ (← mergeProperties rules others as [])
  | [], (name, b) :: bs => do
    let first ← attempted (loneProperty others rules name b)
    return first.1 ++ (← mergeProperties rules others [] bs)
  | (m, a) :: as, (n, b) :: bs =>
    if m = n then do
      let merged ← call a b
      return (m, merged) :: (← mergeProperties rules others as bs)
    else if m < n then do
      let first ← attempted (loneProperty rules others m a)
      return first.1 ++ (← mergeProperties rules others as ((n, b) :: bs))
    else do
      let first ← attempted (loneProperty others rules n b)
      return first.1 ++ (← mergeProperties rules others ((m, a) :: as) bs)
termination_by as bs => as.length + bs.length

/-- What a merge does, given the merges that it calls for. -/
def mergeBody : (a b : Schema) → OptionT Option Schema
  | .any, b => pure b
  | a, .any => pure a
  | .allOf branches, b => do call (← mergeBranches call branches) b
  | a, .allOf branches => do call (← mergeBranches call branches) a
  | .scalar x, .scalar y => attempted ((x.meet? y).map .scalar)
  | .object as rules, .object bs others => do
    let merged ← mergeProperties call rules others as bs
    return .object merged (rules.meet others as bs merged)
  | .array x length, .array y length' => do return .array (← call x y) (length.meet length')
  | _, _ => attempted none

end Merging

/-- The merge of two schemas, with no more than so many merges inside each other. -/
def intersectWithin (depth : Nat) (a b : Schema) : OptionT Option Schema :=
  callsWithin (fun call x => mergeBody (fun a b => call (a, b)) x.1 x.2) depth (a, b)

/-- The merge of some branches, with no more than so many merges inside each other. -/
def intersectAllWithin (depth : Nat) (branches : List Schema) : OptionT Option Schema :=
  mergeBranches (intersectWithin depth) branches

theorem size_le_of_intersect {a b m : Schema} (h : intersect a b = some m) :
    m.size ≤ a.size + b.size := (intersect_eq_some_iff.1 h).1

section Merging

variable {call : Schema → Schema → OptionT Option Schema}

/-- An attempt that is over, followed by one that is. -/
theorem attempted_bind {α β : Type} {x : OptionT Option α} {o : Option α} {k : α → OptionT Option β}
    {k' : α → Option β} (hx : x = attempted o) (hk : ∀ a, o = some a → k a = attempted (k' a)) :
    x >>= k = attempted (o >>= k') := by
  subst hx
  cases o with
  | none => rfl
  | some a => exact hk a rfl

theorem mergeOnto_eq {merged : Schema} {branches : List Schema}
    (h : ∀ x y : Schema, x.size + y.size ≤ merged.size + sizeBranches branches →
      call x y = attempted (intersect x y)) :
    branches.foldlM call merged = attempted (branches.foldlM intersect merged) := by
  induction branches generalizing merged with
  | nil => rfl
  | cons b rest ih =>
      simp only [sizeBranches] at h
      rw [List.foldlM_cons, List.foldlM_cons]
      refine attempted_bind (h merged b (by omega)) fun first hf => ih fun x y small => h x y ?_
      have := size_le_of_intersect hf
      omega

theorem mergeBranches_eq {branches : List Schema}
    (h : ∀ x y : Schema, x.size + y.size ≤ sizeBranches branches →
      call x y = attempted (intersect x y)) :
    mergeBranches call branches = attempted (intersectAll branches) := by
  cases branches with
  | nil => rw [intersectAll, meetAll]; rfl
  | cons first rest =>
      rw [mergeBranches, intersectAll_eq_foldlM]
      exact mergeOnto_eq h

/-- A property on one side only, before the properties that are left. -/
theorem lone_bind {own other : ObjectRules} {name : String} {s : Schema}
    {x : OptionT Option (List (String × Schema))} {n k : Nat} {rest : Option (PropertiesWithin n)}
    {small : ∀ (first : PropertiesWithin s.size) (later : PropertiesWithin n),
      sizeProperties (first.1 ++ later.1) ≤ k}
    (hx : x = attempted (rest.map (·.1))) :
    (do
      let first ← attempted (loneProperty own other name s)
      return first.1 ++ (← x)) =
      attempted (Option.map (fun all : PropertiesWithin k => all.1) do
        let first ← loneProperty own other name s
        let later ← rest
        return ⟨first.1 ++ later.1, small first later⟩) := by
  subst hx
  cases loneProperty own other name s with
  | none => rfl
  | some first => cases rest <;> rfl

theorem mergeProperties_eq {rules others : ObjectRules} {as bs : List (String × Schema)}
    (h : ∀ x y : Schema, x.size + y.size ≤ sizeProperties as + sizeProperties bs →
      call x y = attempted (intersect x y)) :
    mergeProperties call rules others as bs =
      attempted ((meetProperties rules others as bs).map (·.1)) := by
  fun_induction mergeProperties call rules others as bs with
  | case1 => rw [meetProperties]; rfl
  | case2 name a as ih =>
      rw [meetProperties]
      exact lone_bind (ih fun x y small => h x y (by simp only [sizeProperties] at *; omega))
  | case3 name b bs ih =>
      rw [meetProperties]
      exact lone_bind (ih fun x y small => h x y (by simp only [sizeProperties] at *; omega))
  | case4 a as n b bs ih =>
      rw [meetProperties, if_pos rfl]
      simp only [sizeProperties] at h
      rw [ih fun x y small => h x y (by omega), h a b (by omega), intersect]
      cases meet a b with
      | none => rfl
      | some merged => cases meetProperties rules others as bs <;> rfl
  | case5 m a as n b bs apart before ih =>
      rw [meetProperties, if_neg apart, if_pos before]
      exact lone_bind (ih fun x y small => h x y (by simp only [sizeProperties] at *; omega))
  | case6 m a as n b bs apart after ih =>
      rw [meetProperties, if_neg apart, if_neg after]
      exact lone_bind (ih fun x y small => h x y (by simp only [sizeProperties] at *; omega))

/-- The branches of an intersection are merged, and what comes of it is merged with the other side. -/
theorem mergeBranches_bind {branches : List Schema} {b : Schema}
    (h : ∀ x y : Schema, x.size + y.size < (allOf branches).size + b.size →
      call x y = attempted (intersect x y)) :
    (do call (← mergeBranches call branches) b) =
      attempted ((intersectAll branches).bind (intersect · b)) := by
  refine attempted_bind (mergeBranches_eq fun x y small => h x y ?_) fun m hm => h m b ?_
  · have := b.size_pos
    simp only [size]
    omega
  · have := size_lt_of_intersectAll hm
    omega

/-- **A merge calls for smaller merges only.** -/
theorem mergeBody_eq {a b : Schema}
    (h : ∀ x y : Schema, x.size + y.size < a.size + b.size → call x y = attempted (intersect x y)) :
    mergeBody call a b = attempted (intersect a b) := by
  rw [intersect, meet.eq_def]
  split
  · rw [mergeBody]
    rfl
  · rw [mergeBody]
    · rfl
    · assumption
  · rename_i branches no
    rw [mergeBody, mergeBranches_bind h, intersectAll]
    · cases meetAll branches with
      | none => rfl
      | some m =>
          cases e : meet m.1 b <;> simp [intersect, e]
    · assumption
  · rename_i branches no no'
    rw [mergeBody, mergeBranches_bind fun x y small => h x y (by omega), intersectAll]
    · cases meetAll branches with
      | none => rfl
      | some m =>
          cases e : meet m.1 a <;> simp [intersect, e]
    · assumption
    · assumption
  · rename_i x y
    rw [mergeBody, Option.map_map]
    rfl
  · rename_i as rules bs others
    rw [mergeBody, mergeProperties_eq fun x y small => h x y (by simp only [size]; omega)]
    cases meetProperties rules others as bs <;> rfl
  · rename_i x length y length'
    rw [mergeBody, h x y (by simp only [size]; omega), intersect]
    cases meet x y <;> rfl
  · rw [mergeBody]
    · rfl
    all_goals assumption

end Merging

theorem intersectWithin_eq {a b : Schema} {depth : Nat} (enough : a.size + b.size < depth) :
    intersectWithin depth a b = attempted (intersect a b) :=
  callsWithin_eq (fun x : Schema × Schema => intersect x.1 x.2)
    (fun x => x.1.size + x.2.size)
    (fun _ _ h => mergeBody_eq fun x y small => h (x, y) small) enough

theorem intersectAllWithin_eq {branches : List Schema} {depth : Nat}
    (enough : sizeBranches branches < depth) :
    intersectAllWithin depth branches = attempted (intersectAll branches) :=
  mergeBranches_eq fun _ _ small => intersectWithin_eq (Nat.lt_of_le_of_lt small enough)

/-! ## 2. Domains -/

/-- Calls that are all answered, one for each member of a list. -/
theorem mapM_eq_some {α β : Type} {call : α → Option β} {f : α → β} {items : List α}
    (h : ∀ x ∈ items, call x = some (f x)) : items.mapM call = some (items.map f) := by
  induction items with
  | nil => rfl
  | cons x rest ih =>
      rw [List.mapM_cons, h x List.mem_cons_self, ih fun y hy => h y (List.mem_cons_of_mem _ hy)]
      rfl

/-- Calls that are all answered, up to the first that is affirmed. -/
theorem anyM_eq_some {α : Type} {call : α → Option Bool} {f : α → Bool} {items : List α}
    (h : ∀ x ∈ items, call x = some (f x)) : items.anyM call = some (items.any f) := by
  induction items with
  | nil => rfl
  | cons x rest ih =>
      rw [List.anyM, h x List.mem_cons_self, ih fun y hy => h y (List.mem_cons_of_mem _ hy),
        List.any_cons]
      cases f x <;> rfl

/-- What making a domain does, given the domains that it calls for. -/
def domainBody (call : Schema → Option Schema) : Schema → Option Schema
  | .any => some .any
  | .scalar x => some (.scalar x)
  | .object properties rules => do
    return .object (← properties.mapM fun p => return (p.1, ← call p.2)) rules
  | .array items length => return .array (← call items) length
  | .anyOf branches => return .anyOf (← branches.mapM call)
  | .oneOf branches => return .oneOf (← branches.mapM call)
  | .allOf branches =>
    match intersectAll branches with
    | some merged => call merged
    | none =>
      match branches.head? with
      | none => some .any
      | some first => call first

/-- What the search for an intersection that does not merge does, given the searches it calls for. -/
def constraintsBody (call : Schema → Option Bool) : Schema → Option Bool
  | .any => some false
  | .scalar _ => some false
  | .object properties _ => properties.anyM fun p => call p.2
  | .array items _ => call items
  | .anyOf branches => branches.anyM call
  | .oneOf branches => branches.anyM call
  | .allOf branches =>
    match intersectAll branches with
    | some merged => call merged
    | none => some true

/-- The domain of a schema, with no more than so many domains made inside each other. -/
def domainPartWithin : (depth : Nat) → Schema → Option Schema := callsWithin domainBody

/-- Whether some intersection does not merge, with no more than so many schemas searched inside each
    other. -/
def hasConstraintsWithin : (depth : Nat) → Schema → Option Bool := callsWithin constraintsBody

section Domains

variable {s : Schema}

theorem domainBody_eq {call : Schema → Option Schema}
    (h : ∀ t : Schema, t.size < s.size → call t = some t.domainPart) :
    domainBody call s = some s.domainPart := by
  have answered {branches : List Schema} (small : sizeBranches branches < s.size) :
      branches.mapM call = some (domainBranches branches) := by
    rw [domainBranches_eq_map]
    exact mapM_eq_some fun b hb => h b (Nat.lt_of_le_of_lt (size_le_of_mem_branches hb) small)
  cases s with
  | any => rw [domainBody, domainPart]
  | scalar x => rw [domainBody, domainPart]
  | object properties rules =>
      have each : properties.mapM (fun p => do return (p.1, ← call p.2)) =
          some (properties.map fun p => (p.1, p.2.domainPart)) :=
        mapM_eq_some fun p hp => by
          have := size_le_of_mem_properties hp
          rw [h p.2 (by simp only [size]; omega)]
          rfl
      rw [domainBody, domainPart, domainProperties_eq_map, each]
      rfl
  | array items length =>
      rw [domainBody, domainPart, h items (by simp only [size]; omega)]
      rfl
  | anyOf branches =>
      rw [domainBody, domainPart, answered (by simp only [size]; omega)]
      rfl
  | oneOf branches =>
      rw [domainBody, domainPart, answered (by simp only [size]; omega)]
      rfl
  | allOf branches =>
      rw [domainBody, domainPart_allOf]
      cases e : intersectAll branches with
      | some merged => exact h merged (size_lt_of_intersectAll e)
      | none =>
          cases branches with
          | nil =>
              show some Schema.any = some (domainPart .any)
              rw [domainPart]
          | cons first rest => exact h first (by simp only [size, sizeBranches]; omega)

theorem someConstrained_eq (schemas : List Schema) :
    someConstrained schemas = schemas.any hasConstraints := by
  induction schemas with
  | nil => rw [someConstrained]; rfl
  | cons s rest ih => rw [someConstrained, ih, List.any_cons]

theorem constraintsBody_eq {call : Schema → Option Bool}
    (h : ∀ t : Schema, t.size < s.size → call t = some t.hasConstraints) :
    constraintsBody call s = some s.hasConstraints := by
  have answered {branches : List Schema} (small : sizeBranches branches < s.size) :
      branches.anyM call = some (someConstrained branches) := by
    rw [someConstrained_eq]
    exact anyM_eq_some fun b hb => h b (Nat.lt_of_le_of_lt (size_le_of_mem_branches hb) small)
  cases s with
  | any => rw [constraintsBody, hasConstraints]
  | scalar x => rw [constraintsBody, hasConstraints]
  | object properties rules =>
      rw [constraintsBody, hasConstraints, someConstrained_eq, List.any_map]
      refine anyM_eq_some fun p hp => h p.2 ?_
      have := size_le_of_mem_properties hp
      simp only [size]; omega
  | array items length =>
      rw [constraintsBody, hasConstraints, h items (by simp only [size]; omega)]
  | anyOf branches =>
      rw [constraintsBody, hasConstraints]
      exact answered (by simp only [size]; omega)
  | oneOf branches =>
      rw [constraintsBody, hasConstraints]
      exact answered (by simp only [size]; omega)
  | allOf branches =>
      rw [constraintsBody, hasConstraints_allOf]
      cases e : intersectAll branches with
      | some merged => exact h merged (size_lt_of_intersectAll e)
      | none => rfl

theorem domainPartWithin_eq {depth : Nat} (enough : s.size < depth) :
    domainPartWithin depth s = some s.domainPart :=
  callsWithin_eq domainPart size (fun _ _ h => domainBody_eq h) enough

theorem hasConstraintsWithin_eq {depth : Nat} (enough : s.size < depth) :
    hasConstraintsWithin depth s = some s.hasConstraints :=
  callsWithin_eq hasConstraints size (fun _ _ h => constraintsBody_eq h) enough

end Domains

/-! ## 3. Subsumption -/

/-- All of some schemas fit; the first failure ends it. -/
def everyFits (fits : Schema → Option Fit) : List Schema → Option Fit
  | [] => some (.ok ())
  | s :: rest => do
    match ← fits s with
    | .ok _ => everyFits fits rest
    | .error e => return .error e

/-- Some of the schemas fits, which ends it; otherwise the failures of all of them. -/
def someFits (fits : Schema → Option Fit) : List Schema → Option (Except (List Mismatch) Unit)
  | [] => some (.error [])
  | s :: rest => do
    match ← fits s with
    | .ok _ => return .ok ()
    | .error e =>
      match ← someFits fits rest with
      | .ok _ => return .ok ()
      | .error errors => return .error (e :: errors)

section Fitting

variable (call : Schema → Schema → Path → Option Fit)

/-- The consumer's properties that are left, `bs`, in turn. -/
def propertiesFit (as : List (String × Schema)) (rules : ObjectRules)
    (all : List (String × Schema)) (others : ObjectRules) (path : Path) :
    (bs : List (String × Schema)) → Option Fit
  | [] => some (.ok ())
  | (name, b) :: rest =>
    match Keyed.find? as name with
    | some a => do
      match ← call a b (path.property name) with
      | .ok _ => propertiesFit as rules all others path rest
      | .error e => return .error e
    | none =>
      if others.requires name then
        return .error ⟨path.property name, .missingProperty, .object as rules, .object all others⟩
      else propertiesFit as rules all others path rest

/-- What a check of a producer against a consumer does, given the checks that it calls for. -/
def fitBody (a b : Schema) (path : Path) : Option Fit :=
  match a, b with
  | _, .any => some (.ok ())
  | .anyOf branches, b => everyFits (call · b path) branches
  | .oneOf branches, b => everyFits (call · b path) branches
  | a, .allOf branches => everyFits (call a · path) branches
  | .allOf branches, b => do
    match ← someFits (call · b path) branches with
    | .ok _ => return .ok ()
    | .error errors =>
      let failure : Fit := match errors with
        | [] => .error ⟨path, .emptyIntersection, .allOf branches, b⟩
        | first :: _ => .error first
      match intersectAll branches with
      | none => return failure
      | some merged =>
        match ← call merged b path with
        | .ok _ => return .ok ()
        | .error _ => return failure
  | a, .anyOf branches => do
    match ← someFits (call a · path) branches with
    | .ok _ => return .ok ()
    | .error errors => return .error (unionMismatch errors path a (.anyOf branches))
  | a, .oneOf branches => do
    match ← someFits (call a · path) branches with
    | .ok _ => return .ok ()
    | .error errors => return .error (unionMismatch errors path a (.oneOf branches))
  | .scalar x, .scalar y =>
    match scalarMismatch? x y with
    | some reason => some (.error ⟨path, reason, .scalar x, .scalar y⟩)
    | none => some (.ok ())
  | .object as rules, .object bs others => do
    match ← propertiesFit call as rules bs others path bs with
    | .error e => return .error e
    | .ok _ =>
      if others.isOpen then return .ok ()
      else match closedMismatch? as bs rules path (.object as rules) (.object bs others) with
        | some e => return .error e
        | none => return .ok ()
  | .array x length, .array y length' =>
    if lengthFits length length' then call x y path.items
    else some (.error ⟨path, .lengthOutside length length', .array x length, .array y length'⟩)
  | .any, b => some (.error ⟨path, .unconstrainedProducer, .any, b⟩)
  | a, b => some (.error ⟨path, .incompatible a.formName b.formName, a, b⟩)

end Fitting

/-- The check of a producer against a consumer, with no more than so many checks inside each other. -/
def checkSubsumptionWithin (depth : Nat) (a b : Schema) : Option Fit :=
  callsWithin (fun call x => fitBody (fun a b path => call (a, b, path)) x.1 x.2.1 x.2.2) depth
    (a, b, .root)

section Fitting

variable {call : Schema → Schema → Path → Option Fit} {a b : Schema} {path : Path}

theorem everyFits_eq_everyProducer {branches : List Schema}
    (h : ∀ a ∈ branches, call a b path = some (checkSubsumptionAt a b path)) :
    everyFits (call · b path) branches = some (everyProducer branches b path) := by
  induction branches with
  | nil => rw [everyFits, everyProducer]
  | cons a rest ih =>
      rw [everyFits, everyProducer, h a List.mem_cons_self,
        ih fun c hc => h c (List.mem_cons_of_mem _ hc)]
      cases checkSubsumptionAt a b path <;> rfl

theorem everyFits_eq_everyConsumer {branches : List Schema}
    (h : ∀ b ∈ branches, call a b path = some (checkSubsumptionAt a b path)) :
    everyFits (call a · path) branches = some (everyConsumer a branches path) := by
  induction branches with
  | nil => rw [everyFits, everyConsumer]
  | cons b rest ih =>
      rw [everyFits, everyConsumer, h b List.mem_cons_self,
        ih fun c hc => h c (List.mem_cons_of_mem _ hc)]
      cases checkSubsumptionAt a b path <;> rfl

theorem someFits_eq_someProducer {branches : List Schema}
    (h : ∀ a ∈ branches, call a b path = some (checkSubsumptionAt a b path)) :
    someFits (call · b path) branches = some (someProducer branches b path) := by
  induction branches with
  | nil => rw [someFits, someProducer]
  | cons a rest ih =>
      rw [someFits, someProducer, h a List.mem_cons_self,
        ih fun c hc => h c (List.mem_cons_of_mem _ hc)]
      cases checkSubsumptionAt a b path with
      | ok _ => rfl
      | error e => cases someProducer rest b path <;> rfl

theorem someFits_eq_someConsumer {branches : List Schema}
    (h : ∀ b ∈ branches, call a b path = some (checkSubsumptionAt a b path)) :
    someFits (call a · path) branches = some (someConsumer a branches path) := by
  induction branches with
  | nil => rw [someFits, someConsumer]
  | cons b rest ih =>
      rw [someFits, someConsumer, h b List.mem_cons_self,
        ih fun c hc => h c (List.mem_cons_of_mem _ hc)]
      cases checkSubsumptionAt a b path with
      | ok _ => rfl
      | error e => cases someConsumer a rest path <;> rfl

theorem fitProperties_cons {as all rest : List (String × Schema)} {rules others : ObjectRules}
    {name : String} :
    fitProperties as rules all others ((name, b) :: rest) path =
      match Keyed.find? as name with
      | some a => do
        checkSubsumptionAt a b (path.property name)
        fitProperties as rules all others rest path
      | none =>
        if others.requires name then
          .error ⟨path.property name, .missingProperty, .object as rules, .object all others⟩
        else fitProperties as rules all others rest path := by
  rw [fitProperties]
  split
  all_goals
    rename_i found
    simp only [found]

theorem propertiesFit_eq {as all bs : List (String × Schema)} {rules others : ObjectRules}
    (h : ∀ (name : String) (a b : Schema), Keyed.find? as name = some a → (name, b) ∈ bs →
      call a b (path.property name) = some (checkSubsumptionAt a b (path.property name))) :
    propertiesFit call as rules all others path bs =
      some (fitProperties as rules all others bs path) := by
  induction bs with
  | nil => rw [propertiesFit, fitProperties]
  | cons p rest ih =>
      obtain ⟨name, b⟩ := p
      have ih := ih fun name a b found hb => h name a b found (List.mem_cons_of_mem _ hb)
      rw [propertiesFit, fitProperties_cons]
      cases found : Keyed.find? as name with
      | some a =>
          simp only [h name a b found List.mem_cons_self, ih]
          cases checkSubsumptionAt a b (path.property name) <;> rfl
      | none =>
          simp only [ih]
          split <;> rfl

/-- A union calls for the checks of its branches. -/
theorem fitBody_union {branches : List Schema} (union : IsUnion a branches) (any : b ≠ .any)
    (h : ∀ c ∈ branches, call c b path = some (checkSubsumptionAt c b path)) :
    fitBody call a b path = some (checkSubsumptionAt a b path) := by
  rcases union with rfl | rfl
  all_goals
    rw [fitBody, checkSubsumptionAt]
    · exact everyFits_eq_everyProducer h
    all_goals exact any

theorem fitBody_everyConsumer {branches : List Schema} (apart : ∀ cs, ¬IsUnion a cs)
    (h : ∀ c ∈ branches, call a c path = some (checkSubsumptionAt a c path)) :
    fitBody call a (.allOf branches) path = some (checkSubsumptionAt a (.allOf branches) path) := by
  have anyOf (cs : List Schema) (e : a = .anyOf cs) : False := apart cs (Or.inl e)
  have oneOf (cs : List Schema) (e : a = .oneOf cs) : False := apart cs (Or.inr e)
  rw [fitBody, checkSubsumptionAt]
  · exact everyFits_eq_everyConsumer h
  all_goals assumption

/-- An intersection calls for the checks of its branches, and for that of what they merge into. -/
theorem fitBody_someProducer {branches : List Schema} (any : b ≠ .any) (allOf : ∀ bs, b ≠ .allOf bs)
    (h : ∀ c ∈ branches, call c b path = some (checkSubsumptionAt c b path))
    (merge : ∀ m, intersectAll branches = some m → call m b path = some (checkSubsumptionAt m b path)) :
    fitBody call (.allOf branches) b path = some (checkSubsumptionAt (.allOf branches) b path) := by
  rw [fitBody, checkSubsumptionAt]
  · have each : someFits (call · b path) branches = some (someProducer branches b path) :=
      someFits_eq_someProducer h
    rw [each]
    cases someProducer branches b path with
    | ok _ => rfl
    | error errors =>
        simp only [Option.bind_eq_bind, Option.bind_some, intersectAll]
        cases e : meetAll branches with
        | none => rfl
        | some m =>
            simp only [Option.map_some]
            rw [merge m.1 (by rw [intersectAll, e]; rfl)]
            cases checkSubsumptionAt m.1 b path <;> rfl
  all_goals assumption

theorem fitBody_someConsumer {branches : List Schema} (atomic : a.IsAtomic) (union : IsUnion b branches)
    (h : ∀ c ∈ branches, call a c path = some (checkSubsumptionAt a c path)) :
    fitBody call a b path = some (checkSubsumptionAt a b path) := by
  obtain ⟨anyOf, oneOf, allOf⟩ := atomic
  rcases union with rfl | rfl
  all_goals
    rw [fitBody, checkSubsumptionAt]
    · rw [someFits_eq_someConsumer h]
      cases someConsumer a branches path <;> rfl
    all_goals assumption

/-- An object calls for the checks of the properties that are declared on both sides. -/
theorem fitBody_object {as bs : Keyed Schema} {rules others : ObjectRules}
    (h : ∀ (name : String) (a b : Schema), as.find? name = some a → (name, b) ∈ bs →
      call a b (path.property name) = some (checkSubsumptionAt a b (path.property name))) :
    fitBody call (.object as rules) (.object bs others) path =
      some (checkSubsumptionAt (.object as rules) (.object bs others) path) := by
  rw [fitBody, checkSubsumptionAt, propertiesFit_eq h]
  cases fitProperties as rules bs others bs path with
  | error e => rfl
  | ok _ =>
      show (if others.isOpen then _ else _) = some (if others.isOpen then _ else _)
      split
      · rfl
      · cases closedMismatch? as bs rules path (.object as rules) (.object bs others) <;> rfl

theorem fitBody_apart (atomic : a.IsAtomic) (atomic' : b.IsAtomic) (any : b ≠ .any)
    (apart : ¬OneForm a b) : fitBody call a b path = some (checkSubsumptionAt a b path) := by
  rcases atomic.cases with rfl | ⟨x, rfl⟩ | ⟨as, rules, rfl⟩ | ⟨x, length, rfl⟩ <;>
    rcases atomic'.cases with rfl | ⟨y, rfl⟩ | ⟨bs, others, rfl⟩ | ⟨y, length', rfl⟩ <;>
    simp_all [fitBody, checkSubsumptionAt]

/-- The producers that a check goes on with: its own and the parts of it, and what the branches of an
    intersection merge into. -/
def GoesOnWith (a x : Schema) : Prop :=
  x ∈ a.parts ∨ ∃ branches, a = .allOf branches ∧ intersectAll branches = some x

/-- **A check calls for smaller checks only.** -/
theorem fitBody_eq
    (h : ∀ (x y : Schema) (place : Path), a.GoesOnWith x → x.size + y.size < a.size + b.size →
      call x y place = some (checkSubsumptionAt x y place)) :
    fitBody call a b path = some (checkSubsumptionAt a b path) := by
  cases a, b using comparisonCases with
  | any a => rw [fitBody, checkSubsumptionAt]
  | everyProducer a b branches union any =>
      refine fitBody_union union any fun c hc => h c b path (Or.inl (union.mem_parts hc)) ?_
      have := union.size_lt hc
      omega
  | everyConsumer a branches apart =>
      refine fitBody_everyConsumer apart fun c hc => h a c path (Or.inl a.self_mem_parts) ?_
      have := size_lt_allOf hc
      omega
  | someProducer branches b any allOf =>
      refine fitBody_someProducer any allOf
        (fun c hc => h c b path (Or.inl (allOf_mem_parts hc)) ?_)
        fun m e => h m b path (Or.inr ⟨branches, rfl, e⟩) ?_
      · have := size_lt_allOf hc
        omega
      · have := size_lt_of_intersectAll e
        omega
  | someConsumer a b branches atomic union =>
      refine fitBody_someConsumer atomic union fun c hc => h a c path (Or.inl a.self_mem_parts) ?_
      have := union.size_lt hc
      omega
  | oneForm a b form =>
      cases form with
      | scalars x y =>
          rw [fitBody, checkSubsumptionAt]
          cases scalarMismatch? x y <;> rfl
      | objects as rules bs others =>
          refine fitBody_object fun name x y found hy =>
            h x y _ (Or.inl (property_mem_parts (Keyed.mem_of_find? found))) ?_
          have := size_le_of_find? found
          have := size_le_of_mem_properties hy
          simp only [size]; omega
      | arrays x length y length' =>
          rw [fitBody, checkSubsumptionAt]
          split
          · exact h x y _ (Or.inl (List.mem_cons_of_mem _ x.self_mem_parts)) (by simp only [size]; omega)
          · rfl
  | apart a b atomic atomic' any different => exact fitBody_apart atomic atomic' any different

end Fitting

theorem checkSubsumptionWithin_eq {a b : Schema} {depth : Nat} (enough : a.size + b.size < depth) :
    checkSubsumptionWithin depth a b = some (checkSubsumption a b) :=
  callsWithin_eq (fun x : Schema × Schema × Path => checkSubsumptionAt x.1 x.2.1 x.2.2)
    (fun x => x.1.size + x.2.1.size)
    (fun _ _ h => fitBody_eq fun x y place _ small => h (x, y, place) small) enough

/-- **Merging ends, and so does all that goes on with what has been merged.** A merge is no larger
    than the two schemas together, so that of an intersection's branches is smaller than the
    intersection. No call then has more calls inside each other than there are schema nodes in what
    it is given. -/
theorem merging_ends :
    (∀ (a b : Schema) (depth : Nat), a.size + b.size < depth →
      intersectWithin depth a b = attempted (intersect a b)) ∧
    (∀ (branches : List Schema) (depth : Nat), sizeBranches branches < depth →
      intersectAllWithin depth branches = attempted (intersectAll branches)) ∧
    (∀ a b m : Schema, intersect a b = some m → m.size ≤ a.size + b.size) ∧
    (∀ (branches : List Schema) (m : Schema), intersectAll branches = some m →
      m.size < (allOf branches).size) ∧
    (∀ (s : Schema) (depth : Nat), s.size < depth →
      domainPartWithin depth s = some s.domainPart ∧
        hasConstraintsWithin depth s = some s.hasConstraints) ∧
    ∀ (a b : Schema) (depth : Nat), a.size + b.size < depth →
      checkSubsumptionWithin depth a b = some (checkSubsumption a b) :=
  ⟨fun _ _ _ => intersectWithin_eq, fun _ _ => intersectAllWithin_eq,
    fun _ _ _ => size_le_of_intersect, fun _ _ => size_lt_of_intersectAll,
    fun _ _ enough => ⟨domainPartWithin_eq enough, hasConstraintsWithin_eq enough⟩,
    fun _ _ _ => checkSubsumptionWithin_eq⟩

/-- An intersection whose first branch is an intersection of one branch. -/
def nestedSwitch : Schema := .allOf [.allOf [.scalar { kind := .boolean }], .any]

/-- An intersection whose one branch is an intersection of none. -/
def nestedNothing : Schema := .allOf [.allOf []]

theorem merging_ends_nested :
    nestedSwitch.size + nestedNothing.size < 9 ∧
    intersect nestedSwitch nestedSwitch = some (.scalar { kind := .boolean }) ∧
    intersect nestedSwitch nestedNothing = none ∧
    intersectAll [.allOf []] = some (.allOf []) ∧ (Schema.allOf []).size < nestedNothing.size ∧
    nestedNothing.domainPart = .any ∧ nestedNothing.hasConstraints = true ∧
    nestedSwitch.isSubsumedBy nestedNothing = true := by
  obtain ⟨merge, mergeAll, -, smaller, single, check⟩ := merging_ends
  have switch : intersect nestedSwitch nestedSwitch = some (.scalar { kind := .boolean }) :=
    Option.some.inj ((merge nestedSwitch nestedSwitch 9 (by decide)).symm.trans rfl)
  have apart : intersect nestedSwitch nestedNothing = none :=
    Option.some.inj ((merge nestedSwitch nestedNothing 9 (by decide)).symm.trans rfl)
  have one : intersectAll [.allOf []] = some (.allOf []) :=
    Option.some.inj ((mergeAll [.allOf []] 9 (by decide)).symm.trans rfl)
  have none : intersectAll [] = none :=
    Option.some.inj ((mergeAll [] 9 (by decide)).symm.trans rfl)
  obtain ⟨domain, constrained⟩ := single nestedNothing 9 (by decide)
  have fits : (checkSubsumptionWithin 9 nestedSwitch nestedNothing).map (·.isOk) = some true := rfl
  rw [check nestedSwitch nestedNothing 9 (by decide)] at fits
  refine ⟨by decide, switch, apart, one, smaller _ _ one, Option.some.inj (domain.symm.trans ?_),
    Option.some.inj (constrained.symm.trans ?_), Option.some.inj fits⟩
  · simp [domainPartWithin, callsWithin, domainBody, nestedNothing, one, none]
  · simp [hasConstraintsWithin, callsWithin, constraintsBody, nestedNothing, one, none]

end Schema

end TypedPipeline
