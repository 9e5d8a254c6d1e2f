/-!
# Proofs.Recursion: nested calls counted out

A recursion is given by what one call does with the calls that it makes itself. This file fixes:

* the recursion in which no more than a number of calls may stand inside each other (`callsWithin`);
  it has no answer if they go deeper, so a recursion that does not end never has one;
* **that a recursion has an answer as soon as a measure of its argument is exceeded by that number**, if
  each call makes only calls on smaller arguments (`callsWithin_eq`), for all arguments or for those of
  one kind (`callsWithin_eq_of`).
-/

namespace TypedPipeline

/-- A recursion of at most this many calls inside each other. `body` says what a call does, given the
    calls it makes; `none` if they go deeper. -/
def callsWithin {α β : Type} (body : (α → Option β) → α → Option β) : (depth : Nat) → α → Option β
  | 0, _ => none
  | depth + 1, x => body (callsWithin body depth) x

section Measure

variable {α β : Type} {body : (α → Option β) → α → Option β} (f : α → β) (measure : α → Nat)
  {depth : Nat} {x : α}

/-- **Calls on smaller arguments end.** The step says that a call answers `f` if the calls it makes on
    smaller arguments do, where all arguments are of one kind. -/
theorem callsWithin_eq_of (kind : α → Prop)
    (step : ∀ x call, kind x →
      (∀ y, kind y → measure y < measure x → call y = some (f y)) → body call x = some (f x))
    (hx : kind x) (enough : measure x < depth) : callsWithin body depth x = some (f x) := by
  induction depth generalizing x with
  | zero => exact absurd enough (Nat.not_lt_zero _)
  | succ depth ih => exact step x _ hx fun y hy smaller => ih hy (by omega)

theorem callsWithin_eq
    (step : ∀ x call, (∀ y, measure y < measure x → call y = some (f y)) → body call x = some (f x))
    (enough : measure x < depth) : callsWithin body depth x = some (f x) :=
  callsWithin_eq_of f measure (fun _ => True) (fun x call _ h => step x call fun y => h y trivial)
    trivial enough

end Measure

end TypedPipeline
