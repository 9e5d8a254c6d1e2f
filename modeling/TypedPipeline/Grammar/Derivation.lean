import TypedPipeline.Grammar
import TypedPipeline.Operator.Combine

/-!
# Grammar.Derivation: partly derived pipelines

A derivation tree combines operators and pending names, each of which stands at a depth. The start is
at depth zero; the production that replaces a name stands one below it, and the children of a
combination one below that. An operator reaches as deep as its own combinations go. This file fixes:

* why a derivation is given up (`Failure`);
* the tree of a production under a depth bound (`instantiate`), built in turns with the parts under
  construction on a stack, and the same by recursion on the production (`place`). Every turn is one
  of a number that is known beforehand (`turns_turn`), and the two agree (`instantiate_eq_place`);
* the leftmost pending name of a tree (`leftmost?`), the tree with that name replaced (`fill`), and
  the operator that a tree without pending names makes (`operator`).
-/

namespace TypedPipeline

/-! ## 1. Trees -/

/-- Why a derivation is given up. -/
inductive Failure where
  | tooDeep
  | noProduction
  | illTyped
  deriving DecidableEq

/-- Count one more failure. -/
def Tally.record (t : Tally) : Failure → Tally
  | .tooDeep => { t with tooDeep := t.tooDeep + 1 }
  | .noProduction => { t with noProduction := t.noProduction + 1 }
  | .illTyped => { t with illTyped := t.illTyped + 1 }

/-- A partly derived pipeline. -/
inductive Derivation where
  | operator (op : Operator)
  /-- A name still to be replaced, and the depth it stands at. -/
  | pending (name : String) (depth : Nat)
  | combine (combinator : Combinator) (children : List Derivation)

namespace Derivation

/-! ## 2. The tree of a production -/

/-- A part of a production under construction: the depth it stands at, the trees of its first
    children, and the number of the child that comes next. -/
structure Frame where
  part : Expr
  depth : Nat
  built : List Derivation := []
  next : Nat := 0

/-- The parts under construction, the innermost first, and the tree that no part was waiting for. -/
structure Construction where
  stack : List Frame
  finished : Option Derivation := none

namespace Construction

/-- Go into a part. -/
def push (c : Construction) (frame : Frame) : Construction := { c with stack := frame :: c.stack }

/-- Hand a finished tree to the innermost part, as its next child; without one it is the result. -/
def deliver (c : Construction) (t : Derivation) : Construction :=
  match c.stack with
  | [] => { c with finished := some t }
  | frame :: rest => { c with stack := { frame with built := frame.built ++ [t] } :: rest }

end Construction

/-- One turn: the innermost part has been taken off the stack. It goes back below its next child, or
    else its tree is finished. -/
def turn (bound : Nat) (frame : Frame) (outer : Construction) : Except Failure Construction :=
  if bound < frame.depth then .error .tooDeep
  else match frame.part with
    | .terminal op =>
      if bound < frame.depth + op.depth then .error .tooDeep else .ok (outer.deliver (.operator op))
    | .nonterminal name => .ok (outer.deliver (.pending name frame.depth))
    | .combine combinator children =>
      match children[frame.next]? with
      | some child =>
        .ok ((outer.push { frame with next := frame.next + 1 }).push
          { part := child, depth := frame.depth + 1 })
      | none => .ok (outer.deliver (.combine combinator frame.built))

mutual

/-- The turns that a production takes. -/
def turns : Expr → Nat
  | .terminal _ => 1
  | .nonterminal _ => 1
  | .combine _ children => 1 + turnsOf children

/-- The turns that children take, those of the part above them included. -/
def turnsOf : List Expr → Nat
  | [] => 0
  | child :: rest => 1 + turns child + turnsOf rest

end

/-- The turns that a part still takes. -/
def Frame.turns (frame : Frame) : Nat :=
  match frame.part with
  | .combine _ children => 1 + turnsOf (children.drop frame.next)
  | _ => 1

/-- The turns that a construction still takes. -/
def Construction.turns (c : Construction) : Nat :=
  c.stack.foldr (fun frame others => frame.turns + others) 0

theorem Frame.turns_start (e : Expr) (depth : Nat) :
    Frame.turns { part := e, depth } = Derivation.turns e := by
  cases e <;> rfl

theorem Frame.turns_combine (combinator : Combinator) (children : List Expr) (depth : Nat)
    (built : List Derivation) (next : Nat) :
    Frame.turns ⟨.combine combinator children, depth, built, next⟩ =
      1 + turnsOf (children.drop next) := rfl

theorem Construction.turns_push (c : Construction) (frame : Frame) :
    (c.push frame).turns = frame.turns + c.turns := rfl

theorem Construction.turns_deliver (c : Construction) (t : Derivation) :
    (c.deliver t).turns = c.turns := by
  obtain ⟨stack, finished⟩ := c
  cases stack <;> rfl

/-- Every turn is one of those that were to be taken. -/
theorem turns_turn {bound : Nat} {frame : Frame} {outer inner : Construction}
    (h : turn bound frame outer = .ok inner) : inner.turns + 1 = (outer.push frame).turns := by
  obtain ⟨part, depth, built, next⟩ := frame
  rw [Construction.turns_push, Nat.add_comm]
  unfold turn at h
  split at h
  · cases h
  · cases part with
    | terminal op =>
      dsimp only at h
      split at h
      · cases h
      · cases h
        rw [Construction.turns_deliver]
        rfl
    | nonterminal name =>
      cases h
      rw [Construction.turns_deliver]
      rfl
    | combine combinator children =>
      dsimp only at h
      split at h
      · rename_i child found
        obtain ⟨lt, rfl⟩ := List.getElem?_eq_some_iff.1 found
        cases h
        rw [Construction.turns_push, Construction.turns_push, Frame.turns_start,
          Frame.turns_combine, Frame.turns_combine, List.drop_eq_getElem_cons lt, turnsOf]
        omega
      · rename_i found
        cases h
        rw [Construction.turns_deliver, Frame.turns_combine,
          List.drop_eq_nil_of_le (List.getElem?_eq_none_iff.1 found), turnsOf]

/-- Take turns until no part is left. -/
def construct (bound : Nat) (c : Construction) : Except Failure Derivation :=
  match c with
  | ⟨[], some t⟩ => .ok t
  | ⟨[], none⟩ => .error .noProduction
  | ⟨frame :: rest, finished⟩ =>
    match _h : turn bound frame ⟨rest, finished⟩ with
    | .ok inner => construct bound inner
    | .error failure => .error failure
termination_by c.turns
decreasing_by
  exact Nat.lt_of_succ_le (Nat.le_of_eq (turns_turn _h))

/-- The tree that replaces a name at a depth by one of its productions. -/
def instantiate (bound : Nat) (production : Expr) (depth : Nat) : Except Failure Derivation :=
  construct bound { stack := [{ part := production, depth := depth + 1 }] }

mutual

/-- The tree of a production whose root stands at a depth. -/
def place (bound : Nat) (e : Expr) (depth : Nat) : Except Failure Derivation :=
  if bound < depth then .error .tooDeep
  else match e with
    | .terminal op => if bound < depth + op.depth then .error .tooDeep else .ok (.operator op)
    | .nonterminal name => .ok (.pending name depth)
    | .combine combinator children =>
      match placeAll bound children (depth + 1) with
      | .ok trees => .ok (.combine combinator trees)
      | .error e => .error e

def placeAll (bound : Nat) (es : List Expr) (depth : Nat) : Except Failure (List Derivation) :=
  match es with
  | [] => .ok []
  | e :: rest =>
    match place bound e depth with
    | .ok t =>
      match placeAll bound rest depth with
      | .ok trees => .ok (t :: trees)
      | .error e => .error e
    | .error e => .error e

end

theorem construct_push (bound : Nat) (frame : Frame) (outer : Construction) :
    construct bound (outer.push frame) = (turn bound frame outer).bind (construct bound) := by
  rw [Construction.push, construct]
  cases turn bound frame outer <;> rfl

mutual

/-- A part is finished with the tree that recursion gives it, and is handed on. -/
theorem construct_part (bound : Nat) (e : Expr) (depth : Nat) (outer : Construction) :
    construct bound (outer.push { part := e, depth }) =
      (place bound e depth).bind fun t => construct bound (outer.deliver t) := by
  by_cases deep : bound < depth
  · rw [construct_push, turn, place.eq_def, if_pos deep, if_pos deep]
    rfl
  · cases e with
    | terminal op =>
      rw [construct_push, turn, place, if_neg deep, if_neg deep]
      dsimp only
      split <;> rfl
    | nonterminal name =>
      rw [construct_push, turn, place, if_neg deep, if_neg deep]
      rfl
    | combine combinator children =>
      rw [construct_children bound combinator deep [] 0 children children rfl, place, if_neg deep]
      cases placeAll bound children (depth + 1) <;> rfl

/-- A combination takes up the trees of its children from the next one on, in their order. -/
theorem construct_children (bound : Nat) (combinator : Combinator) {depth : Nat}
    (deep : ¬ bound < depth) (built : List Derivation) (next : Nat) (children : List Expr) :
    ∀ (waiting : List Expr) {outer : Construction}, children.drop next = waiting →
      construct bound (outer.push ⟨.combine combinator children, depth, built, next⟩) =
        (placeAll bound waiting (depth + 1)).bind fun trees =>
          construct bound (outer.deliver (.combine combinator (built ++ trees)))
  | [], outer, h => by
    have noMore : children[next]? = none :=
      List.getElem?_eq_none_iff.2 (List.drop_eq_nil_iff.1 h)
    rw [construct_push, turn, if_neg deep, placeAll]
    simp only [noMore, Except.bind, List.append_nil]
  | child :: rest, outer, h => by
    have found : children[next]? = some child := by
      rw [← List.head?_drop, h, List.head?_cons]
    have later : children.drop (next + 1) = rest := by
      rw [← List.tail_drop, h, List.tail_cons]
    rw [construct_push, turn, if_neg deep, placeAll]
    simp only [found]
    -- the child is placed below this part, and its tree handed to it
    refine (construct_part bound child (depth + 1) _).trans ?_
    cases place bound child (depth + 1) with
    | error failure => rfl
    | ok t =>
      refine (construct_children bound combinator deep (built ++ [t]) (next + 1) children rest
        later).trans ?_
      cases placeAll bound rest (depth + 1) with
      | error failure => rfl
      | ok trees => simp only [Except.bind, List.append_assoc, List.singleton_append]

end

/-- The tree built with a stack is the one built by recursion. -/
theorem instantiate_eq_place (bound : Nat) (production : Expr) (depth : Nat) :
    instantiate bound production depth = place bound production (depth + 1) := by
  have whole := construct_part bound production (depth + 1) { stack := [] }
  rw [instantiate]
  refine whole.trans ?_
  cases place bound production (depth + 1) with
  | ok t =>
    show construct bound ⟨[], some t⟩ = .ok t
    rw [construct]
  | error failure => rfl

/-! ## 3. Pending names -/

mutual

/-- The leftmost pending name, and the depth it stands at. -/
def leftmost? : Derivation → Option (String × Nat)
  | .operator _ => none
  | .pending name depth => some (name, depth)
  | .combine _ children => leftmostOf? children

def leftmostOf? : List Derivation → Option (String × Nat)
  | [] => none
  | child :: rest =>
    match child.leftmost? with
    | some found => some found
    | none => leftmostOf? rest

end

mutual

/-- The tree with its leftmost pending name replaced. -/
def fill (replacement : Derivation) : Derivation → Derivation
  | .operator op => .operator op
  | .pending _ _ => replacement
  | .combine combinator children => .combine combinator (fillFirst replacement children)

/-- Trees in a row, the leftmost pending name of which is replaced. -/
def fillFirst (replacement : Derivation) : List Derivation → List Derivation
  | [] => []
  | child :: rest =>
    if child.leftmost?.isSome then fill replacement child :: rest
    else child :: fillFirst replacement rest

end

/-! ## 4. The operator of a tree -/

mutual

/-- The operator that a tree without pending names makes, its combinations checked from the
    innermost outwards. -/
def operator? : Derivation → Except Fault Operator
  | .operator op => .ok op
  | .pending name _ => .error (.grammar (.leftUnexpanded name))
  | .combine combinator children => do combinator.combine (← operators? children)

def operators? : List Derivation → Except Fault (List Operator)
  | [] => .ok []
  | child :: rest => do
    let op ← child.operator?
    return op :: (← operators? rest)

end

end Derivation

end TypedPipeline
