import Mathlib.Data.List.Basic
import TypedPipeline.Operator

/-!
# Proofs.Operator.Rendering: no two trees have one written form

Parentheses are left out of the written form where a child binds tighter than its combinator. This file
fixes:

* texts with closed parentheses, of which only the characters outside of them are looked at (`Closed`),
  and what stands before the first mark outside (`beforeMark`);
* that an operator is written so, with no mark outside that is looser than its own (`closed_text`), but
  with its own (`not_closed_composite`). So the loosest mark outside tells the combinator, and the
  children are what stands between its occurrences (`pieces_inj`);
* **that operators are written alike exactly if they are the same tree of combinators with the same
  leaf names** (`text_eq_iff_shape_eq`), if composites have two children at least and the names of
  leaves are free of the characters that the written form is made with (`Operator.Legible`).
-/

namespace TypedPipeline

/-! ## 1. Closed parentheses -/

/-- The parentheses of the text are closed, and every character outside of them is of a sort. -/
inductive Closed : (Char → Prop) → List Char → Prop where
  | nil {P : Char → Prop} : Closed P []
  | char {P : Char → Prop} {c : Char} {rest : List Char} :
      c ≠ '(' → c ≠ ')' → P c → Closed P rest → Closed P (c :: rest)
  | group {P : Char → Prop} {inner rest : List Char} :
      Closed (fun _ => True) inner → Closed P rest → Closed P ('(' :: (inner ++ ')' :: rest))

/-- What stands before the first mark outside of parentheses, of which some are open already. -/
def beforeMark (mark : Char) : (depth : Nat) → List Char → List Char
  | _, [] => []
  | depth, c :: rest =>
    if c = '(' then c :: beforeMark mark (depth + 1) rest
    else if c = ')' then c :: beforeMark mark (depth - 1) rest
    else if depth = 0 ∧ c = mark then []
    else c :: beforeMark mark depth rest

section Closed

variable {P Q : Char → Prop} {text other : List Char} {mark : Char}

theorem Closed.mono (h : Closed P text) (sub : ∀ c, P c → Q c) : Closed Q text := by
  induction h with
  | nil => exact .nil
  | char opening closing own _ ih => exact .char opening closing (sub _ own) (ih sub)
  | group inner _ _ ih => exact .group inner (ih sub)

theorem Closed.append (h : Closed P text) (h' : Closed P other) : Closed P (text ++ other) := by
  induction h with
  | nil => exact h'
  | char opening closing own _ ih => exact .char opening closing own (ih h')
  | group inner _ _ ih =>
      rw [List.cons_append, List.append_assoc, List.cons_append]
      exact .group inner (ih h')

/-- A closed text in parentheses has nothing outside. -/
theorem Closed.parenthesized (h : Closed P text) : Closed Q ('(' :: (text ++ [')'])) :=
  .group (h.mono fun _ _ => trivial) .nil

/-- A text without parentheses is closed. -/
theorem Closed.of_forall (h : ∀ c ∈ text, (c ≠ '(' ∧ c ≠ ')') ∧ P c) : Closed P text := by
  induction text with
  | nil => exact .nil
  | cons c rest ih =>
      obtain ⟨⟨⟨opening, closing⟩, own⟩, later⟩ := List.forall_mem_cons.1 h
      exact .char opening closing own (ih later)

/-- **A closed text without the mark outside is passed over**, at any depth inside of parentheses. -/
theorem Closed.beforeMark_append (h : Closed P text) {depth : Nat}
    (free : depth = 0 → ∀ c, P c → c ≠ mark) (rest : List Char) :
    beforeMark mark depth (text ++ rest) = text ++ beforeMark mark depth rest := by
  induction h generalizing depth rest with
  | nil => rfl
  | @char P c later opening closing own _ ih =>
      have pass : ¬ (depth = 0 ∧ c = mark) := fun h => free h.1 c own h.2
      rw [List.cons_append, beforeMark, if_neg opening, if_neg closing, if_neg pass, ih free,
        List.cons_append]
  | @group P inner later _ _ ihInner ihLater =>
      have deeper : depth + 1 = 0 → ∀ c, True → c ≠ mark := fun h => absurd h (Nat.succ_ne_zero _)
      rw [List.cons_append, beforeMark, if_pos rfl, List.append_assoc, ihInner deeper,
        List.cons_append, beforeMark, if_neg (by decide), if_pos rfl, Nat.add_sub_cancel,
        ihLater free, List.cons_append, List.append_assoc, List.cons_append]

/-- There is nothing behind it then. -/
theorem Closed.beforeMark_self (h : Closed P text) (free : ∀ c, P c → c ≠ mark) :
    beforeMark mark 0 text = text := by
  have whole : beforeMark mark 0 (text ++ []) = text ++ beforeMark mark 0 [] :=
    h.beforeMark_append (fun _ => free) []
  simpa [beforeMark] using whole

end Closed

/-! ## 2. Marks -/

namespace Combinator

/-- The character that tells the mark of a combinator from others. -/
def mark : Combinator → Char
  | .sequential => '>'
  | .choice => '|'
  | .parallel => '&'

/-- No mark of a combinator that binds looser than this. -/
def BindsFrom (binding : Nat) (c : Char) : Prop :=
  ∀ combinator : Combinator, c = combinator.mark → binding ≤ combinator.binding

theorem BindsFrom.mono {k n : Nat} {c : Char} (le : k ≤ n) (h : BindsFrom n c) : BindsFrom k c :=
  fun combinator e => Nat.le_trans le (h combinator e)

/-- The mark of a looser combinator is not among them. -/
theorem BindsFrom.ne_mark {k : Nat} {combinator : Combinator} (lt : combinator.binding < k) (c : Char)
    (h : BindsFrom k c) : c ≠ combinator.mark :=
  fun e => absurd (h combinator e) (Nat.not_le.2 lt)

theorem binding_inj {c d : Combinator} : c.binding = d.binding ↔ c = d := by
  cases c <;> cases d <;> decide

/-- A leaf binds tighter, with 4. -/
theorem binding_lt_leaf (c : Combinator) : c.binding < 4 := by
  cases c <;> decide

theorem closed_separator (c : Combinator) : Closed (BindsFrom c.binding) c.separator.toList := by
  have bare : c.separator.toList.all (fun ch => ch ≠ '(' ∧ ch ≠ ')') = true := by
    cases c <;> decide
  refine Closed.of_forall fun ch hc => ⟨?_, fun combinator e => ?_⟩
  · exact of_decide_eq_true (List.all_eq_true.1 bare ch hc)
  · subst e
    revert hc
    cases c <;> cases combinator <;> decide

/-- The separator begins with a space and the mark. -/
theorem beforeMark_separator (c : Combinator) (rest : List Char) :
    beforeMark c.mark 0 (c.separator.toList ++ rest) = [' '] ∧ 2 ≤ c.separator.toList.length := by
  cases c <;> exact ⟨rfl, by decide⟩

end Combinator

open Combinator (BindsFrom)

section Pieces

variable {c : Combinator} {x y : List Char} {xs ys : List (List Char)}

/-- What stands before the first separator is found again, with the space that this begins with. -/
theorem Closed.beforeMark_separator (h : Closed (BindsFrom (c.binding + 1)) x) (rest : List Char) :
    beforeMark c.mark 0 (x ++ (c.separator.toList ++ rest)) = x ++ [' '] := by
  rw [h.beforeMark_append (fun _ => BindsFrom.ne_mark (Nat.lt_succ_self _)),
    (c.beforeMark_separator rest).1]

/-- A piece and a separator behind it are no single piece. -/
theorem Closed.ne_append_separator {P : Char → Prop} (h : Closed P y) (free : ∀ ch, P ch → ch ≠ c.mark)
    (hx : Closed (BindsFrom (c.binding + 1)) x) (rest : List Char) :
    y ≠ x ++ (c.separator.toList ++ rest) := by
  intro e
  have whole := h.beforeMark_self free
  have long := (c.beforeMark_separator rest).2
  rw [e, hx.beforeMark_separator] at whole
  have lengths := congrArg List.length whole
  simp only [List.length_append, List.length_singleton] at lengths
  omega

/-- **Pieces without the mark outside are told from the text that is made of them.** -/
theorem pieces_inj (hx : ∀ x ∈ xs, Closed (BindsFrom (c.binding + 1)) x)
    (hy : ∀ y ∈ ys, Closed (BindsFrom (c.binding + 1)) y) (someX : xs ≠ []) (someY : ys ≠ [])
    (e : c.separator.toList.intercalate xs = c.separator.toList.intercalate ys) : xs = ys := by
  have free : ∀ ch, BindsFrom (c.binding + 1) ch → ch ≠ c.mark :=
    BindsFrom.ne_mark (Nat.lt_succ_self _)
  induction xs generalizing ys with
  | nil => exact absurd rfl someX
  | cons x xs ih =>
      obtain ⟨closedX, laterX⟩ := List.forall_mem_cons.1 hx
      cases ys with
      | nil => exact absurd rfl someY
      | cons y ys =>
          obtain ⟨closedY, laterY⟩ := List.forall_mem_cons.1 hy
          cases xs with
          | nil =>
              cases ys with
              | nil =>
                  rw [List.intercalate_singleton, List.intercalate_singleton] at e
                  rw [e]
              | cons y' ys =>
                  rw [List.intercalate_singleton, List.intercalate_cons_cons, List.append_assoc] at e
                  exact absurd e (closedX.ne_append_separator free closedY _)
          | cons x' xs =>
              cases ys with
              | nil =>
                  rw [List.intercalate_singleton, List.intercalate_cons_cons, List.append_assoc] at e
                  exact absurd e.symm (closedY.ne_append_separator free closedX _)
              | cons y' ys =>
                  rw [List.intercalate_cons_cons, List.intercalate_cons_cons, List.append_assoc,
                    List.append_assoc] at e
                  have first := congrArg (beforeMark c.mark 0) e
                  rw [closedX.beforeMark_separator, closedY.beforeMark_separator] at first
                  have same : x = y := List.append_cancel_right first
                  rw [same, List.append_cancel_left_eq, List.append_cancel_left_eq] at e
                  rw [same, ih laterX laterY (List.cons_ne_nil _ _) (List.cons_ne_nil _ _) e]

/-- A text of closed pieces is closed. -/
theorem closed_intercalate (hx : ∀ x ∈ xs, Closed (BindsFrom (c.binding + 1)) x) :
    Closed (BindsFrom c.binding) (c.separator.toList.intercalate xs) := by
  induction xs with
  | nil => exact .nil
  | cons x xs ih =>
      obtain ⟨closed, later⟩ := List.forall_mem_cons.1 hx
      have looser := closed.mono fun _ => BindsFrom.mono (Nat.le_succ c.binding)
      cases xs with
      | nil =>
          rw [List.intercalate_singleton]
          exact looser
      | cons x' xs =>
          rw [List.intercalate_cons_cons]
          exact (looser.append c.closed_separator).append (ih later)

end Pieces

/-! ## 3. Operators as they are written -/

/-- The tree of combinators with the names of the leaves. -/
inductive Shape where
  | leaf (name : String)
  | node (combinator : Combinator) (children : List Shape)

namespace Operator

mutual

/-- The operator without the names of composites, and without signatures. -/
def shape : Operator → Shape
  | .leaf name _ _ => .leaf name
  | .composite _ combinator children _ => .node combinator (shapes children)

def shapes : List Operator → List Shape
  | [] => []
  | child :: rest => child.shape :: shapes rest

end

/-- A character that the written form is made with. -/
def IsReserved (c : Char) : Prop := c ∈ [' ', '(', ')', '>', '|', '&']

mutual

/-- No leaf has a reserved character in its name, and every composite has two children at least. -/
def Legible : Operator → Prop
  | .leaf name _ _ => ∀ c ∈ name.toList, ¬ IsReserved c
  | .composite _ _ children _ => 2 ≤ children.length ∧ LegibleAll children

def LegibleAll : List Operator → Prop
  | [] => True
  | child :: rest => child.Legible ∧ LegibleAll rest

end

/-- How tightly an operator binds where it is written: a leaf tighter than all combinators. -/
def binding : Operator → Nat
  | .leaf _ _ _ => 4
  | .composite _ combinator _ _ => combinator.binding

theorem binding_le (op : Operator) : op.binding ≤ 4 := by
  cases op with
  | leaf name handle signature => exact Nat.le_refl 4
  | composite name c children signature => exact Nat.le_of_lt c.binding_lt_leaf

/-- A child as it is written under a combinator. -/
def written (parent : Combinator) (child : Operator) : String :=
  if child.needsParentheses parent then "(" ++ child.text ++ ")" else child.text

theorem childTexts_eq_map (parent : Combinator) (children : List Operator) :
    childTexts parent children = children.map (written parent) := by
  induction children with
  | nil => rfl
  | cons child rest ih => rw [childTexts, ih, List.map_cons, written]

/-- The pieces that the text of a composite is made of. -/
def pieces (parent : Combinator) (children : List Operator) : List (List Char) :=
  children.map fun child => (written parent child).toList

theorem toList_text_composite (name : String) (c : Combinator) (children : List Operator)
    (signature : Signature) :
    (composite name c children signature).text.toList =
      c.separator.toList.intercalate (pieces c children) := by
  rw [text, String.toList_intercalate, childTexts_eq_map, List.map_map]
  rfl

theorem needsParentheses_iff {parent : Combinator} {child : Operator} :
    child.needsParentheses parent = true ↔ child.binding ≤ parent.binding := by
  cases child with
  | leaf name handle signature => cases parent <;> simp [needsParentheses, binding, Combinator.binding]
  | composite name c children signature => simp [needsParentheses, binding]

theorem toList_parenthesized (t : String) :
    ("(" ++ t ++ ")").toList = '(' :: (t.toList ++ [')']) := by
  rw [String.toList_append, String.toList_append]
  rfl

mutual

/-- **An operator is written with closed parentheses and without a looser mark outside.** -/
theorem closed_text : ∀ {op : Operator}, op.Legible →
    Closed (BindsFrom op.binding) op.text.toList
  | .leaf name _ _, h => by
      refine Closed.of_forall fun c hc => ?_
      have free := h c hc
      simp only [IsReserved, List.mem_cons, List.not_mem_nil, or_false, not_or] at free
      obtain ⟨-, opening, closing, sequential, choice, parallel⟩ := free
      refine ⟨⟨opening, closing⟩, fun combinator e => ?_⟩
      cases combinator with
      | sequential => exact absurd e sequential
      | choice => exact absurd e choice
      | parallel => exact absurd e parallel
  | .composite name c children signature, h => by
      rw [toList_text_composite]
      exact closed_intercalate (closed_pieces h.2)

/-- So are its children, if they are put in parentheses where they do not bind tighter. -/
theorem closed_pieces : ∀ {parent : Combinator} {children : List Operator}, LegibleAll children →
    ∀ x ∈ pieces parent children, Closed (BindsFrom (parent.binding + 1)) x
  | _, [], _, x, hx => absurd hx List.not_mem_nil
  | parent, child :: rest, h, x, hx => by
      rw [pieces, List.map_cons, List.mem_cons] at hx
      obtain rfl | hx := hx
      · rw [written]
        split
        · rw [toList_parenthesized]
          exact (closed_text h.1).parenthesized
        · rename_i bare
          rw [needsParentheses_iff, Nat.not_le] at bare
          exact (closed_text h.1).mono fun _ => BindsFrom.mono bare
      · exact closed_pieces h.2 x hx

end

/-- **A composite is written with its own mark outside.** -/
theorem not_closed_composite {name : String} {c : Combinator} {children : List Operator}
    {signature : Signature} (h : (composite name c children signature).Legible) {P : Char → Prop}
    (free : ∀ ch, P ch → ch ≠ c.mark) :
    ¬ Closed P (composite name c children signature).text.toList := by
  intro closed
  rw [toList_text_composite] at closed
  match children, h with
  | first :: second :: rest, h =>
    have piece : Closed (BindsFrom (c.binding + 1)) (written c first).toList :=
      closed_pieces h.2 _ List.mem_cons_self
    refine closed.ne_append_separator free piece
      (c.separator.toList.intercalate (pieces c (second :: rest))) ?_
    rw [← List.append_assoc]
    exact List.intercalate_cons_cons

/-- A child in parentheses is written otherwise than one without. -/
theorem parenthesized_ne_text {a b : Operator} (ha : a.Legible) (hb : b.Legible) :
    "(" ++ a.text ++ ")" ≠ b.text := by
  intro e
  have chars : '(' :: (a.text.toList ++ [')']) = b.text.toList := by
    rw [← e, toList_parenthesized]
  cases b with
  | leaf name handle signature =>
      have opening : '(' ∈ name.toList := by
        rw [text] at chars
        rw [← chars]
        exact List.mem_cons_self
      exact hb '(' opening (by simp [IsReserved])
  | composite name c children signature =>
      refine not_closed_composite hb (P := fun _ => False) (fun _ h => h.elim) ?_
      rw [← chars]
      exact (closed_text ha).parenthesized

/-- **Children that are written alike have the same text**, with or without parentheses. -/
theorem text_of_written {parent : Combinator} {a b : Operator} (ha : a.Legible) (hb : b.Legible)
    (e : written parent a = written parent b) : a.text = b.text := by
  unfold written at e
  split at e
  · split at e
    · have chars := congrArg String.toList e
      rw [toList_parenthesized, toList_parenthesized, List.cons_inj_right] at chars
      exact String.toList_inj.1 (List.append_cancel_right chars)
    · exact absurd e (parenthesized_ne_text ha hb)
  · split at e
    · exact absurd e.symm (parenthesized_ne_text hb ha)
    · exact e

/-- **How an operator binds is read off its text**: no tighter than the loosest mark outside. -/
theorem le_binding_of_closed {op : Operator} (h : op.Legible) {k : Nat} (le : k ≤ 4)
    (closed : Closed (BindsFrom k) op.text.toList) : k ≤ op.binding := by
  cases op with
  | leaf name handle signature => exact le
  | composite name c children signature =>
      by_contra lt
      exact not_closed_composite h (BindsFrom.ne_mark (Nat.not_le.1 lt)) closed

theorem binding_of_text {a b : Operator} (ha : a.Legible) (hb : b.Legible) (e : a.text = b.text) :
    a.binding = b.binding := by
  have closedA := closed_text ha
  have closedB := closed_text hb
  rw [e] at closedA
  rw [← e] at closedB
  exact Nat.le_antisymm (le_binding_of_closed hb (binding_le a) closedA)
    (le_binding_of_closed ha (binding_le b) closedB)

/-- **Composites of one combinator that are written alike have children that are written alike.** -/
theorem written_of_text {m n : String} {c : Combinator} {as bs : List Operator}
    {s t : Signature} (ha : (composite m c as s).Legible) (hb : (composite n c bs t).Legible)
    (e : (composite m c as s).text = (composite n c bs t).text) :
    as.map (written c) = bs.map (written c) := by
  have chars := congrArg String.toList e
  rw [toList_text_composite, toList_text_composite] at chars
  have some {ks : List Operator} (two : 2 ≤ ks.length) : pieces c ks ≠ [] := by
    intro none
    have := congrArg List.length none
    rw [pieces, List.length_map, List.length_nil] at this
    omega
  have same := pieces_inj (closed_pieces ha.2) (closed_pieces hb.2) (some ha.1) (some hb.1) chars
  refine (List.map_inj_right fun _ _ => String.toList_inj.1).1 ?_
  rw [List.map_map, List.map_map]
  exact same

/-! ## 4. Written alike -/

mutual

theorem shape_of_text : ∀ {a b : Operator}, a.Legible → b.Legible → a.text = b.text →
    a.shape = b.shape
  | .leaf _ _ _, .leaf _ _ _, _, _, e => congrArg Shape.leaf e
  | .leaf _ _ _, .composite _ d _ _, ha, hb, e =>
      absurd (binding_of_text ha hb e) (Nat.ne_of_gt d.binding_lt_leaf)
  | .composite _ c _ _, .leaf _ _ _, ha, hb, e =>
      absurd (binding_of_text ha hb e) (Nat.ne_of_lt c.binding_lt_leaf)
  | .composite _ c as _, .composite _ d bs _, ha, hb, e => by
      obtain rfl : c = d := Combinator.binding_inj.1 (binding_of_text ha hb e)
      rw [shape, shape, shapes_of_written ha.2 hb.2 (written_of_text ha hb e)]

theorem shapes_of_written : ∀ {parent : Combinator} {as bs : List Operator}, LegibleAll as →
    LegibleAll bs → as.map (written parent) = bs.map (written parent) → shapes as = shapes bs
  | _, [], [], _, _, _ => rfl
  | _, [], _ :: _, _, _, e => nomatch e
  | _, _ :: _, [], _, _, e => nomatch e
  | _, a :: as, b :: bs, ha, hb, e => by
      rw [List.map_cons, List.map_cons, List.cons.injEq] at e
      rw [shapes, shapes, shape_of_text ha.1 hb.1 (text_of_written ha.1 hb.1 e.1),
        shapes_of_written ha.2 hb.2 e.2]

end

/-- Operators of one shape are put in parentheses alike. -/
theorem needsParentheses_of_shape {parent : Combinator} {a b : Operator} (e : a.shape = b.shape) :
    a.needsParentheses parent = b.needsParentheses parent := by
  cases a <;> cases b <;> simp only [shape, Shape.leaf.injEq, Shape.node.injEq, reduceCtorEq] at e
  · rfl
  · rw [needsParentheses, needsParentheses, e.1]

mutual

theorem text_of_shape : ∀ {a b : Operator}, a.shape = b.shape → a.text = b.text
  | .leaf _ _ _, .leaf _ _ _, e => Shape.leaf.inj e
  | .leaf _ _ _, .composite _ _ _ _, e => nomatch e
  | .composite _ _ _ _, .leaf _ _ _, e => nomatch e
  | .composite _ c as _, .composite _ d bs _, e => by
      obtain ⟨rfl, children⟩ := Shape.node.inj e
      rw [text, text, childTexts_of_shapes children]

theorem childTexts_of_shapes : ∀ {parent : Combinator} {as bs : List Operator},
    shapes as = shapes bs → childTexts parent as = childTexts parent bs
  | _, [], [], _ => rfl
  | _, [], _ :: _, e => nomatch e
  | _, _ :: _, [], e => nomatch e
  | _, a :: as, b :: bs, e => by
      obtain ⟨first, later⟩ := List.cons.inj e
      rw [childTexts, childTexts, needsParentheses_of_shape first, text_of_shape first,
        childTexts_of_shapes later]

end

/-- **The written form is unambiguous.** Operators whose composites have two children at least and whose
    leaves have no reserved character in their names are written alike exactly if they are the same tree
    of combinators with the same names of leaves. -/
theorem text_eq_iff_shape_eq {a b : Operator} (ha : a.Legible) (hb : b.Legible) :
    a.text = b.text ↔ a.shape = b.shape :=
  ⟨shape_of_text ha hb, text_of_shape⟩

/-- Two steps under a name of their own, which keeps them apart from the third. -/
def preparedSteps (name : String) (input : Schema) : Operator :=
  let step (name : String) : Operator := .leaf name none ⟨input, .any, .any⟩
  .composite "pipeline" .sequential
    [.composite name .sequential [step "scale", step "reduce"] ⟨input, .any, .any⟩, step "fit"]
    ⟨input, .any, .any⟩

theorem text_eq_iff_shape_eq_preparedSteps :
    ((preparedSteps "prep" .any).Legible ∧ (preparedSteps "before" (.scalar { kind := .string })).Legible ∧
      (preparedSteps "prep" .any).text = "(scale >> reduce) >> fit") ∧
    ((preparedSteps "prep" .any).text = (preparedSteps "before" (.scalar { kind := .string })).text ↔
      (preparedSteps "prep" .any).shape =
        (preparedSteps "before" (.scalar { kind := .string })).shape) := by
  have legible (name : String) (input : Schema) : (preparedSteps name input).Legible := by
    simp [preparedSteps, Legible, LegibleAll, IsReserved]
  exact ⟨⟨legible _ _, legible _ _, by decide +kernel⟩, text_eq_iff_shape_eq (legible _ _) (legible _ _)⟩

end Operator

end TypedPipeline
