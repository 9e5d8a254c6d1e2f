import TypedPipeline.Proofs.Schema.Listing
import TypedPipeline.Proofs.Schema.Termination
import TypedPipeline.Proofs.Schema.Tolerance

/-!
# Proofs.Schema.Breakdown: comparisons that list too much

Where a consumer is enumerated, an integer producer is compared with it by the list of all its values.
If the difference of the two ends is no 64-bit integer, this list is longer than any can be: the
program breaks down there, whereas the comparison goes on with the list. Unions and combinators list
values in this comparison only. This file fixes:

* the scalars of which too much is listed (`Scalar.overflows`), and that all other lists are short
  (`Scalar.length_finiteDomain`);
* the comparison that has no answer where it comes to such a list (`answerWithin`), and **that its
  answers are those of the comparison** (`eq_of_answerWithin`);
* bounds that are never too far apart (`Schema.Moderate`), which merging keeps, and **that a producer
  with such bounds is always answered** (`answerWithin_of_moderate`); a comparison that is not.
-/

namespace TypedPipeline

/-! ## 1. Lists that are too long -/

namespace Scalar

open Binary64

variable {s : Scalar} {values : List Json}

/-- The values are listed from one integer to another that is too far from it for 64 bits. -/
def overflows (s : Scalar) : Bool :=
  match s.kind, s.tightRange with
  | .integer, (some low, some high) => 2 ^ 63 ≤ high.value.toInt64 - low.value.toInt64
  | _, _ => false

theorem overflows_iff : s.overflows = true ↔
    s.kind = .integer ∧ ∃ low high, s.Spans low high ∧ 2 ^ 63 ≤ high - low := by
  unfold overflows Spans tightRange
  cases kind : s.kind with
  | integer =>
      cases ha : s.minimum with
      | none => simp
      | some a =>
          cases hb : s.maximum with
          | none => simp
          | some b =>
              simp only [if_true, Option.map_some, Bound.inclusive, decide_eq_true_eq, Option.mem_def,
                Option.some.injEq, exists_eq_left', true_and]
              constructor
              · intro far
                exact ⟨_, _, ⟨rfl, rfl, by omega⟩, far⟩
              · intro h
                obtain ⟨low, high, ⟨rfl, rfl, -⟩, far⟩ := h
                exact far
  | _ => simp

/-- **A list of values is short, or longer than any list can be.** -/
theorem length_finiteDomain (h : s.finiteDomain = some values) :
    if s.overflows = true then 2 ^ 63 < values.length else values.length ≤ maxListed := by
  cases kind : s.kind with
  | integer =>
      split
      · rename_i overflow
        obtain ⟨-, low, high, spans, far⟩ := overflows_iff.1 overflow
        obtain ⟨least, -, most⟩ := spans.bounds
        obtain ⟨listed, e, long⟩ := listedRange_of_overflow far (by omega)
        rw [spans.finiteDomain kind, e] at h
        cases h
        exact long
      · rename_i fits
        rw [overflows_iff] at fits
        have near (low high : Int) (spans : s.Spans low high) : high - low < 2 ^ 63 := by
          by_contra far
          exact fits ⟨kind, low, high, spans, by omega⟩
        rcases finiteDomain_of_fits kind near h with ⟨rfl, -⟩ | ⟨low, high, spans, few, rfl⟩
        · decide
        · have le := spans.bounds.2.1
          rw [List.length_map, length_wholeNumbers]
          omega
  | boolean | null =>
      have small : s.overflows = false := by rw [overflows, kind]
      rw [finiteDomain, kind] at h
      cases h
      rw [small]
      decide
  | number | string =>
      rw [finiteDomain, kind] at h
      cases h

end Scalar

namespace Schema

/-! ## 2. The comparison without an answer -/

/-- A check comes to a list that is too long: the producer is not enumerated, the consumer is, and
    their kinds fit. -/
def listsTooMuch : Schema → Schema → Bool
  | .scalar x, .scalar y =>
    x.effectiveEnumeration.isNone && (x.kind = y.kind || (x.kind = .integer && y.kind = .number))
      && y.enumeration.isSome && x.overflows
  | _, _ => false

/-- What a check does, given the checks that it calls for; it has no answer if it lists too much, or if
    one of those has none. -/
def answerBody (call : Schema → Schema → Path → Option Fit) (a b : Schema) (path : Path) :
    Option Fit :=
  if listsTooMuch a b then none else fitBody call a b path

/-- The check of a producer against a consumer, with no more than so many checks inside each other. It
    has no answer if one of those that it comes to lists too much. -/
def answerWithin (depth : Nat) (a b : Schema) : Option Fit :=
  callsWithin (fun call x => answerBody (fun a b path => call (a, b, path)) x.1 x.2.1 x.2.2) depth
    (a, b, .root)

/-- Where there is an answer, it is that of the other one. -/
def Agrees {α β : Type} (partly other : α → Option β) : Prop :=
  ∀ x y, partly x = some y → other x = some y

theorem bind_agrees {α β : Type} {x x' : Option α} {k k' : α → Option β} {b : β}
    (first : ∀ a, x = some a → x' = some a) (then' : Agrees k k') (h : x >>= k = some b) :
    x' >>= k' = some b := by
  obtain ⟨a, ha, h⟩ := Option.bind_eq_some_iff.1 h
  rw [first a ha]
  exact then' a b h

section Agreement

variable {fits fits' : Schema → Option Fit} {schemas : List Schema}

theorem everyFits_agrees (agree : Agrees fits fits') {fit : Fit}
    (h : everyFits fits schemas = some fit) : everyFits fits' schemas = some fit := by
  induction schemas generalizing fit with
  | nil => exact h
  | cons s rest ih =>
      refine bind_agrees (agree s) (fun first fit h => ?_) h
      cases first with
      | ok _ => exact ih h
      | error e => exact h

theorem someFits_agrees (agree : Agrees fits fits') {outcome : Except (List Mismatch) Unit}
    (h : someFits fits schemas = some outcome) : someFits fits' schemas = some outcome := by
  induction schemas generalizing outcome with
  | nil => exact h
  | cons s rest ih =>
      refine bind_agrees (agree s) (fun first outcome h => ?_) h
      cases first with
      | ok _ => exact h
      | error e => exact bind_agrees (fun _ => ih) (fun _ _ => id) h

variable {call call' : Schema → Schema → Path → Option Fit} {a b : Schema} {path : Path} {fit : Fit}

theorem propertiesFit_agrees {as all bs : List (String × Schema)} {rules others : ObjectRules}
    (agree : ∀ a b, Agrees (call a b) (call' a b))
    (h : propertiesFit call as rules all others path bs = some fit) :
    propertiesFit call' as rules all others path bs = some fit := by
  induction bs generalizing fit with
  | nil => exact h
  | cons p rest ih =>
      obtain ⟨name, b⟩ := p
      rw [propertiesFit] at h ⊢
      cases found : Keyed.find? as name with
      | some a =>
          simp only [found] at h ⊢
          refine bind_agrees (agree a b (path.property name)) (fun first fit h => ?_) h
          cases first with
          | ok _ => exact ih h
          | error e => exact h
      | none =>
          simp only [found] at h ⊢
          split at h
          · rename_i needed
            rw [if_pos needed]
            exact h
          · rename_i free
            rw [if_neg free]
            exact ih h

/-- What a check makes of the answers that it is given does not change with more answers. -/
theorem fitBody_agrees (agree : ∀ a b, Agrees (call a b) (call' a b))
    (h : fitBody call a b path = some fit) : fitBody call' a b path = some fit := by
  have producers (b : Schema) : Agrees (call · b path) (call' · b path) := fun a => agree a b path
  have consumers (a : Schema) : Agrees (call a · path) (call' a · path) := fun b => agree a b path
  rw [fitBody.eq_def] at h
  split at h
  all_goals rw [fitBody]
  -- what is left are the forms that call for other checks
  all_goals try assumption
  · exact everyFits_agrees (producers _) h
  · exact everyFits_agrees (producers _) h
  · exact everyFits_agrees (consumers _) h
  · rename_i branches _ _
    refine bind_agrees (fun _ => someFits_agrees (producers _)) (fun outcome fit h => ?_) h
    cases outcome with
    | ok _ => exact h
    | error errors =>
        dsimp only at h ⊢
        cases merge : intersectAll branches with
        | none =>
            simp only [merge] at h
            exact h
        | some merged =>
            simp only [merge] at h
            exact bind_agrees (agree merged b path) (fun _ _ => id) h
  · exact bind_agrees (fun _ => someFits_agrees (consumers _)) (fun _ _ => id) h
  · exact bind_agrees (fun _ => someFits_agrees (consumers _)) (fun _ _ => id) h
  · exact bind_agrees (fun _ => propertiesFit_agrees agree) (fun _ _ => id) h
  · split at h
    · rename_i fits
      rw [if_pos fits]
      exact agree _ _ _ _ h
    · rename_i apart
      rw [if_neg apart]
      exact h

end Agreement

/-- **An answer is that of the comparison.** -/
theorem eq_of_answerWithin {a b : Schema} {depth : Nat} {fit : Fit}
    (h : answerWithin depth a b = some fit) :
    checkSubsumption a b = fit := by
  rw [checkSubsumption]
  unfold answerWithin at h
  generalize Path.root = path at h ⊢
  induction depth generalizing a b path fit with
  | zero => cases h
  | succ depth ih =>
      rw [callsWithin, answerBody] at h
      split at h
      · cases h
      · have given : fitBody (fun a b place => some (checkSubsumptionAt a b place)) a b path = some fit :=
          fitBody_agrees (fun _ _ place _ h => congrArg some (ih place h)) h
        rw [fitBody_eq fun _ _ _ _ _ => rfl] at given
        exact Option.some.inj given

end Schema

/-! ## 3. Bounds that are never too far apart -/

namespace Scalar

open Binary64

variable {s : Scalar} {b : Bound}

/-- The lower bound is not below `-2 ^ 61`, and the upper one not above `2 ^ 61`. -/
structure Moderate (s : Scalar) : Prop where
  low : ∀ b ∈ s.minimum, b.value.isFinite = true ∧ -2 ^ 61 * unitsPerOne ≤ b.value.units
  high : ∀ b ∈ s.maximum, b.value.isFinite = true ∧ b.value.units ≤ 2 ^ 61 * unitsPerOne

/-- The whole number that a lower bound is moved to is not below an integer that the bound is not
    below. -/
theorem units_ofInt_le_wholeLower {n : Int} (hb : b.value.isFinite = true)
    (le : n * unitsPerOne ≤ b.value.units) : (ofInt n).units ≤ (wholeLower b).units := by
  obtain ⟨floored, fin⟩ := units_floor hb
  obtain ⟨units, fin'⟩ := units_ceil hb
  unfold wholeLower
  split
  · have below := (le_units_floor_iff hb n).2 le
    rw [floored] at below
    rw [(units_add_one fin floored).1]
    have := Int.le_of_mul_le_mul_right below unitsPerOne_pos
    exact units_ofInt_mono (by omega)
  · have above := (units_ceil_le_iff hb _).1 (Int.le_of_eq units)
    rw [units, ← units_ofInt_of_units fin' units]
    exact units_ofInt_mono (Int.le_of_mul_le_mul_right (Int.le_trans le above) unitsPerOne_pos)

theorem wholeUpper_le_units_ofInt {n : Int} (hb : b.value.isFinite = true)
    (le : b.value.units ≤ n * unitsPerOne) : (wholeUpper b).units ≤ (ofInt n).units := by
  obtain ⟨floored, fin⟩ := units_floor hb
  obtain ⟨units, fin'⟩ := units_ceil hb
  unfold wholeUpper
  split
  · have above := (units_ceil_le_iff hb n).2 le
    rw [units] at above
    rw [(units_sub_one fin' units).1]
    have := Int.le_of_mul_le_mul_right above unitsPerOne_pos
    exact units_ofInt_mono (by omega)
  · have below := (le_units_floor_iff hb _).1 (Int.le_of_eq floored.symm)
    rw [floored, ← units_ofInt_of_units fin floored]
    exact units_ofInt_mono (Int.le_of_mul_le_mul_right (Int.le_trans below le) unitsPerOne_pos)

/-- **Moderate bounds are never too far apart for a list.** -/
theorem Moderate.overflows (h : s.Moderate) : s.overflows = false := by
  rw [← Bool.not_eq_true, overflows_iff]
  intro overflow
  obtain ⟨-, low, high, ⟨a, ha, c, hc, rfl, rfl, -⟩, far⟩ := overflow
  obtain ⟨finite, above⟩ := h.low a ha
  obtain ⟨finite', below⟩ := h.high c hc
  have low := toInt64_mono (isNaN_ofInt _) (whole_wholeLower finite).1
    (units_ofInt_le_wholeLower finite above)
  have high := toInt64_mono (whole_wholeUpper finite').1 (isNaN_ofInt _)
    (wholeUpper_le_units_ofInt finite' below)
  rw [show (ofInt (-2 ^ 61)).toInt64 = -2 ^ 61 by decide +kernel] at low
  rw [show (ofInt (2 ^ 61)).toInt64 = 2 ^ 61 by decide +kernel] at high
  omega

end Scalar

namespace Schema

variable {a b x : Schema} {depth : Nat}

def ModeratePart : Schema → Prop
  | .scalar s => s.Moderate
  | _ => True

/-- The bounds of all scalars inside are moderate. -/
def Moderate : Schema → Prop := Every ModeratePart

theorem KeptByMerging.moderatePart : KeptByMerging ModeratePart where
  scalar {x y _} h hx hy := by
    obtain ⟨low, high, -⟩ := Scalar.parts_of_meet? h
    have both : ∀ z ∈ [x, y], z.Moderate :=
      List.forall_mem_cons.2 ⟨hx, List.forall_mem_singleton.2 hy⟩
    refine ⟨fun b hb => ?_, fun b hb => ?_⟩
    · obtain ⟨z, hz, hb⟩ := low b hb
      exact (both z hz).low b hb
    · obtain ⟨z, hz, hb⟩ := high b hb
      exact (both z hz).high b hb
  object _ _ _ := trivial
  array _ _ := trivial

theorem Moderate.listsTooMuch (h : a.Moderate) : listsTooMuch a b = false := by
  cases a with
  | scalar x =>
      have fits : x.overflows = false := Scalar.Moderate.overflows h.self
      cases b with
      | scalar y => rw [Schema.listsTooMuch, fits, Bool.and_false]
      | _ => rfl
  | _ => rfl

/-- The producers that a check goes on with are moderate if its own is. -/
theorem Moderate.goesOnWith (regular : a.Regular) (h : a.Moderate) (goes : a.GoesOnWith x) :
    x.Regular ∧ x.Moderate := by
  rcases goes with part | ⟨branches, rfl, merge⟩
  · exact ⟨Every.of_mem regular part, Every.of_mem h part⟩
  · exact ⟨KeptByMerging.regularPart.of_intersectAll (fun _ hc => Every.allOf regular hc)
        (fun _ hc => Every.allOf regular hc) merge,
      KeptByMerging.moderatePart.of_intersectAll (fun _ hc => Every.allOf regular hc)
        (fun _ hc => Every.allOf h hc) merge⟩

/-- **A producer with moderate bounds is always answered**, whatever the consumer, so that the program
    does not break down where it compares such schemas. -/
theorem answerWithin_of_moderate (regular : a.Regular) (h : a.Moderate)
    (enough : a.size + b.size < depth) : answerWithin depth a b = some (checkSubsumption a b) := by
  refine callsWithin_eq_of (fun x : Schema × Schema × Path => checkSubsumptionAt x.1 x.2.1 x.2.2)
    (fun x => x.1.size + x.2.1.size) (fun x => x.1.Regular ∧ x.1.Moderate) (fun x call hx smaller => ?_)
    ⟨regular, h⟩ enough
  rw [answerBody, hx.2.listsTooMuch, if_neg Bool.false_ne_true]
  exact fitBody_eq fun a b place goes small => smaller (a, b, place) (hx.2.goesOnWith hx.1 goes) small

/-- All 64-bit integers are listed for a consumer that has one of them, and there is no answer. -/
theorem not_answerWithin_int64Range (depth : Nat) :
    answerWithin depth (.scalar Scalar.int64Range) (.scalar (enumerated .integer [.int 5])) = none := by
  cases depth with
  | zero => rfl
  | succ depth =>
      rw [answerWithin, callsWithin, answerBody, if_pos (by decide +kernel)]

end Schema

end TypedPipeline
