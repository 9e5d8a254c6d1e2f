import Mathlib.Data.List.Basic
import TypedPipeline.Json.Writer

/-!
# Proofs.Json.Characters: what compact texts are made of

This file fixes the texts without control characters (`ControlFree`) and how they are put together,
and **that every compact text is one of them** (`Json.controlFree_compact`): between quotes control
characters are escaped, and nothing else writes any.
-/

namespace TypedPipeline

/-- There are no control characters in a text. -/
def ControlFree (s : String) : Prop := ∀ c ∈ s.toList, 32 ≤ c.toNat

-- not the instance that is found for all characters at once, which no evaluation gets through
instance : DecidablePred ControlFree := fun s =>
  List.decidableBAll (fun c : Char => 32 ≤ c.toNat) s.toList

/-! ## 1. Texts put together -/

theorem controlFree_ofList {cs : List Char} :
    ControlFree (String.ofList cs) ↔ ∀ c ∈ cs, 32 ≤ c.toNat := by
  rw [ControlFree, String.toList_ofList]

theorem controlFree_append {s t : String} :
    ControlFree (s ++ t) ↔ ControlFree s ∧ ControlFree t := by
  simp only [ControlFree, String.toList_append, List.forall_mem_append]

theorem controlFree_intercalate {separator : String} (h : ControlFree separator)
    {texts : List String} (each : ∀ t ∈ texts, ControlFree t) :
    ControlFree (separator.intercalate texts) := by
  induction texts with
  | nil => exact (by decide : ControlFree "")
  | cons t rest ih =>
      obtain ⟨first, later⟩ := List.forall_mem_cons.1 each
      cases rest with
      | nil => rwa [String.intercalate_singleton]
      | cons u rest =>
          rw [String.intercalate_cons_cons]
          exact controlFree_append.2 ⟨controlFree_append.2 ⟨first, h⟩, ih later⟩

/-! ## 2. Numbers -/

theorem le_of_mem_toDigits {n : Nat} {c : Char} (h : c ∈ Nat.toDigits 10 n) : 32 ≤ c.toNat := by
  have digit := Nat.isDigit_of_mem_toDigits (by decide) (by decide) h
  simp only [Char.isDigit, Bool.and_eq_true, decide_eq_true_eq] at digit
  have low : (48 : UInt32).toNat ≤ c.val.toNat := digit.1
  exact Nat.le_trans (by decide) low

theorem controlFree_repr (n : Nat) : ControlFree n.repr :=
  controlFree_ofList.2 fun _ => le_of_mem_toDigits

theorem controlFree_toString (i : Int) : ControlFree (toString i) := by
  cases i with
  | ofNat n => exact controlFree_repr n
  | negSucc n => exact controlFree_append.2 ⟨by decide, controlFree_repr (n + 1)⟩

theorem le_of_mem_zeros {n : Nat} {c : Char} (h : c ∈ List.replicate n '0') : 32 ≤ c.toNat := by
  rw [List.eq_of_mem_replicate h]
  decide

namespace NumberNotation

theorem controlFree_positionalText {suffix : String} (h : ControlFree suffix) (d : Decimal) :
    ControlFree (positionalText suffix d) := by
  have digits : ∀ c ∈ Decimal.digitChars d.digits, 32 ≤ c.toNat := fun _ => le_of_mem_toDigits
  rw [positionalText]
  dsimp only
  split
  · refine controlFree_ofList.2 (List.forall_mem_append.2 ⟨?_, digits⟩)
    exact List.forall_mem_cons.2 ⟨by decide, List.forall_mem_cons.2 ⟨by decide,
      fun _ hc => le_of_mem_zeros hc⟩⟩
  · split
    · exact controlFree_append.2 ⟨controlFree_ofList.2
        (List.forall_mem_append.2 ⟨digits, fun _ hc => le_of_mem_zeros hc⟩), h⟩
    · exact controlFree_ofList.2 (List.forall_mem_append.2
        ⟨fun c hc => digits c (List.mem_of_mem_take hc), List.forall_mem_cons.2
          ⟨by decide, fun c hc => digits c (List.mem_of_mem_drop hc)⟩⟩)

theorem controlFree_scientificText (d : Decimal) : ControlFree (scientificText d) := by
  have digits : ∀ c ∈ Decimal.digitChars d.digits, 32 ≤ c.toNat := fun _ => le_of_mem_toDigits
  rw [scientificText]
  refine controlFree_append.2 ⟨controlFree_append.2 ⟨controlFree_ofList.2 ?_, ?_⟩,
    controlFree_repr _⟩
  · split
    · simp
    · rename_i first e
      rwa [e] at digits
    · rename_i first rest _ e
      rw [e] at digits
      obtain ⟨one, others⟩ := List.forall_mem_cons.1 digits
      exact List.forall_mem_cons.2 ⟨one, List.forall_mem_cons.2 ⟨by decide, others⟩⟩
  · split <;> decide

theorem controlFree_document (x : Binary64) : ControlFree (document.text x) := by
  have magnitude (m : Nat) : ControlFree (document.magnitudeText m) := by
    rw [magnitudeText]
    split
    · decide
    · dsimp only
      split
      · exact controlFree_positionalText (by decide) _
      · exact controlFree_scientificText _
  have unsigned : ControlFree
      (if x.isFinite then document.magnitudeText x.magnitude else document.infinity) := by
    split
    · exact magnitude _
    · decide
  rw [text]
  split
  · decide
  · dsimp only
    split
    · exact controlFree_append.2 ⟨by decide, unsigned⟩
    · exact unsigned

end NumberNotation

/-! ## 3. Values -/

namespace Json

theorem le_digitChar : ∀ n < 16, 32 ≤ (Nat.digitChar n).toNat := by decide

theorem le_of_mem_escaped (c : Char) : ∀ d ∈ escaped c, 32 ≤ d.toNat := by
  rw [escaped]
  -- seven characters have an escape of their own, the other control characters one by their number
  iterate 7
    split
    · simp
  split
  · rename_i control
    simp only [List.forall_mem_cons]
    exact ⟨by decide, by decide, by decide, by decide, le_digitChar _ (by omega),
      le_digitChar _ (by omega), by simp⟩
  · rename_i visible
    exact List.forall_mem_singleton.2 (Nat.le_of_not_lt visible)

theorem controlFree_quoted (s : String) : ControlFree (quoted s) := by
  refine controlFree_ofList.2 (List.forall_mem_cons.2 ⟨by decide, List.forall_mem_append.2
    ⟨fun d hd => ?_, by simp⟩⟩)
  obtain ⟨c, _, hd⟩ := List.mem_flatMap.1 hd
  exact le_of_mem_escaped c d hd

mutual

/-- **Compact texts are free of control characters.** -/
theorem controlFree_compact (v : Json) : ControlFree v.compact := by
  cases v with
  | null => rw [compact]; decide
  | bool b => cases b <;> rw [compact] <;> decide
  | number n =>
      rw [compact]
      cases n with
      | int i => exact controlFree_toString i
      | float x => exact NumberNotation.controlFree_document x
  | text s => rw [compact]; exact controlFree_quoted s
  | array items =>
      rw [compact]
      exact controlFree_append.2 ⟨controlFree_append.2 ⟨by decide,
        controlFree_intercalate (by decide) (controlFree_compactItems items)⟩, by decide⟩
  | object members =>
      rw [compact]
      exact controlFree_append.2 ⟨controlFree_append.2 ⟨by decide,
        controlFree_intercalate (by decide) (controlFree_compactMembers members)⟩, by decide⟩

theorem controlFree_compactItems (items : List Json) :
    ∀ t ∈ compactItems items, ControlFree t := by
  cases items with
  | nil => simp [compactItems]
  | cons item rest =>
      rw [compactItems]
      exact List.forall_mem_cons.2 ⟨controlFree_compact item, controlFree_compactItems rest⟩

theorem controlFree_compactMembers (members : List (String × Json)) :
    ∀ t ∈ compactMembers members, ControlFree t := by
  cases members with
  | nil => simp [compactMembers]
  | cons member rest =>
      obtain ⟨name, value⟩ := member
      rw [compactMembers]
      exact List.forall_mem_cons.2 ⟨controlFree_append.2 ⟨controlFree_append.2
        ⟨controlFree_quoted name, by decide⟩, controlFree_compact value⟩,
        controlFree_compactMembers rest⟩

end

end Json

end TypedPipeline
