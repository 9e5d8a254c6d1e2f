import TypedPipeline.Operator

/-!
# Operator.Keys: the keys of children

The schemas of the children of a composite are put together under one key for each child. A key is
the name of the child, or if an earlier child has taken that, the name with the smallest number
behind it that makes it free (`freeKey`). Main lemmas: the search for it ends, since each key that it
meets is another one of those taken (`length_unmet_lt`); it stops at the first candidate that is not
taken (`freeKey_spec`); the keys are as many as the children and differ from each other
(`keysAfter_length`, `keysAfter_nodup`).
-/

namespace TypedPipeline

/-- A name with a number behind it. -/
def numberedKey (base : String) (number : Nat) : String :=
  base ++ "_" ++ toString number

/-- What is tried for a name, in order: the name itself, then the name with 1, 2, … behind it. -/
def candidateKey (base : String) : (number : Nat) → String
  | 0 => base
  | number + 1 => numberedKey base (number + 1)

theorem numberedKey_injective {base : String} {i j : Nat}
    (h : numberedKey base i = numberedKey base j) : i = j := by
  have h' : base.toList ++ '_' :: Nat.toDigits 10 i = base.toList ++ '_' :: Nat.toDigits 10 j := by
    have := congrArg String.toList h
    simpa [numberedKey, String.toList_append, toString, Nat.repr_eq_ofList_toDigits] using this
  have h'' := List.append_cancel_left h'
  simp only [List.cons.injEq, true_and] at h''
  rw [← Nat.ofDigitChars_ten_toDigits (n := i), h'', Nat.ofDigitChars_ten_toDigits]

theorem numberedKey_ne (base : String) (number : Nat) : numberedKey base number ≠ base := by
  intro e
  have := congrArg (fun s => s.toList.length) e
  simp [numberedKey, String.toList_append] at this

/-- No candidate is tried twice. -/
theorem candidateKey_injective {base : String} {i j : Nat}
    (h : candidateKey base i = candidateKey base j) : i = j := by
  match i, j with
  | 0, 0 => rfl
  | 0, j + 1 => exact absurd h.symm (numberedKey_ne base _)
  | i + 1, 0 => exact absurd h (numberedKey_ne base _)
  | i + 1, j + 1 => exact numberedKey_injective h

/-- The keys that are taken, without the candidates before a number. -/
def unmet (taken : List String) (base : String) (number : Nat) : List String :=
  taken.filter fun key => key ∉ (List.range number).map (candidateKey base)

/-- A candidate that is taken is met once. -/
theorem length_unmet_lt {taken : List String} {base : String} {number : Nat}
    (h : candidateKey base number ∈ taken) :
    (unmet taken base (number + 1)).length < (unmet taken base number).length := by
  have here : candidateKey base number ∈ unmet taken base number := by
    refine List.mem_filter.2 ⟨h, decide_eq_true fun met => ?_⟩
    obtain ⟨i, hi, e⟩ := List.mem_map.1 met
    have := candidateKey_injective e
    rw [List.mem_range] at hi
    omega
  have less : unmet taken base (number + 1) =
      (unmet taken base number).filter fun key => key ≠ candidateKey base number := by
    rw [unmet, unmet, List.filter_filter]
    refine List.filter_congr fun key _ => ?_
    simp [List.range_succ, and_comm]
  rw [less]
  exact List.length_filter_lt_length_iff_exists.2 ⟨_, here, by simp⟩

/-- The first candidate from a number on that is not taken. -/
def freeKeyFrom (taken : List String) (base : String) (number : Nat) : String :=
  if _h : candidateKey base number ∈ taken then freeKeyFrom taken base (number + 1)
  else candidateKey base number
termination_by (unmet taken base number).length
decreasing_by exact length_unmet_lt _h

/-- The key for a name, among keys that are taken. -/
def freeKey (taken : List String) (base : String) : String := freeKeyFrom taken base 0

/-- The keys for names in a row, after keys that are taken. -/
def keysAfter (taken : List String) : List String → List String
  | [] => []
  | name :: rest =>
    let key := freeKey taken name
    key :: keysAfter (taken ++ [key]) rest

/-- The keys of operators that are children of one composite. -/
def childKeys (children : List Operator) : List String := keysAfter [] (children.map (·.name))

/-! ## The keys are free -/

/-- All candidates before the one that is found are taken, and that one is not. There are no more of
    them than keys that have not been met. -/
theorem freeKeyFrom_spec (taken : List String) (base : String) (number : Nat) :
    ∃ found, number ≤ found ∧ found ≤ number + (unmet taken base number).length ∧
      freeKeyFrom taken base number = candidateKey base found ∧ candidateKey base found ∉ taken ∧
      ∀ i, number ≤ i → i < found → candidateKey base i ∈ taken := by
  fun_induction freeKeyFrom taken base number with
  | case1 number h ih =>
    obtain ⟨found, low, high, e, free, before⟩ := ih
    have := length_unmet_lt h
    refine ⟨found, by omega, by omega, e, free, fun i ge lt => ?_⟩
    rcases Nat.eq_or_lt_of_le ge with rfl | gt
    · exact h
    · exact before i gt lt
  | case2 number h =>
    exact ⟨number, Nat.le_refl _, Nat.le_add_right _ _, rfl, h, fun i ge lt => by omega⟩

theorem freeKey_spec (taken : List String) (base : String) :
    ∃ found ≤ taken.length, freeKey taken base = candidateKey base found ∧
      candidateKey base found ∉ taken ∧ ∀ i < found, candidateKey base i ∈ taken := by
  obtain ⟨found, _, high, e, free, before⟩ := freeKeyFrom_spec taken base 0
  have : (unmet taken base 0).length ≤ taken.length := List.length_filter_le _ _
  exact ⟨found, by omega, e, free, fun i lt => before i (Nat.zero_le i) lt⟩

theorem freeKey_not_mem (taken : List String) (base : String) : freeKey taken base ∉ taken := by
  obtain ⟨found, _, e, free, _⟩ := freeKey_spec taken base
  rw [e]
  exact free

theorem keysAfter_length (taken names : List String) :
    (keysAfter taken names).length = names.length := by
  induction names generalizing taken with
  | nil => rfl
  | cons name rest ih => simp [keysAfter, ih]

/-- The keys after keys that are taken are none of those, and differ from each other. -/
theorem keysAfter_nodup (taken names : List String) :
    (keysAfter taken names).Nodup ∧ ∀ key ∈ keysAfter taken names, key ∉ taken := by
  induction names generalizing taken with
  | nil => simp [keysAfter]
  | cons name rest ih =>
    obtain ⟨nodup, free⟩ := ih (taken ++ [freeKey taken name])
    simp only [keysAfter, List.nodup_cons, List.mem_cons]
    refine ⟨⟨fun h => free _ h (by simp), nodup⟩, ?_⟩
    rintro key (rfl | h)
    · exact freeKey_not_mem taken name
    · exact fun hk => free key h (by simp [hk])

end TypedPipeline
