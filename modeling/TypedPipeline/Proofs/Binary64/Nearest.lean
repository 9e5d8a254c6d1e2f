import TypedPipeline.Binary64.Rounding

/-!
# Proofs.Binary64.Nearest: the laws of rounding

Rounding is used through three laws, and never opened again:

* it is monotone (`roundedMagnitude_mono`): the pattern of a larger number of units is not smaller;
* it keeps what a pattern stands for (`roundedMagnitude_weight`);
* every number with at most 53 significant bits is what some pattern stands for
  (`exists_weight_eq`), so integers up to `2 ^ 53` are held exactly (`units_ofInt`).
-/

namespace TypedPipeline

/-! ## 1. Halves to even -/

theorem roundHalfEven_mono {m n : Nat} (den : Nat) (h : m ≤ n) :
    roundHalfEven m den ≤ roundHalfEven n den := by
  by_cases hd : den = 0
  · subst hd
    simp only [roundHalfEven, Nat.div_zero, Nat.mod_zero, Nat.not_lt_zero, if_false]
    split <;> split <;> omega
  · have hq : m / den ≤ n / den := Nat.div_le_div_right h
    have hm := Nat.div_add_mod m den
    have hn := Nat.div_add_mod n den
    unfold roundHalfEven
    dsimp only
    rcases Nat.lt_or_ge (m / den) (n / den) with lt | ge
    · (repeat' split) <;> omega
    · -- one quotient: the remainders are in the order of the numbers
      have eq : m / den = n / den := Nat.le_antisymm hq ge
      rw [eq] at hm ⊢
      have hr : m % den ≤ n % den := by omega
      (repeat' split) <;> omega

namespace Binary64

/-! ## 2. Patterns of 53 significant bits -/

theorem weight_le_weight {m n : Nat} (h : m ≤ n) : weight m ≤ weight n := by
  rcases Nat.eq_or_lt_of_le h with rfl | lt
  · exact Nat.le_refl _
  · exact Nat.le_of_lt (weight_lt_weight lt)

/-- A significand `q` at the scale `s` is the pattern `s * 2 ^ 52 + q`, also where `q` carries into
    a 54th bit. -/
theorem weight_shift {s q : Nat} (low : s = 0 ∨ 2 ^ 52 ≤ q) (high : q ≤ 2 ^ 53) :
    weight (s * 2 ^ 52 + q) = q * 2 ^ s := by
  by_cases small : q < 2 ^ 52
  · obtain rfl : s = 0 := low.resolve_right (Nat.not_le.2 small)
    rw [Nat.zero_mul, Nat.zero_add, weight_of_lt small, Nat.pow_zero, Nat.mul_one]
  · by_cases carry : q = 2 ^ 53
    · have e : s * 2 ^ 52 + q = 0 + 2 ^ 52 * (s + 1 + 1) := by omega
      have double : 2 ^ 53 * 2 ^ s = 2 ^ 52 * 2 ^ (s + 1) := by
        rw [← Nat.pow_add, ← Nat.pow_add, Nat.add_comm s 1, ← Nat.add_assoc]
      rw [e, weight_add_mul (s + 1) (Nat.two_pow_pos 52), carry, double, Nat.add_zero]
    · have e : s * 2 ^ 52 + q = (q - 2 ^ 52) + 2 ^ 52 * (s + 1) := by omega
      rw [e, weight_add_mul s (by omega), Nat.add_sub_cancel' (by omega)]

/-- **Every multiple of a power of two with a short factor is what a pattern stands for.** -/
theorem exists_weight_eq {a : Nat} (h : a ≤ 2 ^ 53) (s : Nat) :
    ∃ m ≤ (s + 2) * 2 ^ 52, weight m = a * 2 ^ s := by
  by_cases small : a < 2 ^ 52
  · -- move the leading bit up to the 53rd place, as far as the scale allows
    induction s generalizing a with
    | zero => exact ⟨a, by omega, by rw [weight_of_lt small, Nat.pow_zero, Nat.mul_one]⟩
    | succ s ih =>
        have double : a * 2 ^ (s + 1) = 2 * a * 2 ^ s := by rw [Nat.pow_succ']; ac_rfl
        by_cases next : 2 * a < 2 ^ 52
        · obtain ⟨m, hm, e⟩ := ih (by omega) next
          exact ⟨m, Nat.le_trans hm (Nat.mul_le_mul_right _ (by omega)), by rw [e, double]⟩
        · refine ⟨s * 2 ^ 52 + 2 * a, by omega, ?_⟩
          rw [weight_shift (Or.inr (by omega)) (by omega), double]
  · exact ⟨s * 2 ^ 52 + a, by omega, weight_shift (Or.inr (by omega)) h⟩

/-! ## 3. Rounding -/

/-- The leading bits that rounding keeps, at the scale it chooses. -/
theorem rounded_bounds (n : Nat) :
    (n.log2 + 1 - 53 = 0 ∨ 2 ^ 52 ≤ roundHalfEven n (2 ^ (n.log2 + 1 - 53))) ∧
      roundHalfEven n (2 ^ (n.log2 + 1 - 53)) ≤ 2 ^ 53 := by
  generalize hs : n.log2 + 1 - 53 = s
  constructor
  · by_cases zero : s = 0
    · exact Or.inl zero
    · right
      have hn : n ≠ 0 := by rintro rfl; simp at hs; omega
      have least : 2 ^ 52 * 2 ^ s ≤ n := by
        have e : 52 + s = n.log2 := by omega
        rw [← Nat.pow_add, e]
        exact Nat.log2_self_le hn
      calc 2 ^ 52 = roundHalfEven (2 ^ 52 * 2 ^ s) (2 ^ s) :=
            (roundHalfEven_mul_self _ (Nat.two_pow_pos s)).symm
        _ ≤ roundHalfEven n (2 ^ s) := roundHalfEven_mono _ least
  · have most : n ≤ 2 ^ 53 * 2 ^ s := by
      have lt : n < 2 ^ (n.log2 + 1) := Nat.lt_log2_self
      have le : 2 ^ (n.log2 + 1) ≤ 2 ^ (53 + s) := Nat.pow_le_pow_right (by decide) (by omega)
      rw [← Nat.pow_add]
      exact Nat.le_of_lt (Nat.lt_of_lt_of_le lt le)
    calc roundHalfEven n (2 ^ s) ≤ roundHalfEven (2 ^ 53 * 2 ^ s) (2 ^ s) :=
          roundHalfEven_mono _ most
      _ = 2 ^ 53 := roundHalfEven_mul_self _ (Nat.two_pow_pos s)

/-- **Rounding is monotone.** -/
theorem roundedMagnitude_mono {m n : Nat} (h : m ≤ n) :
    roundedMagnitude m 1 ≤ roundedMagnitude n 1 := by
  have hm := rounded_bounds m
  have hn := rounded_bounds n
  have hlog : m.log2 ≤ n.log2 := by
    by_cases zero : m = 0
    · simp [zero]
    · exact (Nat.le_log2 (by omega)).2 (Nat.le_trans (Nat.log2_self_le zero) h)
  simp only [roundedMagnitude, Nat.div_one, Nat.one_mul]
  have key : (m.log2 + 1 - 53) * 2 ^ 52 + roundHalfEven m (2 ^ (m.log2 + 1 - 53)) ≤
      (n.log2 + 1 - 53) * 2 ^ 52 + roundHalfEven n (2 ^ (n.log2 + 1 - 53)) := by
    rcases Nat.eq_or_lt_of_le (show m.log2 + 1 - 53 ≤ n.log2 + 1 - 53 by omega) with eq | lt
    · rw [eq]
      exact Nat.add_le_add_left (roundHalfEven_mono _ h) _
    · -- a larger scale leaves at least 53 bits, which no carry below it exceeds
      have := hn.1.resolve_left (by omega)
      have := hm.2
      omega
  exact Nat.le_min.2 ⟨Nat.le_trans (Nat.min_le_left _ _) key, Nat.min_le_right _ _⟩

/-- **Rounding keeps what a pattern stands for.** -/
theorem roundedMagnitude_weight {m : Nat} (h : m ≤ infiniteMagnitude) :
    roundedMagnitude (weight m) 1 = m := by
  simp only [roundedMagnitude, Nat.div_one, Nat.one_mul]
  by_cases small : m < 2 ^ 52
  · have e : m.log2 + 1 - 53 = 0 := by
      by_cases zero : m = 0
      · simp [zero]
      · have := (Nat.log2_lt zero).2 small
        omega
    rw [weight_of_lt small, e, Nat.zero_mul, Nat.zero_add, Nat.pow_zero]
    have self := roundHalfEven_mul_self m Nat.one_pos
    rw [Nat.mul_one] at self
    rw [self]
    exact Nat.min_eq_left h
  · obtain ⟨e, f, hf, rfl⟩ : ∃ e f, f < 2 ^ 52 ∧ m = f + 2 ^ 52 * (e + 1) :=
      ⟨m / 2 ^ 52 - 1, m % 2 ^ 52, by omega, by omega⟩
    have hlog : (2 ^ 52 + f).log2 = 52 := (Nat.log2_eq_iff (by omega)).2 ⟨Nat.le_add_right _ _, Nat.add_lt_add_left hf _⟩
    have shift : ((2 ^ 52 + f) * 2 ^ e).log2 + 1 - 53 = e := by
      rw [log2_mul_two_pow (by omega), hlog]; omega
    rw [weight_add_mul e hf, shift, roundHalfEven_mul_self _ (Nat.two_pow_pos e)]
    have sum : e * 2 ^ 52 + (2 ^ 52 + f) = f + 2 ^ 52 * (e + 1) := by omega
    rw [sum]
    exact Nat.min_eq_left h

end Binary64

end TypedPipeline
