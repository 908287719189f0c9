import Stylesheet.Proofs.Numeric.Places

/-! # Doubles that are integers

A double may be an integer of any size (**`Binary64.IsInt`**). Such an integer is turned into the very double it came
from, zero apart, which loses its sign (**`Binary64.ofInt_eq`**). What is lost on the way through the integers of 64
bits lies beyond them: an integer is held to these, and the bound it is then held to is `2 ^ 63` on either side
(**`Binary64.IsInt.ofInt_held`**), since the greatest of them has no double and becomes the next power of two. -/

namespace Stylesheet

namespace Binary64

/-- The number that a double stands for. -/
def value (v : Binary64) : ℚ := if v.negative then -v.magnitude else v.magnitude

/-- The double is this integer. -/
def IsInt (x : Float) (i : ℤ) : Prop := ∃ v, ofFloat? x = some v ∧ v.value = i

/-- An integer, held to the signed ones of 64 bits. -/
def held (i : ℤ) : ℤ := max leastInteger (min greatestInteger i)

/-- Holding integers within machine words keeps their order. -/
theorem held_le_held {i j : ℤ} (h : i ≤ j) : held i ≤ held j := by
  unfold held
  omega

variable {x : Float} {v : Binary64} {i : ℤ}

/-- The magnitude of a double is not negative. -/
theorem magnitude_nonneg (v : Binary64) : 0 ≤ v.magnitude := by
  unfold magnitude
  positivity

/-- The sign of a double is that of its number. -/
theorem magnitude_eq_natAbs (h : v.value = i) : v.magnitude = i.natAbs := by
  have abs : |v.value| = v.magnitude := by
    unfold value
    split
    · rw [abs_neg, abs_of_nonneg v.magnitude_nonneg]
    · rw [abs_of_nonneg v.magnitude_nonneg]
  rw [← abs, h, Nat.cast_natAbs, Int.cast_abs]

/-- Other than zero, a double is negative if the integer that is its value is. -/
theorem negative_eq (h : v.value = i) (ne : i ≠ 0) : v.negative = decide (i < 0) := by
  have nonneg := v.magnitude_nonneg
  unfold value at h
  split at h
  next negative =>
    have : (i : ℚ) ≤ 0 := by linarith
    have : i ≤ 0 := by exact_mod_cast this
    rw [negative, eq_comm, decide_eq_true_eq]
    omega
  next positive =>
    have : (0 : ℚ) ≤ i := by linarith
    have : 0 ≤ i := by exact_mod_cast this
    rw [Bool.eq_false_iff.2 positive, eq_comm, decide_eq_false_iff_not]
    omega

/-- An integer has nothing behind the point. -/
theorem isWhole_of_value (h : v.value = i) : v.isWhole = true := by
  have magnitude := magnitude_eq_natAbs h
  unfold isWhole
  rw [Bool.or_eq_true, decide_eq_true_eq, beq_iff_eq]
  rcases Int.lt_or_le v.exponent 0 with below | above
  · obtain ⟨k, hk⟩ : ∃ k : Nat, v.exponent = -k := ⟨(-v.exponent).toNat, by omega⟩
    rw [Binary64.magnitude, hk, zpow_neg, zpow_natCast, ← div_eq_mul_inv, div_eq_iff (by positivity)] at magnitude
    have whole : v.mantissa = i.natAbs * 2 ^ k := by exact_mod_cast magnitude
    rw [hk, Int.neg_neg, Int.toNat_natCast, whole]
    exact .inr (Nat.mul_mod_left _ _)
  · exact .inl above

/-- The whole part of a double whose value is an integer is the size of that integer. -/
theorem wholePart_eq_natAbs (h : v.value = i) : v.wholePart = i.natAbs := by
  have whole := wholePart_eq (isWhole_of_value h)
  rw [magnitude_eq_natAbs h] at whole
  exact_mod_cast whole

/-- A double whose value is an integer is truncated to that integer. -/
theorem truncate_of_value (h : v.value = i) : v.truncate = i := by
  unfold truncate
  rw [wholePart_eq_natAbs h]
  by_cases zero : i = 0
  · rw [zero]
    split <;> rfl
  · rw [negative_eq h zero]
    simp only [decide_eq_true_eq]
    split <;> omega

/-- A double is one integer only. -/
theorem IsInt.unique {j : ℤ} (h : IsInt x i) (h' : IsInt x j) : i = j := by
  obtain ⟨v, hv, value⟩ := h
  obtain ⟨w, hw, value'⟩ := h'
  cases hv.symm.trans hw
  rw [← truncate_of_value value, truncate_of_value value']

/-- A double that is an integer is read as this integer, held to 64 bits. -/
theorem IsInt.integer? (h : IsInt x i) : (Number.ofFloat x).integer? = some (held i) := by
  obtain ⟨v, hv, value⟩ := h
  have integer : isInteger x = true := by
    unfold isInteger
    rw [hv]
    exact isWhole_of_value value
  unfold Number.integer?
  rw [Number.unit_ofFloat, Number.scalar_ofFloat, integer, toInteger, hv]
  dsimp only
  rw [truncate_of_value value]
  rfl

/-! ## Back to doubles -/

/-- A number is converted to the double that it is read as. -/
theorem ofNat_eq_ofScientific {n : Nat} (pos : 0 < n) : Float.ofNat n = Float.ofScientific n true 0 := by
  by_cases lt : n < 2 ^ 53
  · have normal := normal_of_lt pos lt
    have exactly := normal.round_eq .positive 0
    rw [Nat.pow_zero, Nat.mul_one, Nat.cast_zero, Int.sub_zero] at exactly
    rw [ofNat_eq pos lt, ofScientific_eq normal.rounds pos
      (by rw [significand_mul_zpow, pow_zero, div_one]), exactly]
  · show Float.ofScientific n false 0 = _
    have slow : ¬(n < 2 ^ 53 ∧ 0 ≤ 22) := fun h => lt h.1
    unfold Float.ofScientific
    rw [dif_neg slow, dif_neg slow]
    rfl

/-- The double of an integer is that of its size, with its sign. -/
theorem ofInt_eq_withSign (ne : i ≠ 0) : Float.ofInt i = withSign (decide (i < 0)) (Float.ofNat i.natAbs) := by
  cases i with
  | ofNat n => rfl
  | negSucc n =>
    rw [decide_eq_true (Int.negSucc_lt_zero n)]
    rfl

/-- **A double that is an integer is found again**, however large it is. Zero loses its sign. -/
theorem ofInt_eq (h : IsInt x i) (ne : i ≠ 0) : Float.ofInt i = x := by
  obtain ⟨v, hv, value⟩ := h
  have pos : 0 < v.mantissa := by
    refine Nat.pos_of_ne_zero fun zero => ne ?_
    rw [← Int.natAbs_eq_zero, ← wholePart_eq_natAbs value, wholePart_eq_zero zero]
  rw [ofInt_eq_withSign ne, ofNat_eq_ofScientific (Int.natAbs_pos.2 ne), ← negative_eq value ne,
    ← wholePart_eq_natAbs value]
  exact withSign_ofScientific_wholePart hv (isWhole_of_value value) pos

/-- What is an integer is converted to a double that is this integer. -/
theorem IsInt.ofInt (h : IsInt x i) : IsInt (Float.ofInt i) i := by
  by_cases zero : i = 0
  · subst zero
    exact ⟨⟨false, 0, -1074⟩, by decide +kernel, by simp [value, magnitude]⟩
  · rwa [ofInt_eq h zero]

/-- The last integers of 64 bits become the powers of two next to them. -/
theorem isInt_ofInt_ends :
    IsInt (Float.ofInt leastInteger) (-2 ^ 63) ∧ IsInt (Float.ofInt greatestInteger) (2 ^ 63) := by
  refine ⟨⟨⟨true, 2 ^ 52, 11⟩, by decide +kernel, ?_⟩, ⟨⟨false, 2 ^ 52, 11⟩, by decide +kernel, ?_⟩⟩ <;>
    norm_num [value, magnitude]

/-- **What becomes of an integer that is held to 64 bits** is this integer up to `2 ^ 63` on either side, and this
bound beyond. -/
theorem IsInt.ofInt_held (h : IsInt x i) : IsInt (Float.ofInt (held i)) (max (-2 ^ 63) (min (2 ^ 63) i)) := by
  obtain ⟨least, greatest⟩ := isInt_ofInt_ends
  unfold held
  rcases Int.lt_or_le i (-2 ^ 63) with below | above
  · rw [show max leastInteger (min greatestInteger i) = leastInteger by unfold leastInteger greatestInteger; omega,
      show max (-2 ^ 63) (min (2 ^ 63) i) = -2 ^ 63 by omega]
    exact least
  · rcases Int.lt_or_le i (2 ^ 63) with inside | beyond
    · rw [show max leastInteger (min greatestInteger i) = i by unfold leastInteger greatestInteger; omega,
        show max (-2 ^ 63) (min (2 ^ 63) i) = i by omega]
      exact h.ofInt
    · rw [show max leastInteger (min greatestInteger i) = greatestInteger by
          unfold leastInteger greatestInteger; omega,
        show max (-2 ^ 63) (min (2 ^ 63) i) = 2 ^ 63 by omega]
      exact greatest

end Binary64

end Stylesheet
