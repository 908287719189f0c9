import Mathlib.Algebra.Order.Field.Power
import Mathlib.Data.Int.Log
import Mathlib.Data.Rat.Floor
import Mathlib.Tactic.FieldSimp
import Mathlib.Tactic.IntervalCases
import Mathlib.Tactic.Linarith
import Stylesheet.Proofs.Numeric.Bits
import Stylesheet.Proofs.Numeric.Integers

/-! # Correct rounding

A decimal is read as the double nearest to it. The numbers here are rational, and a number **rounds** to
`m · 2 ^ e` when doubles lie `2 ^ e` apart where it is and no whole number is nearer to it than `m` in this
unit, where a half goes to the even neighbour (**`Rounds`**).

Rounding a quotient of whole numbers drops bits one by one, and keeps of those that are gone only whether they
make a half and whether there are any. This is enough to round once at the end
(`roundedMantissa_quotient`). So quotients are rounded correctly (`div_eq`), and so are the decimals that
are read (`ofScientific_eq`): which double is read depends on nothing but the number. -/

namespace Stylesheet

namespace Binary64

open Float.Model Float.Model.UnpackedFloat

/-! ## Whole numbers nearest to rational ones -/

/-- No whole number is nearer, and of two that are as near this is the even one. -/
def IsNearest (q : ℚ) (m : Nat) : Prop := |q - m| < 1 / 2 ∨ (|q - m| = 1 / 2 ∧ Even m)

namespace IsNearest

variable {q : ℚ} {m n : Nat}

/-- What is nearest is at most half away. -/
theorem abs_sub_le (h : IsNearest q m) : |q - m| ≤ 1 / 2 := by
  rcases h with lt | ⟨eq, -⟩
  · exact lt.le
  · exact eq.le

/-- There is one such number. -/
theorem unique (h : IsNearest q m) (h' : IsNearest q n) : m = n := by
  by_contra ne
  have apart : (1 : ℚ) ≤ |(m : ℚ) - n| := by
    have : 1 ≤ |(m : ℤ) - n| := Int.one_le_abs (sub_ne_zero.2 (by exact_mod_cast ne))
    exact_mod_cast this
  have between : |(m : ℚ) - n| ≤ |q - m| + |q - n| := by
    calc |(m : ℚ) - n| = |((m : ℚ) - q) + (q - n)| := by rw [sub_add_sub_cancel]
      _ ≤ |(m : ℚ) - q| + |q - n| := abs_add_le _ _
      _ = |q - m| + |q - n| := by rw [abs_sub_comm]
  have half : |q - m| = 1 / 2 ∧ |q - n| = 1 / 2 := by
    constructor <;> linarith [h.abs_sub_le, h'.abs_sub_le]
  have evenm : Even m := (h.resolve_left (by rw [half.1]; exact lt_irrefl _)).2
  have evenn : Even n := (h'.resolve_left (by rw [half.2]; exact lt_irrefl _)).2
  -- two even numbers are not one apart
  have one : |(m : ℤ) - n| = 1 := by
    have : |(m : ℚ) - n| = 1 := by linarith
    exact_mod_cast this
  obtain ⟨a, rfl⟩ := evenm
  obtain ⟨b, rfl⟩ := evenn
  push_cast at one
  rcases (abs_eq one_pos.le).1 one with up | down <;> omega

/-- A natural number is nearest to itself. -/
theorem natCast (m : Nat) : IsNearest (m : ℚ) m := .inl (by norm_num)

end IsNearest

/-- A quotient of whole numbers is a whole part and a part of the divisor. -/
theorem div_eq_add (n : Nat) {d : Nat} (pos : 0 < d) :
    (n : ℚ) / d = ((n / d : Nat) : ℚ) + ((n % d : Nat) : ℚ) / d := by
  have some : (d : ℚ) ≠ 0 := by exact_mod_cast pos.ne'
  have whole : (n : ℚ) = ((n / d : Nat) : ℚ) * d + ((n % d : Nat) : ℚ) := by
    exact_mod_cast (Nat.div_add_mod' n d).symm
  nth_rewrite 1 [whole]
  rw [add_div, mul_div_cancel_right₀ _ some]

/-- Rounding a quotient gives the nearest whole number. -/
theorem isNearest_roundHalfEven (n : Nat) {d : Nat} (pos : 0 < d) :
    IsNearest ((n : ℚ) / d) (Decimal.roundHalfEven n d) := by
  have posq : (0 : ℚ) < d := by exact_mod_cast pos
  have rest : ((n % d : Nat) : ℚ) < d := by exact_mod_cast Nat.mod_lt n pos
  have least : (0 : ℚ) ≤ ((n % d : Nat) : ℚ) := Nat.cast_nonneg _
  unfold Decimal.roundHalfEven
  dsimp only
  rw [div_eq_add n pos]
  rcases Nat.lt_trichotomy (2 * (n % d)) d with lt | eq | gt
  · have half : ((n % d : Nat) : ℚ) / d < 1 / 2 := by
      rw [div_lt_div_iff₀ posq two_pos]
      exact_mod_cast (by omega : n % d * 2 < 1 * d)
    rw [if_neg (by simp; omega)]
    exact .inl (by rwa [add_sub_cancel_left, abs_of_nonneg (by positivity)])
  · have half : ((n % d : Nat) : ℚ) / d = 1 / 2 := by
      rw [div_eq_div_iff posq.ne' two_ne_zero]
      exact_mod_cast (by omega : n % d * 2 = 1 * d)
    rw [half]
    split
    next h =>
      have odd : n / d % 2 = 1 := by simpa [eq] using h
      exact .inr ⟨by push_cast; norm_num, by rw [Nat.even_iff]; omega⟩
    next h =>
      have even : n / d % 2 = 0 := by simpa [eq] using h
      exact .inr ⟨by norm_num, by rwa [Nat.even_iff]⟩
  · have half : 1 / 2 < ((n % d : Nat) : ℚ) / d := by
      rw [div_lt_div_iff₀ two_pos posq]
      exact_mod_cast (by omega : 1 * d < n % d * 2)
    have one : ((n % d : Nat) : ℚ) / d < 1 := (div_lt_one posq).2 rest
    rw [if_pos (by simp; omega)]
    refine .inl ?_
    push_cast
    rw [abs_lt]
    constructor <;> linarith

/-- Every number that is not negative has a whole number nearest to it. -/
theorem exists_isNearest {q : ℚ} (nonneg : 0 ≤ q) : ∃ m, IsNearest q m := by
  have same : q = (q.num.toNat : ℚ) / q.den := by
    have num : ((q.num.toNat : ℤ) : ℚ) = q.num := by rw [Int.toNat_of_nonneg (Rat.num_nonneg.2 nonneg)]
    rw [← Int.cast_natCast, num, Rat.num_div_den]
  rw [same]
  exact ⟨_, isNearest_roundHalfEven _ (Rat.den_pos _)⟩

/-! ## Dropping bits -/

/-- A quotient of whole numbers, with what is left of it in two bits. -/
def quotient (n d : Nat) : ExtendedMantissa := .ofMantissaAndAccuracy (n / d) (accuracyOfFraction (n % d) d)

/-- The first of the bits says whether the rest makes a half, the second whether there is any rest beside. -/
theorem quotient_eq (n d : Nat) :
    quotient n d = ⟨n / d, decide (d ≤ 2 * (n % d) ∧ n % d ≠ 0), decide (n % d ≠ 0 ∧ 2 * (n % d) ≠ d)⟩ := by
  unfold quotient accuracyOfFraction
  by_cases none : n % d = 0
  · rw [if_pos none]
    simp [ExtendedMantissa.ofMantissaAndAccuracy, none]
  · rw [if_neg none]
    rcases Nat.lt_trichotomy (2 * (n % d)) d with lt | eq | gt
    · rw [Nat.compare_eq_lt.2 lt]
      simp [ExtendedMantissa.ofMantissaAndAccuracy]
      omega
    · rw [Nat.compare_eq_eq.2 eq]
      simp [ExtendedMantissa.ofMantissaAndAccuracy]
      omega
    · rw [Nat.compare_eq_gt.2 gt]
      simp [ExtendedMantissa.ofMantissaAndAccuracy]
      omega

/-- To drop a bit is to divide by two. -/
theorem shiftRightOne_quotient (n : Nat) {d : Nat} (pos : 0 < d) :
    (quotient n d).shiftRightOne = quotient n (d * 2) := by
  have rest := Nat.mod_lt n pos
  rw [quotient_eq, quotient_eq, ExtendedMantissa.shiftRightOne, Nat.div_div_eq_div_mul, Nat.mod_mul]
  dsimp only
  rcases Nat.mod_two_eq_zero_or_one (n / d) with even | odd
  · rw [even, Nat.mul_zero, Nat.add_zero, ← Bool.decide_or]
    congr 1
    · exact (decide_eq_false (by omega)).symm
    · exact decide_eq_decide.2 (by omega)
  · rw [odd, Nat.mul_one, ← Bool.decide_or]
    congr 1
    · exact (decide_eq_true (by omega)).symm
    · exact decide_eq_decide.2 (by omega)

/-- Halving a quotient is doubling what it is divided by, and no bit is lost that tells of a remainder. -/
theorem shiftRight_quotient (n : Nat) {d : Nat} (pos : 0 < d) (k : Nat) :
    quotient n d >>> k = quotient n (d * 2 ^ k) := by
  induction k with
  | zero => rw [Nat.pow_zero, Nat.mul_one]; rfl
  | succ k ih =>
    have step : quotient n d >>> (k + 1) = (quotient n d >>> k).shiftRightOne := rfl
    rw [step, ih, shiftRightOne_quotient n (Nat.mul_pos pos (Nat.two_pow_pos k)), Nat.mul_assoc, ← Nat.pow_succ]

/-- The two bits are enough to round. -/
theorem roundedMantissa_quotient (n : Nat) {d : Nat} (pos : 0 < d) :
    (quotient n d).roundedMantissa = Decimal.roundHalfEven n d := by
  unfold Decimal.roundHalfEven quotient accuracyOfFraction
  dsimp only
  by_cases none : n % d = 0
  · rw [if_pos none, none, if_neg (by simp [pos.ne])]
    rfl
  · rw [if_neg none]
    rcases Nat.lt_trichotomy (2 * (n % d)) d with lt | eq | gt
    · rw [Nat.compare_eq_lt.2 lt, if_neg (by simp; omega)]
      rfl
    · rw [Nat.compare_eq_eq.2 eq]
      rcases Nat.mod_two_eq_zero_or_one (n / d) with even | odd
      · rw [if_neg (by simp [eq, even])]
        exact congrArg (n / d + ·) even
      · rw [if_pos (by simp [eq, odd])]
        exact congrArg (n / d + ·) odd
    · rw [Nat.compare_eq_gt.2 gt, if_pos (by simp; omega)]
      rfl

/-- When bits have been dropped, the nearest whole number is left. -/
theorem roundedMantissa_of_isNearest {q : ℚ} {m n d k : Nat} {t : ℤ} (near : IsNearest (q / 2 ^ (t + k)) m)
    (pos : 0 < d) (value : q = n / d * 2 ^ t) : (quotient n (d * 2 ^ k)).roundedMantissa = m := by
  have posk := Nat.mul_pos pos (Nat.two_pow_pos k)
  rw [roundedMantissa_quotient n posk]
  refine (isNearest_roundHalfEven n posk).unique ?_
  have same : (n : ℚ) / (d * 2 ^ k : Nat) = q / 2 ^ (t + k) := by
    rw [value, zpow_add₀ two_ne_zero, zpow_natCast]
    push_cast
    field_simp
  rw [same]
  exact near

/-! ## Rounding doubles -/

/-- The number rounds to `m · 2 ^ e`. It is not so small that doubles would lie further apart. -/
structure Rounds (q : ℚ) (m : Nat) (e : ℤ) : Prop where
  low : 2 ^ (e + 52) ≤ q
  high : q < 2 ^ (e + 53)
  least : -1074 ≤ e
  near : IsNearest (q / 2 ^ e) m

namespace Rounds

variable {q : ℚ} {m : Nat} {e : ℤ}

/-- What is rounded to a normal double is positive. -/
theorem pos (h : Rounds q m e) : 0 < q := lt_of_lt_of_le (by positivity) h.low

/-- It takes `2 ^ 52` to `2 ^ 53` of the units. -/
theorem units (h : Rounds q m e) : 2 ^ 52 ≤ q / 2 ^ e ∧ q / 2 ^ e < 2 ^ 53 := by
  have unit : (0 : ℚ) < 2 ^ e := by positivity
  have low := h.low
  have high := h.high
  rw [zpow_add₀ two_ne_zero] at low high
  rw [le_div_iff₀ unit, div_lt_iff₀ unit, mul_comm, mul_comm (2 ^ 53 : ℚ)]
  exact ⟨low, high⟩

/-- The mantissa of what is rounded to a normal double has all its bits. -/
theorem low_mantissa (h : Rounds q m e) : 2 ^ 52 ≤ m := by
  have near := abs_le.1 h.near.abs_sub_le
  have : (2 : ℚ) ^ 52 - 1 < m := by linarith [h.units.1, near.2]
  have : ((2 ^ 52 - 1 : Nat) : ℚ) < m := by push_cast; norm_num at this ⊢; exact this
  have := Nat.cast_lt.1 this
  omega

/-- The mantissa of what is rounded to a normal double may carry to the next power of two. -/
theorem mantissa_le (h : Rounds q m e) : m ≤ 2 ^ 53 := by
  have near := abs_le.1 h.near.abs_sub_le
  have : (m : ℚ) < 2 ^ 53 + 1 := by linarith [h.units.2, near.1]
  have : (m : ℚ) < ((2 ^ 53 + 1 : Nat) : ℚ) := by push_cast; norm_num at this ⊢; exact this
  have := Nat.cast_lt.1 this
  omega

end Rounds

/-- Every number that is not too small rounds to some double. -/
theorem exists_rounds {q : ℚ} (low : 2 ^ (-1022 : ℤ) ≤ q) : ∃ m e, Rounds q m e := by
  have pos : 0 < q := lt_of_lt_of_le (by positivity) low
  have below : (2 : ℚ) ^ Int.log 2 q ≤ q := by exact_mod_cast Int.zpow_log_le_self (b := 2) one_lt_two pos
  have above : q < (2 : ℚ) ^ (Int.log 2 q + 1) := by
    exact_mod_cast Int.lt_zpow_succ_log_self (b := 2) one_lt_two q
  have least : -1022 ≤ Int.log 2 q := (Int.zpow_le_iff_le_log one_lt_two pos).1 (by exact_mod_cast low)
  obtain ⟨m, near⟩ := exists_isNearest (q := q / 2 ^ (Int.log 2 q - 52)) (by positivity)
  exact ⟨m, Int.log 2 q - 52, by simpa using below, by convert above using 2; ring, by omega, near⟩

/-- A magnitude that took a carry is shifted once more, and any other stays as it is. -/
theorem exists_shiftToTargetExponent_eq {m : Nat} {e : Int} (low : 2 ^ 52 ≤ m) (high : m ≤ 2 ^ 53)
    (least : -1074 ≤ e) : ∃ m' e', 2 ^ 52 ≤ m' ∧ m' < 2 ^ 53 ∧ -1074 ≤ e' ∧
      shiftToTargetExponent Format.binary64 m e .exact = (⟨m', false, false⟩, e') := by
  rcases Nat.lt_or_eq_of_le high with lt | rfl
  · have same := shiftToTargetExponent_exact low lt least 0
    rw [Nat.pow_zero, Nat.mul_one, Nat.cast_zero, Int.sub_zero] at same
    exact ⟨m, e, low, lt, least, same⟩
  · have carried := shiftToTargetExponent_exact (m := 2 ^ 52) (e := e + 1) (Nat.le_refl _) (by omega) (by omega) 1
    rw [show 2 ^ 52 * 2 ^ 1 = 2 ^ 53 by rfl, Nat.cast_one, Int.add_sub_cancel] at carried
    exact ⟨2 ^ 52, e + 1, Nat.le_refl _, by omega, by omega, carried⟩

/-- When a magnitude has been rounded, it can be rounded again. -/
theorem roundWithAccuracy_of_shifted {m n : Nat} {e t : Int} {a : Accuracy} {em : ExtendedMantissa} (s : Sign)
    (low : 2 ^ 52 ≤ m) (high : m ≤ 2 ^ 53) (least : -1074 ≤ e)
    (shifted : shiftToTargetExponent Format.binary64 n t a = (em, e)) (rounded : em.roundedMantissa = m) :
    roundWithAccuracy Format.binary64 s n t a = roundWithAccuracy Format.binary64 s m e .exact := by
  obtain ⟨m', e', low', high', least', carried⟩ := exists_shiftToTargetExponent_eq low high least
  have again := shiftToTargetExponent_exact low' high' least' 0
  rw [Nat.pow_zero, Nat.mul_one, Nat.cast_zero, Int.sub_zero] at again
  have exact : ExtendedMantissa.roundedMantissa ⟨m', false, false⟩ = m' := rfl
  rw [roundWithAccuracy, roundWithAccuracy, shifted, carried]
  dsimp only
  rw [rounded, exact, carried, again]

/-- A quotient is rounded correctly, if enough bits of it are given. -/
theorem roundWithAccuracy_eq {q : ℚ} {m : Nat} {e : ℤ} (h : Rounds q m e) (s : Sign) {n d : Nat} (pos : 0 < d)
    {t : Int} (value : q = n / d * 2 ^ t) (enough : t ≤ e) :
    roundWithAccuracy Format.binary64 s (n / d) t (accuracyOfFraction (n % d) d) =
      roundWithAccuracy Format.binary64 s m e .exact := by
  obtain ⟨k, rfl⟩ : ∃ k : Nat, e = t + k := ⟨(e - t).toNat, by omega⟩
  have unit : (0 : ℚ) < 2 ^ t := by positivity
  have posq : (0 : ℚ) < d := by exact_mod_cast pos
  have quotient_low : 2 ^ (k + 52) ≤ n / d := by
    have low := h.low
    rw [value, add_assoc, zpow_add₀ two_ne_zero, mul_comm, mul_le_mul_iff_left₀ unit, le_div_iff₀ posq] at low
    rw [Nat.le_div_iff_mul_le pos]
    exact_mod_cast low
  have quotient_high : n / d < 2 ^ (k + 53) := by
    have high := h.high
    rw [value, add_assoc, zpow_add₀ two_ne_zero, mul_comm, mul_lt_mul_iff_right₀ unit, div_lt_iff₀ posq] at high
    rw [Nat.div_lt_iff_lt_mul pos]
    exact_mod_cast high
  -- the quotient has as many bits more than 53 as the exponents are apart
  have log2 : (n / d).log2 = k + 52 := by
    refine (Nat.log2_eq_iff ?_).2 ⟨quotient_low, quotient_high⟩
    exact (Nat.lt_of_lt_of_le (Nat.two_pow_pos _) quotient_low).ne'
  have target : Format.binary64.targetExponent (totalExponent (n / d) t) = t + k := by
    have least := h.least
    rw [targetExponent_binary64, log2]
    omega
  have shifted : shiftToTargetExponent Format.binary64 (n / d) t (accuracyOfFraction (n % d) d) =
      (quotient n (d * 2 ^ k), t + k) := by
    unfold shiftToTargetExponent shiftToExponent
    dsimp only
    rw [target, show (t + (k : Int) - t).toNat = k by omega]
    exact Prod.ext (shiftRight_quotient n pos k) rfl
  exact roundWithAccuracy_of_shifted s h.low_mantissa h.mantissa_le h.least shifted
    (roundedMantissa_of_isNearest h.near pos value)

/-! ## Division -/

/-- To divide two doubles, bits are added until the quotient has enough of them, and then it is rounded. -/
theorem exists_div_eq {q : ℚ} {s t : Sign} {n d : Nat} {i j : Int} (hn : 0 < n) (hd : 0 < d)
    (value : q = n * 2 ^ i / (d * 2 ^ j)) : ∃ (n' : Nat) (i' : Int), q = n' / d * 2 ^ i' ∧
      (∀ e : ℤ, -1074 ≤ e → q < 2 ^ (e + 53) → i' ≤ e) ∧
      UnpackedFloat.div Format.binary64 (.finite s n i hn) (.finite t d j hd) =
        roundWithAccuracy Format.binary64 (s / t) (n' / d) i' (accuracyOfFraction (n' % d) d) := by
  let target := min (i - j) (Format.binary64.targetExponent (totalExponent n i - totalExponent d j))
  let k := (i - j - target).toNat
  have whole : (k : Int) = i - j - target := Int.toNat_of_nonneg (by omega)
  have posn : (0 : ℚ) < n := by exact_mod_cast hn
  have posd : (0 : ℚ) < d := by exact_mod_cast hd
  refine ⟨n * 2 ^ k, target, ?_, fun e least high => ?_, ?_⟩
  · have : (2 : ℚ) ^ i = 2 ^ k * 2 ^ target * 2 ^ j := by
      rw [← zpow_natCast, ← zpow_add₀ two_ne_zero, ← zpow_add₀ two_ne_zero]
      congr 1
      omega
    rw [value, this]
    push_cast
    field_simp
  · -- the quotient is less than one bit shorter than the difference of the lengths
    have lown : (2 : ℚ) ^ n.log2 ≤ n := by exact_mod_cast Nat.log2_self_le hn.ne'
    have highd : (d : ℚ) < 2 ^ (d.log2 + 1) := by exact_mod_cast Nat.lt_log2_self (n := d)
    have low : (2 : ℚ) ^ ((n.log2 : Int) + i - (d.log2 + 1 + j)) < q := by
      rw [value, lt_div_iff₀ (by positivity)]
      calc (2 : ℚ) ^ ((n.log2 : Int) + i - (d.log2 + 1 + j)) * (d * 2 ^ j)
          < 2 ^ ((n.log2 : Int) + i - (d.log2 + 1 + j)) * (2 ^ (d.log2 + 1) * 2 ^ j) := by gcongr
        _ = 2 ^ n.log2 * 2 ^ i := by
          rw [← zpow_natCast, ← zpow_natCast, ← zpow_add₀ two_ne_zero, ← zpow_add₀ two_ne_zero,
            ← zpow_add₀ two_ne_zero]
          congr 1
          push_cast
          ring
        _ ≤ n * 2 ^ i := by gcongr
    have lengths := (zpow_lt_zpow_iff_right₀ (one_lt_two (α := ℚ))).1 (low.trans high)
    have : target ≤ Format.binary64.targetExponent (totalExponent n i - totalExponent d j) := Int.min_le_right _ _
    unfold Format.targetExponent totalExponent at this
    rw [show (Format.binary64.mantissaBits : Int) = 53 from rfl,
      show Format.binary64.minExponent = -1074 from rfl] at this
    omega
  · rw [← Nat.shiftLeft_eq]
    rfl

/-- The quotient of two doubles is the double nearest to it. -/
theorem div_eq {q : ℚ} {m : Nat} {e : ℤ} (h : Rounds q m e) {s t : Sign} {n d : Nat} {i j : Int} (hn : 0 < n)
    (hd : 0 < d) (value : q = n * 2 ^ i / (d * 2 ^ j)) :
    UnpackedFloat.div Format.binary64 (.finite s n i hn) (.finite t d j hd) =
      roundWithAccuracy Format.binary64 (s / t) m e .exact := by
  obtain ⟨n', i', same, enough, shifted⟩ := exists_div_eq (s := s) (t := t) hn hd value
  rw [shifted, roundWithAccuracy_eq h (s / t) hd same (enough e h.least h.high)]

/-! ## Decimals -/

/-- A magnitude with zeros behind it is the number. -/
theorem significand_mul_zpow (n : Nat) : (significand n : ℚ) * 2 ^ scale n = n := by
  unfold significand scale
  push_cast
  rw [zpow_neg, zpow_natCast]
  field_simp

/-- The powers of ten that are looked up. -/
theorem ofFloat?_powersOfTen : ∀ e < 23, (Float.exactlyRepresentablePowersOfTen[e]?.bind ofFloat?).any (fun v =>
    !v.negative && v.mantissa * 2 ^ v.exponent.toNat == 10 ^ e * 2 ^ (-v.exponent).toNat) = true := by
  decide +kernel

/-- They are exact. -/
theorem exists_unpack_powerOfTen {e : Nat} (few : e ≤ 22)
    (inside : e < Float.exactlyRepresentablePowersOfTen.size) :
    ∃ (n : Nat) (i : Int) (pos : 0 < n), (n : ℚ) * 2 ^ i = 10 ^ e ∧
      (Float.exactlyRepresentablePowersOfTen[e]).toModel.unpack = .finite .positive n i pos := by
  have known := ofFloat?_powersOfTen e (by omega)
  rw [Array.getElem?_eq_getElem inside, Option.bind_some] at known
  obtain ⟨v, hv, same⟩ := Option.any_eq_true .. |>.1 known
  simp only [Bool.and_eq_true, Bool.not_eq_true', beq_iff_eq] at same
  obtain ⟨positive, same⟩ := same
  have value : (v.mantissa : ℚ) * 2 ^ v.exponent = 10 ^ e := by
    have split : (2 : ℚ) ^ v.exponent * 2 ^ (-v.exponent).toNat = 2 ^ v.exponent.toNat := by
      rw [← zpow_natCast, ← zpow_natCast, ← zpow_add₀ two_ne_zero]
      congr 1
      omega
    have unit : (2 : ℚ) ^ (-v.exponent).toNat ≠ 0 := by positivity
    refine mul_right_cancel₀ unit ?_
    rw [mul_assoc, split]
    exact_mod_cast same
  rcases unpack_of_ofFloat? hv with ⟨zero, -⟩ | ⟨pos, unpacked⟩
  · rw [zero, Nat.cast_zero, zero_mul] at value
    exact absurd value (by positivity)
  · rw [positive] at unpacked
    exact ⟨_, _, pos, value, unpacked⟩

/-- A decimal with five places at most that is not zero is not too small. -/
theorem two_zpow_le_decimal {n places : Nat} (pos : 0 < n) (few : places ≤ 5) :
    (2 : ℚ) ^ (-17 : ℤ) ≤ n / 10 ^ places := by
  rw [le_div_iff₀ (by positivity)]
  calc (2 : ℚ) ^ (-17 : ℤ) * 10 ^ places ≤ 2 ^ (-17 : ℤ) * 10 ^ 5 := by gcongr; norm_num
    _ ≤ 1 := by norm_num
    _ ≤ n := by exact_mod_cast pos

/-- It rounds to some double. -/
theorem exists_rounds_decimal {n places : Nat} (pos : 0 < n) (few : places ≤ 5) :
    ∃ m e, Rounds ((n : ℚ) / 10 ^ places) m e := by
  refine exists_rounds (le_trans ?_ (two_zpow_le_decimal pos few))
  exact zpow_le_zpow_right₀ one_le_two (by norm_num)

/-- A decimal with very many places is less than half of the smallest double. -/
theorem decimal_lt_of_many_places {n places : Nat} (many : 2048 + n.log2 < places) :
    (n : ℚ) / 10 ^ places < 2 ^ (-1075 : ℤ) := by
  rw [div_lt_iff₀ (by positivity), zpow_neg, ← div_eq_inv_mul, lt_div_iff₀ (by positivity)]
  have length : (n : ℚ) < 2 ^ (n.log2 + 1) := by exact_mod_cast Nat.lt_log2_self (n := n)
  calc (n : ℚ) * 2 ^ (1075 : ℤ) < 2 ^ (n.log2 + 1) * 2 ^ 1075 := by
        rw [show (1075 : ℤ) = (1075 : Nat) from rfl, zpow_natCast]
        gcongr
    _ = 2 ^ (n.log2 + 1 + 1075) := by rw [← pow_add]
    _ ≤ 2 ^ places := pow_le_pow_right₀ one_le_two (by omega)
    _ ≤ 10 ^ places := by gcongr; norm_num

/-- A whole number is rounded correctly. -/
theorem roundWithAccuracy_natCast {m : Nat} {e : ℤ} {n : Nat} (h : Rounds n m e) (pos : 0 < n) (s : Sign) :
    roundWithAccuracy Format.binary64 s (n * 2 ^ 53) (-53) .exact =
      roundWithAccuracy Format.binary64 s m e .exact := by
  have exactly : (n : ℚ) = (n * 2 ^ 53 : Nat) / (1 : Nat) * 2 ^ (-53 : ℤ) := by
    push_cast
    rw [zpow_neg]
    field_simp
    norm_num
  have enough : -53 ≤ e := by
    have one : (2 : ℚ) ^ (0 : ℤ) ≤ n := by exact_mod_cast pos
    have := (zpow_lt_zpow_iff_right₀ (one_lt_two (α := ℚ))).1 (one.trans_lt h.high)
    omega
  have rounded := roundWithAccuracy_eq h s Nat.one_pos exactly enough
  rwa [Nat.div_one, Nat.mod_one] at rounded

/-- Multiplying by one only rounds. -/
theorem mul_one_eq {f : Format} {n : Nat} {i : Int} (s : Sign) (pos : 0 < n) :
    UnpackedFloat.mul f (.finite s n i pos) (.finite .positive 1 0 Nat.one_pos) = roundWithAccuracy f s n i .exact := by
  show roundWithAccuracy f (s * .positive) (n * 1) (i + 0) .exact = _
  rw [Nat.mul_one, Int.add_zero]
  cases s <;> rfl

/-- Where powers of ten are not looked up, decimals are read correctly. -/
theorem unpackedFloat_ofScientific_eq {q : ℚ} {m : Nat} {e : ℤ} (h : Rounds q m e) {n places : Nat} (pos : 0 < n)
    (value : q = n / 10 ^ places) : UnpackedFloat.ofScientific Format.binary64 n (-(places : Int)) =
      roundWithAccuracy Format.binary64 .positive m e .exact := by
  have notLarge : ¬-(places : Int) > 2 ^ Format.binary64.exponentBits := by norm_num
  have notSmall : ¬-(places : Int) < -((2 ^ Format.binary64.exponentBits : Int) + n.log2) := by
    intro small
    have below : (2 : ℚ) ^ (e + 52) < 2 ^ (-1075 : ℤ) := by
      refine lt_of_le_of_lt h.low (value ▸ decimal_lt_of_many_places ?_)
      norm_num at small
      omega
    have := (zpow_lt_zpow_iff_right₀ (one_lt_two (α := ℚ))).1 below
    have := h.least
    omega
  unfold UnpackedFloat.ofScientific
  rw [dif_neg pos.ne', if_neg notLarge, if_neg notSmall]
  -- without places the number is multiplied by one, and divided by a power of ten otherwise
  by_cases none : -(places : Int) ≥ 0
  · obtain rfl : places = 0 := by omega
    rw [pow_zero, div_one] at value
    subst value
    rw [if_pos none]
    refine (mul_one_eq .positive _).trans ?_
    rw [← roundWithAccuracy_natCast h pos, Nat.shiftLeft_eq]
    rfl
  · rw [if_neg none]
    have exactly : q = n * 2 ^ (0 : ℤ) / ((10 ^ (-(-(places : Int))).toNat : Nat) * 2 ^ (0 : ℤ)) := by
      rw [value]
      simp
    exact div_eq h pos _ exactly

/-- **Decimals are read correctly.** -/
theorem ofScientific_eq {q : ℚ} {m : Nat} {e : ℤ} (h : Rounds q m e) {n places : Nat} (pos : 0 < n)
    (value : q = n / 10 ^ places) : Float.ofScientific n true places =
      ⟨pack (roundWithAccuracy Format.binary64 .positive m e .exact)⟩ := by
  unfold Float.ofScientific
  by_cases fast : n < 2 ^ 53 ∧ places ≤ 22
  · obtain ⟨lt, few⟩ := fast
    have normal := normal_of_lt pos lt
    obtain ⟨ten, i, posten, power, unpacked⟩ :=
      exists_unpack_powerOfTen few (by simp [Float.exactlyRepresentablePowersOfTen]; omega)
    have exactly : q = significand n * 2 ^ scale n / (ten * 2 ^ i) := by
      rw [significand_mul_zpow, power, value]
    rw [dif_pos ⟨lt, few⟩, if_pos rfl, toFloat_toUInt64_eq pos lt]
    show (⟨pack (UnpackedFloat.div Format.binary64 (Float.Model.unpack (pack _)) _)⟩ : Float) = _
    rw [normal.unpack_pack, unpacked, div_eq h normal.pos posten exactly]
    rfl
  · rw [dif_neg fast, if_pos rfl]
    show (⟨pack (UnpackedFloat.ofScientific Format.binary64 n (Int.negOfNat places))⟩ : Float) = _
    rw [Int.negOfNat_eq, ← unpackedFloat_ofScientific_eq h pos value]
    rfl

/-- Zero is read as zero. -/
theorem ofScientific_zero (places : Nat) : Float.ofScientific 0 true places = 0 := by
  unfold Float.ofScientific
  by_cases fast : 0 < 2 ^ 53 ∧ places ≤ 22
  · obtain ⟨ten, i, posten, -, unpacked⟩ :=
      exists_unpack_powerOfTen fast.2 (by simp [Float.exactlyRepresentablePowersOfTen]; omega)
    have zero : (Nat.toUInt64 0).toFloat.toModel.unpack = .zero .positive := rfl
    rw [dif_pos fast, if_pos rfl]
    show (⟨pack (UnpackedFloat.div Format.binary64 _ _)⟩ : Float) = _
    rw [zero, unpacked]
    rfl
  · rw [dif_neg fast, if_pos rfl]
    rfl

/-- A decimal is zero exactly if its digits are. -/
theorem decimal_eq_zero_iff {n places : Nat} : (n : ℚ) / 10 ^ places = 0 ↔ n = 0 := by
  rw [div_eq_zero_iff, or_iff_left (by positivity), Nat.cast_eq_zero]

/-- Which double is read depends only on the number, and not on the zeros at the end. -/
theorem ofScientific_congr {n n' places places' : Nat} (few : places ≤ 5)
    (same : (n : ℚ) / 10 ^ places = n' / 10 ^ places') :
    Float.ofScientific n true places = Float.ofScientific n' true places' := by
  by_cases zero : n = 0
  · have zero' : n' = 0 := by rwa [← decimal_eq_zero_iff, ← same, decimal_eq_zero_iff]
    rw [zero, zero', ofScientific_zero, ofScientific_zero]
  · have pos : 0 < n := Nat.pos_of_ne_zero zero
    have pos' : 0 < n' := by
      have zero' : (n' : ℚ) / 10 ^ places' = 0 ↔ n' = 0 := decimal_eq_zero_iff
      rwa [Nat.pos_iff_ne_zero, Ne, ← zero', ← same, decimal_eq_zero_iff]
    obtain ⟨m, e, rounds⟩ := exists_rounds_decimal pos few
    rw [ofScientific_eq rounds pos rfl, ofScientific_eq rounds pos' same]

end Binary64

end Stylesheet
