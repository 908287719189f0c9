import Stylesheet.Proofs.Numeric.Wholes

/-! # Decimals of any length

A decimal of any number of digits is read as the double nearest to it (**`Binary64.isRounded_ofScientific`**). Where
doubles lie `2 ^ e` apart, this is the multiple of `2 ^ e` that no other is nearer than, and the even one of two that
are as near (**`Binary64.Nearest`**). The smallest doubles are evenly spaced down to zero, and what would need
`2 ^ 1024` or more becomes infinite (**`Binary64.IsRounded`**). There is one such double only
(`Binary64.IsRounded.unique`). -/

namespace Stylesheet

namespace Binary64

open Float.Model Float.Model.UnpackedFloat

/-! ## The nearest double -/

/-- Where `q` is, doubles lie `2 ^ e` apart, and `m · 2 ^ e` is nearest to it. -/
structure Nearest (q : ℚ) (m : Nat) (e : ℤ) : Prop where
  least : -1074 ≤ e
  low : -1074 < e → 2 ^ (e + 52) ≤ q
  high : q < 2 ^ (e + 53)
  near : IsNearest (q / 2 ^ e) m

/-- A number that is not negative is **rounded** to this double, with this sign. -/
def IsRounded (negative : Bool) (q : ℚ) (x : Float) : Prop :=
  ∃ m e, Nearest q m e ∧
    ((∃ v, ofFloat? x = some v ∧ v.negative = negative ∧ v.magnitude = m * 2 ^ e) ∨
      ((2 : ℚ) ^ 1024 ≤ m * 2 ^ e ∧ x = withSign negative (1 / 0)))

/-- A number that is less than the smallest doubles with all their bits. -/
structure Small (q : ℚ) (m : Nat) : Prop where
  nonneg : 0 ≤ q
  lt : q < 2 ^ (-1022 : ℤ)
  near : IsNearest (q / 2 ^ (-1074 : ℤ)) m

variable {q : ℚ} {m n places : Nat} {e : ℤ}

/-- What is rounded to a normal double is nearest to it. -/
theorem Rounds.nearest (h : Rounds q m e) : Nearest q m e := ⟨h.least, fun _ => h.low, h.high, h.near⟩

/-- What is rounded to a double below the normal ones is nearest to it. -/
theorem Small.nearest (h : Small q m) : Nearest q m (-1074) :=
  ⟨le_rfl, fun lt => absurd lt (lt_irrefl _), h.lt.trans_le (zpow_le_zpow_right₀ one_le_two (by norm_num)), h.near⟩

/-- Every number that is not negative rounds to some double, unless it is small. -/
theorem exists_rounds_or_small (nonneg : 0 ≤ q) : (∃ m e, Rounds q m e) ∨ ∃ m, Small q m := by
  rcases lt_or_ge q (2 ^ (-1022 : ℤ)) with lt | ge
  · obtain ⟨m, near⟩ := exists_isNearest (q := q / 2 ^ (-1074 : ℤ)) (by positivity)
    exact .inr ⟨m, nonneg, lt, near⟩
  · exact .inl (exists_rounds ge)

/-- The mantissa of a double below the normal ones carries to the first normal one at most. -/
theorem Small.mantissa_le (h : Small q m) : m ≤ 2 ^ 52 := by
  have near := abs_le.1 h.near.abs_sub_le
  have unit : (0 : ℚ) < 2 ^ (-1074 : ℤ) := by positivity
  have few : q / 2 ^ (-1074 : ℤ) < 2 ^ 52 := by
    rw [div_lt_iff₀ unit, ← zpow_natCast, ← zpow_add₀ two_ne_zero]
    exact h.lt
  have : (m : ℚ) < ((2 ^ 52 + 1 : Nat) : ℚ) := by
    push_cast
    linarith [near.1]
  have := Nat.cast_lt.1 this
  omega

/-! ## Rounding small numbers -/

/-- One of the smallest doubles, or zero. -/
def smallest (s : Sign) (m : Nat) : UnpackedFloat := if h : 0 < m then .finite s m (-1074) h else .zero s

/-- With few bits, the exponent is the least one. -/
theorem targetExponent_of_few {t : Int} (few : n.log2 + t ≤ -1022) :
    Format.binary64.targetExponent (totalExponent n t) = -1074 := by
  rw [targetExponent_binary64]
  omega

/-- A small number is rounded to a multiple of the smallest double. -/
theorem Small.roundWithAccuracy_eq (h : Small q m) (s : Sign) {d : Nat} (pos : 0 < d) {t : Int}
    (value : q = n / d * 2 ^ t) (enough : t ≤ -1074) :
    roundWithAccuracy Format.binary64 s (n / d) t (accuracyOfFraction (n % d) d) = smallest s m := by
  obtain ⟨k, rfl⟩ : ∃ k : Nat, t = -1074 - k := ⟨(-1074 - t).toNat, by omega⟩
  have unit : (0 : ℚ) < 2 ^ (-1074 - (k : Int)) := by positivity
  have posq : (0 : ℚ) < d := by exact_mod_cast pos
  have few : n / d < 2 ^ (k + 52) := by
    have high := h.lt
    rw [value, show (-1022 : ℤ) = (k + 52 : Nat) + (-1074 - (k : Int)) by push_cast; ring, zpow_add₀ two_ne_zero,
      mul_lt_mul_iff_left₀ unit, zpow_natCast, div_lt_iff₀ posq] at high
    rw [Nat.div_lt_iff_lt_mul pos]
    exact_mod_cast high
  have log2 : (n / d).log2 ≤ k + 52 := by
    rcases Nat.eq_zero_or_pos (n / d) with zero | some
    · rw [zero]
      exact Nat.zero_le _
    · exact ((Nat.log2_lt some.ne').2 few).le
  have target := targetExponent_of_few (n := n / d) (t := -1074 - (k : Int)) (by omega)
  have shifted : shiftToTargetExponent Format.binary64 (n / d) (-1074 - (k : Int)) (accuracyOfFraction (n % d) d) =
      (quotient n (d * 2 ^ k), -1074) := by
    unfold shiftToTargetExponent shiftToExponent
    dsimp only
    rw [target, show (-1074 - (-1074 - (k : Int))).toNat = k by omega]
    exact Prod.ext (shiftRight_quotient n pos k) (by dsimp only; omega)
  have rounded : (quotient n (d * 2 ^ k)).roundedMantissa = m :=
    roundedMantissa_of_isNearest (by rw [sub_add_cancel]; exact h.near) pos value
  -- nothing is shifted out any more
  have again : shiftToTargetExponent Format.binary64 m (-1074) .exact = (⟨m, false, false⟩, -1074) := by
    have log2 : m.log2 ≤ 52 := by
      rcases Nat.eq_zero_or_pos m with zero | some
      · rw [zero]
        exact Nat.zero_le _
      · have high := h.mantissa_le
        exact Nat.le_of_lt_succ ((Nat.log2_lt some.ne').2 (by omega))
    unfold shiftToTargetExponent
    rw [targetExponent_of_few (by omega)]
    rfl
  unfold roundWithAccuracy smallest
  rw [shifted]
  dsimp only
  rw [rounded, again]
  dsimp only
  rcases Nat.eq_zero_or_pos m with rfl | some
  · rfl
  · rw [dif_neg some.ne', dif_pos some]

/-! ## Reading small numbers -/

/-- Where powers of ten are not looked up, small decimals are read correctly. -/
theorem Small.unpackedFloat_ofScientific_eq (h : Small q m) (pos : 0 < n) (value : q = n / 10 ^ places) :
    UnpackedFloat.ofScientific Format.binary64 n (-(places : Int)) = smallest .positive m := by
  have notLarge : ¬-(places : Int) > 2 ^ Format.binary64.exponentBits := by norm_num
  have behind : ¬-(places : Int) ≥ 0 := by
    intro none
    obtain rfl : places = 0 := by omega
    rw [pow_zero, div_one] at value
    have one : (1 : ℚ) ≤ n := by exact_mod_cast pos
    have : (2 : ℚ) ^ (-1022 : ℤ) ≤ 2 ^ (0 : ℤ) := zpow_le_zpow_right₀ one_le_two (by norm_num)
    have := h.lt
    rw [zpow_zero] at *
    linarith
  unfold UnpackedFloat.ofScientific
  rw [dif_neg pos.ne', if_neg notLarge, if_neg behind]
  by_cases cut : -(places : Int) < -((2 ^ Format.binary64.exponentBits : Int) + n.log2)
  · -- there are so many places that nothing is calculated
    have tiny : q < 2 ^ (-1075 : ℤ) := by
      rw [value]
      refine decimal_lt_of_many_places ?_
      norm_num at cut
      omega
    have half : IsNearest (q / 2 ^ (-1074 : ℤ)) 0 := by
      refine .inl ?_
      rw [Nat.cast_zero, sub_zero, abs_of_nonneg (by have := h.nonneg; positivity), div_lt_iff₀ (by positivity)]
      refine tiny.trans_eq ?_
      rw [show (-1075 : ℤ) = -1 + -1074 by norm_num, zpow_add₀ two_ne_zero, zpow_neg_one, one_div]
    rw [if_pos cut, h.near.unique half]
    rfl
  · have exactly : q = n * 2 ^ (0 : ℤ) / ((10 ^ (-(-(places : Int))).toNat : Nat) * 2 ^ (0 : ℤ)) := by
      rw [value]
      simp
    obtain ⟨n', i', same, enough, shifted⟩ :=
      exists_div_eq (s := .positive) (t := .positive) pos (Nat.pow_pos (by norm_num)) exactly
    rw [if_neg cut, shifted]
    exact h.roundWithAccuracy_eq _ (Nat.pow_pos (by norm_num)) same (enough _ le_rfl h.nearest.high)

/-- Small decimals are read correctly. -/
theorem Small.ofScientific_eq (h : Small q m) (pos : 0 < n) (value : q = n / 10 ^ places) :
    Float.ofScientific n true places = ⟨pack (smallest .positive m)⟩ := by
  have slow : ¬(n < 2 ^ 53 ∧ places ≤ 22) := by
    rintro ⟨-, few⟩
    have one : (1 : ℚ) ≤ n := by exact_mod_cast pos
    have large : (1 : ℚ) / 10 ^ 22 ≤ q := by
      rw [value]
      gcongr
      norm_num
    have above : (2 : ℚ) ^ (-100 : ℤ) < 1 / 10 ^ 22 := by norm_num
    have below : (2 : ℚ) ^ (-1022 : ℤ) ≤ 2 ^ (-100 : ℤ) := zpow_le_zpow_right₀ one_le_two (by norm_num)
    exact lt_irrefl _ (((above.trans_le large).trans h.lt).trans_le below)
  unfold Float.ofScientific
  rw [dif_neg slow, if_pos rfl]
  show (⟨pack (UnpackedFloat.ofScientific Format.binary64 n (Int.negOfNat places))⟩ : Float) = _
  rw [Int.negOfNat_eq, ← h.unpackedFloat_ofScientific_eq pos value]
  rfl

/-! ## Doubles with a sign -/

/-- The bits of one of the smallest doubles are its sign and its mantissa. -/
theorem toNat_pack_smallest (s : Sign) (pos : 0 < m) (few : m < 2 ^ 52) :
    (UnpackedFloat.pack Format.binary64 (.finite s m (-1074) pos)).toNat = s.toBitVec.toNat * 2 ^ 63 + m := by
  have log2 : m.log2 < 52 := (Nat.log2_lt pos.ne').2 few
  have short : ¬m.log2 + 1 = Format.binary64.mantissaBits := by
    show ¬m.log2 + 1 = 53
    omega
  have parts : UnpackedFloat.pack Format.binary64 (.finite s m (-1074) pos) =
      packComponents Format.binary64 s (0#11) (BitVec.ofNat 52 m) := by
    unfold UnpackedFloat.pack
    dsimp only
    rw [if_neg (by decide), if_neg short]
  rw [parts]
  unfold packComponents
  rw [BitVec.toNat_append, BitVec.toNat_append, ← Nat.shiftLeft_add_eq_or_of_lt (BitVec.isLt _),
    ← Nat.shiftLeft_add_eq_or_of_lt (BitVec.isLt _), Nat.shiftLeft_eq, Nat.shiftLeft_eq, BitVec.toNat_ofNat]
  show (s.toBitVec.toNat * 2 ^ 11 + 0) * 2 ^ 52 + m % 2 ^ 52 = _
  rw [Nat.mod_eq_of_lt few]
  ring

/-- One of the smallest doubles as a number. -/
theorem ofFloat?_pack_smallest (s : Sign) (pos : 0 < m) (few : m < 2 ^ 52) :
    ofFloat? ⟨pack (.finite s m (-1074) pos)⟩ = some ⟨s.toBitVec == 1#1, m, -1074⟩ := by
  have bits : (Float.toBits ⟨pack (.finite s m (-1074) pos)⟩).toNat = _ := toNat_pack_smallest s pos few
  have p52 : Nat.pow 2 52 = 4503599627370496 := rfl
  have p11 : Nat.pow 2 11 = 2048 := rfl
  have p63 : Nat.pow 2 63 = 9223372036854775808 := rfl
  unfold ofFloat?
  dsimp only
  rw [bits, p52, p11, p63]
  cases s with
  | positive =>
    rw [show Sign.positive.toBitVec.toNat = 0 from rfl, if_neg (by omega), if_pos (by omega),
      decide_eq_false (by omega), show (0 * 2 ^ 63 + m) % 4503599627370496 = m by omega]
    rfl
  | negative =>
    rw [show Sign.negative.toBitVec.toNat = 1 from rfl, if_neg (by omega), if_pos (by omega),
      decide_eq_true (by omega), show (1 * 2 ^ 63 + m) % 4503599627370496 = m by omega]
    rfl

/-- One of the smallest doubles, with a sign. -/
theorem ofFloat?_withSign_smallest (few : m ≤ 2 ^ 52) (negative : Bool) :
    ofFloat? (withSign negative ⟨pack (smallest .positive m)⟩) = some ⟨negative, m, -1074⟩ := by
  unfold smallest
  rcases Nat.eq_zero_or_pos m with rfl | pos
  · cases negative <;> decide +kernel
  rw [dif_pos pos]
  rcases Nat.lt_or_eq_of_le few with lt | rfl
  · have number := ofFloat?_pack_smallest .positive pos lt
    cases negative with
    | false => exact number
    | true =>
      obtain ⟨_, unpacked⟩ := (unpack_of_ofFloat? number).resolve_left fun none => pos.ne' none.1
      have opposite : withSign true ⟨pack (.finite .positive m (-1074) pos)⟩ =
          ⟨pack (.finite .negative m (-1074) pos)⟩ := by
        show (⟨pack (UnpackedFloat.neg (Float.Model.unpack (pack _)))⟩ : Float) = _
        rw [unpacked]
        rfl
      rw [opposite]
      exact ofFloat?_pack_smallest .negative pos lt
  · have normal : Normal (2 ^ 52) (-1074) := ⟨le_rfl, by decide, le_rfl, by decide⟩
    exact normal.ofFloat?_withSign negative

/-- **What is rounded correctly is the nearest double.** -/
theorem Rounds.isRounded (h : Rounds q m e) (negative : Bool) :
    IsRounded negative q (withSign negative ⟨pack (roundWithAccuracy Format.binary64 .positive m e .exact)⟩) := by
  obtain ⟨m', e', low, high, least, rounded, same⟩ := h.exists_carried .positive
  have value : (m' : ℚ) * 2 ^ e' = m * 2 ^ e := by
    rcases same with ⟨rfl, rfl⟩ | ⟨rfl, rfl, rfl⟩
    · rfl
    · rw [zpow_add₀ two_ne_zero, zpow_one]
      push_cast
      ring
  refine ⟨m, e, h.nearest, ?_⟩
  rw [rounded, ← value]
  rcases Int.lt_or_le 971 e' with large | small
  · refine .inr ⟨?_, by rw [pack_of_large _ large]; rfl⟩
    have bits : (2 : ℚ) ^ 52 ≤ m' := by exact_mod_cast low
    have unit : (2 : ℚ) ^ (972 : ℤ) ≤ 2 ^ e' := zpow_le_zpow_right₀ one_le_two (by omega)
    calc (2 : ℚ) ^ 1024 = 2 ^ 52 * 2 ^ (972 : ℤ) := by
          rw [show (972 : ℤ) = (972 : Nat) from rfl, zpow_natCast, ← pow_add]
      _ ≤ (m' : ℚ) * 2 ^ e' := mul_le_mul bits unit (by positivity) (by positivity)
  · have normal : Normal m' e' := ⟨low, high, least, small⟩
    exact .inl ⟨_, normal.ofFloat?_withSign negative, rfl, rfl⟩

/-- **A decimal of any length is read as the double nearest to it.** -/
theorem isRounded_ofScientific (n places : Nat) (negative : Bool) :
    IsRounded negative (n / 10 ^ places) (withSign negative (Float.ofScientific n true places)) := by
  rcases Nat.eq_zero_or_pos n with rfl | pos
  · have zero : Small 0 0 := ⟨le_rfl, by positivity, by rw [zero_div]; exact_mod_cast IsNearest.natCast 0⟩
    have read : ofFloat? (withSign negative 0) = some ⟨negative, 0, -1074⟩ := by cases negative <;> decide +kernel
    rw [ofScientific_zero, Nat.cast_zero, zero_div]
    exact ⟨0, -1074, zero.nearest, .inl ⟨_, read, rfl, rfl⟩⟩
  rcases exists_rounds_or_small (q := (n : ℚ) / 10 ^ places) (by positivity) with ⟨m, e, rounds⟩ | ⟨m, small⟩
  · rw [ofScientific_eq rounds pos rfl]
    exact rounds.isRounded negative
  · rw [small.ofScientific_eq pos rfl]
    exact ⟨m, -1074, small.nearest, .inl ⟨_, ofFloat?_withSign_smallest small.mantissa_le negative, rfl, rfl⟩⟩

/-! ## One nearest double -/

/-- There is one such multiple. -/
theorem Nearest.unique {m' : Nat} {e' : ℤ} (h : Nearest q m e) (h' : Nearest q m' e') : m = m' ∧ e = e' := by
  have le {m m' : Nat} {e e' : ℤ} (h : Nearest q m e) (h' : Nearest q m' e') : e ≤ e' := by
    by_contra lt
    have least := h'.least
    have := (zpow_lt_zpow_iff_right₀ (one_lt_two (α := ℚ))).1 ((h.low (by omega)).trans_lt h'.high)
    omega
  obtain rfl := (le h h').antisymm (le h' h)
  exact ⟨h.near.unique h'.near, rfl⟩

variable {x y : Float} {v w : Binary64}

/-- The number of a finite double is nearest to that double. -/
theorem nearest_magnitude (hx : ofFloat? x = some v) : Nearest v.magnitude v.mantissa v.exponent := by
  rcases normal_or_of_ofFloat? hx with normal | ⟨few, least⟩
  · exact normal.rounds.nearest
  · have unit : (0 : ℚ) < 2 ^ (-1074 : ℤ) := by positivity
    have small : Small v.magnitude v.mantissa := by
      refine ⟨v.magnitude_nonneg, ?_, ?_⟩
      · rw [magnitude, least, show (-1022 : ℤ) = (52 : Nat) + -1074 by norm_num, zpow_add₀ two_ne_zero,
          mul_lt_mul_iff_left₀ unit, zpow_natCast]
        exact_mod_cast few
      · rw [magnitude, least, mul_div_cancel_right₀ _ unit.ne']
        exact .natCast _
    rw [least]
    exact small.nearest

/-- Every finite double is below the power of two that is the first to be infinite. -/
theorem magnitude_lt (hx : ofFloat? x = some v) : v.magnitude < 2 ^ 1024 := by
  have few : v.exponent + 53 ≤ 1024 := by
    rcases normal_or_of_ofFloat? hx with normal | ⟨-, least⟩
    · have := normal.greatest
      omega
    · omega
  calc v.magnitude < 2 ^ (v.exponent + 53) := (nearest_magnitude hx).high
    _ ≤ 2 ^ (1024 : ℤ) := zpow_le_zpow_right₀ one_le_two few
    _ = 2 ^ 1024 := by rw [show (1024 : ℤ) = (1024 : Nat) from rfl, zpow_natCast]

/-- **A number is rounded to one double only.** -/
theorem IsRounded.unique {negative : Bool} (h : IsRounded negative q x) (h' : IsRounded negative q y) : x = y := by
  obtain ⟨m, e, nearest, result⟩ := h
  obtain ⟨m', e', nearest', result'⟩ := h'
  obtain ⟨rfl, rfl⟩ := nearest.unique nearest'
  rcases result with ⟨v, hx, sign, value⟩ | ⟨large, hx⟩
  · rcases result' with ⟨w, hy, sign', value'⟩ | ⟨large, -⟩
    · have same := nearest_magnitude hx
      rw [value, ← value'] at same
      obtain ⟨mantissa, exponent⟩ := same.unique (nearest_magnitude hy)
      have : v = w := by
        cases v
        cases w
        simp_all
      subst this
      exact ofFloat?_injective hx hy
    · -- no finite double is as large as what becomes infinite
      exact absurd (magnitude_lt hx) (by rw [value]; exact not_lt.2 large)
  · rcases result' with ⟨w, hy, sign', value'⟩ | ⟨-, hy⟩
    · exact absurd (magnitude_lt hy) (by rw [value']; exact not_lt.2 large)
    · rw [hx, hy]

end Binary64

end Stylesheet
