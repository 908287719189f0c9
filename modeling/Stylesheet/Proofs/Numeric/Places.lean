import Stylesheet.Proofs.Numeric.Nearest

/-! # Doubles of few places

A finite double is known from its sign, its mantissa and its exponent (`ofFloat?_injective`). Written with five
decimal places and read again, it becomes the nearest such decimal, as a double (**`rounded`**). Whole numbers
stay as they are however large they are (`rounded_of_isWhole`), and so does every double that is nearest to a
decimal with five places (`rounded_of_hasFivePlaces`). Where decimals of five places lie closer together than
doubles, the double is found again; where doubles lie closer together, the decimal is.

Zero keeps its sign or loses it. The two zeros are told apart by no comparison (**`Alike`**). -/

namespace Stylesheet

namespace Binary64

open Float.Model Float.Model.UnpackedFloat

/-! ## Doubles and their numbers -/

/-- The bits of a finite double. -/
theorem toNat_toBits {x : Float} {v : Binary64} (h : ofFloat? x = some v) :
    x.toBits.toNat = (if v.negative then 2 ^ 63 else 0) +
      (if v.mantissa < 2 ^ 52 then v.mantissa else (v.exponent + 1075).toNat * 2 ^ 52 + (v.mantissa - 2 ^ 52)) := by
  have bound : x.toBits.toNat < 2 ^ 64 := x.toBits.toNat_lt
  unfold ofFloat? at h
  generalize x.toBits.toNat = bits at h bound
  dsimp only at h
  have p52 : Nat.pow 2 52 = 4503599627370496 := rfl
  have p11 : Nat.pow 2 11 = 2048 := rfl
  have p63 : Nat.pow 2 63 = 9223372036854775808 := rfl
  rw [p52, p11, p63] at h
  split at h
  · cases h
  · split at h
    · cases h
      simp only [decide_eq_true_eq]
      split <;> split <;> omega
    · cases h
      simp only [decide_eq_true_eq]
      split <;> split <;> omega

/-- A double is known from its number. -/
theorem ofFloat?_injective {x y : Float} {v : Binary64} (hx : ofFloat? x = some v) (hy : ofFloat? y = some v) :
    x = y := by
  have bits : x.toBits = y.toBits := UInt64.toNat.inj ((toNat_toBits hx).trans (toNat_toBits hy).symm)
  rcases x with ⟨⟨_, _⟩⟩
  rcases y with ⟨⟨_, _⟩⟩
  cases bits
  rfl

/-- A double has all its bits, or the least exponent. -/
theorem normal_or_of_ofFloat? {x : Float} {v : Binary64} (h : ofFloat? x = some v) :
    Normal v.mantissa v.exponent ∨ (v.mantissa < 2 ^ 52 ∧ v.exponent = -1074) := by
  unfold ofFloat? at h
  dsimp only at h
  have p52 : Nat.pow 2 52 = 4503599627370496 := rfl
  have p11 : Nat.pow 2 11 = 2048 := rfl
  rw [p52, p11] at h
  split at h
  · cases h
  · split at h
    · cases h
      exact .inr ⟨Nat.mod_lt _ (by decide), rfl⟩
    · cases h
      refine .inl ⟨?_, ?_, ?_, ?_⟩ <;> dsimp only <;> omega

/-! ## Signs -/

/-- A magnitude with a sign. -/
def withSign (negative : Bool) (x : Float) : Float := if negative then -x else x

/-- The number of a double that is put together with a sign. -/
theorem Normal.ofFloat?_withSign {m : Nat} {e : Int} (h : Normal m e) (negative : Bool) :
    ofFloat? (withSign negative ⟨pack (.finite .positive m e h.pos)⟩) = some ⟨negative, m, e⟩ := by
  cases negative with
  | false => exact h.ofFloat?_eq .positive
  | true =>
    have opposite : withSign true ⟨pack (.finite .positive m e h.pos)⟩ =
        ⟨pack (.finite .negative m e h.pos)⟩ := by
      show (⟨pack (UnpackedFloat.neg (Float.Model.unpack (pack _)))⟩ : Float) = _
      rw [h.unpack_pack]
      rfl
    rw [opposite]
    exact h.ofFloat?_eq .negative

/-- Every double that is not among the smallest is put together so. -/
theorem eq_withSign {x : Float} {v : Binary64} (hx : ofFloat? x = some v) (h : Normal v.mantissa v.exponent) :
    x = withSign v.negative ⟨pack (.finite .positive v.mantissa v.exponent h.pos)⟩ :=
  ofFloat?_injective hx (h.ofFloat?_withSign v.negative)

/-- A number that would need a larger exponent becomes infinite. -/
theorem pack_of_large {m : Nat} {e : Int} (pos : 0 < m) (large : 971 < e) :
    pack (.finite .positive m e pos) = pack (.infinity .positive) := by
  have exponent : 2 ^ Format.binary64.exponentBits ≤ (e + (Format.binary64.exponentBias : Int) +
      (Format.binary64.mantissaBitsWithoutImplicit : Int)).toNat + 1 := by
    have : (Format.binary64.exponentBias : Int) = 1023 := rfl
    have : (Format.binary64.mantissaBitsWithoutImplicit : Int) = 52 := rfl
    rw [show 2 ^ Format.binary64.exponentBits = 2048 from rfl]
    omega
  have packed : UnpackedFloat.pack Format.binary64 (.finite .positive m e pos) =
      UnpackedFloat.pack Format.binary64 (.infinity .positive) := by
    show (if _ then _ else _) = _
    rw [if_pos exponent]
    rfl
  unfold Float.Model.pack
  congr 2

/-- It has no double. -/
theorem ofFloat?_withSign_of_large {m : Nat} {e : Int} (pos : 0 < m) (large : 971 < e) (negative : Bool) :
    ofFloat? (withSign negative ⟨pack (.finite .positive m e pos)⟩) = none := by
  rw [pack_of_large pos large]
  cases negative <;> decide +kernel

/-! ## Whole numbers -/

/-- The number that a double stands for, without its sign. -/
def magnitude (v : Binary64) : ℚ := v.mantissa * 2 ^ v.exponent

/-- A number that has a double rounds to it. -/
theorem Normal.rounds {m : Nat} {e : Int} (h : Normal m e) : Rounds (m * 2 ^ e) m e := by
  have low : ((2 ^ 52 : Nat) : ℚ) ≤ m := by exact_mod_cast h.low
  have high : (m : ℚ) < (2 ^ 53 : Nat) := by exact_mod_cast h.high
  rw [Nat.cast_pow, Nat.cast_ofNat] at low high
  have unit : (0 : ℚ) < 2 ^ e := by positivity
  refine ⟨?_, ?_, h.least, ?_⟩
  · rw [zpow_add₀ two_ne_zero, mul_comm (m : ℚ)]
    exact mul_le_mul_of_nonneg_left low unit.le
  · rw [zpow_add₀ two_ne_zero, mul_comm (m : ℚ)]
    exact mul_lt_mul_of_pos_left high unit
  · rw [mul_div_cancel_right₀ _ unit.ne']
    exact .natCast m

/-- There are no bits behind the point of a whole number. -/
theorem mod_two_pow_of_isWhole {v : Binary64} (whole : v.isWhole = true) {k : Nat} (hk : v.exponent = -k) :
    v.mantissa % 2 ^ k = 0 := by
  unfold isWhole at whole
  rw [hk] at whole
  rcases Bool.or_eq_true_iff.1 whole with h | h
  · obtain rfl : k = 0 := by
      have := of_decide_eq_true h
      omega
    exact Nat.mod_one _
  · simpa using h

/-- A double with nothing behind the point is its whole part. -/
theorem wholePart_eq {v : Binary64} (whole : v.isWhole = true) : (v.wholePart : ℚ) = v.magnitude := by
  unfold wholePart shift magnitude
  rcases Int.lt_or_le v.exponent 0 with negative | positive
  · obtain ⟨k, hk⟩ : ∃ k : Nat, v.exponent = -k := ⟨(-v.exponent).toNat, by omega⟩
    obtain ⟨n, hn⟩ := Nat.dvd_of_mod_eq_zero (mod_two_pow_of_isWhole whole hk)
    rw [hk] at negative ⊢
    rw [if_neg (by omega), Int.neg_neg, Int.toNat_natCast, zpow_neg, zpow_natCast, hn]
    show ((2 ^ k * n / 2 ^ k : Nat) : ℚ) = _
    rw [Nat.mul_div_cancel_left _ (Nat.two_pow_pos k)]
    push_cast
    field_simp
  · obtain ⟨k, hk⟩ := Int.eq_ofNat_of_zero_le positive
    rw [hk, if_pos (Int.natCast_nonneg k), Int.toNat_natCast, zpow_natCast]
    show ((v.mantissa * 2 ^ k : Nat) : ℚ) = _
    push_cast
    rfl

/-- Among the smallest doubles only zero is whole. -/
theorem normal_of_isWhole {x : Float} {v : Binary64} (hx : ofFloat? x = some v) (whole : v.isWhole = true)
    (pos : 0 < v.mantissa) : Normal v.mantissa v.exponent := by
  refine (normal_or_of_ofFloat? hx).resolve_right fun ⟨few, least⟩ => ?_
  obtain ⟨k, hk⟩ : ∃ k : Nat, v.exponent = -k := ⟨(-v.exponent).toNat, by omega⟩
  have none := mod_two_pow_of_isWhole whole hk
  have small : v.mantissa < 2 ^ k := few.trans_le (Nat.pow_le_pow_right Nat.two_pos (by omega))
  rw [Nat.mod_eq_of_lt small] at none
  omega

/-- A whole number other than zero has a whole part other than zero. -/
theorem wholePart_pos {x : Float} {v : Binary64} (hx : ofFloat? x = some v) (whole : v.isWhole = true)
    (pos : 0 < v.mantissa) : 0 < v.wholePart := by
  have : (0 : ℚ) < v.wholePart := by
    rw [wholePart_eq whole]
    exact (normal_of_isWhole hx whole pos).rounds.pos
  exact_mod_cast this

/-- The whole part of zero is zero. -/
theorem wholePart_eq_zero {v : Binary64} (zero : v.mantissa = 0) : v.wholePart = 0 := by
  unfold wholePart shift
  rw [zero]
  split <;> simp

/-- **Whole numbers are read back as they are**, however large they are. -/
theorem withSign_ofScientific_wholePart {x : Float} {v : Binary64} (hx : ofFloat? x = some v)
    (whole : v.isWhole = true) (pos : 0 < v.mantissa) :
    withSign v.negative (Float.ofScientific v.wholePart true 0) = x := by
  have normal := normal_of_isWhole hx whole pos
  have rounds : Rounds v.magnitude v.mantissa v.exponent := normal.rounds
  have value : v.magnitude = (v.wholePart : ℚ) / 10 ^ 0 := by rw [wholePart_eq whole, pow_zero, div_one]
  rw [ofScientific_eq rounds (wholePart_pos hx whole pos) value]
  have exactly := normal.round_eq .positive 0
  rw [Nat.pow_zero, Nat.mul_one, Nat.cast_zero, Int.sub_zero] at exactly
  rw [exactly, ← eq_withSign hx normal]

/-! ## Five places -/

/-- The magnitude of a double in units of the fifth place, rounded. -/
def fivePlaces (v : Binary64) : Nat :=
  Decimal.roundHalfEven (shift (v.mantissa * Nat.pow 10 5) (max v.exponent 0)) (Nat.pow 2 (-v.exponent).toNat)

/-- It is the nearest. -/
theorem isNearest_fivePlaces (v : Binary64) : IsNearest (v.magnitude * 10 ^ 5) v.fivePlaces := by
  have near := isNearest_roundHalfEven (shift (v.mantissa * Nat.pow 10 5) (max v.exponent 0))
    (Nat.two_pow_pos (-v.exponent).toNat)
  have same : v.magnitude * 10 ^ 5 = (shift (v.mantissa * Nat.pow 10 5) (max v.exponent 0) : ℚ) /
      (2 ^ (-v.exponent).toNat : Nat) := by
    unfold magnitude shift
    rw [if_pos (Int.le_max_right _ _)]
    show _ = ((v.mantissa * 10 ^ 5 * 2 ^ (max v.exponent 0).toNat : Nat) : ℚ) / _
    have unit : (2 : ℚ) ^ v.exponent * 2 ^ (-v.exponent).toNat = 2 ^ (max v.exponent 0).toNat := by
      rw [← zpow_natCast, ← zpow_natCast, ← zpow_add₀ two_ne_zero]
      congr 1
      omega
    push_cast
    rw [← unit, mul_div_assoc, mul_div_cancel_right₀ _ (by positivity)]
    ring
  rw [same]
  exact near

/-- A magnitude that is rounded is as it is, or it has taken a carry. -/
theorem Rounds.exists_carried {q : ℚ} {m : Nat} {e : ℤ} (h : Rounds q m e) (s : Sign) :
    ∃ (m' : Nat) (e' : Int) (low : 2 ^ 52 ≤ m'), m' < 2 ^ 53 ∧ -1074 ≤ e' ∧
      roundWithAccuracy Format.binary64 s m e .exact =
        .finite s m' e' (Nat.lt_of_lt_of_le (Nat.two_pow_pos 52) low) ∧
      ((m' = m ∧ e' = e) ∨ (m = 2 ^ 53 ∧ m' = 2 ^ 52 ∧ e' = e + 1)) := by
  rcases Nat.lt_or_eq_of_le h.mantissa_le with lt | carry
  · have exactly := roundWithAccuracy_exact h.low_mantissa lt h.least s 0
    rw [Nat.pow_zero, Nat.mul_one, Nat.cast_zero, Int.sub_zero] at exactly
    exact ⟨m, e, h.low_mantissa, lt, h.least, exactly, .inl ⟨rfl, rfl⟩⟩
  · have least := h.least
    have exactly := roundWithAccuracy_exact (m := 2 ^ 52) (e := e + 1) (Nat.le_refl _) (by decide) (by omega) s 1
    rw [show 2 ^ 52 * 2 ^ 1 = 2 ^ 53 by rfl, Nat.cast_one, Int.add_sub_cancel, ← carry] at exactly
    exact ⟨2 ^ 52, e + 1, Nat.le_refl _, by decide, by omega, exactly, .inr ⟨carry, rfl, rfl⟩⟩

/-- A double that is read is what the decimal rounds to. -/
theorem of_ofFloat?_ofScientific {q : ℚ} {m : Nat} {e : ℤ} (h : Rounds q m e) {n : Nat} (pos : 0 < n)
    (value : q = n / 10 ^ 5) {negative : Bool} {v : Binary64}
    (hv : ofFloat? (withSign negative (Float.ofScientific n true 5)) = some v) :
    Normal v.mantissa v.exponent ∧ v.negative = negative ∧
      ((v.mantissa = m ∧ v.exponent = e) ∨ (m = 2 ^ 53 ∧ v.mantissa = 2 ^ 52 ∧ v.exponent = e + 1)) := by
  rw [ofScientific_eq h pos value] at hv
  obtain ⟨m', e', low, high, least, exactly, same⟩ := h.exists_carried .positive
  rw [exactly] at hv
  rcases Int.lt_or_le 971 e' with large | small
  · rw [ofFloat?_withSign_of_large _ large] at hv
    cases hv
  · have normal : Normal m' e' := ⟨low, high, least, small⟩
    rw [normal.ofFloat?_withSign] at hv
    cases hv
    exact ⟨normal, rfl, same⟩

/-- A power of two that is not too small is whole. -/
theorem isWhole_of_two_pow {v : Binary64} (power : v.mantissa = 2 ^ 52) (above : -52 ≤ v.exponent) :
    v.isWhole = true := by
  unfold isWhole
  rw [power]
  rcases Int.lt_or_le v.exponent 0 with negative | positive
  · obtain ⟨k, hk⟩ : ∃ k : Nat, v.exponent = -k := ⟨(-v.exponent).toNat, by omega⟩
    have dvd : 2 ^ k ∣ 2 ^ 52 := Nat.pow_dvd_pow 2 (by omega)
    rw [hk, Int.neg_neg, Int.toNat_natCast]
    simpa using .inr (Nat.mod_eq_zero_of_dvd dvd)
  · simp [positive]

/-- Where decimals of five places lie closer together than doubles, the one nearest to a double rounds to it. -/
theorem rounds_fivePlaces {v : Binary64} (h : Normal v.mantissa v.exponent) (notPower : v.mantissa ≠ 2 ^ 52)
    (coarse : (10 : ℚ) ^ 5 * 2 ^ v.exponent > 1) :
    Rounds ((v.fivePlaces : ℚ) / 10 ^ 5) v.mantissa v.exponent := by
  have unit : (0 : ℚ) < 2 ^ v.exponent := by positivity
  have near : |(v.fivePlaces : ℚ) / 10 ^ 5 / 2 ^ v.exponent - v.mantissa| < 1 / 2 := by
    have nearest := v.isNearest_fivePlaces.abs_sub_le
    have scaled : (v.fivePlaces : ℚ) / 10 ^ 5 / 2 ^ v.exponent - v.mantissa =
        -(v.magnitude * 10 ^ 5 - v.fivePlaces) / (10 ^ 5 * 2 ^ v.exponent) := by
      unfold magnitude
      field_simp
      ring
    rw [scaled, abs_div, abs_neg, abs_of_pos (by positivity : (0 : ℚ) < 10 ^ 5 * 2 ^ v.exponent),
      div_lt_iff₀ (by positivity)]
    linarith
  have low : (2 : ℚ) ^ 52 + 1 ≤ v.mantissa := by
    have := h.low
    exact_mod_cast (by omega : 2 ^ 52 + 1 ≤ v.mantissa)
  have high : (v.mantissa : ℚ) + 1 ≤ 2 ^ 53 := by exact_mod_cast h.high
  obtain ⟨below, above⟩ := abs_lt.1 near
  refine ⟨?_, ?_, h.least, .inl near⟩
  · rw [zpow_add₀ two_ne_zero, mul_comm, ← le_div_iff₀ unit]
    exact_mod_cast (by linarith : (2 : ℚ) ^ 52 ≤ (v.fivePlaces : ℚ) / 10 ^ 5 / 2 ^ v.exponent)
  · rw [zpow_add₀ two_ne_zero, mul_comm, ← div_lt_iff₀ unit]
    exact_mod_cast (by linarith : (v.fivePlaces : ℚ) / 10 ^ 5 / 2 ^ v.exponent < (2 : ℚ) ^ 53)

/-- **Doubles with five places are read back as they are.** -/
theorem ofScientific_fivePlaces {n : Nat} (pos : 0 < n) {negative : Bool} {v : Binary64}
    (hv : ofFloat? (withSign negative (Float.ofScientific n true 5)) = some v) (notWhole : v.isWhole = false) :
    Float.ofScientific v.fivePlaces true 5 = Float.ofScientific n true 5 := by
  obtain ⟨m, e, rounds⟩ := exists_rounds_decimal pos (Nat.le_refl 5)
  obtain ⟨normal, -, same⟩ := of_ofFloat?_ofScientific rounds pos rfl hv
  have unit : (0 : ℚ) < 2 ^ e := by positivity
  rcases lt_or_ge ((10 : ℚ) ^ 5 * 2 ^ e) 1 with fine | coarse
  · -- doubles lie closer together than decimals, so the decimal is found again
    have value : v.magnitude = m * 2 ^ e := by
      unfold magnitude
      rcases same with ⟨rfl, rfl⟩ | ⟨rfl, hm, he⟩
      · rfl
      · rw [hm, he, zpow_add₀ two_ne_zero]
        push_cast
        ring
    have near : |v.magnitude - (n : ℚ) / 10 ^ 5| ≤ 2 ^ e / 2 := by
      have := rounds.near.abs_sub_le
      have scaled : v.magnitude - (n : ℚ) / 10 ^ 5 = -((n : ℚ) / 10 ^ 5 / 2 ^ e - m) * 2 ^ e := by
        rw [value]
        field_simp
        ring
      rw [scaled, abs_mul, abs_neg, abs_of_pos unit]
      calc _ ≤ (1 / 2 : ℚ) * 2 ^ e := by gcongr
        _ = 2 ^ e / 2 := by ring
    have found : IsNearest (v.magnitude * 10 ^ 5) n := by
      have scaled : v.magnitude * 10 ^ 5 - n = (v.magnitude - n / 10 ^ 5) * 10 ^ 5 := by field_simp
      refine .inl ?_
      rw [scaled, abs_mul, abs_of_pos (by positivity : (0 : ℚ) < 10 ^ 5)]
      linarith
    rw [v.isNearest_fivePlaces.unique found]
  · -- decimals lie closer together, so the double is found again
    have above : -17 < e := by
      by_contra low
      have : (2 : ℚ) ^ e ≤ 2 ^ (-17 : ℤ) := zpow_le_zpow_right₀ one_le_two (by omega)
      norm_num at this coarse
      linarith
    have apart : (10 : ℚ) ^ 5 * 2 ^ e > 1 := by
      have : (2 : ℚ) ^ (-16 : ℤ) ≤ 2 ^ e := zpow_le_zpow_right₀ one_le_two (by omega)
      norm_num at this ⊢
      linarith
    have notPower : v.mantissa ≠ 2 ^ 52 := fun power => by
      have := isWhole_of_two_pow power (by omega)
      rw [notWhole] at this
      cases this
    obtain ⟨rfl, rfl⟩ : v.mantissa = m ∧ v.exponent = e := same.resolve_right fun carry => notPower carry.2.1
    have found := rounds_fivePlaces normal notPower apart
    have posn : 0 < v.fivePlaces := Nat.pos_of_ne_zero fun zero => by
      have := found.pos
      rw [zero] at this
      norm_num at this
    rw [ofScientific_eq found posn rfl, ofScientific_eq rounds pos rfl]

/-- A double rounded to five decimal places, and read as the nearest double. -/
def rounded (x : Float) : Float :=
  match ofFloat? x with
  | none => x
  | some v => withSign v.negative (Float.ofScientific v.fivePlaces true 5)

/-- A double that is the nearest one to a decimal with five places. -/
def HasFivePlaces (x : Float) : Prop := ∃ negative n, x = withSign negative (Float.ofScientific n true 5)

/-- A double is rounded to the double nearest to its five decimal places. -/
theorem rounded_eq {x : Float} {v : Binary64} (hx : ofFloat? x = some v) :
    rounded x = withSign v.negative (Float.ofScientific v.fivePlaces true 5) := by
  rw [rounded, hx]

/-- The two zeros, taken apart. -/
theorem ofFloat?_withSign_zero (negative : Bool) : ofFloat? (withSign negative 0) = some ⟨negative, 0, -1074⟩ := by
  cases negative <;> decide +kernel

/-- There are two zeros. -/
theorem eq_withSign_zero {x : Float} {v : Binary64} (hx : ofFloat? x = some v) (zero : v.mantissa = 0) :
    x = withSign v.negative 0 := by
  have least : v.exponent = -1074 := by
    rcases normal_or_of_ofFloat? hx with normal | ⟨-, least⟩
    · exact absurd zero normal.pos.ne'
    · exact least
  refine ofFloat?_injective hx ?_
  rw [ofFloat?_withSign_zero, ← least, ← zero]

/-- Rounding leaves whole numbers as they are. -/
theorem rounded_of_isWhole {x : Float} {v : Binary64} (hx : ofFloat? x = some v) (whole : v.isWhole = true) :
    rounded x = x := by
  have nearest := v.isNearest_fivePlaces
  have units : v.magnitude * 10 ^ 5 = (v.wholePart * 10 ^ 5 : Nat) := by
    rw [← wholePart_eq whole]
    push_cast
    rfl
  rw [units] at nearest
  have same : Float.ofScientific v.fivePlaces true 5 = Float.ofScientific v.wholePart true 0 := by
    refine ofScientific_congr (Nat.le_refl 5) ?_
    rw [nearest.unique (.natCast _), pow_zero, div_one, Nat.cast_mul, Nat.cast_pow, Nat.cast_ofNat]
    field_simp
  rw [rounded_eq hx, same]
  rcases Nat.eq_zero_or_pos v.mantissa with zero | pos
  · rw [wholePart_eq_zero zero, ofScientific_zero, ← eq_withSign_zero hx zero]
  · exact withSign_ofScientific_wholePart hx whole pos

/-- An integer is a finite double with nothing behind the point. -/
theorem isInteger_iff {x : Float} : isInteger x = true ↔ ∃ v, ofFloat? x = some v ∧ v.isWhole = true := by
  unfold isInteger
  cases ofFloat? x <;> simp

/-- Rounding leaves doubles with five places as they are. -/
theorem rounded_of_hasFivePlaces {x : Float} (h : HasFivePlaces x) : rounded x = x := by
  obtain ⟨negative, n, rfl⟩ := h
  cases hx : ofFloat? (withSign negative (Float.ofScientific n true 5)) with
  | none => rw [rounded, hx]
  | some v =>
    by_cases whole : v.isWhole = true
    · exact rounded_of_isWhole hx whole
    · rcases Nat.eq_zero_or_pos n with rfl | pos
      · -- zero is whole
        rw [ofScientific_zero, ofFloat?_withSign_zero, Option.some.injEq] at hx
        subst hx
        exact absurd rfl whole
      · obtain ⟨m, e, rounds⟩ := exists_rounds_decimal pos (Nat.le_refl 5)
        obtain ⟨-, sign, -⟩ := of_ofFloat?_ofScientific rounds pos rfl hx
        rw [rounded_eq hx, ofScientific_fivePlaces pos hx (Bool.eq_false_iff.2 whole), sign]

/-! ## The sign of zero -/

/-- Doubles that are the same, or both zero. -/
def Alike (x y : Float) : Prop := x = y ∨ ∃ a b, x = withSign a 0 ∧ y = withSign b 0

/-- The two zeros unpack to zeros. -/
theorem exists_unpack_withSign_zero (negative : Bool) : ∃ s, (withSign negative 0).toModel.unpack = .zero s := by
  cases negative with
  | false => exact ⟨.positive, rfl⟩
  | true => exact ⟨.negative, rfl⟩

/-- Doubles that are alike unpack alike, or both to a zero. -/
theorem Alike.unpack_cases {x x' : Float} (h : Alike x x') : x.toModel.unpack = x'.toModel.unpack ∨
    ∃ s t, x.toModel.unpack = .zero s ∧ x'.toModel.unpack = .zero t := by
  rcases h with rfl | ⟨a, b, rfl, rfl⟩
  · exact .inl rfl
  · obtain ⟨s, hs⟩ := exists_unpack_withSign_zero a
    obtain ⟨t, ht⟩ := exists_unpack_withSign_zero b
    exact .inr ⟨s, t, hs, ht⟩

/-- The two zeros compare alike. -/
theorem Alike.compare_left {x x' : Float} (h : Alike x x') (u : UnpackedFloat) :
    x.toModel.unpack.compare u = x'.toModel.unpack.compare u := by
  obtain same | ⟨s, t, hs, ht⟩ := h.unpack_cases
  · rw [same]
  · rw [hs, ht]
    cases u with
    | finite sign => cases sign <;> rfl
    | infinity sign => cases sign <;> rfl
    | notANumber | zero => rfl

/-- Nothing compares differently with doubles that are alike. -/
theorem Alike.compare_right {y y' : Float} (h : Alike y y') (u : UnpackedFloat) :
    u.compare y.toModel.unpack = u.compare y'.toModel.unpack := by
  obtain same | ⟨s, t, hs, ht⟩ := h.unpack_cases
  · rw [same]
  · rw [hs, ht]
    cases u with
    | finite sign => cases sign <;> rfl
    | infinity sign => cases sign <;> rfl
    | notANumber | zero => rfl

/-- Doubles that are alike compare alike. -/
theorem Alike.compare_eq {x x' y y' : Float} (hx : Alike x x') (hy : Alike y y') :
    x.toModel.unpack.compare y.toModel.unpack = x'.toModel.unpack.compare y'.toModel.unpack :=
  (hx.compare_left _).trans (hy.compare_right _)

section

variable {x x' y y' : Float} (hx : Alike x x') (hy : Alike y y')

include hx hy

/-- Doubles that are alike are below the same doubles, and above the same. -/
theorem Alike.lt_iff : x < y ↔ x' < y' := by
  have lt (a b : Float) : a < b ↔ a.toModel.unpack.lt b.toModel.unpack = true := decide_eq_true_iff
  rw [lt, lt, UnpackedFloat.lt, UnpackedFloat.lt, hx.compare_eq hy]

/-- Doubles that are alike are at most the same doubles, and at least the same. -/
theorem Alike.le_iff : x ≤ y ↔ x' ≤ y' := by
  have le (a b : Float) : a ≤ b ↔ a.toModel.unpack.le b.toModel.unpack = true := decide_eq_true_iff
  rw [le, le, UnpackedFloat.le, UnpackedFloat.le, hx.compare_eq hy]

/-- Doubles that are alike are equal to the same doubles. -/
theorem Alike.beq_eq : (x == y) = (x' == y') := by
  have beq (a b : Float) : (a == b) = (a.toModel.unpack.compare b.toModel.unpack == some .eq) := rfl
  rw [beq, beq, hx.compare_eq hy]

end

end Binary64

end Stylesheet
