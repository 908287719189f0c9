import Mathlib.Tactic.Ring
import Stylesheet.Number

/-! # Integers as doubles

A double has 53 bits for the magnitude of a number, so an integer that needs no more of them is held as it is
(**`Number.integer?_ofInt`**). The variable of a counting loop counts exactly as long as its bounds stay within
`2 ^ 53`.

A magnitude whose 53 bits are all used is **normal** (**`Binary64.Normal`**): it is read off from the bits of
its double (`Binary64.Normal.ofFloat?_eq`), and rounding to it loses nothing (`Binary64.Normal.round_eq`). -/

namespace Stylesheet

namespace Binary64

open Float.Model Float.Model.UnpackedFloat

/-- The first bit is the sign. -/
theorem unpackSign_eq (s : Sign) (exponent : BitVec 11) (mantissa : BitVec 52) :
    unpackSign (packComponents Format.binary64 s exponent mantissa) = s.toBitVec := by
  refine BitVec.eq_of_getLsbD_eq fun i hi => ?_
  obtain rfl : i = 0 := by omega
  have last : (s.toBitVec ++ exponent ++ mantissa).getLsbD 63 = s.toBitVec.getLsbD 0 := by
    rw [BitVec.getLsbD_append, BitVec.getLsbD_append]
    rfl
  refine Eq.trans ?_ last
  unfold unpackSign packComponents
  rw [BitVec.getLsbD_cast, BitVec.getLsbD_extractLsb]
  rfl

/-- No bits are lost where all that go are zero. -/
theorem shiftRight_eq (m k : Nat) :
    (⟨m * 2 ^ k, false, false⟩ : ExtendedMantissa) >>> k = ⟨m, false, false⟩ := by
  induction k generalizing m with
  | zero =>
    rw [Nat.pow_zero, Nat.mul_one]
    rfl
  | succ k ih =>
    have step : (⟨m * 2 ^ (k + 1), false, false⟩ : ExtendedMantissa) >>> (k + 1) =
        ((⟨m * 2 ^ (k + 1), false, false⟩ : ExtendedMantissa) >>> k).shiftRightOne := rfl
    rw [step, show m * 2 ^ (k + 1) = m * 2 * 2 ^ k by ring, ih]
    unfold ExtendedMantissa.shiftRightOne
    simp

/-- As many bits are kept as fit, unless the exponent would be less than the least one. -/
theorem targetExponent_binary64 (n : Nat) (t : Int) :
    Format.binary64.targetExponent (totalExponent n t) = max (n.log2 + t - 52) (-1074) := by
  unfold Format.targetExponent totalExponent
  rw [show (Format.binary64.mantissaBits : Int) = 53 from rfl,
    show Format.binary64.minExponent = -1074 from rfl]
  omega

/-- A magnitude of 53 bits keeps all of them, and only zeros behind it go. -/
theorem shiftToTargetExponent_exact {m : Nat} {e : Int} (low : 2 ^ 52 ≤ m) (high : m < 2 ^ 53)
    (least : -1074 ≤ e) (k : Nat) :
    shiftToTargetExponent Format.binary64 (m * 2 ^ k) (e - k) .exact = (⟨m, false, false⟩, e) := by
  have pos : 0 < m := Nat.lt_of_lt_of_le (Nat.two_pow_pos 52) low
  have log2 : (m * 2 ^ k).log2 = 52 + k := by
    refine (Nat.log2_eq_iff (Nat.mul_pos pos (Nat.two_pow_pos k)).ne').2 ⟨?_, ?_⟩
    · rw [Nat.pow_add]
      exact Nat.mul_le_mul_right _ low
    · rw [show 52 + k + 1 = 53 + k by omega, Nat.pow_add]
      exact Nat.mul_lt_mul_of_pos_right high (Nat.two_pow_pos k)
  have target : Format.binary64.targetExponent (totalExponent (m * 2 ^ k) (e - k)) = e := by
    rw [targetExponent_binary64, log2]
    omega
  unfold shiftToTargetExponent shiftToExponent
  dsimp only
  rw [target, show (e - (e - (k : Int))).toNat = k by omega]
  exact Prod.ext (shiftRight_eq m k) (by simp)

/-- Such a magnitude is rounded to itself. -/
theorem roundWithAccuracy_exact {m : Nat} {e : Int} (low : 2 ^ 52 ≤ m) (high : m < 2 ^ 53) (least : -1074 ≤ e)
    (s : Sign) (k : Nat) :
    roundWithAccuracy Format.binary64 s (m * 2 ^ k) (e - k) .exact =
      .finite s m e (Nat.lt_of_lt_of_le (Nat.two_pow_pos 52) low) := by
  have rounded : ExtendedMantissa.roundedMantissa ⟨m, false, false⟩ = m := rfl
  have again := shiftToTargetExponent_exact low high least 0
  rw [Nat.pow_zero, Nat.mul_one, Nat.cast_zero, Int.sub_zero] at again
  unfold roundWithAccuracy
  rw [shiftToTargetExponent_exact low high least k]
  dsimp only
  rw [rounded, again]
  dsimp only
  rw [dif_neg (Nat.lt_of_lt_of_le (Nat.two_pow_pos 52) low).ne']

/-- A magnitude of 53 bits, with an exponent that a double can have. -/
structure Normal (m : Nat) (e : Int) : Prop where
  low : 2 ^ 52 ≤ m
  high : m < 2 ^ 53
  least : -1074 ≤ e
  greatest : e ≤ 971

namespace Normal

variable {m : Nat} {e : Int} (h : Normal m e) (s : Sign)

include h

/-- A mantissa with all its bits is positive. -/
theorem pos : 0 < m := Nat.lt_of_lt_of_le (Nat.two_pow_pos 52) h.low

/-- A mantissa with all its bits has 53 of them. -/
theorem log2_eq : m.log2 = 52 := (Nat.log2_eq_iff h.pos.ne').2 ⟨h.low, h.high⟩

/-- The parts of which a double is put together. -/
theorem pack_eq : UnpackedFloat.pack Format.binary64 (.finite s m e h.pos) =
    packComponents Format.binary64 s (BitVec.ofNat 11 (e + 1075).toNat) (BitVec.ofNat 52 m) := by
  have exponent :
      (e + (Format.binary64.exponentBias : Int) + (Format.binary64.mantissaBitsWithoutImplicit : Int)).toNat =
      (e + 1075).toNat := by
    have : (Format.binary64.exponentBias : Int) = 1023 := rfl
    have : (Format.binary64.mantissaBitsWithoutImplicit : Int) = 52 := rfl
    omega
  have small : ¬2 ^ Format.binary64.exponentBits ≤ (e + 1075).toNat + 1 := by
    have greatest := h.greatest
    rw [show 2 ^ Format.binary64.exponentBits = 2048 from rfl]
    omega
  unfold UnpackedFloat.pack
  dsimp only
  rw [exponent, if_neg small, h.log2_eq, if_pos (show 52 + 1 = Format.binary64.mantissaBits from rfl)]

/-- The bits of a double. -/
theorem toNat_pack : (UnpackedFloat.pack Format.binary64 (.finite s m e h.pos)).toNat =
    s.toBitVec.toNat * 2 ^ 63 + (e + 1075).toNat * 2 ^ 52 + (m - 2 ^ 52) := by
  have least := h.least
  have greatest := h.greatest
  have low := h.low
  have high := h.high
  rw [h.pack_eq]
  unfold packComponents
  rw [BitVec.toNat_append, BitVec.toNat_append, ← Nat.shiftLeft_add_eq_or_of_lt (BitVec.isLt _),
    ← Nat.shiftLeft_add_eq_or_of_lt (BitVec.isLt _), Nat.shiftLeft_eq, Nat.shiftLeft_eq]
  have exponent : (BitVec.ofNat 11 (e + 1075).toNat).toNat = (e + 1075).toNat := by
    rw [BitVec.toNat_ofNat]
    omega
  have mantissa : (BitVec.ofNat 52 m).toNat = m - 2 ^ 52 := by
    rw [BitVec.toNat_ofNat]
    omega
  rw [exponent, mantissa]
  show (_ * 2 ^ 11 + _) * 2 ^ 52 + _ = _
  ring

/-- A double that is neither the last nor the first one of its exponent is taken apart into its parts. -/
theorem unpack_eq {bits : BitVec Format.binary64.numBits} {sign : BitVec 1} {exponent : BitVec 11}
    {mantissa : BitVec 52} (hs : unpackSign bits = sign) (he : unpackExponent bits = exponent)
    (hm : unpackMantissa bits = mantissa) (notLast : exponent ≠ -1#11)
    (notFirst : exponent ≠ 0#11) (signed : Sign.ofBitVec sign = s) (whole : (1#1 ++ mantissa).toNat = m)
    (bias : (exponent.toNat : Int) - ((Format.binary64.exponentBias : Int) + (52 : Nat)) = e) :
    unpack Format.binary64 bits = .finite s m e h.pos := by
  subst hs he hm
  unfold UnpackedFloat.unpack
  dsimp only
  rw [if_neg notLast, if_neg notFirst, UnpackedFloat.finite.injEq]
  exact ⟨signed, whole, bias⟩

/-- What was put together is taken apart again. -/
theorem unpack_pack : (pack (.finite s m e h.pos)).unpack = .finite s m e h.pos := by
  have least := h.least
  have greatest := h.greatest
  have low := h.low
  have high := h.high
  have exponent : (BitVec.ofNat 11 (e + 1075).toNat).toNat = (e + 1075).toNat := by
    rw [BitVec.toNat_ofNat]
    omega
  -- neither the exponent of the subnormal doubles nor that of what is not finite
  have inner {b : BitVec 11} (outer : b.toNat = 0 ∨ b.toNat = 2047) : BitVec.ofNat 11 (e + 1075).toNat ≠ b := by
    rintro rfl
    rw [exponent] at outer
    omega
  have mantissa : (1#1 ++ BitVec.ofNat 52 m).toNat = m := by
    rw [BitVec.toNat_append, ← Nat.shiftLeft_add_eq_or_of_lt (BitVec.isLt _), BitVec.toNat_ofNat,
      Nat.shiftLeft_eq]
    change 1 * 2 ^ 52 + m % 2 ^ 52 = m
    omega
  have bias : ((BitVec.ofNat 11 (e + 1075).toNat).toNat : Int) -
      ((Format.binary64.exponentBias : Int) + (52 : Nat)) = e := by
    rw [exponent, show (Format.binary64.exponentBias : Int) = 1023 from rfl]
    omega
  have sign : Sign.ofBitVec s.toBitVec = s := by cases s <;> rfl
  show unpack Format.binary64 (UnpackedFloat.pack Format.binary64 _) = _
  rw [h.pack_eq]
  exact h.unpack_eq s (unpackSign_eq s _ _) unpackExponent_packComponents unpackMantissa_packComponents
    (inner (.inr rfl)) (inner (.inl rfl)) sign mantissa bias

/-- A double of 53 bits as a number. -/
theorem ofFloat?_eq : ofFloat? ⟨pack (.finite s m e h.pos)⟩ = some ⟨s.toBitVec == 1#1, m, e⟩ := by
  have least := h.least
  have greatest := h.greatest
  have low := h.low
  have high := h.high
  unfold ofFloat?
  have bits : (Float.toBits ⟨pack (.finite s m e h.pos)⟩).toNat = _ := h.toNat_pack s
  dsimp only
  rw [bits]
  -- the bits hold the sign, the exponent and the mantissa next to each other
  have field :
      (s.toBitVec.toNat * 2 ^ 63 + (e + 1075).toNat * 2 ^ 52 + (m - 2 ^ 52)) / Nat.pow 2 52 % Nat.pow 2 11 =
      (e + 1075).toNat := by
    show _ / 4503599627370496 % 2048 = _
    omega
  have fraction :
      (s.toBitVec.toNat * 2 ^ 63 + (e + 1075).toNat * 2 ^ 52 + (m - 2 ^ 52)) % Nat.pow 2 52 = m - 2 ^ 52 := by
    show _ % 4503599627370496 = _
    omega
  rw [field, fraction, if_neg (by omega), if_neg (by omega)]
  have mantissa : Nat.pow 2 52 + (m - 2 ^ 52) = m := by
    show 4503599627370496 + _ = _
    omega
  have exponent : ((e + 1075).toNat : Int) - 1075 = e := by omega
  have negative : decide (Nat.pow 2 63 ≤ s.toBitVec.toNat * 2 ^ 63 + (e + 1075).toNat * 2 ^ 52 + (m - 2 ^ 52)) =
      (s.toBitVec == 1#1) := by
    cases s with
    | positive =>
      refine decide_eq_false ?_
      show ¬9223372036854775808 ≤ 0 * 2 ^ 63 + _ + _
      omega
    | negative =>
      refine decide_eq_true ?_
      show 9223372036854775808 ≤ 1 * 2 ^ 63 + _ + _
      omega
  rw [mantissa, exponent, negative]

/-- A number that has a double is rounded to it. -/
theorem round_eq (k : Nat) :
    roundWithAccuracy Format.binary64 s (m * 2 ^ k) (e - k) .exact = .finite s m e h.pos :=
  roundWithAccuracy_exact h.low h.high h.least s k

end Normal

/-- A number, with as many zero bits behind it as make 53 bits. -/
def significand (n : Nat) : Nat := n * 2 ^ (52 - n.log2)

/-- How far these bits go behind the point. -/
def scale (n : Nat) : Int := -((52 - n.log2 : Nat) : Int)

section

variable {n : Nat} (pos : 0 < n) (lt : n < 2 ^ 53)

include pos lt

/-- Below `2 ^ 53`, a natural number other than zero is a normal double. -/
theorem normal_of_lt : Normal (significand n) (scale n) := by
  have few : n.log2 ≤ 52 := Nat.le_of_lt_succ ((Nat.log2_lt pos.ne').2 lt)
  have whole : n.log2 + (52 - n.log2) = 52 := by omega
  have low : 2 ^ n.log2 * 2 ^ (52 - n.log2) ≤ significand n := Nat.mul_le_mul_right _ (Nat.log2_self_le pos.ne')
  have high : significand n < 2 ^ (n.log2 + 1) * 2 ^ (52 - n.log2) :=
    Nat.mul_lt_mul_of_pos_right Nat.lt_log2_self (Nat.two_pow_pos _)
  rw [← Nat.pow_add, whole] at low
  rw [← Nat.pow_add, Nat.add_right_comm, whole] at high
  unfold scale
  exact ⟨low, high, by omega, by omega⟩

/-- A positive number below `2 ^ 53` is converted as it is. -/
theorem toFloat_toUInt64_eq :
    n.toUInt64.toFloat = ⟨pack (.finite .positive (significand n) (scale n) (normal_of_lt pos lt).pos)⟩ := by
  have h := normal_of_lt pos lt
  have few : n.log2 ≤ 52 := Nat.le_of_lt_succ ((Nat.log2_lt pos.ne').2 lt)
  have same : n.toUInt64.toNat = n := by
    rw [Nat.toUInt64_eq, UInt64.toNat_ofNat']
    omega
  have target : (0 - Format.binary64.targetExponent (totalExponent n 0)).toNat = 52 - n.log2 := by
    rw [targetExponent_binary64]
    omega
  have rounded := h.round_eq .positive 0
  rw [Nat.pow_zero, Nat.mul_one, Nat.cast_zero, Int.sub_zero] at rounded
  have entered : UnpackedFloat.ofUInt64 Format.binary64 n.toUInt64 =
      .finite .positive (significand n) (scale n) h.pos := by
    unfold UnpackedFloat.ofUInt64 UnpackedFloat.ofNat UnpackedFloat.ofInt UnpackedFloat.normalize
    rw [same, Int.compare_eq_gt.2 (by omega)]
    dsimp only
    unfold UnpackedFloat.round UnpackedFloat.decreaseExponent
    dsimp only
    rw [Int.toNat_natCast, target, Nat.shiftLeft_eq, Int.zero_sub]
    exact rounded
  show (⟨pack (UnpackedFloat.ofUInt64 Format.binary64 n.toUInt64)⟩ : Float) = _
  rw [entered]

/-- A positive number below `2 ^ 53` is held as it is. -/
theorem ofNat_eq :
    Float.ofNat n = ⟨pack (.finite .positive (significand n) (scale n) (normal_of_lt pos lt).pos)⟩ := by
  have h := normal_of_lt pos lt
  have one : (Float.exactlyRepresentablePowersOfTen[0]).toModel.unpack =
      .finite .positive (2 ^ 52) (-52) (by decide) := by
    rfl
  have product := h.round_eq .positive 52
  have scientific : Float.ofNat n = n.toUInt64.toFloat * Float.exactlyRepresentablePowersOfTen[0] := by
    show Float.ofScientific n false 0 = _
    unfold Float.ofScientific
    rw [dif_pos ⟨lt, by decide⟩]
    rfl
  rw [scientific, toFloat_toUInt64_eq pos lt]
  show (⟨pack (UnpackedFloat.mul Format.binary64 (Float.Model.unpack (pack _)) _)⟩ : Float) = _
  rw [h.unpack_pack, one]
  congr 2

end

/-- A double that holds a number of at most 53 bits is that integer, with a sign. -/
theorem integer?_of_held (negative : Bool) {x : Float} {n : Nat} (lt : n < 2 ^ 53)
    (h : ofFloat? x = some ⟨negative, significand n, scale n⟩) :
    (Number.ofFloat x).integer? = some (if negative then -(n : Int) else n) := by
  have back : (-scale n).toNat = 52 - n.log2 := by
    unfold scale
    omega
  have whole : (⟨negative, significand n, scale n⟩ : Binary64).isWhole = true := by
    unfold isWhole
    dsimp only
    rw [back, Bool.or_eq_true, beq_iff_eq]
    exact .inr (Nat.mul_mod_left _ _)
  have part : (⟨negative, significand n, scale n⟩ : Binary64).wholePart = n := by
    unfold wholePart shift
    dsimp only
    rw [back]
    split
    · rename_i none
      have : 52 - n.log2 = 0 := by
        unfold scale at none
        omega
      unfold significand scale
      rw [this]
      simp
    · exact Nat.mul_div_cancel n (Nat.two_pow_pos _)
  have integer : isInteger x = true := by
    unfold isInteger
    rw [h]
    exact whole
  have value : toInteger x = if negative then -(n : Int) else n := by
    unfold toInteger truncate
    rw [h]
    dsimp only
    rw [part]
    unfold leastInteger greatestInteger
    split <;> omega
  unfold Number.integer?
  rw [Number.unit_ofFloat, Number.scalar_ofFloat, integer, value]
  rfl

/-- A positive number below `2 ^ 53` is the integer that its double is, and so is its negative. -/
theorem integer?_ofNat {n : Nat} (pos : 0 < n) (lt : n < 2 ^ 53) :
    (Number.ofFloat (Float.ofNat n)).integer? = some (n : Int) ∧
      (Number.ofFloat (Float.ofNat n).neg).integer? = some (-(n : Int)) := by
  have h := normal_of_lt pos lt
  have opposite : (Float.ofNat n).neg = ⟨pack (.finite .negative (significand n) (scale n) h.pos)⟩ := by
    rw [ofNat_eq pos lt]
    show (⟨pack (UnpackedFloat.neg (Float.Model.unpack (pack _)))⟩ : Float) = _
    rw [h.unpack_pack]
    rfl
  refine ⟨integer?_of_held false lt ?_, integer?_of_held true lt ?_⟩
  · rw [ofNat_eq pos lt]
    exact h.ofFloat?_eq .positive
  · rw [opposite]
    exact h.ofFloat?_eq .negative

end Binary64

/-- **Integers within `2 ^ 53` are held as they are.** -/
theorem Number.integer?_ofInt {i : Int} (low : -2 ^ 53 ≤ i) (high : i ≤ 2 ^ 53) :
    (Number.ofFloat (Float.ofInt i)).integer? = some i := by
  have zero : (ofFloat (Float.ofInt 0)).integer? = some 0 := by decide +kernel
  have greatest : (ofFloat (Float.ofInt (2 ^ 53))).integer? = some (2 ^ 53) := by decide +kernel
  have least : (ofFloat (Float.ofInt (-2 ^ 53))).integer? = some (-2 ^ 53) := by decide +kernel
  rcases Int.lt_trichotomy i 0 with negative | rfl | positive
  · rcases Int.lt_or_eq_of_le low with lt | rfl
    · obtain ⟨n, rfl⟩ := Int.eq_negSucc_of_lt_zero negative
      exact (Binary64.integer?_ofNat (Nat.succ_pos n) (by omega)).2
    · exact least
  · exact zero
  · rcases Int.lt_or_eq_of_le high with lt | rfl
    · obtain ⟨n, rfl⟩ := Int.eq_ofNat_of_zero_le positive.le
      exact (Binary64.integer?_ofNat (by omega) (by omega)).1
    · exact greatest

end Stylesheet
