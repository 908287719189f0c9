import Mathlib.Tactic.Positivity
import Stylesheet.Numeric.Binary64

/-! # The bits of a double

A finite double is taken apart into the same sign, mantissa and exponent by both readings of its bits
(**`Binary64.unpack_of_ofFloat?`**). With the least exponent there is no hidden bit (`Binary64.unpack_subnormal`), and
with the last one the double is not finite (`Binary64.unpack_infinite`). -/

namespace Stylesheet

namespace Binary64

open Float.Model Float.Model.UnpackedFloat

variable {x : Float} {v : Binary64}

/-- The exponent stands in eleven bits behind those of the mantissa. -/
theorem toNat_unpackExponent (bits : BitVec Format.binary64.numBits) :
    (unpackExponent bits).toNat = bits.toNat / 2 ^ 52 % 2 ^ 11 := by
  unfold unpackExponent
  rw [BitVec.toNat_cast, BitVec.extractLsb_toNat, Nat.shiftRight_eq_div_pow]
  rfl

/-- The mantissa stands in the last 52 bits. -/
theorem toNat_unpackMantissa (bits : BitVec Format.binary64.numBits) :
    (unpackMantissa bits).toNat = bits.toNat % 2 ^ 52 := by
  unfold unpackMantissa
  rw [BitVec.toNat_cast, BitVec.extractLsb_toNat, Nat.shiftRight_zero]
  rfl

/-- The sign is the first bit. -/
theorem ofBitVec_unpackSign (bits : BitVec Format.binary64.numBits) :
    Sign.ofBitVec (unpackSign bits) = if decide (2 ^ 63 ≤ bits.toNat) then .negative else .positive := by
  have sign : (unpackSign bits).toNat = bits.toNat / 2 ^ 63 % 2 := by
    unfold unpackSign
    rw [BitVec.toNat_cast, BitVec.extractLsb_toNat, Nat.shiftRight_eq_div_pow]
    rfl
  have bound : bits.toNat < 2 ^ 64 := bits.isLt
  have zero : unpackSign bits = 0#1 ↔ ¬2 ^ 63 ≤ bits.toNat := by
    rw [BitVec.toNat_eq, sign]
    show _ = 0 ↔ _
    omega
  unfold Sign.ofBitVec
  by_cases negative : 2 ^ 63 ≤ bits.toNat
  · rw [decide_eq_true negative, if_neg (fun h => zero.1 h negative)]
    rfl
  · rw [decide_eq_false negative, if_pos (zero.2 negative)]
    rfl

section

variable {bits : BitVec Format.binary64.numBits}

/-- With the least exponent there is no hidden bit. -/
theorem unpack_subnormal (least : bits.toNat / 2 ^ 52 % 2 ^ 11 = 0) :
    (bits.toNat % 2 ^ 52 = 0 ∧ ∃ s, UnpackedFloat.unpack Format.binary64 bits = .zero s) ∨
      ∃ pos, UnpackedFloat.unpack Format.binary64 bits =
        .finite (if decide (2 ^ 63 ≤ bits.toNat) then .negative else .positive) (bits.toNat % 2 ^ 52) (-1074) pos := by
  have mantissa := toNat_unpackMantissa bits
  have exponent : unpackExponent bits = 0#11 :=
    BitVec.eq_of_toNat_eq (by rw [toNat_unpackExponent, least]; rfl)
  have notLast : unpackExponent bits ≠ -1#11 := by
    rw [exponent]
    decide
  unfold UnpackedFloat.unpack
  dsimp only
  rw [if_neg notLast, if_pos exponent, ofBitVec_unpackSign]
  by_cases none : unpackMantissa bits = 0#52
  · rw [dif_pos none]
    refine .inl ⟨?_, _, rfl⟩
    rw [← mantissa, none]
    rfl
  · rw [dif_neg none]
    have pos : 0 < bits.toNat % 2 ^ 52 := by
      rw [← mantissa, Nat.pos_iff_ne_zero]
      exact fun zero => none (BitVec.eq_of_toNat_eq zero)
    refine .inr ⟨pos, ?_⟩
    rw [UnpackedFloat.finite.injEq, mantissa, exponent]
    exact ⟨rfl, rfl, rfl⟩

/-- With all other exponents there is one. -/
theorem unpack_normal (finite : bits.toNat / 2 ^ 52 % 2 ^ 11 ≠ 2047) (notLeast : bits.toNat / 2 ^ 52 % 2 ^ 11 ≠ 0) :
    ∃ pos, UnpackedFloat.unpack Format.binary64 bits =
      .finite (if decide (2 ^ 63 ≤ bits.toNat) then .negative else .positive) (2 ^ 52 + bits.toNat % 2 ^ 52)
        (((bits.toNat / 2 ^ 52 % 2 ^ 11 : Nat) : Int) - 1075) pos := by
  have exponent := toNat_unpackExponent bits
  have whole : (1#1 ++ unpackMantissa bits).toNat = 2 ^ 52 + bits.toNat % 2 ^ 52 := by
    rw [BitVec.toNat_append, ← Nat.shiftLeft_add_eq_or_of_lt (BitVec.isLt _), Nat.shiftLeft_eq,
      toNat_unpackMantissa]
    rfl
  have notLast : unpackExponent bits ≠ -1#11 := fun eq => finite (by rw [← exponent, eq]; rfl)
  have notFirst : unpackExponent bits ≠ 0#11 := fun eq => notLeast (by rw [← exponent, eq]; rfl)
  unfold UnpackedFloat.unpack
  dsimp only
  rw [if_neg notLast, if_neg notFirst, ofBitVec_unpackSign]
  refine ⟨by positivity, ?_⟩
  rw [UnpackedFloat.finite.injEq, exponent]
  exact ⟨rfl, whole, rfl⟩

/-- An infinity or a NaN takes the last exponent. -/
theorem unpack_infinite (infinite : bits.toNat / 2 ^ 52 % 2 ^ 11 = 2047) :
    UnpackedFloat.unpack Format.binary64 bits = .notANumber ∨
      ∃ s, UnpackedFloat.unpack Format.binary64 bits = .infinity s := by
  have last : unpackExponent bits = -1#11 :=
    BitVec.eq_of_toNat_eq (by rw [toNat_unpackExponent, infinite]; rfl)
  unfold UnpackedFloat.unpack
  dsimp only
  rw [if_pos last]
  split
  · exact .inr ⟨_, rfl⟩
  · exact .inl rfl

end

/-- Both readings of a finite double find the same parts. -/
theorem unpack_of_ofFloat? (h : ofFloat? x = some v) : (v.mantissa = 0 ∧ ∃ s, x.toModel.unpack = .zero s) ∨
    ∃ pos, x.toModel.unpack = .finite (if v.negative then .negative else .positive) v.mantissa v.exponent pos := by
  unfold ofFloat? at h
  dsimp only at h
  split at h
  next => cases h
  next finite =>
    split at h
    next least =>
      cases h
      exact unpack_subnormal least
    next notLeast =>
      cases h
      exact .inr (unpack_normal finite notLeast)

/-- A double that is not finite is no number or an infinity. -/
theorem unpack_of_ofFloat?_none (h : ofFloat? x = none) :
    x.toModel.unpack = .notANumber ∨ ∃ s, x.toModel.unpack = .infinity s := by
  unfold ofFloat? at h
  dsimp only at h
  split at h
  next infinite => exact unpack_infinite infinite
  next => split at h <;> cases h

end Binary64

end Stylesheet
