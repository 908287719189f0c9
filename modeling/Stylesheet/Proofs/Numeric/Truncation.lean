import Stylesheet.Proofs.Numeric.Order
import Stylesheet.Proofs.Numeric.Places

/-! # Whole parts in order

Dropping what stands behind the point keeps the order of doubles (**`Binary64.toInteger_le`**): of two doubles the
one with the larger exponent has the larger whole part, since only the least exponent comes with few bits. -/

namespace Stylesheet

namespace Binary64

open Float.Model Float.Model.UnpackedFloat

variable {x y : Float} {v w : Binary64}

/-! ## Whole parts -/

/-- A mantissa may take up a power of two from the exponent. -/
theorem shift_mul_two_pow (n k : Nat) (e : Int) : shift (n * 2 ^ k) e = shift n (e + k) := by
  unfold shift
  rcases Int.lt_or_le e 0 with negative | positive
  · obtain ⟨d, hd⟩ : ∃ d : Nat, e = -d := ⟨(-e).toNat, by omega⟩
    subst hd
    rw [if_neg (by omega), Int.neg_neg, Int.toNat_natCast]
    rcases Nat.lt_or_ge k d with less | enough
    · obtain ⟨r, rfl⟩ := Nat.exists_eq_add_of_lt less
      rw [if_neg (by omega), show (-(-((k + r + 1 : Nat) : Int) + k)).toNat = r + 1 by omega]
      show n * 2 ^ k / 2 ^ (k + r + 1) = n / 2 ^ (r + 1)
      rw [Nat.add_assoc, Nat.pow_add, Nat.mul_comm n, Nat.mul_div_mul_left _ _ (Nat.two_pow_pos k)]
    · obtain ⟨r, rfl⟩ := Nat.exists_eq_add_of_le enough
      rw [if_pos (by omega), show (-(d : Int) + ((d + r : Nat) : Int)).toNat = r by omega]
      show n * 2 ^ (d + r) / 2 ^ d = n * 2 ^ r
      rw [Nat.pow_add, Nat.mul_left_comm, Nat.mul_div_cancel_left _ (Nat.two_pow_pos d)]
  · rw [if_pos positive, if_pos (by omega), show (e + k).toNat = e.toNat + k by omega]
    show n * 2 ^ k * 2 ^ e.toNat = n * 2 ^ (e.toNat + k)
    rw [Nat.mul_assoc, ← Nat.pow_add, Nat.add_comm k]

/-- Shifting keeps the order of mantissas. -/
theorem shift_le_shift {m n : Nat} (h : m ≤ n) (e : Int) : shift m e ≤ shift n e := by
  unfold shift
  split
  · exact Nat.mul_le_mul_right _ h
  · exact Nat.div_le_div_right h

/-- Of two magnitudes the one in the higher place has the larger whole part. -/
theorem wholePart_le (hx : ofFloat? x = some v) (hy : ofFloat? y = some w)
    (order : v.exponent < w.exponent ∨ v.exponent = w.exponent ∧ v.mantissa ≤ w.mantissa) :
    v.wholePart ≤ w.wholePart := by
  unfold wholePart
  rcases order with lower | ⟨same, le⟩
  · -- the larger exponent is not the least one, so its mantissa has all its bits
    have few : v.mantissa < 2 ^ 53 ∧ -1074 ≤ v.exponent := by
      rcases normal_or_of_ofFloat? hx with normal | ⟨few, least⟩
      · exact ⟨normal.high, normal.least⟩
      · exact ⟨by omega, by omega⟩
    have normal : Normal w.mantissa w.exponent :=
      (normal_or_of_ofFloat? hy).resolve_right fun ⟨_, least⟩ => by omega
    obtain ⟨k, hk⟩ : ∃ k : Nat, w.exponent = v.exponent + (k + 1 : Nat) :=
      ⟨(w.exponent - v.exponent - 1).toNat, by omega⟩
    have le : v.mantissa ≤ w.mantissa * 2 ^ (k + 1) := by
      calc v.mantissa ≤ 2 ^ 52 * 2 := by omega
        _ ≤ w.mantissa * 2 ^ (k + 1) := Nat.mul_le_mul normal.low (Nat.le_self_pow (by omega) 2)
    rw [hk, ← shift_mul_two_pow]
    exact shift_le_shift le _
  · rw [← same]
    exact shift_le_shift le _

/-- Places compare by their components, from the first on. -/
theorem placement_le_iff {a b c a' b' c' : ℤ} : toLex (a, toLex (b, c)) ≤ toLex (a', toLex (b', c')) ↔
    a < a' ∨ a = a' ∧ (b < b' ∨ b = b' ∧ c ≤ c') := by
  rw [Prod.Lex.toLex_le_toLex, Prod.Lex.toLex_le_toLex]

/-- The place of a finite double tells its sign. -/
theorem rank_of_ofFloat? (h : ofFloat? x = some v) : (v.mantissa = 0 ∧ rank x = toLex (0, toLex (0, 0))) ∨
    (v.negative = false ∧ rank x = toLex (1, toLex (v.exponent, (v.mantissa : ℤ)))) ∨
      (v.negative = true ∧ rank x = toLex (-1, toLex (-v.exponent, -(v.mantissa : ℤ)))) := by
  unfold rank
  rcases unpack_of_ofFloat? h with ⟨zero, s, unpacked⟩ | ⟨pos, unpacked⟩
  · exact .inl ⟨zero, by rw [unpacked]; rfl⟩
  · cases negative : v.negative with
    | false => exact .inr (.inl ⟨rfl, by rw [unpacked, negative]; rfl⟩)
    | true => exact .inr (.inr ⟨rfl, by rw [unpacked, negative]; rfl⟩)

/-- Whole parts of finite doubles are in the order of the doubles. -/
theorem truncate_le (hx : ofFloat? x = some v) (hy : ofFloat? y = some w) (h : rank x ≤ rank y) :
    v.truncate ≤ w.truncate := by
  have zero {u : Binary64} (none : u.mantissa = 0) : u.truncate = 0 := by
    unfold truncate
    rw [wholePart_eq_zero none]
    split <;> rfl
  have positive {u : Binary64} (sign : u.negative = false) : u.truncate = u.wholePart := by
    rw [truncate, sign]
    rfl
  have negative {u : Binary64} (sign : u.negative = true) : u.truncate = -(u.wholePart : ℤ) := by
    rw [truncate, sign]
    rfl
  -- zeros, positive and negative numbers are ranked apart, so most of the nine cases are settled by the ranks
  rcases rank_of_ofFloat? hx with ⟨nx, rx⟩ | ⟨sx, rx⟩ | ⟨sx, rx⟩ <;>
    rcases rank_of_ofFloat? hy with ⟨ny, ry⟩ | ⟨sy, ry⟩ | ⟨sy, ry⟩ <;>
      rw [rx, ry, placement_le_iff] at h
  · rw [zero nx, zero ny]
  · rw [zero nx, positive sy]
    omega
  · omega
  · omega
  · have := wholePart_le hx hy (by omega)
    rw [positive sx, positive sy]
    omega
  · omega
  · rw [negative sx, zero ny]
    omega
  · rw [negative sx, positive sy]
    omega
  · have := wholePart_le hy hx (by omega)
    rw [negative sx, negative sy]
    omega

/-- Every double is truncated to an integer within a machine word. -/
theorem toInteger_mem (x : Float) : leastInteger ≤ toInteger x ∧ toInteger x ≤ greatestInteger := by
  unfold toInteger leastInteger greatestInteger
  split
  · omega
  · split
    · omega
    · split <;> omega

/-- An infinity is held to the last integer on its side. -/
theorem toInteger_of_infinite (number : x.isNaN = false) (h : ofFloat? x = none) :
    (toInteger x = leastInteger ∧ rank x = toLex (-2, toLex (0, 0))) ∨
      (toInteger x = greatestInteger ∧ rank x = toLex (2, toLex (0, 0))) := by
  have lt (a b : Float) : a < b ↔ a.toModel.unpack.lt b.toModel.unpack = true := decide_eq_true_iff
  have value : toInteger x = if x < 0 then leastInteger else if 0 < x then greatestInteger else 0 := by
    rw [toInteger, h]
  have place : rank x = placement x.toModel.unpack := rfl
  rcases unpack_of_ofFloat?_none h with nan | ⟨s, infinite⟩
  · change x.toModel.unpack.isNaN = false at number
    rw [nan] at number
    cases number
  · cases s with
    | negative =>
      have below : x < 0 := (lt x 0).2 (by rw [infinite]; rfl)
      exact .inl ⟨by rw [value, if_pos below], by rw [place, infinite]; rfl⟩
    | positive =>
      have notBelow : ¬x < 0 := fun below => by
        rw [lt, infinite] at below
        cases below
      have above : 0 < x := (lt 0 x).2 (by rw [infinite]; rfl)
      exact .inr ⟨by rw [value, if_neg notBelow, if_pos above], by rw [place, infinite]; rfl⟩

/-- **Whole parts are in the order of the doubles.** -/
theorem toInteger_le (h : x ≤ y) : toInteger x ≤ toInteger y := by
  obtain ⟨hx, hy, le⟩ := Binary64.le_iff.1 h
  cases vx : ofFloat? x with
  | none =>
    rcases toInteger_of_infinite hx vx with ⟨least, -⟩ | ⟨greatest, last⟩
    · rw [least]
      exact (toInteger_mem y).1
    · -- nothing but the same infinity comes behind it
      cases vy : ofFloat? y with
      | none =>
        rcases toInteger_of_infinite hy vy with ⟨-, first⟩ | ⟨greatest', -⟩
        · rw [last, first, placement_le_iff] at le
          omega
        · rw [greatest, greatest']
      | some w =>
        rcases rank_of_ofFloat? vy with ⟨-, place⟩ | ⟨-, place⟩ | ⟨-, place⟩ <;>
          rw [last, place, placement_le_iff] at le <;> omega
  | some v =>
    cases vy : ofFloat? y with
    | none =>
      rcases toInteger_of_infinite hy vy with ⟨-, first⟩ | ⟨greatest, -⟩
      · rcases rank_of_ofFloat? vx with ⟨-, place⟩ | ⟨-, place⟩ | ⟨-, place⟩ <;>
          rw [first, place, placement_le_iff] at le <;> omega
      · rw [greatest]
        exact (toInteger_mem x).2
    | some w =>
      have le := truncate_le vx vy le
      rw [toInteger, toInteger, vx, vy]
      dsimp only
      omega

end Binary64

end Stylesheet
