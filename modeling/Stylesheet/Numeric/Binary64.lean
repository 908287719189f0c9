/-! # Doubles as exact numbers

Every finite double is a whole number times a power of two. A **`Binary64`** holds that number, and
the operations below compute on it in exact `Nat` arithmetic: the **whole part** of a double, its
rounding to a whole number (down, up, or to the nearest with halves away from zero), and the
**remainder** of a division that truncates. Each result is itself a double, so nothing is rounded on
the way back (`Binary64.toFloat`). -/

namespace Stylesheet

/-- A finite double: `mantissa · 2 ^ exponent`, negated when `negative`. Zero keeps its sign. -/
structure Binary64 where
  negative : Bool
  mantissa : Nat
  exponent : Int
  deriving Repr, DecidableEq

namespace Binary64

/-- The number a double stands for, or `none` for an infinity or a NaN. -/
def ofFloat? (x : Float) : Option Binary64 :=
  let bits : Nat := x.toBits.toNat
  let field := bits / Nat.pow 2 52 % Nat.pow 2 11
  let fraction := bits % Nat.pow 2 52
  let negative := decide (Nat.pow 2 63 ≤ bits)
  if field = 2047 then none   -- an infinity or a NaN
  else if field = 0 then some ⟨negative, fraction, -1074⟩   -- a subnormal, without the hidden bit
  else some ⟨negative, Nat.pow 2 52 + fraction, (field : Int) - 1075⟩

/-- `n · 2 ^ k`, with the bits below the point dropped when `k` is negative. -/
def shift (n : Nat) (k : Int) : Nat :=
  if 0 ≤ k then n * Nat.pow 2 k.toNat else n / Nat.pow 2 (-k).toNat

/-- Shifting by nothing changes nothing. -/
@[simp] theorem shift_zero (n : Nat) : shift n 0 = n := by simp [shift]

/-- The double with this value. The value has to be one that a double can hold: at most 53
significant bits, none of them below `2 ^ (-1074)`. -/
def toFloat (v : Binary64) : Float :=
  let sign := if v.negative then Nat.pow 2 63 else 0
  let magnitude :=
    if v.mantissa = 0 then 0
    else
      let top := (v.mantissa.log2 : Int) + v.exponent
      if top < -1022 then shift v.mantissa (v.exponent + 1074)
      else (top + 1022).toNat * Nat.pow 2 52 + shift v.mantissa (52 - (v.mantissa.log2 : Int))
  Float.ofBits (UInt64.ofNat (sign + magnitude))

/-! ## Whole parts -/

/-- The whole part of the magnitude. -/
def wholePart (v : Binary64) : Nat := shift v.mantissa v.exponent

/-- Whether nothing stands behind the point. -/
def isWhole (v : Binary64) : Bool :=
  decide (0 ≤ v.exponent) || v.mantissa % Nat.pow 2 (-v.exponent).toNat == 0

/-- Whether the part behind the point is a half or more. -/
def reachesHalf (v : Binary64) : Bool :=
  decide (v.exponent < 0) &&
    decide (Nat.pow 2 (-v.exponent).toNat ≤ 2 * (v.mantissa % Nat.pow 2 (-v.exponent).toNat))

/-- The integer left when the part behind the point is dropped. -/
def truncate (v : Binary64) : Int :=
  if v.negative then -(v.wholePart : Int) else v.wholePart

/-! ## Rounding to whole numbers -/

/-- A whole magnitude with a sign, as a double; zero keeps the sign. -/
def ofMagnitude (negative : Bool) (n : Nat) : Float :=
  if negative then -(Float.ofNat n) else Float.ofNat n

/-- Round a double with a part behind the point by `pick`; the others stay as they are. -/
def roundBy (pick : Binary64 → Nat) (x : Float) : Float :=
  match ofFloat? x with
  | none => x
  | some v => if v.isWhole then x else ofMagnitude v.negative (pick v)

/-- The greatest whole number not above `x`. -/
def roundDown (x : Float) : Float :=
  roundBy (fun v => if v.negative then v.wholePart + 1 else v.wholePart) x

/-- The least whole number not below `x`. -/
def roundUp (x : Float) : Float :=
  roundBy (fun v => if v.negative then v.wholePart else v.wholePart + 1) x

/-- The nearest whole number; a half goes away from zero. -/
def roundNearest (x : Float) : Float :=
  roundBy (fun v => if v.reachesHalf then v.wholePart + 1 else v.wholePart) x

/-- Whether `x` is finite with nothing behind the point. -/
def isInteger (x : Float) : Bool := (ofFloat? x).any isWhole

/-- The greatest signed integer of 64 bits. -/
def greatestInteger : Int := 0x7fffffffffffffff

/-- The least signed integer of 64 bits. -/
def leastInteger : Int := -greatestInteger - 1

/-- `x` without the part behind the point, held to the signed integers of 64 bits; a NaN gives
zero. -/
def toInteger (x : Float) : Int :=
  match ofFloat? x with
  | some v => max leastInteger (min greatestInteger v.truncate)
  | none => if x < 0 then leastInteger else if 0 < x then greatestInteger else 0

/-! ## Remainders and bounds -/

/-- The **remainder** of `x / y` when the quotient is truncated: it has the sign of `x` and is
smaller than `y` in magnitude. There is none when `x` is infinite or `y` is zero. -/
def remainder (x y : Float) : Float :=
  match ofFloat? x, ofFloat? y with
  | some a, some b =>
    if b.mantissa = 0 then 0.0 / 0.0
    else
      -- on a common exponent the remainder is one of whole numbers
      let low := min a.exponent b.exponent
      let rest := shift a.mantissa (a.exponent - low) %
        shift b.mantissa (b.exponent - low)
      toFloat ⟨a.negative, rest, low⟩
  | some _, none => if y.isNaN then 0.0 / 0.0 else x
  | none, _ => 0.0 / 0.0

/-- The larger of two doubles; a NaN gives way to the other one. -/
def larger (x y : Float) : Float :=
  if x.isNaN then y else if x < y then y else x

/-- The smaller of two doubles; a NaN gives way to the other one. -/
def smaller (x y : Float) : Float :=
  if x.isNaN then y else if y < x then y else x

/-- `x` held between two bounds; a NaN becomes the lower one. -/
def clamp (low high x : Float) : Float := smaller (larger x low) high

end Binary64

end Stylesheet
