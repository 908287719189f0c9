import Stylesheet.Numeric.Binary64

/-! # Decimal numerals

Doubles read from and written as decimals, by exact arithmetic. A **numeral** is an optional minus
and digits with at most one point (`Decimal.read?`). A double is written either with a **fixed**
number of places, a half going to the even neighbour (`Decimal.fixed`), or by its **shortest** digits,
the fewest that read back as the same double (`Decimal.shortest`). -/

namespace Stylesheet

namespace Decimal

/-! ## Digits -/

/-- The value of a decimal digit. -/
def digitValue (c : Char) : Nat := c.toNat - '0'.toNat

/-- The number a run of digits spells. -/
def ofDigits (digits : List Char) : Nat := digits.foldl (fun n c => 10 * n + digitValue c) 0

/-- No digits are zero. -/
@[simp] theorem ofDigits_nil : ofDigits [] = 0 := rfl

/-- The digits of a number, none in front that is zero but for zero itself. -/
def digits (n : Nat) : List Char := Nat.toDigits 10 n

/-- The digits of a number, filled up with zeros in front to `width`. -/
def paddedDigits (width n : Nat) : List Char :=
  List.replicate (width - (digits n).length) '0' ++ digits n

/-! ## Reading -/

/-- The double nearest to the number that the digits `whole` and, behind the point, `behind` spell. -/
def nearest (whole behind : List Char) : Float :=
  Float.ofScientific (ofDigits (whole ++ behind)) true behind.length

/-- Read digits with at most one point, at least one digit among them. -/
def readUnsigned? (text : List Char) : Option Float :=
  let whole := text.takeWhile Char.isDigit
  match text.dropWhile Char.isDigit with
  | [] => if whole.isEmpty then none else some (nearest whole [])
  | '.' :: behind =>
    if behind.all Char.isDigit && !(whole.isEmpty && behind.isEmpty) then some (nearest whole behind)
    else none
  | _ => none

/-- Read a numeral: an optional minus, then digits with at most one point. -/
def read? : List Char → Option Float
  | '-' :: text => (readUnsigned? text).map (- ·)
  | text => readUnsigned? text

/-! ## Fixed places -/

/-- The whole number nearest to `num / den`; a half goes to the even neighbour. -/
def roundHalfEven (num den : Nat) : Nat :=
  let low := num / den
  let twice := 2 * (num % den)
  if den < twice || (twice == den && low % 2 == 1) then low + 1 else low

/-- A finite double with exactly `places` digits behind the point. -/
def fixed (places : Nat) (v : Binary64) : List Char :=
  let scaled := roundHalfEven (Binary64.shift (v.mantissa * Nat.pow 10 places) (max v.exponent 0))
    (Nat.pow 2 (-v.exponent).toNat)
  let text := paddedDigits (places + 1) scaled
  let cut := text.length - places
  (if v.negative then ['-'] else []) ++ text.take cut ++ '.' :: text.drop cut

/-! ## Shortest digits -/

/-- A positive decimal `digits · 10 ^ exponent`. -/
structure Scaled where
  digits : Nat
  exponent : Int
  deriving Repr, DecidableEq

/-- Compare `a · 2 ^ i` with the decimal `d`, exactly. -/
def compareScaled (a : Nat) (i : Int) (d : Scaled) : Ordering :=
  compare (a * Nat.pow 2 i.toNat * Nat.pow 10 (-d.exponent).toNat)
    (d.digits * Nat.pow 10 d.exponent.toNat * Nat.pow 2 (-i).toNat)

/-- Whether `d` lies among the reals that round to the double `v`: between the points halfway to the
two neighbours of `v`, which belong to `v` exactly when its mantissa is even. Below a power of two
the neighbour is half as far away. -/
def readsBackAs (v : Binary64) (d : Scaled) : Bool :=
  -- four times the value, so that the halfway points are whole
  let narrow := v.mantissa == Nat.pow 2 52 && decide (-1074 < v.exponent)
  let low := if narrow then 4 * v.mantissa - 1 else 4 * v.mantissa - 2
  let high := 4 * v.mantissa + 2
  let even := v.mantissa % 2 == 0
  let below := compareScaled low (v.exponent - 2) d
  let above := compareScaled high (v.exponent - 2) d
  (below == .lt || (even && below == .eq)) && (above == .gt || (even && above == .eq))

/-- The largest multiple of `10 ^ exponent` that is not above `v`, counted in that unit. -/
def gridFloor (v : Binary64) (exponent : Int) : Nat :=
  (v.mantissa * Nat.pow 2 v.exponent.toNat * Nat.pow 10 (-exponent).toNat) /
    (Nat.pow 2 (-v.exponent).toNat * Nat.pow 10 exponent.toNat)

/-- The least `k` with `v < 10 ^ k`, searched upwards from the one given. -/
def leastPower (v : Binary64) : Nat → Int → Int
  | 0, k => k
  | steps + 1, k => if gridFloor v k = 0 then k else leastPower v steps (k + 1)

/-- How many digits of a positive double stand before the point; zeros right behind it count
negatively. -/
def magnitude (v : Binary64) : Int :=
  let bits := (v.mantissa.log2 : Int) + v.exponent
  -- 0.30103 is about the logarithm of two; the estimate is low enough and never too high
  leastPower v 4 (bits * 30103 / 100000 - 1)

/-- The neighbour of `v` on the grid of `10 ^ exponent` that reads back as `v`, if there is one; of
two the nearer, and the upper one when both are equally near. -/
def readingBack? (v : Binary64) (exponent : Int) : Option Scaled :=
  let low : Scaled := ⟨gridFloor v exponent, exponent⟩
  let high : Scaled := ⟨low.digits + 1, exponent⟩
  let between : Scaled := ⟨low.digits + high.digits, exponent⟩
  match readsBackAs v low, readsBackAs v high with
  | true, true => some (if compareScaled (2 * v.mantissa) v.exponent between == .lt then low else high)
  | true, false => some low
  | false, true => some high
  | false, false => none

/-- Drop zeros at the end of the digits. -/
def Scaled.trim : Nat → Scaled → Scaled
  | 0, d => d
  | steps + 1, d =>
    if d.digits % 10 = 0 then Scaled.trim steps ⟨d.digits / 10, d.exponent + 1⟩ else d

/-- The decimal with the fewest digits that reads back as the positive double `v`. Seventeen digits
always do. -/
def shortest (v : Binary64) : Scaled :=
  let size := magnitude v
  let found := (List.range 17).findSome? fun n => readingBack? v (size - (n + 1 : Nat))
  Scaled.trim 20 (found.getD ⟨gridFloor v (size - 17), size - 17⟩)

/-! ## Written forms -/

/-- Digits laid out with a point, at least one of them on each side of it. -/
def positional (d : Scaled) : List Char :=
  let text := digits d.digits
  if 0 ≤ d.exponent then text ++ List.replicate d.exponent.toNat '0' ++ ['.', '0']
  else
    let places := (-d.exponent).toNat
    let padded := paddedDigits (places + 1) d.digits
    padded.take (padded.length - places) ++ '.' :: padded.drop (padded.length - places)

/-- Digits laid out with one of them before the point, and the power of ten behind `e`. -/
def scientific (d : Scaled) : List Char :=
  let text := digits d.digits
  let power := d.exponent + ((text.length - 1 : Nat) : Int)
  text.take 1 ++ (if text.length = 1 then [] else '.' :: text.drop 1) ++ 'e' :: (toString power).toList

/-- The **full text** of a double: shortest digits, with a point from `0.0001` up to below
`10 ^ 16` and with a power of ten elsewhere. -/
def fullText (x : Float) : String :=
  match Binary64.ofFloat? x with
  | none => if x.isNaN then "NaN" else if x < 0 then "-inf" else "inf"
  | some v =>
    let sign := if v.negative then "-" else ""
    if v.mantissa = 0 then sign ++ "0.0"
    else
      let d := shortest v
      let size := (digits d.digits).length + d.exponent
      sign ++ String.ofList (if -4 < size && size ≤ 16 then positional d else scientific d)

end Decimal

end Stylesheet
