import Stylesheet.Error
import Stylesheet.Numeric.Decimal

/-! # Numbers

A **`Number`** is a double with an optional unit. Arithmetic on numbers (**`Number.combine?`**) computes
on the doubles and on the units: equal units divide out, two different units do not mix, and a unit
cannot be squared. In a stylesheet a number is written with at most five decimal places
(**`Number.scalarText`**). -/

namespace Stylesheet

/-- A double with an optional unit such as `px` or `%`. -/
structure Number where
  scalar : Float
  unit : Option String
  deriving Repr

namespace Number

/-- Numbers are equal when their doubles are (so a NaN is unequal to itself) and their units are. -/
instance : BEq Number := ⟨fun a b => a.scalar == b.scalar && a.unit == b.unit⟩

/-- A number without a unit. -/
def ofFloat (x : Float) : Number := ⟨x, none⟩

/-- A double as a number is that double. -/
@[simp] theorem scalar_ofFloat (x : Float) : (ofFloat x).scalar = x := rfl

/-- A double as a number has no unit. -/
@[simp] theorem unit_ofFloat (x : Float) : (ofFloat x).unit = none := rfl

/-- The unit as text, empty when there is none. -/
def unitText (a : Number) : String := a.unit.getD ""

/-- The integer a number is, when it has no unit and nothing behind the point, held to 64 bits. -/
def integer? (a : Number) : Option Int :=
  if a.unit.isNone && Binary64.isInteger a.scalar then some (Binary64.toInteger a.scalar) else none

/-- Whether two numbers can be compared: not when they have different units. -/
def comparable (a b : Number) : Bool :=
  match a.unit, b.unit with
  | some u, some v => u == v
  | _, _ => true

/-! ## Arithmetic -/

/-- The unit of the result of an operation on numbers with these units. -/
def combineUnits (o : Operator) : Option String → Option String → Except Error (Option String)
  | some u, some v =>
    if u = v then
      match o with
      | .slash => .ok none
      | .star => .error (.squaredUnits u v)
      | _ => .ok (some u)
    else .error (.mixedUnits u v)
  | some u, none => .ok (some u)
  | none, v => .ok v

/-- Numbers without units have a result without one. -/
@[simp] theorem combineUnits_none_none (o : Operator) : combineUnits o none none = .ok none := rfl

/-- The result of an operation on two numbers. -/
def combine? (o : Operator) (a b : Number) : Except Error Number :=
  (combineUnits o a.unit b.unit).map fun unit => ⟨o.apply a.scalar b.scalar, unit⟩

/-- The number with its sign changed. -/
def negate (a : Number) : Number := { a with scalar := -a.scalar }

/-- A negated number has the unit it had. -/
@[simp] theorem unit_negate (a : Number) : a.negate.unit = a.unit := rfl

/-! ## Text -/

/-- A text without `c` at its end, however often it stands there. -/
def dropEnd (c : Char) (text : List Char) : List Char := (text.reverse.dropWhile (· == c)).reverse

/-- The decimal text of a double: whole numbers below `10 ^ 15` in full, all others rounded to five
places, without zeros at the end and without a sign on zero. -/
def scalarText (x : Float) : String :=
  if Binary64.isInteger x && x.abs < 1e15 then toString (Binary64.toInteger x)
  else
    match Binary64.ofFloat? x with
    | none => if x.isNaN then "NaN" else if x < 0 then "-inf" else "inf"
    | some v =>
      -- the point goes with the last of the zeros behind it
      let text := dropEnd '.' (dropEnd '0' (Decimal.fixed 5 v))
      if text = ['-', '0'] then "0" else String.ofList text

/-- A number as text: its double and its unit. -/
def text (a : Number) : String := scalarText a.scalar ++ a.unitText

end Number

end Stylesheet
