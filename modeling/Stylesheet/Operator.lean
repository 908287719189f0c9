import Stylesheet.Numeric.Binary64

/-! # Operators

The eight marks that a value treats as operators: the four arithmetic ones, the remainder, the two
parentheses and the comma. **`Operator.bindsAtLeast`** says which of two waiting operators goes first,
and **`Operator.apply`** computes on doubles. -/

namespace Stylesheet

/-- A mark between the operands of a value. -/
inductive Operator
  | plus
  | minus
  | star
  | slash
  | percent
  | leftParen
  | rightParen
  | comma
  deriving Repr, DecidableEq

namespace Operator

/-- The operator a character stands for. -/
def ofChar? : Char → Option Operator
  | '+' => some plus
  | '-' => some minus
  | '*' => some star
  | '/' => some slash
  | '%' => some percent
  | '(' => some leftParen
  | ')' => some rightParen
  | ',' => some comma
  | _ => none

/-- The character that stands for an operator. -/
def char : Operator → Char
  | plus => '+'
  | minus => '-'
  | star => '*'
  | slash => '/'
  | percent => '%'
  | leftParen => '('
  | rightParen => ')'
  | comma => ','

/-- An operator as text. -/
def text (o : Operator) : String := o.char.toString

/-- Reading an operator's character gives the operator. -/
@[simp] theorem ofChar?_char (o : Operator) : ofChar? o.char = some o := by cases o <;> rfl

/-- Whether `first`, standing before `second`, takes its operands first. Multiplication goes before
addition; a parenthesis waits for everything behind it. -/
def bindsAtLeast (first second : Operator) : Bool :=
  match first, second with
  | plus, star | plus, slash | plus, percent => false
  | minus, star | minus, slash | minus, percent => false
  | leftParen, _ => false
  | _, _ => true

/-- The result of an operator on two doubles; marks that do not compute give the first one. -/
def apply (o : Operator) (x y : Float) : Float :=
  match o with
  | plus => x + y
  | minus => x - y
  | star => x * y
  | slash => x / y
  | percent => Binary64.remainder x y
  | leftParen | rightParen | comma => x

end Operator

end Stylesheet
