import Stylesheet.Number

/-! # Values of conditions

A condition computes with truth values, numbers, strings and `null` (**`Literal`**). Everything but
`false` and `null` counts as true. Numbers are equal or comparable when their units are the same or one
of them has none; in arithmetic the first unit found is kept, and `+` also joins strings. What can go
wrong is a **`Condition.Fault`**. -/

namespace Stylesheet

/-- A value that a condition computes with. -/
inductive Literal
  | bool (b : Bool)
  | number (n : Number)
  | str (text : String)
  | null
  deriving Repr, Inhabited

namespace Literal

/-- Escape the quotes and backslashes of a text for single quotes. -/
def escape (text : List Char) : List Char :=
  text.flatMap fun c => if c == '\\' || c == '\'' then ['\\', c] else [c]

/-- Nothing is escaped in the empty text. -/
@[simp] theorem escape_nil : escape [] = [] := rfl

/-- A text in single quotes. -/
def quote (text : List Char) : List Char := '\'' :: escape text ++ ['\'']

/-- A literal as it stands in a condition. -/
def text : Literal → String
  | bool b => if b then "true" else "false"
  | number n => n.text
  | str s => String.ofList (quote s.toList)
  | null => "null"

/-- Whether a literal counts as true. -/
def isTruthy : Literal → Bool
  | bool b => b
  | null => false
  | _ => true

/-- A truth value is true if it says so. -/
@[simp] theorem isTruthy_bool (b : Bool) : isTruthy (bool b) = b := rfl

/-- Whether two units go together: they are the same, or one of them is missing. -/
def unitsAgree (u v : Option String) : Bool := u == v || u.isNone || v.isNone

/-- Whether two literals are equal. -/
def equals : Literal → Literal → Bool
  | bool a, bool b => a == b
  | number m, number n => m.scalar == n.scalar && unitsAgree m.unit n.unit
  | str s, str t => s == t
  | null, null => true
  | _, _ => false

end Literal

namespace Condition

/-- What is wrong with a condition. -/
inductive Fault
  /-- A quote stays open. -/
  | unterminated (condition : String)
  /-- Digits and points do not make a number. -/
  | badNumber (digits : String)
  | unexpectedCharacter (c : Char) (condition : String)
  /-- There is nothing to evaluate. -/
  | empty
  /-- A token is left when the condition is over. -/
  | leftover (token condition : String)
  /-- The condition breaks off. -/
  | cutShort
  /-- A parenthesis is not closed. -/
  | unclosed
  /-- A symbol stands where a value should. -/
  | unexpectedSymbol (symbol : String)
  | cannotNegate (value : String)
  | cannotCompare (left right : String)
  | undefinedOperation (left : String) (operator : Operator) (right : String)
  deriving Repr, DecidableEq

/-- The wording of a fault. -/
def Fault.message : Fault → String
  | unterminated condition => s!"unterminated string in `{condition}`"
  | badNumber digits => s!"invalid number `{digits}`"
  | unexpectedCharacter c condition => "unexpected `" ++ c.toString ++ s!"` in `{condition}`"
  | empty => "empty condition"
  | leftover token condition => s!"unexpected {token} in `{condition}`"
  | cutShort => "unexpected end of condition"
  | unclosed => "expected `)`"
  | unexpectedSymbol symbol => s!"unexpected `{symbol}`"
  | cannotNegate value => s!"cannot negate {value}"
  | cannotCompare left right => s!"cannot compare {left} with {right}"
  | undefinedOperation left o right => s!"undefined operation {left} " ++ o.text ++ s!" {right}"

end Condition

namespace Literal

open Condition

/-- A literal with its sign changed; only numbers have one. -/
def negate : Literal → Except Fault Literal
  | number n => .ok (number n.negate)
  | l => .error (.cannotNegate l.text)

/-- Compare two numbers whose units go together. -/
def compare (holds : Float → Float → Bool) (left right : Literal) : Except Fault Literal :=
  match left, right with
  | number m, number n =>
    if unitsAgree m.unit n.unit then .ok (bool (holds m.scalar n.scalar))
    else .error (.cannotCompare left.text right.text)
  | _, _ => .error (.cannotCompare left.text right.text)

/-- The result of an operator on two literals. -/
def combine (o : Operator) (left right : Literal) : Except Fault Literal :=
  match left, right with
  | number m, number n => .ok (number ⟨o.apply m.scalar n.scalar, m.unit.or n.unit⟩)
  | str s, str t =>
    if o = .plus then .ok (str (s ++ t)) else .error (.undefinedOperation left.text o right.text)
  | _, _ => .error (.undefinedOperation left.text o right.text)

end Literal

end Stylesheet
