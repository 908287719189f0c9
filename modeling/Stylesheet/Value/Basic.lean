import Stylesheet.Color

/-! # Values

The value of a property or a variable is a chain of **terms**: numbers, colors, words, quoted strings,
operators, variables and calls. A **`Value`** is that chain. Commas outside of parentheses part it into
the arguments of a call (**`Value.arguments`**) and into the items of a list (**`Value.items`**), which
**`Value.ofItems`** puts together again. A chain is written with single spaces, left out around a slash
and on the inner side of parentheses (**`Value.text`**). -/

namespace Stylesheet

/-- One link of a chain. -/
inductive Term
  | number (n : Number)
  | color (c : Color)
  /-- A word without quotes. -/
  | ident (text : String)
  /-- A quoted string, without its quotes. -/
  | str (text : String)
  | op (o : Operator)
  /-- A variable, without its `$`. -/
  | var (name : String)
  | call (name : String) (parameters : List Term)
  /-- A list with commas that counts as one argument. -/
  | list (items : List Term)
  deriving Inhabited

/-- A chain of terms. -/
abbrev Value := List Term

/-! ## Equality -/

mutual

/-- Terms are equal when they have the same form and equal parts; a NaN is unequal to itself. -/
def Term.beq : Term → Term → Bool
  | .number m, .number n => m == n
  | .color c, .color d => c == d
  | .ident s, .ident t => s == t
  | .str s, .str t => s == t
  | .op o, .op p => o == p
  | .var s, .var t => s == t
  | .call s ps, .call t qs => s == t && Term.beqAll ps qs
  | .list ps, .list qs => Term.beqAll ps qs
  | _, _ => false

/-- Equality of chains, term by term. -/
def Term.beqAll : List Term → List Term → Bool
  | [], [] => true
  | s :: ss, t :: ts => Term.beq s t && Term.beqAll ss ts
  | _, _ => false

end

/-- Terms are equal as their numbers, colors and texts are, and lists are equal term by term. -/
instance : BEq Term := ⟨Term.beq⟩

/-- Equality of chains is equality of lists of terms. -/
theorem Term.beqAll_eq (ss ts : List Term) : Term.beqAll ss ts = (ss == ts) := by
  induction ss generalizing ts with
  | nil => cases ts <;> rfl
  | cons s ss ih =>
    cases ts with
    | nil => rfl
    | cons t ts => simp only [Term.beqAll, ih]; rfl

namespace Term

/-- A number without a unit. -/
def ofFloat (x : Float) : Term := .number (.ofFloat x)

/-- The word for a truth value. -/
def ofBool (b : Bool) : Term := .ident (if b then "true" else "false")

/-- Whether a term is the comma. -/
def isComma : Term → Bool
  | .op .comma => true
  | _ => false

/-- The operator that stands for a comma. -/
@[simp] theorem isComma_comma : isComma (.op .comma) = true := rfl

/-- Whether no space goes in front of a term. -/
def hugsLeft : Term → Bool
  | .op .comma | .op .slash | .op .rightParen => true
  | _ => false

/-- Whether no space goes behind a term. -/
def hugsRight : Term → Bool
  | .op .slash | .op .leftParen => true
  | _ => false

end Term

/-! ## Text -/

mutual

/-- A term as text. -/
def Term.text : Term → String
  | .number n => n.text
  | .color c => c.text
  | .ident s => s
  | .str s => "\"" ++ s ++ "\""
  | .op o => o.text
  | .var name => "$" ++ name
  | .call name parameters => name ++ "(" ++ Value.textBehind true parameters ++ ")"
  | .list items => Value.textBehind true items

/-- The text of the rest of a chain; `glued` tells that no space goes in front of its first term. -/
def Value.textBehind (glued : Bool) : List Term → String
  | [] => ""
  | t :: ts =>
    (if glued || t.hugsLeft then "" else " ") ++ t.text ++ Value.textBehind t.hugsRight ts

end

namespace Value

/-- A chain as text. -/
def text (v : Value) : String := textBehind true v

/-- No terms, no text. -/
@[simp] theorem text_nil : text [] = "" := by simp [text, textBehind]

/-- A chain of one term is written as that term. -/
@[simp] theorem text_singleton (t : Term) : text [t] = t.text := by
  simp [text, textBehind]

end Value

/-- The text of a term, a quoted string without its quotes. -/
def Term.unquoted : Term → String
  | .str s => s
  | t => t.text

/-- The text of a chain, a single quoted string without its quotes. -/
def Value.unquoted (v : Value) : String :=
  match v with
  | [t] => t.unquoted
  | ts => Value.text ts

namespace Value

/-! ## Parts -/

/-- Collect the arguments of the rest of a chain: `depth` parentheses are open, and `current` are the
terms of the argument begun, last one first. A part without terms is left out. -/
def argumentsFrom (depth : Int) (current : List Term) : List Term → List Value
  | [] => if current.isEmpty then [] else [current.reverse]
  | t :: ts =>
    match t with
    | .op .comma =>
      if depth = 0 then
        if current.isEmpty then argumentsFrom depth [] ts
        else current.reverse :: argumentsFrom depth [] ts
      else argumentsFrom depth (t :: current) ts
    | .op .leftParen => argumentsFrom (depth + 1) (t :: current) ts
    | .op .rightParen => argumentsFrom (depth - 1) (t :: current) ts
    | _ => argumentsFrom depth (t :: current) ts

/-- The arguments a chain holds: its parts between the commas outside of parentheses. -/
def arguments (v : Value) : List Value := argumentsFrom 0 [] v

/-- No terms, no arguments. -/
@[simp] theorem arguments_nil : arguments [] = [] := rfl

/-- Whether one of the terms is a comma. -/
def hasComma (v : Value) : Bool := v.any Term.isComma

/-- No terms, no comma. -/
@[simp] theorem hasComma_nil : hasComma [] = false := rfl

/-- The items of a chain of terms that is not a single list term: the arguments when there are commas,
else the terms one by one. -/
def flatItems (v : Value) : List Value :=
  if hasComma v then arguments v else v.map ([·])

mutual

/-- The items a term has when it is all of a value. -/
def termItems : Term → List Value
  | .list items => listItems items
  | t => flatItems [t]

/-- The items of the chain inside of a list term. -/
def listItems : List Term → List Value
  | [t] => termItems t
  | ts => flatItems ts

end

/-- The items of a value seen as a list. -/
def items (v : Value) : List Value := listItems v

/-- No terms, no items. -/
@[simp] theorem items_nil : items [] = [] := by simp [items, listItems, flatItems]

mutual

/-- Whether a term that is all of a value is a list with commas. -/
def termSeparatesByComma : Term → Bool
  | .list items => listSeparatesByComma items
  | t => t.isComma

/-- Whether the chain inside of a list term is a list with commas. -/
def listSeparatesByComma : List Term → Bool
  | [t] => termSeparatesByComma t
  | ts => hasComma ts

end

/-- Whether a value seen as a list has commas between its items. -/
def separatesByComma (v : Value) : Bool := listSeparatesByComma v

/-- Join items into one chain, with commas between them if `comma`. -/
def ofItems (comma : Bool) : List Value → Value
  | [] => []
  | [v] => v
  | v :: vs => v ++ (if comma then [.op .comma] else []) ++ ofItems comma vs

/-- No items make no terms. -/
@[simp] theorem ofItems_nil (comma : Bool) : ofItems comma [] = [] := rfl

/-- A single item stands for itself. -/
@[simp] theorem ofItems_singleton (comma : Bool) (v : Value) : ofItems comma [v] = v := rfl

/-- Without commas, joining is concatenation. -/
theorem ofItems_false (vs : List Value) : ofItems false vs = vs.flatten := by
  induction vs with
  | nil => rfl
  | cons v vs ih => cases vs <;> simp_all [ofItems]

/-! ## Readings -/

/-- The number a value is. -/
def number? : Value → Option Number
  | [.number n] => some n
  | _ => none

/-- The color a value is. -/
def color? : Value → Option Color
  | [.color c] => some c
  | _ => none

/-- The integer a value is. -/
def integer? (v : Value) : Option Int := (number? v).bind Number.integer?

/-- Whether a value counts as true: it has a term, and is neither `false` nor `null`. -/
def isTruthy : Value → Bool
  | [] => false
  | [.ident s] => s != "false" && s != "null"
  | _ => true

end Value

end Stylesheet
