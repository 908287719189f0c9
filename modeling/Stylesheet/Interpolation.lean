import Stylesheet.Text.Blank
import Stylesheet.Text.Replace
import Stylesheet.Text.Word
import Stylesheet.Value.Basic

/-! # Interpolation

In selectors, property names and other plain text a **placeholder**, a variable in braces behind `#`,
stands for the value of the variable without quotes (**`interpolate`**). In conditions a variable stands
for itself, and its value is written with its quotes (**`substituteVariables`**). A variable without
a value stays as it is written. -/

namespace Stylesheet

/-- What variables stand for. -/
abbrev Lookup := String → Option Value

namespace Interpolation

/-- Cut a variable with its `$` off the front of a text: its name, and what follows it. -/
def cutVariable? : List Char → Option (String × List Char)
  | '$' :: cs =>
    let name := cs.takeWhile Text.isName
    if name.isEmpty then none else some (String.ofList name, cs.dropWhile Text.isName)
  | _ => none

/-- Cut a placeholder off the front of a text: the name of its variable, and what follows it. Blanks
may stand around the variable. -/
def cutPlaceholder? : List Char → Option (String × List Char)
  | '#' :: '\x7b' :: cs =>
    match cutVariable? (Text.trimLeft cs) with
    | none => none
    | some (name, behind) =>
      match Text.trimLeft behind with
      | '\x7d' :: rest => some (name, rest)
      | _ => none
  | _ => none

/-- Write the value of the variable that was cut, if it has one. -/
def writing (lookup : Lookup) (write : Value → String)
    (cut? : List Char → Option (String × List Char)) (text : List Char) :
    Option (List Char × List Char) :=
  match cut? text with
  | none => none
  | some (name, rest) => (lookup name).map fun value => ((write value).toList, rest)

end Interpolation

open Interpolation in
/-- Resolve the placeholders in a text. -/
def interpolate (lookup : Lookup) (text : String) : String :=
  String.ofList (Text.replaceMatches (writing lookup Value.unquoted cutPlaceholder?) text.toList)

open Interpolation in
/-- Resolve the variables in a condition. -/
def substituteVariables (lookup : Lookup) (condition : String) : String :=
  String.ofList (Text.replaceMatches (writing lookup Value.text cutVariable?) condition.toList)

end Stylesheet
