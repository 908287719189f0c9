import Stylesheet.Condition.Literal
import Stylesheet.Text.Replace
import Stylesheet.Text.Word

/-! # The normal form of conditions

Before a condition is evaluated, its strings are brought into one form, single quotes
(**`Condition.normalize`**): strings in double quotes change their quotes, and words and colors get
quotes. Numbers, keywords and strings in single quotes stay as they are. -/

namespace Stylesheet

namespace Condition

/-- The words that mean something in a condition. -/
def keywords : List (List Char) :=
  ["true", "false", "null", "and", "or", "not"].map String.toList

/-- The rest of a string in single quotes, its last quote included, and what follows it. A backslash
takes the character behind it along, which must not be a line end. -/
def untilApostrophe : List Char → Option (List Char × List Char)
  | [] => none
  | '\'' :: cs => some (['\''], cs)
  | '\\' :: cs =>
    match cs with
    | [] => none
    | c :: cs =>
      if c == '\n' then none
      else (untilApostrophe cs).map fun (inside, rest) => ('\\' :: c :: inside, rest)
  | c :: cs => (untilApostrophe cs).map fun (inside, rest) => (c :: inside, rest)

/-- The digits of a number at the front of a text, with a point only before digits, and what follows
them. -/
def cutDigits? (cs : List Char) : Option (List Char × List Char) :=
  let whole := cs.takeWhile Text.isDecimalDigit
  match cs.dropWhile Text.isDecimalDigit with
  | '.' :: behind =>
    let places := behind.takeWhile Text.isDecimalDigit
    if !places.isEmpty then some (whole ++ '.' :: places, behind.dropWhile Text.isDecimalDigit)
    else if whole.isEmpty then none
    else some (whole, '.' :: behind)
  | behind => if whole.isEmpty then none else some (whole, behind)

/-- Whether a character begins a bare word. -/
def startsBareWord (c : Char) : Bool := c.isAlpha || c == '_'

/-- Whether a character belongs to a unit. -/
def isUnitCharacter (c : Char) : Bool := c.isAlpha || c == '%'

/-- A bare word in quotes, but for keywords. -/
def quoteWord (word : List Char) : List Char :=
  if keywords.contains word then word else '\'' :: word ++ ['\'']

/-- The normal form of the literal at the front of a text, and what follows it. -/
def cutLiteral? : List Char → Option (List Char × List Char)
  | [] => none
  | c :: cs =>
    if c == '"' then
      match cs.dropWhile (· != '"') with
      | [] => none
      | _ :: rest => some (Literal.quote (cs.takeWhile (· != '"')), rest)
    else if c == '\'' then
      (untilApostrophe cs).map fun (inside, rest) => ('\'' :: inside, rest)
    else if Text.isDecimalDigit c || c == '.' then
      (cutDigits? (c :: cs)).map fun (digits, behind) =>
        -- digits of other scripts make no number, but a word
        let number := digits ++ behind.takeWhile isUnitCharacter
        (if c.isDigit || c == '.' then number else '\'' :: number ++ ['\''],
          behind.dropWhile isUnitCharacter)
    else if c == '#' then
      let name := cs.takeWhile Text.isName
      if name.isEmpty then none
      else some ('\'' :: c :: name ++ ['\''], cs.dropWhile Text.isName)
    else if startsBareWord c || (c == '-' && cs.head?.any startsBareWord) then
      some (quoteWord (c :: cs.takeWhile Text.isName), cs.dropWhile Text.isName)
    else none

/-- The normal form of a condition. -/
def normalize (condition : String) : String :=
  String.ofList (Text.replaceMatches cutLiteral? condition.toList)

end Condition

end Stylesheet
