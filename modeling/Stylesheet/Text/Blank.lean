import Stylesheet.Text.Ranges

/-! # Blanks

The characters that count as white space around selectors and between the tokens of a condition
(**`isBlank`**), and cutting them off at the ends of a text. -/

namespace Stylesheet

namespace Text

/-- White space: the property of that name. -/
def blankRanges : List (Nat × Nat) :=
  [(0x9, 0xD), (0x20, 0x20), (0x85, 0x85), (0xA0, 0xA0), (0x1680, 0x1680), (0x2000, 0x200A),
   (0x2028, 0x2029), (0x202F, 0x202F), (0x205F, 0x205F), (0x3000, 0x3000)]

/-- Whether a character is white space. -/
def isBlank (c : Char) : Bool := inRanges blankRanges c.toNat

/-- A text without the blanks in front. -/
def trimLeft (text : List Char) : List Char := text.dropWhile isBlank

/-- A text without the blanks at either end. -/
def trim (text : List Char) : List Char := ((trimLeft text).reverse.dropWhile isBlank).reverse

/-- The empty text has no blanks in front. -/
@[simp] theorem trimLeft_nil : trimLeft [] = [] := rfl

/-- The empty text has no blanks around. -/
@[simp] theorem trim_nil : trim [] = [] := rfl

/-- Cutting blanks off in front never lengthens a text. -/
theorem length_trimLeft_le (text : List Char) : (trimLeft text).length ≤ text.length :=
  (List.dropWhile_sublist isBlank).length_le

end Text

end Stylesheet
