import Stylesheet.Condition.Literal
import Stylesheet.Text.Blank
import Stylesheet.Text.Word

/-! # Tokens of conditions

The text of a condition falls into numbers, strings in single or double quotes, words and symbols
(**`Condition.tokens`**). Blanks may stand between them. In a string a backslash takes the character
behind it as it is. -/

namespace Stylesheet

namespace Condition

/-! ## Symbols -/

/-- The symbols of conditions. -/
inductive Symbol
  | equal | notEqual | atMost | atLeast | both | either
  | less | greater | bang | plus | minus | star | slash | percent
  | leftParen | rightParen | assign
  deriving Repr, DecidableEq

namespace Symbol

/-- A symbol as text. -/
def text : Symbol → String
  | equal => "=="
  | notEqual => "!="
  | atMost => "<="
  | atLeast => ">="
  | both => "&&"
  | either => "||"
  | less => "<"
  | greater => ">"
  | bang => "!"
  | plus => "+"
  | minus => "-"
  | star => "*"
  | slash => "/"
  | percent => "%"
  | leftParen => "("
  | rightParen => ")"
  | assign => "="

/-- Cut a symbol off the front of a text, one of two characters before one of a single character. -/
def cut? : List Char → Option (Symbol × List Char)
  | '=' :: '=' :: cs => some (equal, cs)
  | '!' :: '=' :: cs => some (notEqual, cs)
  | '<' :: '=' :: cs => some (atMost, cs)
  | '>' :: '=' :: cs => some (atLeast, cs)
  | '&' :: '&' :: cs => some (both, cs)
  | '|' :: '|' :: cs => some (either, cs)
  | '<' :: cs => some (less, cs)
  | '>' :: cs => some (greater, cs)
  | '!' :: cs => some (bang, cs)
  | '+' :: cs => some (plus, cs)
  | '-' :: cs => some (minus, cs)
  | '*' :: cs => some (star, cs)
  | '/' :: cs => some (slash, cs)
  | '%' :: cs => some (percent, cs)
  | '(' :: cs => some (leftParen, cs)
  | ')' :: cs => some (rightParen, cs)
  | '=' :: cs => some (assign, cs)
  | _ => none

/-- A symbol takes its first character at least. -/
theorem length_of_cut? {c : Char} {cs rest : List Char} {s : Symbol}
    (h : cut? (c :: cs) = some (s, rest)) : rest.length ≤ cs.length := by
  unfold cut? at h
  split at h <;> simp_all

end Symbol

/-! ## Tokens -/

/-- A token of a condition. -/
inductive Token
  | number (n : Number)
  | str (text : String)
  | word (text : String)
  | symbol (s : Symbol)
  deriving Repr

/-- A token as messages show it: its kind, and what it holds in parentheses. -/
def Token.shown : Token → String
  | number n => "Number(" ++ Decimal.fullText n.scalar ++ ", " ++ Text.quotedOption n.unit ++ ")"
  | str s => "Str(" ++ Text.quoted s ++ ")"
  | word s => "Word(" ++ Text.quoted s ++ ")"
  | symbol s => "Symbol(" ++ Text.quoted s.text ++ ")"

/-- The characters up to the quote that ends a string, with escapes undone, and what follows it. -/
def untilQuote (quote : Char) : List Char → Option (List Char × List Char)
  | [] => none
  | '\\' :: cs =>
    match cs with
    | [] => none
    | c :: cs => (untilQuote quote cs).map fun (inside, rest) => (c :: inside, rest)
  | c :: cs =>
    if c == quote then some ([], cs)
    else (untilQuote quote cs).map fun (inside, rest) => (c :: inside, rest)

/-- A string takes its closing quotation mark at least. -/
theorem length_of_untilQuote {quote : Char} {cs inside rest : List Char}
    (h : untilQuote quote cs = some (inside, rest)) : rest.length ≤ cs.length := by
  fun_induction untilQuote quote cs generalizing inside with
  | case1 => simp at h
  | case2 => simp at h
  | case3 c cs ih =>
    obtain ⟨⟨i, r⟩, hi, heq⟩ := Option.map_eq_some_iff.1 h
    simp only [Prod.mk.injEq] at heq
    obtain ⟨_, rfl⟩ := heq
    have := ih hi
    simp only [List.length_cons]
    omega
  | case4 c cs _ _ =>
    simp only [Option.some.injEq, Prod.mk.injEq] at h
    rw [← h.2]
    simp
  | case5 c cs _ _ ih =>
    obtain ⟨⟨i, r⟩, hi, heq⟩ := Option.map_eq_some_iff.1 h
    simp only [Prod.mk.injEq] at heq
    obtain ⟨_, rfl⟩ := heq
    have := ih hi
    simp only [List.length_cons]
    omega

/-- Whether a number begins here. -/
def startsNumber : List Char → Bool
  | '.' :: c :: _ => c.isDigit
  | c :: _ => c.isDigit
  | [] => false

/-- Whether a character may begin a word. -/
def startsWord (c : Char) : Bool := Text.isAlphabetic c || c == '_'

/-- Whether a character continues a word. -/
def continuesWord (c : Char) : Bool := Text.isAlphanumeric c || c == '_' || c == '-'

/-- Cut off a number: digits and points, and the letters of its unit. -/
def cutNumber (cs : List Char) : Except Fault (Token × List Char) :=
  let isNumeral := fun (c : Char) => c.isDigit || c == '.'
  let isUnit := fun (c : Char) => c.isAlpha || c == '%'
  let digits := cs.takeWhile isNumeral
  let behind := cs.dropWhile isNumeral
  let unit := behind.takeWhile isUnit
  match Decimal.read? digits with
  | none => .error (.badNumber (String.ofList digits))
  | some x =>
    .ok (.number ⟨x, if unit.isEmpty then none else some (String.ofList unit)⟩,
      behind.dropWhile isUnit)

/-- Cut the first token off `c :: cs`; `condition` is the text that faults show. -/
def cutToken (condition : String) (c : Char) (cs : List Char) : Except Fault (Token × List Char) :=
  if c == '\'' || c == '"' then
    match untilQuote c cs with
    | none => .error (.unterminated condition)
    | some (inside, rest) => .ok (.str (String.ofList inside), rest)
  else if startsNumber (c :: cs) then cutNumber (c :: cs)
  else if startsWord c then
    .ok (.word (String.ofList (c :: cs.takeWhile continuesWord)), cs.dropWhile continuesWord)
  else
    match Symbol.cut? (c :: cs) with
    | some (s, rest) => .ok (.symbol s, rest)
    | none => .error (.unexpectedCharacter c condition)

/-- Dropping a run makes no text longer. -/
theorem dropWhile_length_le (p : Char → Bool) (cs : List Char) :
    (cs.dropWhile p).length ≤ cs.length := (List.dropWhile_sublist p).length_le

/-- Cutting takes at least the first character. -/
theorem length_of_cutToken {condition : String} {c : Char} {cs rest : List Char} {t : Token}
    (h : cutToken condition c cs = .ok (t, rest)) : rest.length ≤ cs.length := by
  unfold cutToken at h
  split at h
  · split at h
    · simp at h
    · next hq => cases h; exact length_of_untilQuote hq
  · split at h
    · next hs =>
      have hc : (c.isDigit || c == '.') = true := by
        unfold startsNumber at hs
        split at hs
        · next heq => cases heq; simp
        · next heq => cases heq; simp [hs]
        · simp at hs
      simp only [cutNumber, List.dropWhile_cons, hc, if_true] at h
      split at h
      · simp at h
      · cases h
        exact Nat.le_trans (dropWhile_length_le _ _) (dropWhile_length_le _ _)
    · split at h
      · cases h; exact dropWhile_length_le _ _
      · split at h
        · next hs => cases h; exact Symbol.length_of_cut? hs
        · simp at h

/-- The tokens of the rest of a condition. -/
def tokensFrom (condition : String) (cs : List Char) : Except Fault (List Token) :=
  match hc : Text.trimLeft cs with
  | [] => .ok []
  | c :: behind =>
    match ht : cutToken condition c behind with
    | .error e => .error e
    | .ok (t, rest) =>
      have : rest.length < cs.length := by
        have h1 := length_of_cutToken ht
        have h2 := Text.length_trimLeft_le cs
        rw [hc, List.length_cons] at h2
        omega
      (tokensFrom condition rest).map (t :: ·)
termination_by cs.length

/-- The tokens of a condition. -/
def tokens (condition : String) : Except Fault (List Token) :=
  tokensFrom condition condition.toList

end Condition

end Stylesheet
