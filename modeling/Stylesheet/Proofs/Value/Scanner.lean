import Stylesheet.Proofs.Value.Bytes
import Stylesheet.Proofs.Value.Lexemes

/-! # Reading bytes

A text in memory is read by walking its bytes and taking **slices** of it. A slice whose ends are not between characters
is no slice at all, and asking for one stops the whole program (**`Scanner.Stop`**). **`Scanner.cut`** cuts a lexeme off
with all the places, byte tests and slices that takes.

Each class of bytes agrees with a class of characters (`Scanner.agree_endsWord` and others). Behind the bytes of
`front`, the bytes of a text are therefore tested and scanned as its characters are (`Scanner.any_byteAt`,
`Scanner.scan_append`), and the parenthesis that closes another is found where the characters have it
(`Scanner.matchingParen_bytes`). -/

namespace Stylesheet

namespace Scanner

open Text

/-! ## Places and slices -/

/-- What stops a scan: a slice with an end that is not between characters, or a fault to report. -/
inductive Stop
  | slice (text : List Char) (start stop : Nat)
  | fault (e : Error)

/-- The part of a text between two places. -/
def slice (text : List Char) (start stop : Nat) : Except Stop (List Char) :=
  match slice? text start stop with
  | some part => .ok part
  | none => .error (.slice text start stop)

/-- The byte at a place, if there is one. -/
def byteAt (text : List Char) (place : Nat) : Option UInt8 := (bytes text)[place]?

/-- The first place at or behind another where a byte is not in a class, or the end. -/
def endOf (p : UInt8 → Bool) (text : List Char) (start : Nat) : Nat :=
  start + (((bytes text).drop start).takeWhile p).length

/-- Walk over the bytes in a class: what stands there, and the place behind it. -/
def scan (p : UInt8 → Bool) (text : List Char) (start : Nat) : Except Stop (List Char × Nat) := do
  let part ← slice text start (endOf p text start)
  pure (part, endOf p text start)

/-! ## Bytes -/

/-- Whether a byte is a blank between words. -/
def isSpace (b : UInt8) : Bool := b == byte ' ' || b == byte '\n' || b == byte '\t' || b == byte '\r'

/-- Whether a byte is a letter. -/
def isAlpha (b : UInt8) : Bool := (byte 'A' ≤ b && b ≤ byte 'Z') || (byte 'a' ≤ b && b ≤ byte 'z')

/-- Whether a byte is a digit. -/
def isDigit (b : UInt8) : Bool := byte '0' ≤ b && b ≤ byte '9'

/-- Whether a byte continues a name. Those of characters that are not ASCII do. -/
def isNameByte (b : UInt8) : Bool := isAlpha b || isDigit b || b == byte '-' || b == byte '_' || 0x80 ≤ b

/-- Whether a byte ends a word. Those of characters that are not ASCII do not. -/
def endsWord (b : UInt8) : Bool :=
  isSpace b || b == byte '+' || b == byte '*' || b == byte '/' || b == byte '%' || b == byte '(' || b == byte ')' ||
    b == byte ',' || b == byte '"' || b == byte '\'' || b == byte '$'

/-- Whether a byte is a quotation mark. -/
def isQuote (b : UInt8) : Bool := b == byte '"' || b == byte '\''

/-- Whether a byte belongs to the digits of a number. -/
def isNumeral (b : UInt8) : Bool := isDigit b || b == byte '.'

/-- Whether a byte belongs to a unit. -/
def isUnitByte (b : UInt8) : Bool := isAlpha b || b == byte '%'

/-- Whether a word may go on with a byte behind a minus. -/
def continuesHyphen (b : UInt8) : Bool := isAlpha b || b == byte '-' || b == byte '_'

/-- Whether a number without a sign begins at a place. -/
def startsNumber (text : List Char) (place : Nat) : Bool :=
  (byteAt text place).any isDigit ||
    ((byteAt text place).any (· == byte '.') && (byteAt text (place + 1)).any isDigit)

/-! ## Lexemes -/

/-- How many bytes there are through the parenthesis that closes the first one; `depth` are open, and so is the quote
`quote`. -/
def matchingParen (depth : Int) (quote : Option UInt8) : List UInt8 → Option Nat
  | [] => none
  | b :: bs =>
    match quote with
    | some q => (matchingParen depth (if b == q then none else some q) bs).map (· + 1)
    | none =>
      if isQuote b then (matchingParen depth (some b) bs).map (· + 1)
      else if b == byte '(' then (matchingParen (depth + 1) none bs).map (· + 1)
      else if b == byte ')' then
        if depth - 1 = 0 then some 1 else (matchingParen (depth - 1) none bs).map (· + 1)
      else (matchingParen depth none bs).map (· + 1)

/-- Cut off a string in the quotes `quote`, the first of which is at `place`. -/
def cutString (text : List Char) (place : Nat) (quote : UInt8) : Except Stop (Lexeme × Nat) :=
  let stop := endOf (· != quote) text (place + 1)
  if stop < size text then do
    let inside ← slice text (place + 1) stop
    pure (.term (.str (String.ofList inside)), stop + 1)
  else .error (.fault (.unterminatedString (String.ofList text)))

/-- Cut off the variable whose `$` is at `place`. -/
def cutVariable (text : List Char) (place : Nat) : Except Stop (Lexeme × Nat) := do
  let (name, stop) ← scan isNameByte text (place + 1)
  if name.isEmpty then .error (.fault (.missingVariableName (String.ofList text)))
  else pure (.term (.var (String.ofList name)), stop)

/-- Cut off the color or the word whose `#` is at `place`. -/
def cutHash (text : List Char) (place : Nat) : Except Stop (Lexeme × Nat) := do
  let (_, stop) ← scan isNameByte text (place + 1)
  let word ← slice text place stop
  pure (.term (match Color.ofHex? (String.ofList word) with
    | some color => .color color
    | none => .ident (String.ofList word)), stop)

/-- Cut off the number that begins at `place`, maybe with a minus. -/
def cutNumber (text : List Char) (place : Nat) : Except Stop (Lexeme × Nat) := do
  let start := if (byteAt text place).any (· == byte '-') then place + 1 else place
  let (_, point) ← scan isNumeral text start
  let numeral ← slice text place point
  let (unit, stop) ← scan isUnitByte text point
  pure (.term (.number ⟨(Decimal.read? numeral).getD 0.0,
    if unit.isEmpty then none else some (String.ofList unit)⟩), stop)

/-- Cut off the word that begins at `place`, and parameters in parentheses right behind it. -/
def cutWord (text : List Char) (place : Nat) : Except Stop (Lexeme × Nat) := do
  let (_, stop) ← scan (!endsWord ·) text (place + 1)
  let name ← slice text place stop
  if (byteAt text stop).any (· == byte '(') then
    match matchingParen 0 none ((bytes text).drop stop) with
    | none => .error (.fault (.unclosedCall (String.ofList text)))
    | some length =>
      let inside ← slice text (stop + 1) (stop + length - 1)
      if name.map Char.toLower == ['u', 'r', 'l'] then
        pure (.term (.ident (String.ofList (name ++ '(' :: inside ++ [')']))), stop + length)
      else pure (.call (String.ofList name) inside, stop + length)
  else pure (.term (.ident (String.ofList name)), stop)

/-- Cut off the lexeme that begins at `place` with the byte `b`. `wanted` tells that an operand has to come. -/
def cut (text : List Char) (place : Nat) (wanted : Bool) (b : UInt8) : Except Stop (Lexeme × Nat) :=
  let signed := wanted || (decide (0 < place) && (byteAt text (place - 1)).any isSpace)
  if isQuote b then cutString text place b
  else if b == byte '$' then cutVariable text place
  else if b == byte '#' then cutHash text place
  else if b == byte '-' && startsNumber text (place + 1) && signed then cutNumber text place
  else if b == byte '-' && (byteAt text (place + 1)).any continuesHyphen then cutWord text place
  else if startsNumber text place then cutNumber text place
  else
    match Operator.ofChar? (Char.ofUInt8 b) with
    | some o => pure (.term (.op o), place + 1)
    | none => cutWord text place

/-! ## Bytes as characters -/

/-- The bytes of blanks agree with the characters that are blanks. -/
theorem agree_isSpace : Agree isSpace Lexeme.isSpace :=
  (((Agree.single rfl).or (.single rfl)).or (.single rfl)).or (.single rfl)

/-- The bytes of letters agree with the characters that are letters. -/
theorem agree_isAlpha : Agree isAlpha Char.isAlpha := by
  have letters := (Agree.range 'A' 'Z' rfl rfl).or (.range 'a' 'z' rfl rfl)
  intro c b hb
  exact (letters c b hb).trans (congrArg (· || c.isLower) (Bool.decide_and ..).symm)

/-- The bytes of digits agree with the characters that are digits. -/
theorem agree_isDigit : Agree isDigit Char.isDigit := .range '0' '9' rfl rfl

/-- Names go on with all characters that are not ASCII, as with the bytes of these. -/
theorem agree_isNameByte : Agree isNameByte Lexeme.isNameChar :=
  (((agree_isAlpha.or agree_isDigit).or (.single rfl)).or (.single rfl)).or .foreign

/-- The bytes that end words agree with the characters that do. -/
theorem agree_endsWord : Agree endsWord Lexeme.endsWord :=
  ((((((((((agree_isSpace.or (.single rfl)).or (.single rfl)).or (.single rfl)).or (.single rfl)).or (.single rfl)).or
    (.single rfl)).or (.single rfl)).or (.single rfl)).or (.single rfl)).or (.single rfl))

/-- The bytes of quotation marks agree with the characters that are. -/
theorem agree_isQuote : Agree isQuote (fun c => c == '"' || c == '\'') := (Agree.single rfl).or (.single rfl)

/-- Whether a character belongs to the digits of a number. -/
def isNumeralChar (c : Char) : Bool := c.isDigit || c == '.'

/-- The bytes of the digits of a number agree with the characters of these. -/
theorem agree_isNumeral : Agree isNumeral isNumeralChar := agree_isDigit.or (.single rfl)

/-- The bytes of units agree with the characters of units. -/
theorem agree_isUnitByte : Agree isUnitByte Lexeme.isUnitChar := agree_isAlpha.or (.single rfl)

/-- The bytes with which a word goes on behind a minus agree with such characters. -/
theorem agree_continuesHyphen : Agree continuesHyphen (fun c => c.isAlpha || c == '-' || c == '_') :=
  (agree_isAlpha.or (.single rfl)).or (.single rfl)

/-! ## Places between characters -/

variable {p : UInt8 → Bool} {q : Char → Bool} {front cs : List Char} {c : Char}

/-- The slice between the bytes of a front and those of a back is what stands there. -/
theorem slice_append (front mid back : List Char) :
    slice (front ++ mid ++ back) (size front) (size front + size mid) = .ok mid := by
  unfold slice
  rw [slice?_append]

/-- Without the bytes of a front, those of the rest are left. -/
theorem drop_bytes (front cs : List Char) : (bytes (front ++ cs)).drop (size front) = bytes cs := by
  rw [bytes_append]
  exact List.drop_left

/-- Bytes are counted from the end of a front. -/
theorem byteAt_add (front cs : List Char) (k : Nat) : byteAt (front ++ cs) (size front + k) = (bytes cs)[k]? := by
  rw [byteAt, ← List.getElem?_drop, drop_bytes]

/-- The byte in front of a place is one of the last character. -/
theorem any_byteAt_before (h : Agree p q) (front cs : List Char) :
    (decide (0 < size front) && (byteAt (front ++ cs) (size front - 1)).any p) = front.getLast?.any q := by
  rcases List.eq_nil_or_concat front with rfl | ⟨front, d, rfl⟩
  · rfl
  · rw [List.concat_eq_append]
    have some : 0 < d.utf8Size := d.utf8Size_pos
    have place : size (front ++ [d]) - 1 = size front + (d.utf8Size - 1) := by
      simp only [size_append, size_cons, size_nil]
      omega
    have last : d.utf8Size - 1 < (String.utf8EncodeChar d).length := by
      rw [String.length_utf8EncodeChar]
      omega
    rw [place, List.append_assoc, byteAt_add, List.singleton_append, bytes_cons, List.getElem?_append_left last,
      List.getElem?_eq_getElem last, List.getLast?_concat]
    have filled : 0 < size (front ++ [d]) := by
      rw [size_append, size_cons]
      omega
    rw [decide_eq_true filled, Bool.true_and, Option.any_some]
    exact h d _ (List.getElem_mem _)

/-- The byte behind a front is in a class when the next character is. -/
theorem any_byteAt (h : Agree p q) (front cs : List Char) :
    (byteAt (front ++ cs) (size front)).any p = cs.head?.any q := by
  have first := byteAt_add front cs 0
  rw [Nat.add_zero] at first
  rw [first]
  cases cs with
  | nil => rfl
  | cons c cs =>
    obtain ⟨b, bs, encoded⟩ := List.exists_cons_of_ne_nil (String.utf8EncodeChar_ne_nil (c := c))
    rw [bytes_cons, encoded, List.cons_append]
    exact h c b (by rw [encoded]; exact .head _)

/-- A class of bytes ends where that of characters does. -/
theorem endOf_append (h : Agree p q) (front cs : List Char) :
    endOf p (front ++ cs) (size front) = size front + size (cs.takeWhile q) := by
  rw [endOf, drop_bytes, h.takeWhile_bytes]
  rfl

/-- The bytes of a class behind a front are those of the characters in it. -/
theorem scan_append (h : Agree p q) (front cs : List Char) :
    scan p (front ++ cs) (size front) = .ok (cs.takeWhile q, size front + size (cs.takeWhile q)) := by
  have parts : front ++ cs = front ++ cs.takeWhile q ++ cs.dropWhile q := by
    rw [List.append_assoc, List.takeWhile_append_dropWhile]
  have whole := slice_append front (cs.takeWhile q) (cs.dropWhile q)
  rw [← parts] at whole
  rw [scan, endOf_append h, whole]
  rfl

/-! Behind an ASCII character begins the text behind it. -/

/-- An ASCII character may be counted to the front, where it takes one byte. -/
theorem append_concat (ascii : isAscii c = true) (front cs : List Char) :
    front ++ c :: cs = front ++ [c] ++ cs ∧ size front + 1 = size (front ++ [c]) := by
  simp [utf8Size_of_isAscii ascii]

/-- The byte behind an ASCII character is in a class when the next character is. -/
theorem any_byteAt_behind (h : Agree p q) (ascii : isAscii c = true) (front cs : List Char) :
    (byteAt (front ++ c :: cs) (size front + 1)).any p = cs.head?.any q := by
  obtain ⟨text, place⟩ := append_concat ascii front cs
  rw [text, place, any_byteAt h]

/-- The bytes of a class behind an ASCII character are those of the characters in it. -/
theorem scan_behind (h : Agree p q) (ascii : isAscii c = true) (front cs : List Char) :
    scan p (front ++ c :: cs) (size front + 1) =
      .ok (cs.takeWhile q, size front + size (c :: cs.takeWhile q)) := by
  obtain ⟨text, place⟩ := append_concat ascii front cs
  rw [text, place, scan_append h, ← place, size_cons, utf8Size_of_isAscii ascii, Nat.add_assoc]

/-- A number starts in the bytes where it does in the characters. -/
theorem startsNumber_append (front cs : List Char) :
    startsNumber (front ++ cs) (size front) = Lexeme.startsNumber cs := by
  unfold startsNumber
  rw [any_byteAt agree_isDigit, any_byteAt (.single (d := '.') rfl)]
  cases cs with
  | nil => rfl
  | cons c cs =>
    by_cases point : c = '.'
    · subst point
      rw [any_byteAt_behind agree_isDigit rfl]
      cases cs <;> rfl
    · have none : (c == '.') = false := beq_eq_false_iff_ne.2 point
      unfold Lexeme.startsNumber
      simp [none, point]

/-- Characters that are not ASCII are passed, in quotes and outside of them. -/
theorem matchingParen_foreign (depth : Int) (quote : Option Char) (ascii : ∀ c ∈ quote, isAscii c = true)
    {foreign : List UInt8} (high : ∀ b ∈ foreign, 0x80 ≤ b) (bs : List UInt8) :
    matchingParen depth (quote.map byte) (foreign ++ bs) =
      (matchingParen depth (quote.map byte) bs).map (· + foreign.length) := by
  induction foreign with
  | nil => simp
  | cons b foreign ih =>
    have ne {c : Char} (hc : isAscii c = true) : (b == byte c) = false := beq_byte_eq_false (high b (.head _)) hc
    have passed : matchingParen depth (quote.map byte) (b :: (foreign ++ bs)) =
        (matchingParen depth (quote.map byte) (foreign ++ bs)).map (· + 1) := by
      cases quote with
      | some q =>
        rw [Option.map_some, matchingParen, ne (ascii q rfl)]
        rfl
      | none =>
        rw [Option.map_none, matchingParen, isQuote, ne rfl, ne rfl, ne rfl, ne rfl]
        rfl
    rw [List.cons_append, passed, ih fun b hb => high b (.tail _ hb), Option.map_map, List.length_cons]
    congr 1

/-- In characters, too. -/
theorem untilClosed_of_not_isAscii (foreign : isAscii c = false) (d : Nat) {quote : Option Char}
    (ascii : ∀ q ∈ quote, isAscii q = true) (cs : List Char) : Lexeme.untilClosed d quote (c :: cs) =
      (Lexeme.untilClosed d quote cs).map fun (inside, rest) => (c :: inside, rest) := by
  have ne {d : Char} (hd : isAscii d = true) : (c == d) = false := beq_eq_false_of_isAscii foreign hd
  cases quote with
  | some q =>
    rw [Lexeme.untilClosed, ne (ascii q rfl)]
    rfl
  | none =>
    have plain : Lexeme.isDelimiter c = false := by
      rw [Lexeme.isDelimiter, ne rfl, ne rfl, ne rfl, ne rfl]
      rfl
    exact Lexeme.Passes.plain (List.forall_mem_singleton.2 plain) cs

/-- With one more character in front, the parenthesis is found as many bytes further. -/
theorem map_size_cons (c : Char) (found : Option (List Char × List Char)) :
    (found.map fun (inside, _) => size inside + 1).map (· + c.utf8Size) =
      (found.map fun (inside, rest) => (c :: inside, rest)).map fun (inside, _) => size inside + 1 := by
  cases found with
  | none => rfl
  | some both =>
    simp only [Option.map_some, size_cons]
    exact congrArg some (by omega)

/-- Where no character waits to be closed, all that wait are ASCII. -/
theorem isAscii_of_mem_none : ∀ c ∈ (none : Option Char), isAscii c = true :=
  fun c h => absurd h (Option.not_mem_none c)

/-- The closing parenthesis is found in the bytes of a text where it is found in its characters. -/
theorem matchingParen_bytes (d : Nat) (quote : Option Char) (ascii : ∀ c ∈ quote, isAscii c = true) (cs : List Char) :
    matchingParen (d + 1) (quote.map byte) (bytes cs) =
      (Lexeme.untilClosed d quote cs).map fun (inside, _) => size inside + 1 := by
  induction cs generalizing d quote with
  | nil => cases quote <;> rfl
  | cons c cs ih =>
    cases kind : isAscii c with
    | false =>
      rw [bytes_cons, matchingParen_foreign _ _ ascii (le_of_mem_utf8EncodeChar kind), String.length_utf8EncodeChar,
        ih d quote ascii, map_size_cons, untilClosed_of_not_isAscii kind d ascii]
    | true =>
      have same {c' : Char} (hc : isAscii c' = true) : (byte c == byte c') = (c == c') :=
        (Agree.single hc).apply_byte kind
      have next (found : Option (List Char × List Char)) := utf8Size_of_isAscii kind ▸ map_size_cons c found
      rw [bytes_cons, utf8EncodeChar_of_isAscii kind, List.singleton_append]
      cases quote with
      | some q =>
        rw [Option.map_some, matchingParen, same (ascii q rfl), Lexeme.untilClosed]
        by_cases closing : (c == q) = true
        · rw [if_pos closing, if_pos closing, ← next]
          exact congrArg _ (ih d none isAscii_of_mem_none)
        · rw [if_neg closing, if_neg closing, ← next]
          exact congrArg _ (ih d (some q) ascii)
      | none =>
        rw [Option.map_none, matchingParen, agree_isQuote.apply_byte kind, same rfl, same rfl]
        by_cases quoted : (c == '"' || c == '\'') = true
        · -- in a string the same search goes on with its quote
          have opens : Lexeme.untilClosed d none (c :: cs) =
              (Lexeme.untilClosed d (some c) cs).map fun (inside, rest) => (c :: inside, rest) := by
            rcases Bool.or_eq_true_iff.1 quoted with is | is <;> rw [beq_iff_eq.1 is] <;> rfl
          rw [if_pos quoted, opens, ← next]
          exact congrArg _ (ih d (some c) (by simpa using kind))
        rw [if_neg quoted]
        by_cases opening : (c == '(') = true
        · obtain rfl := beq_iff_eq.1 opening
          rw [if_pos opening, show Lexeme.untilClosed d none ('(' :: cs) = _ from Lexeme.Passes.left cs]
          exact (congrArg _ (ih (d + 1) none isAscii_of_mem_none)).trans (next _)
        rw [if_neg opening]
        by_cases closing : (c == ')') = true
        · obtain rfl := beq_iff_eq.1 closing
          rw [if_pos closing, Int.add_sub_cancel]
          cases d with
          | zero => rfl
          | succ d =>
            rw [if_neg (by omega), show Lexeme.untilClosed (d + 1) none (')' :: cs) = _ from Lexeme.Passes.right cs]
            exact (congrArg _ (ih d none isAscii_of_mem_none)).trans (next _)
        · have plain : Lexeme.isDelimiter c = false := by
            simp only [Bool.not_eq_true] at opening closing quoted
            rw [Lexeme.isDelimiter, Bool.or_assoc, opening, closing, quoted]
            rfl
          rw [if_neg closing, show Lexeme.untilClosed d none (c :: cs) = _ from
            Lexeme.Passes.plain (List.forall_mem_singleton.2 plain) cs]
          exact (congrArg _ (ih d none isAscii_of_mem_none)).trans (next _)

end Scanner

end Stylesheet
