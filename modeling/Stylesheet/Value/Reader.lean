import Stylesheet.Value.Basic

/-! # Reading values

A value is read from its text by cutting off one **lexeme** after the other: a quoted string, a
variable, a color or a word behind `#`, a number with its unit, an operator, a word, or a word with
parameters in parentheses, whose inside is then read as a chain of its own (**`Value.read`**). A minus
belongs to the number behind it when an operator or a space stands in front. Each lexeme is shorter than
what it is cut from (`Lexeme.length_of_cut`), so reading ends. -/

namespace Stylesheet

namespace Lexeme

/-! ## Characters -/

/-- Whether a character separates terms. -/
def isSpace (c : Char) : Bool := c == ' ' || c == '\n' || c == '\t' || c == '\r'

/-- Whether a character continues a name: a letter or digit, `-`, `_`, or any one beyond ASCII. -/
def isNameChar (c : Char) : Bool := c.isAlphanum || c == '-' || c == '_' || !Text.isAscii c

/-- Whether a character ends a word. A minus does not. -/
def endsWord (c : Char) : Bool :=
  isSpace c || c == '+' || c == '*' || c == '/' || c == '%' || c == '(' || c == ')' || c == ',' ||
    c == '"' || c == '\'' || c == '$'

/-- Whether a character belongs to the unit behind a number. -/
def isUnitChar (c : Char) : Bool := c.isAlpha || c == '%'

/-- Whether a number without a sign begins here. -/
def startsNumber : List Char → Bool
  | '.' :: c :: _ => c.isDigit
  | c :: _ => c.isDigit
  | [] => false

/-- Whether a word may go on like this behind a minus. -/
def continuesHyphen : List Char → Bool
  | c :: _ => c.isAlpha || c == '-' || c == '_'
  | [] => false

end Lexeme

/-! ## Lexemes -/

/-- What one step of reading cuts off: a whole term, or a name with the characters between the
parentheses behind it. -/
inductive Lexeme
  | term (t : Term)
  | call (name : String) (inside : List Char)

namespace Lexeme

/-- The characters up to the parenthesis that closes the one before them, and what follows it.
`depth` counts further open parentheses, and `quote` is the quote that is open. -/
def untilClosed (depth : Nat) (quote : Option Char) : List Char → Option (List Char × List Char)
  | [] => none
  | c :: cs =>
    let within := fun (found : Option (List Char × List Char)) =>
      found.map fun (inside, rest) => (c :: inside, rest)
    match quote with
    | some q => within (untilClosed depth (if c == q then none else some q) cs)
    | none =>
      if c == ')' then
        match depth with
        | 0 => some ([], cs)
        | depth + 1 => within (untilClosed depth none cs)
      else if c == '(' then within (untilClosed (depth + 1) none cs)
      else within (untilClosed depth (if c == '"' || c == '\'' then some c else none) cs)

/-- The inside of closed parentheses and what follows make up the text, less one parenthesis. -/
theorem length_untilClosed {depth : Nat} {quote : Option Char} {cs inside rest : List Char}
    (h : untilClosed depth quote cs = some (inside, rest)) :
    inside.length + rest.length + 1 = cs.length := by
  induction cs generalizing depth quote inside with
  | nil => simp [untilClosed] at h
  | cons c cs ih =>
    have step : ∀ {d q}, (untilClosed d q cs).map (fun p => (c :: p.1, p.2)) = some (inside, rest) →
        inside.length + rest.length + 1 = (c :: cs).length := by
      intro d q hq
      obtain ⟨⟨i, r⟩, hi, heq⟩ := Option.map_eq_some_iff.1 hq
      simp only [Prod.mk.injEq] at heq
      obtain ⟨rfl, rfl⟩ := heq
      have := ih hi
      simp only [List.length_cons]
      omega
    unfold untilClosed at h
    split at h
    · exact step h
    · split at h
      · split at h
        · cases h; simp
        · exact step h
      · split at h
        · exact step h
        · exact step h

/-- Cut off a number whose sign has been taken: digits and points, and the letters of its unit. Digits
with several points among them count as zero. -/
def cutNumber (sign cs : List Char) : Lexeme × List Char :=
  let isNumeral := fun (c : Char) => c.isDigit || c == '.'
  let scalar := (Decimal.read? (sign ++ cs.takeWhile isNumeral)).getD 0.0
  let behind := cs.dropWhile isNumeral
  let unit := behind.takeWhile isUnitChar
  (.term (.number ⟨scalar, if unit.isEmpty then none else some (String.ofList unit)⟩),
    behind.dropWhile isUnitChar)

/-- Cut off a word that begins with `c`, and parameters in parentheses right behind it. The parameters
of `url` are part of the word. -/
def cutWord (source : String) (c : Char) (cs : List Char) : Except Error (Lexeme × List Char) :=
  let name := c :: cs.takeWhile (!endsWord ·)
  match cs.dropWhile (!endsWord ·) with
  | '(' :: behind =>
    match untilClosed 0 none behind with
    | none => .error (.unclosedCall source)
    | some (inside, rest) =>
      -- an address may hold anything, so its inside is not read
      if name.map Char.toLower == ['u', 'r', 'l'] then
        .ok (.term (.ident (String.ofList (name ++ '(' :: inside ++ [')']))), rest)
      else .ok (.call (String.ofList name) inside, rest)
  | rest => .ok (.term (.ident (String.ofList name)), rest)

/-- Cut the first lexeme off `c :: cs`. `signed` tells that a minus may belong to a number, and `source`
is the text that errors show. -/
def cut (source : String) (signed : Bool) (c : Char) (cs : List Char) :
    Except Error (Lexeme × List Char) :=
  if c == '"' || c == '\'' then
    -- a string goes up to the next quote of its kind, whatever stands in between
    match cs.dropWhile (· != c) with
    | [] => .error (.unterminatedString source)
    | _ :: rest => .ok (.term (.str (String.ofList (cs.takeWhile (· != c)))), rest)
  else if c == '$' then
    let name := cs.takeWhile isNameChar
    if name.isEmpty then .error (.missingVariableName source)
    else .ok (.term (.var (String.ofList name)), cs.dropWhile isNameChar)
  else if c == '#' then
    -- what is no color stays a word
    let word := String.ofList (c :: cs.takeWhile isNameChar)
    .ok (.term (match Color.ofHex? word with
      | some color => .color color
      | none => .ident word), cs.dropWhile isNameChar)
  else if c == '-' && startsNumber cs && signed then .ok (cutNumber ['-'] cs)
  else if c == '-' && continuesHyphen cs then cutWord source c cs   -- such as `-moz-box`
  else if startsNumber (c :: cs) then .ok (cutNumber [] (c :: cs))
  else
    match Operator.ofChar? c with
    | some o => .ok (.term (.op o), cs)
    | none => if Text.isAscii c then cutWord source c cs else .error (.foreignWord source)

/-! ## Lengths -/

/-- How many characters a lexeme leaves to be read for its parameters. -/
def insideLength : Lexeme → Nat
  | term _ => 0
  | call _ inside => inside.length

/-- Dropping a run makes no text longer. -/
theorem length_dropWhile_le (p : Char → Bool) (cs : List Char) :
    (cs.dropWhile p).length ≤ cs.length := (List.dropWhile_sublist p).length_le

/-- A word takes its first character at least, and what stands inside of a call is shorter than the call. -/
theorem length_of_cutWord {source : String} {c : Char} {cs rest : List Char} {l : Lexeme}
    (h : cutWord source c cs = .ok (l, rest)) :
    rest.length ≤ cs.length ∧ l.insideLength ≤ cs.length := by
  have hle := length_dropWhile_le (!endsWord ·) cs
  unfold cutWord at h
  split at h
  · next behind hb =>
    rw [hb] at hle
    simp only [List.length_cons] at hle
    split at h
    · simp at h
    · next inside rest' hu =>
      have := length_untilClosed hu
      simp only at h
      split at h <;> cases h <;> simp only [insideLength] <;> omega
  · next rest' _ => cases h; exact ⟨hle, Nat.zero_le _⟩

/-- A number makes no text longer. -/
theorem length_of_cutNumber (sign cs : List Char) :
    (cutNumber sign cs).2.length ≤ cs.length :=
  Nat.le_trans (length_dropWhile_le _ _) (length_dropWhile_le _ _)

/-- A number that begins here takes at least one character. -/
theorem length_of_cutNumber_lt {c : Char} {cs : List Char} (h : startsNumber (c :: cs) = true) :
    (cutNumber [] (c :: cs)).2.length ≤ cs.length := by
  have hc : (c.isDigit || c == '.') = true := by
    unfold startsNumber at h
    split at h
    · next heq => cases heq; simp
    · next heq => cases heq; simp [h]
    · simp at h
  simp only [cutNumber, List.dropWhile_cons, hc, if_true]
  exact Nat.le_trans (length_dropWhile_le _ _) (length_dropWhile_le _ _)

/-- Cutting takes at least the first character. -/
theorem length_of_cut {source : String} {signed : Bool} {c : Char} {cs rest : List Char} {l : Lexeme}
    (h : cut source signed c cs = .ok (l, rest)) :
    rest.length ≤ cs.length ∧ l.insideLength ≤ cs.length := by
  unfold cut at h
  split at h
  · have hle := length_dropWhile_le (· != c) cs
    split at h
    · simp at h
    · next heq =>
      rw [heq] at hle
      cases h
      exact ⟨Nat.le_of_succ_le hle, Nat.zero_le _⟩
  · split at h
    · have hle := length_dropWhile_le isNameChar cs
      simp only at h
      split at h
      · simp at h
      · cases h; exact ⟨hle, Nat.zero_le _⟩
    · split at h
      · cases h; exact ⟨length_dropWhile_le isNameChar cs, Nat.zero_le _⟩
      · split at h
        · cases h
          exact ⟨length_of_cutNumber ['-'] cs, Nat.zero_le _⟩
        · split at h
          · exact length_of_cutWord h
          · split at h
            · next hs => cases h; exact ⟨length_of_cutNumber_lt hs, Nat.zero_le _⟩
            · split at h
              · cases h; exact ⟨Nat.le_refl _, Nat.zero_le _⟩
              · split at h
                · exact length_of_cutWord h
                · simp at h

end Lexeme

/-! ## Chains -/

/-- Whether an operand has to follow a term, so that a minus behind it is a sign. -/
def Term.wantsOperand : Term → Bool
  | .op .rightParen => false
  | .op _ => true
  | _ => false

/-- Read the rest of a chain; `wanted` tells that an operand has to come. -/
def Value.readFrom (source : String) (wanted : Bool) (cs : List Char) : Except Error Value :=
  match hc : cs.dropWhile Lexeme.isSpace with
  | [] => .ok []
  | c :: behind =>
    have shorter : behind.length < cs.length := by
      have := Lexeme.length_dropWhile_le Lexeme.isSpace cs
      rw [hc] at this
      exact this
    match hl : Lexeme.cut source (wanted || cs.head?.any Lexeme.isSpace) c behind with
    | .error e => .error e
    | .ok (.term t, rest) =>
      have := (Lexeme.length_of_cut hl).1
      (Value.readFrom source t.wantsOperand rest).map (t :: ·)
    | .ok (.call name inside, rest) =>
      have hr := (Lexeme.length_of_cut hl).1
      have hi : inside.length ≤ behind.length := (Lexeme.length_of_cut hl).2
      -- faults inside of the parentheses show the inside only
      match Value.readFrom (String.ofList inside) true inside with
      | .error e => .error e
      | .ok parameters => (Value.readFrom source false rest).map (.call name parameters :: ·)
termination_by cs.length

/-- Read a value from its text. -/
def Value.read (text : String) : Except Error Value := Value.readFrom text true text.toList

end Stylesheet
