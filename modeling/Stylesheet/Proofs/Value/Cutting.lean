import Stylesheet.Proofs.Numeric.Numerals
import Stylesheet.Proofs.Value.Lexemes

/-! # Lexemes in front of more text

The text of a term is cut off as this term whatever stands behind it, if only that ends the term: a space, or an
operator that is written without a space in front (**`Follows`**). There is one lemma for each kind of lexeme. -/

namespace Stylesheet

namespace Lexeme

/-! ## Ends of terms -/

/-- Whether a character ends any term in front of it. -/
def endsTerm (c : Char) : Bool := c == ' ' || c == ',' || c == '/' || c == ')'

/-- What follows a term ends it. -/
def Follows (rest : List Char) : Prop := ∀ c ∈ rest.head?, endsTerm c = true

/-- What is true of all that may follow a term is true of what does follow. -/
theorem Follows.head? {rest : List Char} (h : Follows rest) {p : Char → Bool} {b : Bool}
    (ends : p ' ' = b ∧ p ',' = b ∧ p '/' = b ∧ p ')' = b) : ∀ c ∈ rest.head?, p c = b := by
  intro c hc
  obtain ⟨blank, comma, slash, paren⟩ := ends
  have end' := h c hc
  simp only [endsTerm, Bool.or_eq_true, beq_iff_eq, or_assoc] at end'
  rcases end' with rfl | rfl | rfl | rfl
  · exact blank
  · exact comma
  · exact slash
  · exact paren

variable {source : String} {signed : Bool} {c : Char} {cs more inside rest : List Char}

/-! ## Strings and names -/

/-- A string without a quotation mark in it is cut off again. -/
theorem cut_str {s : List Char} (free : '"' ∉ s) :
    cut source signed '"' (s ++ '"' :: rest) = .ok (.term (.str (String.ofList s)), rest) := by
  have inside : ∀ c ∈ s, (c != '"') = true := by
    intro c hc
    simpa using fun h : c = '"' => free (h ▸ hc)
  have ends : ∀ c ∈ ('"' :: rest).head?, (c != '"') = false := by simp
  rw [cut, if_pos (by decide), Text.dropWhile_run inside ends, Text.takeWhile_run inside ends]

/-- A variable is cut off again. -/
theorem cut_var {name : List Char} (some : name ≠ []) (chars : ∀ c ∈ name, isNameChar c = true)
    (follows : Follows rest) :
    cut source signed '$' (name ++ rest) = .ok (.term (.var (String.ofList name)), rest) := by
  have ends := follows.head? (p := isNameChar) (b := false) (by decide)
  rw [cut, if_neg (by decide), if_pos (by decide), Text.takeWhile_run chars ends, Text.dropWhile_run chars ends]
  dsimp only
  rw [if_neg (by simpa using some)]

/-- A color or a word behind a number sign is cut off again. -/
theorem cut_hash {name : List Char} (chars : ∀ c ∈ name, isNameChar c = true) (follows : Follows rest) :
    cut source signed '#' (name ++ rest) = .ok (.term ((Color.ofHex? (String.ofList ('#' :: name))).elim
      (.ident (String.ofList ('#' :: name))) .color), rest) := by
  have ends := follows.head? (p := isNameChar) (b := false) (by decide)
  rw [cut, if_neg (by decide), if_neg (by decide), if_pos (by decide), Text.takeWhile_run chars ends,
    Text.dropWhile_run chars ends]
  dsimp only
  cases Color.ofHex? (String.ofList ('#' :: name)) <;> rfl

/-! ## Operators -/

/-- A minus in front of something else may be a sign, or part of a word. -/
theorem cut_op (o : Operator) (minus : o = .minus → Follows rest) :
    cut source signed o.char rest = .ok (.term (.op o), rest) := by
  cases o with
  | minus =>
    have follows := minus rfl
    have noNumber : startsNumber rest = false := by
      have ends := follows.head? (p := fun c => c == '.' || c.isDigit) (b := false) (by decide)
      cases rest with
      | nil => rfl
      | cons c cs =>
        obtain ⟨notPoint, noDigit⟩ := Bool.or_eq_false_iff.1 (ends c rfl)
        rw [startsNumber_of_ne (by simpa using notPoint), noDigit]
    have noWord : continuesHyphen rest = false := by
      have ends := follows.head? (p := fun c => c.isAlpha || c == '-' || c == '_') (b := false) (by decide)
      cases rest with
      | nil => rfl
      | cons c cs => exact ends c rfl
    have noDigit : startsNumber ('-' :: rest) = false := rfl
    show cut source signed '-' rest = _
    simp [cut, noNumber, noWord, noDigit, Operator.ofChar?]
  | plus | star | slash | percent | leftParen | rightParen | comma => rfl

/-! ## Words -/

/-- A word is looked for where one begins. -/
theorem cut_of_beginsWord (begins : BeginsWord c cs) : cut source signed c cs = cutWord source c cs := by
  rcases begins with ⟨rfl, hyphen⟩ | ⟨ascii, -, notQuote, notApostrophe, notDollar, notHash, noNumber, noOperator⟩
  · have noNumber : startsNumber cs = false := by
      cases cs with
      | nil => rfl
      | cons d ds =>
        by_contra number
        rw [Bool.not_eq_false] at number
        by_cases point : d = '.'
        · rw [point] at hyphen
          cases hyphen
        · -- a digit does not go on behind a hyphen
          rw [startsNumber_of_ne point] at number
          have noWord : (d.isAlpha || d == '-' || d == '_') = false := Decimal.of_isDigit number (by decide)
          cases noWord.symm.trans hyphen
    simp [cut, noNumber, hyphen]
  · have notMinus : c ≠ '-' := by
      rintro rfl
      cases noOperator
    simp [cut, notQuote, notApostrophe, notDollar, notHash, notMinus, noNumber, noOperator, ascii]

/-- How a word begins does not depend on what follows it, if that is no digit. -/
theorem BeginsWord.append (begins : BeginsWord c more) (noDigit : ∀ d ∈ rest.head?, d.isDigit = false) :
    BeginsWord c (more ++ rest) := by
  rcases begins with ⟨minus, hyphen⟩ | ⟨ascii, visible, notQuote, notApostrophe, notDollar, notHash, number, operator⟩
  · cases more with
    | nil => cases hyphen
    | cons d ds => exact .inl ⟨minus, hyphen⟩
  · refine .inr ⟨ascii, visible, notQuote, notApostrophe, notDollar, notHash, ?_, operator⟩
    by_cases point : c = '.'
    · subst point
      cases more with
      | nil =>
        cases rest with
        | nil => rfl
        | cons d ds => exact noDigit d rfl
      | cons d ds => exact number
    · rwa [startsNumber_of_ne point] at number ⊢

/-- A word is cut off again. -/
theorem cut_word (word : IsWord c more) (follows : Follows rest) :
    cut source signed c (more ++ rest) = .ok (.term (.ident (String.ofList (c :: more))), rest) := by
  have inside : ∀ d ∈ more, (!endsWord d) = true := fun d hd => by rw [word.goesOn d hd]; rfl
  have ends := follows.head? (p := (!endsWord ·)) (b := false) (by decide)
  have noDigit := follows.head? (p := Char.isDigit) (b := false) (by decide)
  have notOpen := follows.head? (p := (· == '(')) (b := false) (by decide)
  rw [cut_of_beginsWord (word.begins.append noDigit), cutWord, Text.takeWhile_run inside ends,
    Text.dropWhile_run inside ends]
  split
  next => cases notOpen '(' rfl
  next => rfl

/-- A word with closed text in parentheses behind it is a call, or an address. -/
theorem cut_call (word : IsWord c more) (closed : Closed 0 inside) :
    cut source signed c (more ++ '(' :: inside ++ [')'] ++ rest) =
      .ok (if isAddress (c :: more) then .term (.ident (String.ofList (c :: more ++ '(' :: inside ++ [')'])))
        else .call (String.ofList (c :: more)) inside, rest) := by
  have goesOn : ∀ d ∈ more, (!endsWord d) = true := fun d hd => by rw [word.goesOn d hd]; rfl
  have ends : ∀ d ∈ ('(' :: (inside ++ ')' :: rest)).head?, (!endsWord d) = false := by
    rintro _ ⟨⟩
    rfl
  have noDigit : ∀ d ∈ ('(' :: (inside ++ ')' :: rest)).head?, d.isDigit = false := by
    rintro _ ⟨⟩
    rfl
  have parts : more ++ '(' :: inside ++ [')'] ++ rest = more ++ '(' :: (inside ++ ')' :: rest) := by simp
  rw [parts, cut_of_beginsWord (word.begins.append noDigit), cutWord, Text.takeWhile_run goesOn ends,
    Text.dropWhile_run goesOn ends]
  simp only [closed rest]
  exact (apply_ite (fun lexeme => Except.ok (lexeme, rest)) (isAddress (c :: more) = true) _ _).symm

/-! ## Numbers -/

/-- A number with its unit is cut off again, with the value that its digits have. -/
theorem cutNumber_append (n : Numeral) {sign unit : List Char} (text : sign ++ n.unsigned = n.text)
    (chars : ∀ c ∈ unit, isUnitChar c = true) (follows : Follows rest) :
    cutNumber sign (n.unsigned ++ (unit ++ rest)) =
      (.term (.number ⟨n.value, if unit.isEmpty then none else some (String.ofList unit)⟩), rest) := by
  obtain ⟨-, -, -, -, numeral⟩ := n.exists_unsigned_eq
  have endsNumeral : ∀ c ∈ (unit ++ rest).head?, (c.isDigit || c == '.') = false := by
    cases unit with
    | nil => exact follows.head? (by decide)
    | cons d ds =>
      -- units have neither digits nor points in them
      rintro _ ⟨⟩
      have inUnit := chars d (List.mem_cons_self ..)
      have notDigit : d.isDigit ≠ true := fun digit => by
        have : isUnitChar d = false := Decimal.of_isDigit digit (by decide)
        cases this.symm.trans inUnit
      have notPoint : d ≠ '.' := by
        rintro rfl
        cases inUnit
      simp [notDigit, notPoint]
  have endsUnit := follows.head? (p := isUnitChar) (b := false) (by decide)
  unfold cutNumber
  dsimp only
  rw [Text.takeWhile_run numeral endsNumeral, Text.dropWhile_run numeral endsNumeral, text, n.read?_text,
    Text.takeWhile_run chars endsUnit, Text.dropWhile_run chars endsUnit]
  rfl

/-- What a digit is to those who read values. -/
theorem of_isDigit (digit : c.isDigit = true) : (c ≠ '"' ∧ c ≠ '\'' ∧ c ≠ '$' ∧ c ≠ '#' ∧ c ≠ '-') ∧
    isSpace c = false ∧ ∀ cs, startsNumber (c :: cs) = true := by
  obtain ⟨marks, point, visible⟩ : (c ≠ '"' ∧ c ≠ '\'' ∧ c ≠ '$' ∧ c ≠ '#' ∧ c ≠ '-') ∧ c ≠ '.' ∧
      isSpace c = false := Decimal.of_isDigit digit (by decide)
  exact ⟨marks, visible, fun cs => by rw [startsNumber_of_ne point, digit]⟩

/-- A numeral begins with a character that is no blank. -/
theorem exists_numeral_eq (n : Numeral) : ∃ c cs, n.text = c :: cs ∧ isSpace c = false := by
  obtain ⟨c, cs, first, digit, -⟩ := n.exists_unsigned_eq
  rw [n.text_eq, first]
  cases n.negative with
  | false => exact ⟨c, cs, rfl, (of_isDigit digit).2.1⟩
  | true => exact ⟨'-', c :: cs, rfl, rfl⟩

/-- Where a minus may be a sign, a numeral is a number, and the unit behind it is its unit. -/
theorem cut_numeral (n : Numeral) {unit : List Char} (text : n.text = c :: cs)
    (chars : ∀ c ∈ unit, isUnitChar c = true) (follows : Follows rest) : cut source true c (cs ++ (unit ++ rest)) =
      .ok (.term (.number ⟨n.value, if unit.isEmpty then none else some (String.ofList unit)⟩), rest) := by
  obtain ⟨d, ds, first, digit, -⟩ := n.exists_unsigned_eq
  obtain ⟨⟨notQuote, notApostrophe, notDollar, notHash, notMinus⟩, -, number⟩ := of_isDigit digit
  have parts := n.text_eq
  cases negative : n.negative with
  | false =>
    rw [negative, first] at parts
    cases parts.symm.trans text
    have cutNumber := cutNumber_append n (show [] ++ n.unsigned = n.text by rw [text, first]; rfl) chars follows
    rw [first] at cutNumber
    rw [cut, if_neg (by simp [notQuote, notApostrophe]), if_neg (by simpa using notDollar),
      if_neg (by simpa using notHash), if_neg (by simp [notMinus]), if_neg (by simp [notMinus]), if_pos (number _)]
    exact congrArg _ cutNumber
  | true =>
    rw [negative] at parts
    cases parts.symm.trans text
    rw [cut, if_neg (by decide), if_neg (by decide), if_neg (by decide), if_pos (by rw [first]; simp [number])]
    exact congrArg _ (cutNumber_append n text.symm chars follows)

end Lexeme

end Stylesheet
