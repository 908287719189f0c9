import Stylesheet.Proofs.Value.Scanner

/-! # Bytes and characters agree

Cutting a lexeme off the bytes of a text has the same outcome as cutting it off its characters (**`Scanner.Tracks`**):
the same lexeme, with the place where the characters that are left begin, or the same fault. This holds in front of
every ASCII character (`Scanner.cut_tracks`), and all slices that are taken on the way are between characters. In front
of any other character the name of a word would begin inside of it, and there is no such slice
(`Scanner.cut_of_not_isAscii`). -/

namespace Stylesheet

namespace Scanner

open Text

variable {p : UInt8 → Bool} {q : Char → Bool} {front cs : List Char} {c : Char}

/-- Cutting bytes and cutting characters behind `front` have the same outcome: the same lexeme, and the place where the
rest begins, or the same fault. No lexeme ends with a blank. -/
inductive Tracks (front cs : List Char) : Except Stop (Lexeme × Nat) → Except Error (Lexeme × List Char) → Prop
  | found {l : Lexeme} {place : Nat} {rest : List Char} (text : List Char) (parts : cs = text ++ rest)
    (behind : place = size front + size text) (visible : ∃ d, text.getLast? = some d ∧ Lexeme.isSpace d = false) :
    Tracks front cs (.ok (l, place)) (.ok (l, rest))
  | fault {e : Error} (known : ∀ source, e ≠ .foreignWord source) : Tracks front cs (.error (.fault e)) (.error e)

/-- A text without blanks does not end with one. -/
theorem exists_visible_getLast? {text : List Char} (filled : text ≠ [])
    (visible : ∀ d ∈ text, Lexeme.isSpace d = false) :
    ∃ d, text.getLast? = some d ∧ Lexeme.isSpace d = false :=
  ⟨text.getLast filled, List.getLast?_eq_some_getLast filled, visible _ (List.getLast_mem filled)⟩

/-- A lexeme that goes on as long as there are characters of a class. -/
theorem Tracks.run {l : Lexeme} (first : Lexeme.isSpace c = false)
    (others : ∀ d, q d = true → Lexeme.isSpace d = false) :
    Tracks front (c :: cs) (.ok (l, size front + size (c :: cs.takeWhile q))) (.ok (l, cs.dropWhile q)) := by
  refine .found (c :: cs.takeWhile q) (by rw [List.cons_append, List.takeWhile_append_dropWhile]) rfl
    (exists_visible_getLast? (by simp) fun d hd => ?_)
  rcases List.mem_cons.1 hd with rfl | hd
  · exact first
  · exact others d (List.mem_takeWhile_imp hd)

/-- Characters of a class without blanks. -/
theorem isSpace_of {d : Char} (none : q ' ' = false ∧ q '\n' = false ∧ q '\t' = false ∧ q '\r' = false)
    (h : q d = true) : Lexeme.isSpace d = false := by
  by_contra space
  simp only [Lexeme.isSpace, Bool.not_eq_false, Bool.or_eq_true, beq_iff_eq, or_assoc] at space
  rcases space with rfl | rfl | rfl | rfl <;> simp_all

/-- Cutting off a variable has the same outcome on bytes and on characters. -/
theorem cutVariable_tracks (front cs : List Char) :
    Tracks front ('$' :: cs) (cutVariable (front ++ '$' :: cs) (size front))
      (if (cs.takeWhile Lexeme.isNameChar).isEmpty then
        .error (.missingVariableName (String.ofList (front ++ '$' :: cs)))
      else .ok (.term (.var (String.ofList (cs.takeWhile Lexeme.isNameChar))), cs.dropWhile Lexeme.isNameChar)) := by
  unfold cutVariable
  rw [scan_behind agree_isNameByte rfl]
  show Tracks front ('$' :: cs) (if (cs.takeWhile Lexeme.isNameChar).isEmpty then _ else _) _
  split
  · exact .fault nofun
  · exact .run rfl fun d => isSpace_of (by decide)

/-- Cutting off a color, or a word behind a number sign, has the same outcome on bytes and on characters. -/
theorem cutHash_tracks (front cs : List Char) :
    Tracks front ('#' :: cs) (cutHash (front ++ '#' :: cs) (size front))
      (.ok (.term (match Color.ofHex? (String.ofList ('#' :: cs.takeWhile Lexeme.isNameChar)) with
        | some color => .color color
        | none => .ident (String.ofList ('#' :: cs.takeWhile Lexeme.isNameChar))),
        cs.dropWhile Lexeme.isNameChar)) := by
  have word := slice_append front ('#' :: cs.takeWhile Lexeme.isNameChar) (cs.dropWhile Lexeme.isNameChar)
  rw [List.append_assoc, List.cons_append, List.takeWhile_append_dropWhile] at word
  unfold cutHash
  rw [scan_behind agree_isNameByte rfl]
  simp only [bind, Except.bind, word]
  exact .run rfl fun d => isSpace_of (by decide)

/-- Cutting off a string has the same outcome on bytes and on characters, with either quotation mark. -/
theorem cutString_tracks (quote : c = '"' ∨ c = '\'') (front cs : List Char) :
    Tracks front (c :: cs) (cutString (front ++ c :: cs) (size front) (byte c))
      (match cs.dropWhile (· != c) with
        | [] => .error (.unterminatedString (String.ofList (front ++ c :: cs)))
        | _ :: rest => .ok (.term (.str (String.ofList (cs.takeWhile (· != c)))), rest)) := by
  have ascii : isAscii c = true := by rcases quote with rfl | rfl <;> rfl
  have visible : Lexeme.isSpace c = false := by rcases quote with rfl | rfl <;> rfl
  obtain ⟨text, place⟩ := append_concat ascii front cs
  have stop := endOf_append (.ne ascii) (front ++ [c]) cs
  have parts : cs.takeWhile (· != c) ++ cs.dropWhile (· != c) = cs := List.takeWhile_append_dropWhile
  rw [← text, ← place] at stop
  unfold cutString
  dsimp only
  rw [stop]
  have total : size (front ++ c :: cs) = size front + 1 + size cs := by rw [text, place, size_append]
  have last := List.head?_dropWhile_not (· != c) cs
  generalize cs.takeWhile (· != c) = inside at parts ⊢
  cases found : cs.dropWhile (· != c) with
  | nil =>
    -- the search has come to the end
    rw [found, List.append_nil] at parts
    rw [parts, total, if_neg (Nat.lt_irrefl _)]
    exact .fault nofun
  | cons d rest =>
    rw [found] at parts last
    have end' : d = c := by simpa using last
    subst end'
    have whole := slice_append (front ++ [d]) inside (d :: rest)
    rw [List.append_assoc _ inside, parts, ← text, ← place] at whole
    have more : size front + 1 + size inside < size (front ++ d :: cs) := by
      have some := d.utf8Size_pos
      rw [total, ← parts, size_append, size_cons]
      omega
    rw [if_pos more, whole]
    have all : d :: cs = d :: inside ++ [d] ++ rest := by simp [← parts]
    refine .found (d :: inside ++ [d]) all ?_ ⟨d, List.getLast?_concat, visible⟩
    rw [size_append, size_cons, size_cons, size_nil, utf8Size_of_isAscii ascii]
    omega

/-- A number begins with a digit or a point. -/
theorem exists_of_startsNumber (h : Lexeme.startsNumber cs = true) :
    ∃ c more, cs = c :: more ∧ isNumeralChar c = true := by
  cases cs with
  | nil => cases h
  | cons c more =>
    refine ⟨c, more, rfl, ?_⟩
    by_cases point : c = '.'
    · rw [point]
      rfl
    · rw [isNumeralChar, ← Lexeme.startsNumber_of_ne point more, h, Bool.true_or]

/-- A number is its digits, with the unit behind them. -/
theorem cutNumber_eq (sign cs : List Char) : Lexeme.cutNumber sign cs =
    let behind := cs.dropWhile isNumeralChar
    let unit := behind.takeWhile Lexeme.isUnitChar
    (.term (.number ⟨(Decimal.read? (sign ++ cs.takeWhile isNumeralChar)).getD 0.0,
      if unit.isEmpty then none else some (String.ofList unit)⟩), behind.dropWhile Lexeme.isUnitChar) := rfl

/-- A number, with a minus or without. -/
theorem cutNumber_tracks (sign : List Char) (signed : sign = ['-'] ∨ sign = [] ∧ Lexeme.startsNumber cs = true)
    (front : List Char) : Tracks front (sign ++ cs) (cutNumber (front ++ (sign ++ cs)) (size front))
      (.ok (Lexeme.cutNumber sign cs)) := by
  -- the digits begin behind the sign
  have start : (if (byteAt (front ++ (sign ++ cs)) (size front)).any (· == byte '-') then size front + 1
      else size front) = size (front ++ sign) := by
    rw [any_byteAt (.single rfl)]
    rcases signed with rfl | ⟨rfl, begins⟩
    · exact (append_concat rfl front []).2
    · obtain ⟨c, more, rfl, numeral⟩ := exists_of_startsNumber begins
      have noSign : (c == '-') = false := beq_eq_false_iff_ne.2 fun minus => by
        subst minus
        cases numeral
      rw [List.nil_append, List.head?_cons, Option.any_some, noSign, if_neg Bool.false_ne_true, List.append_nil]
  have filled : sign ++ cs.takeWhile isNumeralChar ≠ [] := by
    rcases signed with rfl | ⟨rfl, begins⟩
    · simp
    · obtain ⟨c, more, rfl, numeral⟩ := exists_of_startsNumber begins
      rw [List.takeWhile_cons_of_pos numeral]
      simp
  have visible : ∀ d ∈ sign ++ cs.takeWhile isNumeralChar, Lexeme.isSpace d = false := by
    refine List.forall_mem_append.2 ⟨?_, fun d hd => isSpace_of (by decide) (List.mem_takeWhile_imp hd)⟩
    rcases signed with rfl | ⟨rfl, -⟩
    · exact List.forall_mem_singleton.2 rfl
    · exact List.forall_mem_nil _
  have digits := scan_append agree_isNumeral (front ++ sign) cs
  rw [List.append_assoc] at digits
  have parts : cs.takeWhile isNumeralChar ++ cs.dropWhile isNumeralChar = cs := List.takeWhile_append_dropWhile
  rw [cutNumber_eq]
  unfold cutNumber
  rw [start]
  dsimp only
  rw [digits]
  generalize cs.takeWhile isNumeralChar = point at *
  generalize cs.dropWhile isNumeralChar = behind at *
  subst parts
  have place : size (front ++ sign) + size point = size front + size (sign ++ point) := by
    rw [size_append, size_append, Nat.add_assoc]
  have numeral := slice_append front (sign ++ point) behind
  have unit := scan_append agree_isUnitByte (front ++ (sign ++ point)) behind
  rw [size_append] at unit
  rw [List.append_assoc, List.append_assoc] at numeral unit
  simp only [bind, Except.bind, place, numeral, unit]
  have rest : behind.takeWhile Lexeme.isUnitChar ++ behind.dropWhile Lexeme.isUnitChar = behind :=
    List.takeWhile_append_dropWhile
  refine .found (sign ++ point ++ behind.takeWhile Lexeme.isUnitChar) (by simp [rest]) ?_ ?_
  · rw [size_append _ (behind.takeWhile _), Nat.add_assoc]
  · refine exists_visible_getLast? (List.append_ne_nil_of_left_ne_nil filled _) ?_
    refine List.forall_mem_append.2 ⟨visible, fun d hd => ?_⟩
    exact isSpace_of (by decide) (List.mem_takeWhile_imp hd)

/-- A call is closed where its characters say so. -/
theorem matchingParen_drop (front behind : List Char) :
    matchingParen 0 none ((bytes (front ++ '(' :: behind)).drop (size front)) =
      (Lexeme.untilClosed 0 none behind).map fun (inside, _) => size inside + 2 := by
  rw [drop_bytes, bytes_cons, utf8EncodeChar_of_isAscii rfl, List.singleton_append]
  have opened : matchingParen 0 none (byte '(' :: bytes behind) =
      (matchingParen ((0 : Nat) + 1) (Option.map byte none) (bytes behind)).map (· + 1) := rfl
  rw [opened, matchingParen_bytes 0 none isAscii_of_mem_none, Option.map_map]
  rfl

/-- A word with a parenthesis right behind it is a call. -/
theorem cutWord_of_open {source : String} {behind : List Char}
    (opens : cs.dropWhile (!Lexeme.endsWord ·) = '(' :: behind) : Lexeme.cutWord source c cs =
      match Lexeme.untilClosed 0 none behind with
      | none => .error (.unclosedCall source)
      | some (inside, rest) =>
        let name := c :: cs.takeWhile (!Lexeme.endsWord ·)
        if name.map Char.toLower == ['u', 'r', 'l'] then
          .ok (.term (.ident (String.ofList (name ++ '(' :: inside ++ [')']))), rest)
        else .ok (.call (String.ofList name) inside, rest) := by
  unfold Lexeme.cutWord
  rw [opens]
  rfl

/-- A word without one is an identifier. -/
theorem cutWord_of_not_open {source : String}
    (closed : (cs.dropWhile (!Lexeme.endsWord ·)).head?.any (· == '(') = false) :
    Lexeme.cutWord source c cs = .ok (.term (.ident (String.ofList (c :: cs.takeWhile (!Lexeme.endsWord ·)))),
      cs.dropWhile (!Lexeme.endsWord ·)) := by
  unfold Lexeme.cutWord
  dsimp only
  split
  next opens =>
    rw [opens] at closed
    cases closed
  next => rfl

/-- A word, with parameters or without. -/
theorem cutWord_tracks (ascii : isAscii c = true) (visible : Lexeme.isSpace c = false) (front cs : List Char) :
    Tracks front (c :: cs) (cutWord (front ++ c :: cs) (size front))
      (Lexeme.cutWord (String.ofList (front ++ c :: cs)) c cs) := by
  have parts : front ++ c :: cs.takeWhile (!Lexeme.endsWord ·) ++ cs.dropWhile (!Lexeme.endsWord ·) =
      front ++ c :: cs := by
    rw [List.append_assoc, List.cons_append, List.takeWhile_append_dropWhile]
  have name := slice_append front (c :: cs.takeWhile (!Lexeme.endsWord ·)) (cs.dropWhile (!Lexeme.endsWord ·))
  have next := any_byteAt (.single (d := '(') rfl) (front ++ c :: cs.takeWhile (!Lexeme.endsWord ·))
    (cs.dropWhile (!Lexeme.endsWord ·))
  rw [parts] at name next
  rw [size_append] at next
  unfold cutWord
  rw [scan_behind agree_endsWord.not ascii]
  simp only [bind, Except.bind, name, next]
  cases opens : (cs.dropWhile (!Lexeme.endsWord ·)).head?.any (· == '(') with
  | false =>
    rw [cutWord_of_not_open opens, if_neg Bool.false_ne_true]
    exact .run visible fun d => isSpace_of (q := (!Lexeme.endsWord ·)) (by decide)
  | true =>
    obtain ⟨d, first, isOpen⟩ := Option.any_eq_true .. |>.1 opens
    obtain ⟨behind, found⟩ := List.head?_eq_some_iff.1 first
    obtain rfl := beq_iff_eq.1 isOpen
    rw [cutWord_of_open found, if_pos rfl]
    rw [found] at parts
    generalize cs.takeWhile (!Lexeme.endsWord ·) = more at parts ⊢
    have closes := matchingParen_drop (front ++ c :: more) behind
    rw [parts, size_append] at closes
    rw [closes]
    cases search : Lexeme.untilClosed 0 none behind with
    | none => exact .fault nofun
    | some found =>
      obtain ⟨inside, rest⟩ := found
      obtain ⟨rfl, -⟩ := Lexeme.untilClosed_append search
      have place : size (front ++ c :: more ++ ['(']) = size front + size (c :: more) + 1 := by
        rw [← size_append, (append_concat (c := '(') rfl (front ++ c :: more) []).2]
      -- the parameters are the slice between the parentheses
      have inner := slice_append (front ++ c :: more ++ ['(']) inside (')' :: rest)
      have whole : front ++ c :: more ++ ['('] ++ inside ++ ')' :: rest = front ++ c :: cs := by simp [← parts]
      rw [whole, place] at inner
      have stop : size front + size (c :: more) + (size inside + 2) - 1 =
          size front + size (c :: more) + 1 + size inside := by omega
      have text : c :: cs = c :: more ++ '(' :: inside ++ [')'] ++ rest :=
        List.append_cancel_left (parts.symm.trans (by simp))
      have behind : size front + size (c :: more) + (size inside + 2) =
          size front + size (c :: more ++ '(' :: inside ++ [')']) := by
        rw [size_append, size_append, size_cons '(', size_cons ')', utf8Size_of_isAscii (c := '(') rfl,
          utf8Size_of_isAscii (c := ')') rfl, size_nil]
        omega
      dsimp only [Option.map_some]
      rw [stop, inner]
      dsimp only
      split <;> exact .found _ text behind ⟨')', List.getLast?_concat, rfl⟩

/-- The byte of an ASCII character is read as this character. -/
theorem ofUInt8_byte (ascii : isAscii c = true) : Char.ofUInt8 (byte c) = c := by
  rw [← Char.toNat_inj]
  exact toNat_byte ascii

/-- **In front of an ASCII character, cutting bytes and cutting characters agree.** -/
theorem cut_tracks (ascii : isAscii c = true) (visible : Lexeme.isSpace c = false) (wanted : Bool)
    (front cs : List Char) : Tracks front (c :: cs) (cut (front ++ c :: cs) (size front) wanted (byte c))
      (Lexeme.cut (String.ofList (front ++ c :: cs)) (wanted || front.getLast?.any Lexeme.isSpace) c cs) := by
  have same {d : Char} (hd : isAscii d = true) : (byte c == byte d) = (c == d) := (Agree.single hd).apply_byte ascii
  have numberBehind : startsNumber (front ++ c :: cs) (size front + 1) = Lexeme.startsNumber cs := by
    obtain ⟨text, place⟩ := append_concat ascii front cs
    rw [text, place, startsNumber_append]
  have hyphen : (byteAt (front ++ c :: cs) (size front + 1)).any continuesHyphen = Lexeme.continuesHyphen cs := by
    rw [any_byteAt_behind agree_continuesHyphen ascii]
    cases cs <;> rfl
  -- both look at the same first character, so they take the same case
  unfold cut Lexeme.cut
  dsimp only
  rw [agree_isQuote.apply_byte ascii, same rfl, same rfl, same rfl, numberBehind, hyphen, startsNumber_append,
    any_byteAt_before agree_isSpace, ofUInt8_byte ascii, ascii]
  by_cases quote : (c == '"' || c == '\'') = true
  · rw [if_pos quote, if_pos quote]
    exact cutString_tracks (by simpa using quote) front cs
  rw [if_neg quote, if_neg quote]
  by_cases dollar : (c == '$') = true
  · rw [if_pos dollar, if_pos dollar]
    obtain rfl := beq_iff_eq.1 dollar
    exact cutVariable_tracks front cs
  rw [if_neg dollar, if_neg dollar]
  by_cases hash : (c == '#') = true
  · rw [if_pos hash, if_pos hash]
    obtain rfl := beq_iff_eq.1 hash
    exact cutHash_tracks front cs
  rw [if_neg hash, if_neg hash]
  split
  next sign =>
    simp only [Bool.and_eq_true, beq_iff_eq] at sign
    obtain ⟨⟨rfl, -⟩, -⟩ := sign
    exact cutNumber_tracks ['-'] (.inl rfl) front
  split
  next => exact cutWord_tracks ascii visible front cs
  split
  next number => exact cutNumber_tracks [] (.inr ⟨rfl, number⟩) front
  cases operator : Operator.ofChar? c with
  | some o =>
    refine .found [c] rfl ?_ ⟨c, rfl, visible⟩
    rw [size_cons, size_nil, utf8Size_of_isAscii ascii]
  | none => exact cutWord_tracks ascii visible front cs

/-! Other characters than ASCII begin neither numbers nor words. -/

/-- No number starts with a character that is not ASCII. -/
theorem startsNumber_of_not_isAscii (foreign : isAscii c = false) (cs : List Char) :
    Lexeme.startsNumber (c :: cs) = false := by
  have notPoint : c ≠ '.' := by
    rintro rfl
    cases foreign
  rw [Lexeme.startsNumber_of_ne notPoint, Char.isDigit, Bool.and_eq_false_iff]
  refine .inr (decide_eq_false fun low => ?_)
  have few : c.toNat < 128 := Nat.lt_of_le_of_lt (UInt32.le_iff_toNat_le.1 low) (by decide)
  rw [isAscii, decide_eq_true few] at foreign
  cases foreign

/-- Where a character that is not ASCII comes next, a word is cut off, and it is refused. -/
theorem lexemeCut_of_not_isAscii (foreign : isAscii c = false) (source : String) (signed : Bool) (cs : List Char) :
    Lexeme.cut source signed c cs = .error (.foreignWord source) := by
  have ne {d : Char} (hd : isAscii d = true) : (c == d) = false := beq_eq_false_of_isAscii foreign hd
  have noOperator : Operator.ofChar? c = none := by
    cases found : Operator.ofChar? c with
    | none => rfl
    | some o =>
      rw [Operator.char_of_ofChar? found] at foreign
      cases o <;> cases foreign
  unfold Lexeme.cut
  rw [ne rfl, ne rfl, ne rfl, ne rfl, ne rfl, startsNumber_of_not_isAscii foreign, noOperator, foreign]
  rfl

/-- **In front of any other character** the name of a word would begin inside of it. -/
theorem cut_of_not_isAscii (foreign : isAscii c = false) (front cs : List Char) (wanted : Bool) {b : UInt8}
    (first : (String.utf8EncodeChar c).head? = some b) :
    cut (front ++ c :: cs) (size front) wanted b =
      .error (.slice (front ++ c :: cs) (size front + 1)
        (endOf (!endsWord ·) (front ++ c :: cs) (size front + 1))) := by
  have mem : b ∈ String.utf8EncodeChar c := List.mem_of_mem_head? first
  have high : 0x80 ≤ b := le_of_mem_utf8EncodeChar foreign b mem
  have ne {d : Char} (hd : isAscii d = true) : (b == byte d) = false := beq_byte_eq_false high hd
  have noNumber : startsNumber (front ++ c :: cs) (size front) = false := by
    rw [startsNumber_append, startsNumber_of_not_isAscii foreign]
  have noOperator : Operator.ofChar? (Char.ofUInt8 b) = none := by
    cases found : Operator.ofChar? (Char.ofUInt8 b) with
    | none => rfl
    | some o =>
      have value : b.toNat = o.char.toNat := congrArg Char.toNat (Operator.char_of_ofChar? found)
      have few : o.char.toNat < 128 := by cases o <;> decide
      exact absurd high (UInt8.not_le.2 (UInt8.lt_iff_toNat_lt.2 (value ▸ few)))
  unfold cut isQuote
  rw [ne rfl, ne rfl, ne rfl, ne rfl, ne rfl, noNumber, noOperator]
  show cutWord (front ++ c :: cs) (size front) = _
  -- the scan for the end of the name goes on behind the first byte
  have inside : size front < size front + 1 ∧ size front + 1 < size front + c.utf8Size :=
    ⟨Nat.lt_succ_self _, Nat.add_lt_add_left (one_lt_utf8Size foreign) _⟩
  unfold cutWord scan slice
  rw [slice?_eq_none_of_inside inside]
  rfl

end Scanner

end Stylesheet
