import Stylesheet.Proofs.Condition.Numbers
import Stylesheet.Proofs.Condition.Quoting
import Stylesheet.Proofs.Outcome

/-! # Words in conditions

A condition is read twice: its normal form puts words into quotes, and its tokens are cut off where a letter begins a
word (**`Condition.IsWord`**). The two do not agree on what a word is. For the normal form it begins with an ASCII
letter or `_`, and of all numerals only decimal digits continue it (**`Condition.isPlain`**); a token begins with a
letter of any script, and any numeral continues it.

So the normal form quotes exactly the plain words whole. The others are left as they are, or cut somewhere, and then
they are no longer the same condition (`normalize_word`). -/

namespace Stylesheet

namespace Text

/-! ## Classes of characters -/

/-- Ranges that do not meet have no code point in common. -/
theorem inRanges_eq_false {rs ss : List (Nat × Nat)}
    (apart : (rs.any fun r => ss.any fun s => s.1.ble r.2 && r.1.ble s.2) = false) {n : Nat}
    (h : inRanges rs n = true) : inRanges ss n = false := by
  obtain ⟨r, hr, inside⟩ := List.any_eq_true.1 h
  refine Bool.eq_false_iff.2 fun both => ?_
  obtain ⟨s, hs, inside'⟩ := List.any_eq_true.1 both
  simp only [Bool.and_eq_true, decide_eq_true_eq] at inside inside'
  refine absurd (List.any_eq_true.2 ⟨r, hr, List.any_eq_true.2 ⟨s, hs, ?_⟩⟩) (Bool.eq_false_iff.1 apart)
  rw [Bool.and_eq_true, Nat.ble_eq, Nat.ble_eq]
  omega

/-- No decimal digit is alphabetic. -/
theorem isAlphabetic_of_isDecimalDigit {c : Char} (h : isDecimalDigit c = true) : isAlphabetic c = false := by
  unfold isDecimalDigit at h
  by_cases ascii : isAscii c = true
  · rw [if_pos ascii] at h
    exact Decimal.of_isDigit h (by decide)
  · rw [if_neg ascii] at h
    have apart : inRanges alphabeticRanges c.toNat = false := inRanges_eq_false (by decide +kernel) h
    rw [isAlphabetic, if_neg ascii, apart]

/-- No blank is a numeral. -/
theorem isNumeric_of_isBlank {c : Char} (h : isBlank c = true) : isNumeric c = false := by
  unfold isNumeric
  by_cases ascii : isAscii c = true
  · rw [if_pos ascii]
    refine Bool.eq_false_iff.2 fun digit => ?_
    rw [(Condition.of_isDigit digit).2.1] at h
    cases h
  · rw [if_neg ascii]
    exact inRanges_eq_false (by decide +kernel) h

end Text

namespace Condition

/-! ## Words -/

/-- A letter or `_`, and behind it letters, numerals, `_` and hyphens. -/
def IsWord : List Char → Prop
  | [] => False
  | c :: cs => startsWord c = true ∧ ∀ d ∈ cs, continuesWord d = true

/-- Whether some characters are a word can be decided. -/
instance : DecidablePred IsWord
  | [] => isFalse id
  -- decided along the list, and not over all characters, of which there are finitely many, too
  | _ :: cs => @instDecidableAnd _ _ inferInstance (List.decidableBAll _ cs)

/-- Whether a word begins with an ASCII letter or `_` and goes on with the characters of names. -/
def isPlain : List Char → Bool
  | [] => false
  | c :: cs => startsBareWord c && cs.all Text.isName

section

variable {c : Char}

/-- No character of a word has a meaning of its own in a condition but the hyphen. -/
theorem ne_of_continuesWord (h : continuesWord c = true) {d : Char} (hd : continuesWord d = false) : c ≠ d := by
  rintro rfl
  rw [h] at hd
  cases hd

/-- What starts a word continues one. -/
theorem continuesWord_of_startsWord (h : startsWord c = true) : continuesWord c = true := by
  unfold startsWord at h
  unfold continuesWord Text.isAlphanumeric
  rcases Bool.or_eq_true_iff.1 h with letter | low
  · rw [letter]
    rfl
  · rw [low]
    simp

/-- All characters of a word continue one. -/
theorem IsWord.continues {w : List Char} (h : IsWord w) : ∀ d ∈ w, continuesWord d = true := by
  cases w with
  | nil => exact h.elim
  | cons c cs => exact List.forall_mem_cons.2 ⟨continuesWord_of_startsWord h.1, h.2⟩

/-- Names have all letters. -/
theorem isName_of_startsWord (h : startsWord c = true) : Text.isName c = true := by
  unfold Text.isName Text.isWord
  rcases Bool.or_eq_true_iff.1 h with letter | low
  · split
    next ascii =>
      rw [Text.isAlphabetic, if_pos ascii] at letter
      rw [Char.isAlphanum, letter]
      rfl
    next =>
      rw [letter]
      rfl
  · rw [beq_iff_eq.1 low]
    rfl

/-- A decimal digit starts no word. -/
theorem isDecimalDigit_of_startsWord (h : startsWord c = true) : Text.isDecimalDigit c = false := by
  refine Bool.eq_false_iff.2 fun digit => ?_
  rcases Bool.or_eq_true_iff.1 h with letter | low
  · rw [Text.isAlphabetic_of_isDecimalDigit digit] at letter
    cases letter
  · rw [beq_iff_eq.1 low] at digit
    cases digit

/-- An ASCII digit starts no word. -/
theorem isDigit_of_startsWord (h : startsWord c = true) : c.isDigit = false :=
  Bool.eq_false_iff.2 fun digit => by
    have decimal := isDecimalDigit_of_startsWord h
    rw [(of_isDigit digit).1] at decimal
    cases decimal

/-- A blank starts no word. -/
theorem isBlank_of_startsWord (h : startsWord c = true) : Text.isBlank c = false :=
  Bool.eq_false_iff.2 fun blank => by
    have name := isName_of_startsWord h
    rw [Text.isName_of_isBlank blank] at name
    cases name

/-- What starts a bare word for the normal form starts a word for the tokens. -/
theorem startsWord_of_startsBareWord (h : startsBareWord c = true) : startsWord c = true := by
  rcases Bool.or_eq_true_iff.1 h with letter | low
  · have ascii : Text.isAscii c = true := Text.isAscii_of_isAlphanum (by rw [Char.isAlphanum, letter]; rfl)
    rw [startsWord, Text.isAlphabetic, if_pos ascii, letter]
    rfl
  · rw [startsWord, low, Bool.or_true]

/-- What continues a word, but no name, is a numeral that no token begins with. -/
theorem of_continuesWord_of_not_isName (h : continuesWord c = true) (noName : Text.isName c = false) :
    startsWord c = false ∧ Text.isDecimalDigit c = false ∧ Text.isBlank c = false ∧ Text.isAscii c = false := by
  unfold continuesWord Text.isAlphanumeric at h
  unfold Text.isName Text.isWord at noName
  simp only [Bool.or_eq_true, or_assoc] at h
  obtain ⟨noWord, noHyphen⟩ := Bool.or_eq_false_iff.1 noName
  have notLow : (c == '_') = false := by
    refine beq_eq_false_iff_ne.2 ?_
    rintro rfl
    cases noWord
  by_cases ascii : Text.isAscii c = true
  · -- ASCII letters and digits continue names, too
    rw [if_pos ascii, Char.isAlphanum, Bool.or_eq_false_iff, Bool.or_eq_false_iff] at noWord
    rw [Text.isAlphabetic, Text.isNumeric, if_pos ascii, if_pos ascii, noWord.1.1, noWord.1.2, notLow, noHyphen] at h
    simp at h
  · rw [if_neg ascii] at noWord
    simp only [Bool.or_eq_false_iff] at noWord
    obtain ⟨⟨⟨noLetter, noDigit⟩, -⟩, -⟩ := noWord
    rw [noLetter, notLow, noHyphen] at h
    have numeral : Text.isNumeric c = true := by simpa using h
    refine ⟨by rw [startsWord, noLetter, notLow]; rfl, noDigit, ?_, Bool.eq_false_iff.2 ascii⟩
    refine Bool.eq_false_iff.2 fun blank => ?_
    rw [Text.isNumeric_of_isBlank blank] at numeral
    cases numeral

end

/-! ## Tokens -/

section

variable {condition : String} {c : Char} {cs rest : List Char}

/-- What may be in a word begins no number and no string. -/
theorem cutToken_of_continuesWord (h : continuesWord c = true) (noDigit : c.isDigit = false) (cs : List Char) :
    cutToken condition c cs =
      if startsWord c then
        .ok (.word (String.ofList (c :: cs.takeWhile continuesWord)), cs.dropWhile continuesWord)
      else
        match Symbol.cut? (c :: cs) with
        | some (s, rest) => .ok (.symbol s, rest)
        | none => .error (.unexpectedCharacter c condition) := by
  have notQuote : (c == '\'' || c == '"') = false := by
    simp [ne_of_continuesWord h (d := '\'') rfl, ne_of_continuesWord h (d := '"') rfl]
  have noNumber : startsNumber (c :: cs) = false := by
    unfold startsNumber
    split
    next point => exact absurd (List.cons.inj point).1 (ne_of_continuesWord h rfl)
    next same => exact (List.cons.inj same).1 ▸ noDigit
    next => rfl
  have cut := cutToken.eq_def condition c cs
  rw [notQuote, if_neg Bool.false_ne_true, noNumber, if_neg Bool.false_ne_true] at cut
  exact cut

/-- A word is cut off as far as it goes. -/
theorem tokensFrom_of_word (starts : startsWord c = true) (word : ∀ d ∈ cs, continuesWord d = true)
    (ends : ∀ d ∈ rest.head?, continuesWord d = false) : tokensFrom condition (c :: cs ++ rest) =
      (tokensFrom condition rest).map (.word (String.ofList (c :: cs)) :: ·) := by
  have trimmed : Text.trimLeft (c :: cs ++ rest) = c :: (cs ++ rest) := by
    rw [Text.trimLeft, List.cons_append, List.dropWhile_cons_of_neg (by simp [isBlank_of_startsWord starts])]
  refine tokensFrom_of_cutToken trimmed ?_
  rw [cutToken_of_continuesWord (continuesWord_of_startsWord starts) (isDigit_of_startsWord starts), if_pos starts,
    Text.takeWhile_run word ends, Text.dropWhile_run word ends]

/-- All symbols are ASCII. -/
theorem Symbol.cut?_of_not_isAscii (foreign : Text.isAscii c = false) (cs : List Char) :
    Symbol.cut? (c :: cs) = none := by
  unfold Symbol.cut?
  split
  all_goals first
    | rfl
    | (rename_i same; cases same; cases foreign)

/-- No token begins with a numeral beyond ASCII. -/
theorem tokensFrom_of_not_isName (h : continuesWord c = true) (noName : Text.isName c = false) (cs : List Char) :
    tokensFrom condition (c :: cs) = .error (.unexpectedCharacter c condition) := by
  obtain ⟨noWord, noDecimal, visible, foreign⟩ := of_continuesWord_of_not_isName h noName
  have noDigit : c.isDigit = false := Bool.eq_false_iff.2 fun digit => by
    rw [(of_isDigit digit).1] at noDecimal
    cases noDecimal
  have trimmed : Text.trimLeft (c :: cs) = c :: cs := by
    rw [Text.trimLeft, List.dropWhile_cons_of_neg (by simp [visible])]
  refine tokensFrom_of_cutToken_error trimmed ?_
  rw [cutToken_of_continuesWord h noDigit, noWord, if_neg Bool.false_ne_true, Symbol.cut?_of_not_isAscii foreign]

/-- A word that is no keyword is a string. -/
theorem evaluate_word {w : String} (word : IsWord w.toList) (free : w.toList ∉ keywords) :
    evaluate w = .ok (.str w) := by
  have read : tokens w = .ok [.word w] := by
    rw [tokens]
    cases chars : w.toList with
    | nil =>
      rw [chars] at word
      exact word.elim
    | cons c cs =>
      rw [chars] at word
      have whole : tokensFrom w (c :: cs ++ []) = _ := tokensFrom_of_word word.1 word.2 (by simp)
      rw [List.append_nil] at whole
      rw [whole, tokensFrom_of_blank rfl, ← chars, String.ofList_toList]
      rfl
  rw [evaluate, read]
  exact (Written.word free).disjunction.evaluateTokens_eq w

end

/-! ## Normal forms -/

section

variable {c : Char} {cs : List Char}

/-- Digits are found as far as they go when no point stands behind them. -/
theorem cutDigits?_of_not_mem {cs : List Char} (noPoint : '.' ∉ cs) (digits : cs.takeWhile Text.isDecimalDigit ≠ []) :
    cutDigits? cs = some (cs.takeWhile Text.isDecimalDigit, cs.dropWhile Text.isDecimalDigit) := by
  unfold cutDigits?
  dsimp only
  split
  next point => exact absurd ((List.dropWhile_sublist _).mem (by rw [point]; exact .head _)) noPoint
  next => rw [List.isEmpty_eq_false_iff.2 digits, if_neg Bool.false_ne_true]

/-- In a word only digits and names are found. -/
theorem cutLiteral?_of_continuesWord (word : ∀ d ∈ c :: cs, continuesWord d = true) : cutLiteral? (c :: cs) =
    if Text.isDecimalDigit c then
      let digits := (c :: cs).takeWhile Text.isDecimalDigit
      let behind := (c :: cs).dropWhile Text.isDecimalDigit
      let number := digits ++ behind.takeWhile isUnitCharacter
      some (if c.isDigit then number else '\'' :: number ++ ['\''], behind.dropWhile isUnitCharacter)
    else if startsBareWord c || (c == '-' && cs.head?.any startsBareWord) then
      some (quoteWord (c :: cs.takeWhile Text.isName), cs.dropWhile Text.isName)
    else none := by
  have ne {d e : Char} (hd : d ∈ c :: cs) (he : continuesWord e = false) : d ≠ e := ne_of_continuesWord (word d hd) he
  have first {e : Char} (he : continuesWord e = false) : (c == e) = false := beq_eq_false_iff_ne.2 (ne (.head _) he)
  have noPoint : '.' ∉ c :: cs := fun point => ne point rfl rfl
  rw [cutLiteral?, first rfl, first rfl, first rfl, first rfl, Bool.or_false, Bool.or_false]
  simp only [Bool.false_eq_true, if_false]
  split
  next digit =>
    have digits : (c :: cs).takeWhile Text.isDecimalDigit ≠ [] := by
      rw [List.takeWhile_cons_of_pos digit]
      exact List.cons_ne_nil _ _
    rw [cutDigits?_of_not_mem noPoint digits]
    rfl
  next => rfl

/-- What a word becomes: it is kept, or `piece` in it is the first part that is put into quotes. -/
inductive Normal (cs : List Char) : List Char → Prop
  | kept : Normal cs cs
  | quoted {front piece rest : List Char} (parts : cs = front ++ (piece ++ rest))
    (first : front = [] → cutLiteral? cs = some ('\'' :: (piece ++ ['\'']), rest)) :
    Normal cs (front ++ '\'' :: (piece ++ '\'' :: Text.replaceMatches cutLiteral? rest))

/-- With more in front that is kept, the first part that is put into quotes stays the same. -/
theorem Normal.behind {text : List Char} (h : Normal cs text) {kept : List Char} (some : kept ≠ []) :
    Normal (kept ++ cs) (kept ++ text) := by
  cases h with
  | kept => exact .kept
  | @quoted front piece rest parts =>
    rw [parts, ← List.append_assoc, ← List.append_assoc kept front]
    exact .quoted rfl fun none => absurd (List.append_eq_nil_iff.1 none).1 some

/-- What is found in a word is some of its characters, as they are or in quotes. -/
theorem normal_of_cutLiteral? (word : ∀ d ∈ c :: cs, continuesWord d = true) {written rest : List Char}
    (cut : cutLiteral? (c :: cs) = some (written, rest))
    (ih : (∀ d ∈ rest, continuesWord d = true) → Normal rest (Text.replaceMatches cutLiteral? rest)) :
    Normal (c :: cs) (written ++ Text.replaceMatches cutLiteral? rest) := by
  have kept {piece : List Char} (parts : piece ++ rest = c :: cs) (some : piece ≠ []) (same : written = piece) :
      Normal (c :: cs) (written ++ Text.replaceMatches cutLiteral? rest) := by
    rw [same, ← parts]
    exact (ih fun d hd => word d (by rw [← parts]; exact List.mem_append_right _ hd)).behind some
  have quoted {piece : List Char} (parts : piece ++ rest = c :: cs) (inQuotes : written = '\'' :: (piece ++ ['\''])) :
      Normal (c :: cs) (written ++ Text.replaceMatches cutLiteral? rest) := by
    have text : written ++ Text.replaceMatches cutLiteral? rest =
        [] ++ '\'' :: (piece ++ '\'' :: Text.replaceMatches cutLiteral? rest) := by simp [inQuotes]
    rw [text]
    exact .quoted parts.symm fun _ => by rw [cut, inQuotes]
  -- in a word only digits with a unit, or a name, are cut off
  rw [cutLiteral?_of_continuesWord word] at cut
  split at cut
  next digit =>
    simp only [Option.some.injEq, Prod.mk.injEq] at cut
    obtain ⟨written', rest'⟩ := cut
    have parts : (c :: cs).takeWhile Text.isDecimalDigit ++
        ((c :: cs).dropWhile Text.isDecimalDigit).takeWhile isUnitCharacter ++ rest = c :: cs := by
      rw [← rest', List.append_assoc, List.takeWhile_append_dropWhile, List.takeWhile_append_dropWhile]
    split at written'
    next => exact kept parts (by rw [List.takeWhile_cons_of_pos digit]; simp) written'.symm
    next => exact quoted parts written'.symm
  next =>
    split at cut
    next =>
      simp only [Option.some.injEq, Prod.mk.injEq] at cut
      obtain ⟨written', rest'⟩ := cut
      have parts : c :: cs.takeWhile Text.isName ++ rest = c :: cs := by
        rw [← rest', List.cons_append, List.takeWhile_append_dropWhile]
      unfold quoteWord at written'
      split at written'
      next => exact kept parts (List.cons_ne_nil _ _) written'.symm
      next => exact quoted parts written'.symm
    next => cases cut

/-- However literals are cut out of the characters of a word, what is written is in normal form. -/
theorem normal_replaceMatches (word : ∀ d ∈ cs, continuesWord d = true) :
    Normal cs (Text.replaceMatches cutLiteral? cs) := by
  fun_induction Text.replaceMatches cutLiteral? cs with
  | case1 => exact .kept
  | case2 c cs written rest cut _ ih => exact normal_of_cutLiteral? word cut ih
  | case3 c cs written rest cut longer ih => exact (ih fun d hd => word d (.tail _ hd)).behind (List.cons_ne_nil c [])
  | case4 c cs cut ih => exact (ih fun d hd => word d (.tail _ hd)).behind (List.cons_ne_nil c [])

end

/-! ## What is left of a word -/

/-- A literal is a truth value. -/
def Truth (r : Literal × List Token) : Prop := ∃ b, r.1 = .bool b

/-- Operators that give truth values go on from one. -/
theorem chainBehind_truth {α : Type} {operand : Level} {operator? : Token → Option α}
    {combine : α → Literal → Literal → Except Fault Literal}
    (combined : ∀ o l r, Gives (fun v => ∃ b, v = .bool b) (combine o l r)) (steps : Nat) {left : Literal} {b : Bool}
    (h : left = .bool b) (ts : List Token) : Gives Truth (chainBehind operand operator? combine steps left ts) := by
  induction steps generalizing left b ts with
  | zero => exact .ok ⟨b, h⟩
  | succ steps ih =>
    cases ts with
    | nil => exact .ok ⟨b, h⟩
    | cons t ts =>
      rw [chainBehind]
      split
      · exact .ok ⟨b, h⟩
      · refine .any_bind ?_
        rintro ⟨right, rest⟩
        refine (combined _ left right).bind ?_
        rintro v ⟨b', hv⟩
        exact ih hv rest

/-- A chain of operands gives a truth when its first one does and so does every combination. -/
theorem chain_truth {α : Type} {operand : Level} {operator? : Token → Option α}
    {combine : α → Literal → Literal → Except Fault Literal}
    (combined : ∀ o l r, Gives (fun v => ∃ b, v = .bool b) (combine o l r)) {ts : List Token}
    (first : Gives Truth (operand ts)) : Gives Truth (chain operand operator? combine ts) := by
  refine first.bind ?_
  rintro ⟨left, rest⟩ ⟨b, h⟩
  exact chainBehind_truth combined rest.length h rest

/-- What is negated is a truth value. -/
theorem expression_not (depth : Nat) (ts : List Token) :
    Gives Truth (expression (depth + 1) (.word "not" :: ts)) := by
  have negated : Gives Truth (negation (expression depth) (.word "not" :: ts)) := by
    have sign : isNot (.word "not") = true := rfl
    show Gives Truth (signed isNot _ _ _)
    rw [signed, sign, if_pos rfl]
    refine .any_bind fun r => ?_
    exact .ok ⟨!r.1.isTruthy, rfl⟩
  have conjoined : Gives Truth (conjunction (expression depth) (.word "not" :: ts)) :=
    chain_truth (fun _ _ _ => .ok ⟨_, rfl⟩) negated
  exact chain_truth (fun _ _ _ => .ok ⟨_, rfl⟩) conjoined

/-- A word and a string behind it are no string. -/
theorem not_evaluateTokens_word (condition w s v : String) (ts : List Token) :
    evaluateTokens condition (.word w :: .str s :: ts) ≠ .ok (.str v) := by
  intro h
  rw [evaluateTokens, List.isEmpty_cons, if_neg Bool.false_ne_true] at h
  -- `not` makes a truth value of the string; behind any other word the string is left over
  by_cases negated : w = "not"
  · rw [negated] at h
    have truth := expression_not (ts.length + 2) (.str s :: ts)
    rw [List.length_cons, List.length_cons] at h
    revert h truth
    rcases expression (ts.length + 2 + 1) (.word "not" :: .str s :: ts) with e | ⟨l, rest⟩
    · intro h
      cases h
    · intro h truth
      obtain ⟨b, truth⟩ := truth _ rfl
      cases rest with
      | nil => cases truth.symm.trans (Except.ok.inj h)
      | cons t rest => cases h
  · have noSign : isNot (.word w) = false := beq_eq_false_iff_ne.2 negated
    have read (depth : Nat) : expression (depth + 1) (.word w :: .str s :: ts) = .ok
        (if w = "true" then .bool true else if w = "false" then .bool false else if w = "null" then .null else .str w,
          .str s :: ts) := by
      show disjunction (expression depth) _ = _
      unfold disjunction conjunction negation
      rw [chain, chain, signed, noSign, if_neg Bool.false_ne_true]
      rfl
    rw [List.length_cons, List.length_cons, read] at h
    cases h

/-! ## Both readings of a word -/

section

variable {c : Char} {cs : List Char}

/-- There is nothing to escape in a word. -/
theorem quote_of_continuesWord (word : ∀ d ∈ cs, continuesWord d = true) :
    Literal.quote cs = '\'' :: (cs ++ ['\'']) := by
  have plain : Literal.escape cs = cs := by
    unfold Literal.escape
    rw [List.flatMap_congr (g := fun d => [d]), List.flatMap_singleton']
    intro d hd
    rw [if_neg]
    simp [ne_of_continuesWord (word d hd) (d := '\\') rfl, ne_of_continuesWord (word d hd) (d := '\'') rfl]
  rw [Literal.quote, plain]
  rfl

/-- At the beginning of a word only a name is found. -/
theorem cutLiteral?_of_startsWord (starts : startsWord c = true) (word : ∀ d ∈ cs, continuesWord d = true) :
    cutLiteral? (c :: cs) = if startsBareWord c then
      some (quoteWord (c :: cs.takeWhile Text.isName), cs.dropWhile Text.isName) else none := by
  have inWord : ∀ d ∈ c :: cs, continuesWord d = true :=
    List.forall_mem_cons.2 ⟨continuesWord_of_startsWord starts, word⟩
  have noHyphen : (c == '-') = false := by
    refine beq_eq_false_iff_ne.2 ?_
    rintro rfl
    cases starts
  rw [cutLiteral?_of_continuesWord inWord, isDecimalDigit_of_startsWord starts, noHyphen]
  simp

/-- A numeral beyond ASCII is kept. -/
theorem replaceMatches_of_not_isName (word : ∀ d ∈ c :: cs, continuesWord d = true) (noName : Text.isName c = false) :
    Text.replaceMatches cutLiteral? (c :: cs) = c :: Text.replaceMatches cutLiteral? cs := by
  obtain ⟨noWord, noDigit, -, -⟩ := of_continuesWord_of_not_isName (word c (.head _)) noName
  have noLetter : startsBareWord c = false := Bool.eq_false_iff.2 fun starts => by
    rw [startsWord_of_startsBareWord starts] at noWord
    cases noWord
  have noHyphen : (c == '-') = false := by
    refine beq_eq_false_iff_ne.2 ?_
    rintro rfl
    cases noName
  refine Text.replaceMatches_of_none ?_
  rw [cutLiteral?_of_continuesWord word, noDigit, noLetter, noHyphen]
  rfl

/-- When a part at the beginning is put into quotes, either it is all of a plain word, or what stands behind it begins
no token. -/
theorem isPlain_or_of_cutLiteral? (starts : startsWord c = true) (word : ∀ d ∈ cs, continuesWord d = true)
    {piece rest : List Char} (parts : c :: cs = piece ++ rest)
    (cut : cutLiteral? (c :: cs) = some ('\'' :: (piece ++ ['\'']), rest)) (condition : String) :
    isPlain (c :: cs) = true ∨ ∃ fault, tokensFrom condition
      ('\'' :: (piece ++ '\'' :: Text.replaceMatches cutLiteral? rest)) = .error fault := by
  have inWord : ∀ d ∈ c :: cs, continuesWord d = true :=
    List.forall_mem_cons.2 ⟨continuesWord_of_startsWord starts, word⟩
  have inPiece : ∀ d ∈ piece, continuesWord d = true := fun d hd => inWord d (by rw [parts]; simp [hd])
  have inRest : ∀ d ∈ rest, continuesWord d = true := fun d hd => inWord d (by rw [parts]; simp [hd])
  rw [cutLiteral?_of_startsWord starts word] at cut
  split at cut
  next bare =>
    have behind : cs.dropWhile Text.isName = rest := congrArg Prod.snd (Option.some.inj cut)
    have ends := List.head?_dropWhile_not Text.isName cs
    rw [behind] at ends
    cases rest with
    | nil =>
      refine .inl ?_
      rw [isPlain, bare, List.all_eq_true.2 (List.dropWhile_eq_nil_iff.1 behind)]
      rfl
    | cons d ds =>
      -- the quotes end in front of a numeral beyond ASCII, and behind them no token begins with it
      have noName : Text.isName d = false := by simpa using ends
      have quoted : '\'' :: (piece ++ '\'' :: d :: Text.replaceMatches cutLiteral? ds) =
          Literal.quote piece ++ d :: Text.replaceMatches cutLiteral? ds := by
        rw [quote_of_continuesWord inPiece]
        simp
      refine .inr ⟨.unexpectedCharacter d condition, ?_⟩
      rw [replaceMatches_of_not_isName inRest noName, quoted, tokensFrom_of_quote rfl,
        tokensFrom_of_not_isName (inRest d (.head _)) noName]
      rfl
  next => cases cut

/-- When a later part is put into quotes, it is a token of its own behind a word. -/
theorem tokensFrom_of_quoted {front piece : List Char} (starts : startsWord c = true)
    (inFront : ∀ d ∈ front, continuesWord d = true) (inPiece : ∀ d ∈ piece, continuesWord d = true)
    (condition : String) (rest : List Char) :
    tokensFrom condition (c :: front ++ '\'' :: (piece ++ '\'' :: rest)) = (tokensFrom condition rest).map
      fun ts => .word (String.ofList (c :: front)) :: .str (String.ofList piece) :: ts := by
  have ends : ∀ d ∈ ('\'' :: (piece ++ '\'' :: rest)).head?, continuesWord d = false := by
    rintro _ ⟨⟩
    rfl
  have quoted : '\'' :: (piece ++ '\'' :: rest) = Literal.quote piece ++ rest := by
    rw [quote_of_continuesWord inPiece]
    simp
  rw [tokensFrom_of_word starts inFront ends, quoted, tokensFrom_of_quote rfl]
  cases tokensFrom condition rest <;> rfl

end

section

variable {w : String} (word : IsWord w.toList)

include word

/-- A plain word is put into quotes whole, unless it is a keyword. -/
theorem normalize_of_isPlain (plain : isPlain w.toList = true) :
    normalize w = String.ofList (quoteWord w.toList) := by
  rw [normalize]
  cases chars : w.toList with
  | nil =>
    rw [chars] at plain
    cases plain
  | cons c cs =>
    rw [chars] at word plain
    obtain ⟨starts, names⟩ := Bool.and_eq_true_iff.1 plain
    have names := List.all_eq_true.1 names
    have cut := cutLiteral?_of_startsWord word.1 word.2
    rw [if_pos starts, List.takeWhile_eq_self_iff.2 names, List.dropWhile_eq_nil_iff.2 names] at cut
    rw [Text.replaceMatches_of_some cut (Nat.zero_le _), Text.replaceMatches_nil, List.append_nil]

/-- No other word means itself when part of it is put into quotes. -/
theorem isPlain_or_of_evaluate (same : evaluate (normalize w) = .ok (.str w)) :
    isPlain w.toList = true ∨ normalize w = w := by
  have text : (normalize w).toList = Text.replaceMatches cutLiteral? w.toList := String.toList_ofList
  obtain ⟨ts, read, value⟩ := Outcome.bind_eq_ok_iff.1 same
  rw [tokens] at read
  generalize normalize w = condition at *
  cases chars : w.toList with
  | nil =>
    rw [chars] at word
    exact word.elim
  | cons c cs =>
    rw [chars] at word text
    obtain ⟨starts, word⟩ := word
    have inWord : ∀ d ∈ c :: cs, continuesWord d = true :=
      List.forall_mem_cons.2 ⟨continuesWord_of_startsWord starts, word⟩
    have normal := normal_replaceMatches inWord
    rw [← text] at normal
    generalize written : condition.toList = cs' at normal read
    cases normal with
    | kept => exact .inr (String.toList_inj.1 (written.trans chars.symm))
    | @quoted front piece rest parts first =>
      cases front with
      | nil =>
        -- the quotes begin in front of the word
        have whole : c :: cs = piece ++ rest := parts
        refine .inl ((isPlain_or_of_cutLiteral? starts word whole (first rfl) condition).resolve_right ?_)
        rintro ⟨fault, fails⟩
        cases read.symm.trans fails
      | cons d front =>
        -- a word is left in front of the quotes, and an operator would have to follow it
        obtain ⟨rfl, behind⟩ : c = d ∧ cs = front ++ (piece ++ rest) := List.cons.inj parts
        have inParts : ∀ d ∈ front ++ (piece ++ rest), continuesWord d = true := behind ▸ word
        rw [tokensFrom_of_quoted starts (fun d hd => inParts d (by simp [hd])) fun d hd => inParts d (by simp [hd])]
          at read
        obtain ⟨ts', -, rfl⟩ := Outcome.map_eq_ok_iff.1 read
        exact (not_evaluateTokens_word _ _ _ _ _ value).elim

end

/-- **Plain words are quoted whole, and only they are.** A word that is no keyword is a string. It is put into quotes as
a whole exactly if it is plain, and what becomes of it is still that string exactly if it is plain or if nothing of it
is put into quotes. The keywords stay as they are. -/
theorem normalize_word (w : String) :
    (IsWord w.toList → w.toList ∉ keywords →
      evaluate w = .ok (.str w) ∧
      (normalize w = "'" ++ w ++ "'" ↔ isPlain w.toList = true) ∧
      (evaluate (normalize w) = .ok (.str w) ↔ isPlain w.toList = true ∨ normalize w = w)) ∧
    (w.toList ∈ keywords → normalize w = w) := by
  refine ⟨fun word free => ?_, fun keyword => ?_⟩
  · have itself := evaluate_word word free
    have quoted (plain : isPlain w.toList = true) : (normalize w).toList = '\'' :: (w.toList ++ ['\'']) := by
      rw [normalize_of_isPlain word plain, quoteWord, if_neg (by simpa using free), String.toList_ofList]
      rfl
    have inQuotes : normalize w = "'" ++ w ++ "'" ↔ (normalize w).toList = '\'' :: (w.toList ++ ['\'']) := by
      rw [← String.toList_inj]
      simp [String.toList_append]
    have string (h : (normalize w).toList = '\'' :: (w.toList ++ ['\''])) : evaluate (normalize w) = .ok (.str w) := by
      have literal : (normalize w).toList = Literal.quote w.toList := by
        rw [h, quote_of_continuesWord word.continues]
      rw [evaluate_quote literal, String.ofList_toList]
    refine ⟨itself, inQuotes.trans ⟨fun h => ?_, quoted⟩, ⟨isPlain_or_of_evaluate word, ?_⟩⟩
    · refine (isPlain_or_of_evaluate word (string h)).resolve_right fun kept => ?_
      have length := congrArg List.length h
      rw [kept, List.length_cons, List.length_append] at length
      omega
    · rintro (plain | kept)
      · exact string (quoted plain)
      · rw [kept, itself]
  · have all : ∀ k ∈ keywords, IsWord k ∧ isPlain k = true := by decide
    obtain ⟨word, plain⟩ := all _ keyword
    rw [normalize_of_isPlain word plain, quoteWord, if_pos (by simpa using keyword), String.ofList_toList]

/-- A word with letters of other scripts, and a hyphen, a digit and a low line. -/
theorem normalize_word_foreign :
    IsWord "x-ÿ_2".toList ∧ "x-ÿ_2".toList ∉ keywords ∧ normalize "x-ÿ_2" = "'x-ÿ_2'" ∧
      evaluate (normalize "x-ÿ_2") = .ok (.str "x-ÿ_2") := by
  have word : IsWord "x-ÿ_2".toList := by decide +kernel
  have free : "x-ÿ_2".toList ∉ keywords := by decide
  have plain : isPlain "x-ÿ_2".toList = true := by decide +kernel
  obtain ⟨-, quoted, same⟩ := (normalize_word "x-ÿ_2").1 word free
  exact ⟨word, free, quoted.2 plain, same.2 (.inl plain)⟩

/-- A letter of another script in front is left outside of the quotes, and what is left is no word any more. -/
theorem normalize_splits_word :
    IsWord "élan".toList ∧ "élan".toList ∉ keywords ∧ evaluate "élan" = .ok (.str "élan") ∧
      normalize "élan" = "é'lan'" ∧
      evaluate (normalize "élan") = .error (.leftover (Token.str "lan").shown "é'lan'") := by
  have word : IsWord "élan".toList := by decide +kernel
  have free : "élan".toList ∉ keywords := by decide
  have normal : normalize "élan" = "é'lan'" := by decide +kernel
  refine ⟨word, free, evaluate_word word free, normal, ?_⟩
  have read : tokens "é'lan'" = .ok [.word "é", .str "lan"] := by
    have quoted : tokensFrom "é'lan'" ('é' :: [] ++ '\'' :: (['l', 'a', 'n'] ++ '\'' :: [])) = _ :=
      tokensFrom_of_quoted (by decide +kernel) (by simp) (List.all_eq_true.1 (by decide +kernel)) _ []
    have ends : tokensFrom "é'lan'" [] = .ok [] := tokensFrom_of_blank rfl
    rw [ends] at quoted
    exact quoted
  rw [normal, evaluate, read]
  rfl

end Condition

end Stylesheet
