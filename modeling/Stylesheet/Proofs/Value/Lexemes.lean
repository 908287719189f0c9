import Mathlib.Data.List.TakeWhile
import Stylesheet.Proofs.Outcome
import Stylesheet.Proofs.Value.Parentheses

/-! # Terms as they are read

Not every term can come out of a text: a list never does, a color has a spelling, and a name has only characters
that do not end it. A term that can is **`Lexical`**. Every lexeme is cut off as such a term, or as a call of a word
(`cut_sound`), so values consist of lexical terms (`Value.lexical_of_readFrom`).

The parentheses in a value that stands between parentheses are balanced. They are followed from term to term
(**`Term.depthAfter`**) as the search for the closing one goes through the text. -/

namespace Stylesheet

/-- Only its character is read as an operator. -/
theorem Operator.char_of_ofChar? {c : Char} {o : Operator} (h : ofChar? c = some o) : c = o.char := by
  unfold ofChar? at h
  split at h <;> cases h <;> rfl

namespace Lexeme

/-! ## Words -/

/-- Whether a word begins with `c` in front of `more`. -/
def BeginsWord (c : Char) (more : List Char) : Prop :=
  (c = '-' ∧ continuesHyphen more = true) ∨
    (Text.isAscii c = true ∧ isSpace c = false ∧ c ≠ '"' ∧ c ≠ '\'' ∧ c ≠ '$' ∧ c ≠ '#' ∧
      startsNumber (c :: more) = false ∧ Operator.ofChar? c = none)

/-- Whether `c` and `more` are a word. -/
structure IsWord (c : Char) (more : List Char) : Prop where
  begins : BeginsWord c more
  goesOn : ∀ d ∈ more, endsWord d = false

/-- Whether a word says that an address stands in the parentheses behind it. -/
def isAddress (name : List Char) : Bool := name.map Char.toLower == ['u', 'r', 'l']

end Lexeme

open Lexeme

/-! ## Terms -/

/-- How many parentheses are open behind a term, if that many are open in front of it. -/
def Term.depthAfter (d : Nat) : Term → Option Nat
  | .op .leftParen => some (d + 1)
  | .op .rightParen =>
    match d with
    | 0 => none
    | d + 1 => some d
  | _ => some d

/-- How many parentheses are open behind a chain. -/
def Value.depthAfter (d : Nat) (v : Value) : Option Nat := v.foldlM Term.depthAfter d

/-- Terms that a text can be read as. -/
inductive Lexical : Term → Prop
  | number (n : Number) (unit : ∀ u, n.unit = some u → u ≠ "" ∧ ∀ c ∈ u.toList, isUnitChar c = true) :
    Lexical (.number n)
  | color {name : List Char} {color : Color} (chars : ∀ c ∈ name, isNameChar c = true)
    (spelt : Color.ofHex? (String.ofList ('#' :: name)) = some color) : Lexical (.color color)
  | hash {name : List Char} (chars : ∀ c ∈ name, isNameChar c = true)
    (noColor : Color.ofHex? (String.ofList ('#' :: name)) = none) : Lexical (.ident (String.ofList ('#' :: name)))
  | word {c : Char} {more : List Char} (word : IsWord c more) : Lexical (.ident (String.ofList (c :: more)))
  | address {c : Char} {more inside : List Char} (word : IsWord c more) (named : isAddress (c :: more) = true)
    (closed : Closed 0 inside) : Lexical (.ident (String.ofList (c :: more ++ '(' :: inside ++ [')'])))
  | str (s : String) : Lexical (.str s)
  | op (o : Operator) : Lexical (.op o)
  | var {name : List Char} (some : name ≠ []) (chars : ∀ c ∈ name, isNameChar c = true) :
    Lexical (.var (String.ofList name))
  | call {c : Char} {more : List Char} {parameters : List Term} (word : IsWord c more)
    (named : isAddress (c :: more) = false) (inside : ∀ t ∈ parameters, Lexical t)
    (balanced : Value.depthAfter 0 parameters = some 0) : Lexical (.call (String.ofList (c :: more)) parameters)

namespace Lexeme

/-- The search for a closing parenthesis goes through a text as through a term. -/
def Turns (t : Term) (text : List Char) : Prop :=
  ∀ d, (∀ d', t.depthAfter d = some d' → Passes d d' text) ∧ (t.depthAfter d = none → d = 0 ∧ text = [')'])

/-- What a lexeme is, and the text it is cut off from. -/
def Sound (text : List Char) : Lexeme → Prop
  | term t => Lexical t ∧ Turns t text
  | call name inside => ∃ c more, name = String.ofList (c :: more) ∧ IsWord c more ∧
      isAddress (c :: more) = false ∧ Closed 0 inside ∧ text = c :: more ++ '(' :: inside ++ [')']

/-- Most terms leave the parentheses as they are. -/
theorem turns_of_passes {t : Term} {text : List Char} (same : ∀ d, t.depthAfter d = some d)
    (passes : ∀ d, Passes d d text) : Turns t text := by
  intro d
  refine ⟨fun d' h => ?_, fun h => ?_⟩
  · rw [same, Option.some.injEq] at h
    exact h ▸ passes d
  · rw [same] at h
    cases h

/-- Where the search ends behind more of a text, it goes on behind a term. -/
theorem Turns.closed_of_append {t : Term} {text more : List Char} (h : Turns t text) {d : Nat}
    (closed : Closed d (text ++ more)) : ∃ d', t.depthAfter d = some d' ∧ Closed d' more := by
  cases after : t.depthAfter d with
  | some d' => exact ⟨d', rfl, ((h d).1 d' after).closed_of_append closed⟩
  | none =>
    obtain ⟨rfl, rfl⟩ := (h d).2 after
    cases closed []

/-- An operator turns the depth as its character does. -/
theorem turns_op (o : Operator) : Turns (.op o) [o.char] := by
  cases o with
  | leftParen =>
    refine fun d => ⟨?_, nofun⟩
    rintro _ ⟨⟩
    exact .left
  | rightParen =>
    intro d
    cases d with
    | zero => exact ⟨nofun, fun _ => ⟨rfl, rfl⟩⟩
    | succ d =>
      refine ⟨?_, nofun⟩
      rintro _ ⟨⟩
      exact .right
  | plus | minus | star | slash | percent | comma =>
    exact turns_of_passes (fun _ => rfl) fun _ => .plain (List.forall_mem_singleton.2 rfl)

/-! ## Characters -/

/-- A class of characters without parentheses and quotation marks has no delimiters. -/
theorem isDelimiter_of {p : Char → Bool} (h : p '(' = false ∧ p ')' = false ∧ p '"' = false ∧ p '\'' = false)
    {c : Char} (hc : p c = true) : isDelimiter c = false := by
  obtain ⟨left, right, quote, apostrophe⟩ := h
  have ne {d : Char} (hd : p d = false) : c ≠ d := fun eq => by
    rw [eq, hd] at hc
    cases hc
  simp [isDelimiter, ne left, ne right, ne quote, ne apostrophe]

/-- No character of a name is a delimiter. -/
theorem isDelimiter_of_isNameChar {c : Char} (h : isNameChar c = true) : isDelimiter c = false :=
  isDelimiter_of (by decide) h

/-- No character of a unit is a delimiter. -/
theorem isDelimiter_of_isUnitChar {c : Char} (h : isUnitChar c = true) : isDelimiter c = false :=
  isDelimiter_of (by decide) h

/-- No character that goes on with a word is a delimiter. -/
theorem isDelimiter_of_endsWord {c : Char} (h : endsWord c = false) : isDelimiter c = false := by
  have word : (!endsWord c) = true := by rw [h]; rfl
  exact isDelimiter_of (p := (!endsWord ·)) (by decide) word

/-- There are no parentheses and quotes in a word. -/
theorem IsWord.plain {c : Char} {more : List Char} (h : IsWord c more) : ∀ d ∈ c :: more, isDelimiter d = false := by
  intro d hd
  rcases List.mem_cons.1 hd with rfl | hd
  · rcases h.begins with ⟨rfl, -⟩ | ⟨-, -, notQuote, notApostrophe, -, -, -, noOperator⟩
    · rfl
    · have notLeft : d ≠ '(' := by
        rintro rfl
        cases noOperator
      have notRight : d ≠ ')' := by
        rintro rfl
        cases noOperator
      simp [isDelimiter, notLeft, notRight, notQuote, notApostrophe]
  · exact isDelimiter_of_endsWord (h.goesOn d hd)

/-- A word does not begin with a blank. -/
theorem IsWord.visible {c : Char} {more : List Char} (h : IsWord c more) : isSpace c = false := by
  rcases h.begins with ⟨rfl, -⟩ | ⟨-, visible, -⟩
  · rfl
  · exact visible

/-- A word with closed text in parentheses behind it is passed. -/
theorem IsWord.passes_call {c : Char} {more inside : List Char} (h : IsWord c more) (closed : Closed 0 inside)
    (d : Nat) : Passes d d (c :: more ++ '(' :: inside ++ [')']) := by
  have passes := (Passes.plain h.plain).append (closed.passes d)
  rwa [← List.cons_append, ← List.append_assoc] at passes

/-- Without a point, a number begins with a digit. -/
theorem startsNumber_of_ne {c : Char} (h : c ≠ '.') (cs : List Char) : startsNumber (c :: cs) = c.isDigit := by
  unfold startsNumber
  split
  next point => exact absurd (List.cons.inj point).1 h
  next same => rw [(List.cons.inj same).1]
  next none => cases none

/-- A number begins with a digit, or with a point and a digit. -/
theorem startsNumber_cases {cs : List Char} (h : startsNumber cs = true) :
    (∃ d ds, cs = '.' :: d :: ds ∧ d.isDigit = true) ∨ ∃ c ds, cs = c :: ds ∧ c ≠ '.' ∧ c.isDigit = true := by
  cases cs with
  | nil => cases h
  | cons c cs =>
    by_cases point : c = '.'
    · subst point
      cases cs with
      | nil => cases h
      | cons d ds => exact .inl ⟨d, ds, rfl, h⟩
    · exact .inr ⟨c, cs, rfl, point, by rwa [startsNumber_of_ne point] at h⟩

/-- A number that begins in front of a text begins in front of more of it. -/
theorem startsNumber_append {cs : List Char} (h : startsNumber cs = true) (more : List Char) :
    startsNumber (cs ++ more) = true := by
  rcases startsNumber_cases h with ⟨d, ds, rfl, digit⟩ | ⟨c, ds, rfl, point, digit⟩
  · exact digit
  · rw [List.cons_append, startsNumber_of_ne point, digit]

/-! ## Cutting -/

/-- How a word begins is seen from its own characters. -/
theorem BeginsWord.takeWhile {c : Char} {cs : List Char} (h : BeginsWord c cs) :
    BeginsWord c (cs.takeWhile (!endsWord ·)) := by
  rcases h with ⟨rfl, hyphen⟩ | ⟨ascii, visible, notQuote, notApostrophe, notDollar, notHash, noNumber, noOperator⟩
  · refine .inl ⟨rfl, ?_⟩
    cases cs with
    | nil => cases hyphen
    | cons d ds =>
      have inWord : endsWord d = false := by
        by_contra ends
        simp only [endsWord, isSpace, Bool.not_eq_false, Bool.or_eq_true, beq_iff_eq, or_assoc] at ends
        rcases ends with rfl | rfl | rfl | rfl | rfl | rfl | rfl | rfl | rfl | rfl | rfl | rfl | rfl | rfl <;>
          cases hyphen
      rw [List.takeWhile_cons_of_pos (by simpa using inWord)]
      exact hyphen
  · refine .inr ⟨ascii, visible, notQuote, notApostrophe, notDollar, notHash, ?_, noOperator⟩
    -- a number that begins in the word would begin in front of all the text
    by_contra number
    have longer := startsNumber_append (Bool.not_eq_false _ ▸ number) (cs.dropWhile (!endsWord ·))
    rw [List.cons_append, List.takeWhile_append_dropWhile, noNumber] at longer
    cases longer

section

variable {source : String} {signed : Bool} {c : Char} {cs rest : List Char} {l : Lexeme}

/-- A number is cut off with what it is written with. -/
theorem cutNumber_sound (sign : List Char) (plain : ∀ c ∈ sign, isDelimiter c = false) (cs : List Char) :
    ∃ text, sign ++ cs = text ++ (cutNumber sign cs).2 ∧ Sound text (cutNumber sign cs).1 := by
  have digits : cs.takeWhile (fun c => c.isDigit || c == '.') ++ cs.dropWhile (fun c => c.isDigit || c == '.') = cs :=
    List.takeWhile_append_dropWhile
  unfold cutNumber
  dsimp only
  generalize cs.dropWhile (fun c => c.isDigit || c == '.') = behind at digits ⊢
  have unit : behind.takeWhile isUnitChar ++ behind.dropWhile isUnitChar = behind := List.takeWhile_append_dropWhile
  refine ⟨sign ++ cs.takeWhile (fun c => c.isDigit || c == '.') ++ behind.takeWhile isUnitChar, ?_,
    .number _ ?_, turns_of_passes (fun _ => rfl) fun _ => .plain ?_⟩
  · rw [List.append_assoc, List.append_assoc, unit, digits]
  · intro u hu
    dsimp only at hu
    split at hu
    · cases hu
    next some =>
      cases hu
      refine ⟨fun none => some ?_, fun c hc => ?_⟩
      · rw [← String.toList_ofList (l := behind.takeWhile isUnitChar), none]
        rfl
      · rw [String.toList_ofList] at hc
        exact List.mem_takeWhile_imp hc
  · intro c hc
    rcases List.mem_append.1 hc with hc | inUnit
    · rcases List.mem_append.1 hc with inSign | digit
      · exact plain c inSign
      · exact isDelimiter_of (by decide) (List.mem_takeWhile_imp digit)
    · exact isDelimiter_of_isUnitChar (List.mem_takeWhile_imp inUnit)

/-- A word is cut off with what it is written with. -/
theorem cutWord_sound (h : cutWord source c cs = .ok (l, rest)) (begins : BeginsWord c cs) :
    ∃ text, c :: cs = text ++ rest ∧ Sound text l := by
  have word : IsWord c (cs.takeWhile (!endsWord ·)) :=
    ⟨begins.takeWhile, fun d hd => by simpa using List.mem_takeWhile_imp hd⟩
  have parts : cs.takeWhile (!endsWord ·) ++ cs.dropWhile (!endsWord ·) = cs := List.takeWhile_append_dropWhile
  unfold cutWord at h
  generalize cs.takeWhile (!endsWord ·) = more at h word parts
  dsimp only at h
  -- a word in front of a parenthesis is a call, or an address up to the closing one
  split at h
  next behind found =>
    rw [found] at parts
    split at h
    · cases h
    next inside rest' search =>
      obtain ⟨whole, closed⟩ := untilClosed_append search
      have text : c :: cs = c :: more ++ '(' :: inside ++ [')'] ++ rest' := by simp [← parts, whole]
      split at h
      next named =>
        cases h
        exact ⟨_, text, .address word named closed, turns_of_passes (fun _ => rfl) (word.passes_call closed)⟩
      next named =>
        cases h
        exact ⟨_, text, c, more, rfl, word, Bool.eq_false_iff.2 named, closed, rfl⟩
  next rest' notOpen =>
    cases h
    exact ⟨c :: more, by rw [List.cons_append, parts], .word word,
      turns_of_passes (fun _ => rfl) fun _ => .plain word.plain⟩

/-- A string, in quotes of either kind. -/
theorem str_sound {q : Char} (quote : c = '"' ∨ c = '\'') (found : cs.dropWhile (· != c) = q :: rest) :
    ∃ text, c :: cs = text ++ rest ∧ Sound text (.term (.str (String.ofList (cs.takeWhile (· != c))))) := by
  have free : c ∉ cs.takeWhile (· != c) := fun hc => by simpa using List.mem_takeWhile_imp hc
  have parts : cs.takeWhile (· != c) ++ cs.dropWhile (· != c) = cs := List.takeWhile_append_dropWhile
  have last : q = c := by
    have := List.head?_dropWhile_not (· != c) cs
    rw [found] at this
    simpa using this
  rw [found, last] at parts
  refine ⟨c :: (cs.takeWhile (· != c) ++ [c]), by simp [parts], .str _, turns_of_passes (fun _ => rfl) fun d => ?_⟩
  exact .quoted quote free

/-- A name behind a first character. -/
theorem passes_name (plain : isDelimiter c = false) (d : Nat) : Passes d d (c :: cs.takeWhile isNameChar) := by
  refine .plain fun e he => ?_
  rcases List.mem_cons.1 he with rfl | he
  · exact plain
  · exact isDelimiter_of_isNameChar (List.mem_takeWhile_imp he)

/-- A name is its first character, then the characters that go on with it. -/
theorem append_dropWhile_name (c : Char) (cs : List Char) :
    c :: cs = (c :: cs.takeWhile isNameChar) ++ cs.dropWhile isNameChar := by
  rw [List.cons_append, List.takeWhile_append_dropWhile]

/-- A variable is cut off with what it is written with. -/
theorem var_sound (some : (cs.takeWhile isNameChar).isEmpty = false) :
    ∃ text, '$' :: cs = text ++ cs.dropWhile isNameChar ∧
      Sound text (.term (.var (String.ofList (cs.takeWhile isNameChar)))) := by
  refine ⟨_, append_dropWhile_name _ _, .var ?_ fun _ hd => List.mem_takeWhile_imp hd,
    turns_of_passes (fun _ => rfl) (passes_name rfl)⟩
  intro none
  rw [none] at some
  cases some

/-- A color, or a word that looks like one. -/
theorem hash_sound : ∃ text, '#' :: cs = text ++ cs.dropWhile isNameChar ∧
    Sound text (.term (match Color.ofHex? (String.ofList ('#' :: cs.takeWhile isNameChar)) with
      | some color => .color color
      | none => .ident (String.ofList ('#' :: cs.takeWhile isNameChar)))) := by
  have chars : ∀ d ∈ cs.takeWhile isNameChar, isNameChar d = true := fun d hd => List.mem_takeWhile_imp hd
  refine ⟨_, append_dropWhile_name _ _, ?_⟩
  split
  next color spelt => exact ⟨.color chars spelt, turns_of_passes (fun _ => rfl) (passes_name rfl)⟩
  next noColor => exact ⟨.hash chars noColor, turns_of_passes (fun _ => rfl) (passes_name rfl)⟩

/-- What is cut off is a lexical term, or a call of a word. -/
theorem cut_sound (h : cut source signed c cs = .ok (l, rest)) (visible : isSpace c = false) :
    ∃ text, c :: cs = text ++ rest ∧ Sound text l := by
  unfold cut at h
  by_cases quote : (c == '"' || c == '\'') = true
  · rw [if_pos quote] at h
    split at h
    · cases h
    next found =>
      cases h
      exact str_sound (by simpa using quote) found
  rw [if_neg quote] at h
  by_cases dollar : (c == '$') = true
  · rw [if_pos dollar] at h
    obtain rfl := beq_iff_eq.1 dollar
    dsimp only at h
    split at h
    · cases h
    next some =>
      cases h
      exact var_sound (Bool.eq_false_iff.2 some)
  rw [if_neg dollar] at h
  by_cases hash : (c == '#') = true
  · rw [if_pos hash] at h
    obtain rfl := beq_iff_eq.1 hash
    cases h
    exact hash_sound
  rw [if_neg hash] at h
  -- a minus: a sign, part of a word, or the operator further down
  split at h
  next sign =>
    simp only [Bool.and_eq_true, beq_iff_eq] at sign
    obtain ⟨⟨rfl, -⟩, -⟩ := sign
    cases h
    exact cutNumber_sound ['-'] (List.forall_mem_singleton.2 rfl) cs
  split at h
  next hyphen =>
    simp only [Bool.and_eq_true, beq_iff_eq] at hyphen
    exact cutWord_sound h (.inl hyphen)
  by_cases number : startsNumber (c :: cs) = true
  · rw [if_pos number] at h
    cases h
    exact cutNumber_sound [] (List.forall_mem_nil _) (c :: cs)
  rw [if_neg number] at h
  split at h
  next o operator =>
    cases h
    obtain rfl := Operator.char_of_ofChar? operator
    exact ⟨[o.char], rfl, .op o, turns_op o⟩
  next noOperator =>
    split at h
    next ascii =>
      simp only [Bool.or_eq_true, beq_iff_eq, not_or] at quote dollar hash
      exact cutWord_sound h (.inr ⟨ascii, visible, quote.1, quote.2, dollar, hash, Bool.eq_false_iff.2 number,
        noOperator⟩)
    next => cases h

end

end Lexeme

namespace Value

/-- Terms turn the depth one after the other. -/
theorem depthAfter_cons (d : Nat) (t : Term) (ts : List Term) :
    Value.depthAfter d (t :: ts) = (t.depthAfter d).bind fun d' => Value.depthAfter d' ts := rfl

/-- Reading cuts off one lexeme, and the parameters of a call are read before what is behind it. -/
theorem readFrom_eq (source : String) (wanted : Bool) (cs : List Char) : readFrom source wanted cs =
    match cs.dropWhile isSpace with
    | [] => .ok []
    | c :: behind =>
      match cut source (wanted || cs.head?.any isSpace) c behind with
      | .error e => .error e
      | .ok (.term t, rest) => (readFrom source t.wantsOperand rest).map (t :: ·)
      | .ok (.call name inside, rest) =>
        match readFrom (String.ofList inside) true inside with
        | .error e => .error e
        | .ok parameters => (readFrom source false rest).map (.call name parameters :: ·) := by
  rw [readFrom]
  split
  next blank => rw [blank]
  next found =>
    split
    next failed => simp only [found, failed]
    next term => simp only [found, term]
    next name inside rest call =>
      cases parameters : readFrom (String.ofList inside) true inside <;> simp only [found, call, parameters]

/-- Where the search ends, blanks in front make no difference. -/
theorem closed_dropWhile_isSpace {d : Nat} {cs : List Char} (closed : Closed d cs) :
    Closed d (cs.dropWhile isSpace) := by
  have spaces : Passes d d (cs.takeWhile isSpace) :=
    .plain fun c hc => isDelimiter_of (by decide) (List.mem_takeWhile_imp hc)
  refine spaces.closed_of_append ?_
  rwa [List.takeWhile_append_dropWhile]

/-- A term in front of a chain that has been read. -/
theorem lexical_cons {t : Term} {ts : List Term} {text rest cs : List Char} (lexical : Lexical t)
    (turns : Turns t text) (found : cs.dropWhile isSpace = text ++ rest)
    (h : (∀ t ∈ ts, Lexical t) ∧ ∀ d, Closed d rest → Value.depthAfter d ts = some 0) :
    (∀ t' ∈ t :: ts, Lexical t') ∧ ∀ d, Closed d cs → Value.depthAfter d (t :: ts) = some 0 := by
  refine ⟨List.forall_mem_cons.2 ⟨lexical, h.1⟩, fun d closed => ?_⟩
  have closed := closed_dropWhile_isSpace closed
  rw [found] at closed
  obtain ⟨d', after, closed⟩ := turns.closed_of_append closed
  rw [depthAfter_cons, after]
  exact h.2 d' closed

/-- **Values consist of lexical terms**, and between parentheses theirs are balanced. -/
theorem lexical_of_readFrom {source : String} {wanted : Bool} {cs : List Char} {v : Value}
    (h : readFrom source wanted cs = .ok v) :
    (∀ t ∈ v, Lexical t) ∧ ∀ d, Closed d cs → v.depthAfter d = some 0 := by
  have visible {cs more : List Char} {c : Char} (found : cs.dropWhile isSpace = c :: more) : isSpace c = false := by
    have := List.head?_dropWhile_not isSpace cs
    rw [found] at this
    simpa using this
  fun_induction readFrom source wanted cs generalizing v with
  | case1 source wanted cs blank =>
    cases h
    refine ⟨nofun, fun d closed => ?_⟩
    have closed := closed_dropWhile_isSpace closed []
    rw [blank] at closed
    cases d with
    | zero => rfl
    | succ d => cases closed
  | case2 => cases h
  | case3 source wanted cs c more found _ t rest cut _ ih =>
    obtain ⟨ts, hts, rfl⟩ := Outcome.map_eq_ok_iff.1 h
    obtain ⟨text, parts, lexical, turns⟩ := cut_sound cut (visible found)
    exact lexical_cons lexical turns (found.trans parts) (ih hts)
  | case4 => cases h
  | case5 source wanted cs c more found _ name inside rest cut _ _ ps hps ihps ih =>
    obtain ⟨ts, hts, rfl⟩ := Outcome.map_eq_ok_iff.1 h
    obtain ⟨text, parts, first, more, rfl, word, named, closed, rfl⟩ := cut_sound cut (visible found)
    -- the inside is a text of its own, and the search for its end is what balances its terms
    have balanced := (ihps hps).2 0 closed
    exact lexical_cons (.call word named (ihps hps).1 balanced)
      (turns_of_passes (fun _ => rfl) (word.passes_call closed)) (found.trans parts) (ih hts)

end Value

end Stylesheet
