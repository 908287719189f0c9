import Stylesheet.Proofs.Condition.Strings
import Stylesheet.Proofs.Condition.Units
import Stylesheet.Proofs.Numeric.Numerals

/-! # Numbers in conditions

A number gets into a condition as text: it is written as a numeral where its variable stands, the normal form
of the condition leaves it as it is (`replaceMatches_cutLiteral?_numeral`), and it is cut off as a token again,
behind a minus if it is negative (`tokensFrom_of_numeral`).

A numeral has at most five decimal places, so what is compared are the numbers rounded to five places. For whole
numbers of any size, and for decimals with five places, these are the numbers themselves
(`Walker.holds_compare_numbers`). -/

namespace Stylesheet

/-- Characters that are kept one by one. -/
theorem Text.replaceMatches_append_of_none {cut? : List Char → Option (List Char × List Char)} {front : List Char}
    (h : ∀ c ∈ front, ∀ cs, cut? (c :: cs) = none) (rest : List Char) :
    replaceMatches cut? (front ++ rest) = front ++ replaceMatches cut? rest := by
  induction front with
  | nil => rfl
  | cons c cs ih =>
    rw [List.cons_append, replaceMatches_of_none (h c (List.mem_cons_self ..) _),
      ih fun d hd => h d (List.mem_cons_of_mem _ hd), List.cons_append]

namespace Condition

/-! ## Numerals -/

/-- What a digit is to those who read conditions. -/
theorem of_isDigit {c : Char} (h : c.isDigit = true) :
    Text.isDecimalDigit c = true ∧ Text.isBlank c = false ∧ startsBareWord c = false ∧ c ≠ '"' ∧ c ≠ '\'' ∧
      c ≠ '.' := Decimal.of_isDigit h (by decide)

/-- An unsigned numeral has no blanks in front. -/
theorem trimLeft_unsigned (n : Numeral) (rest : List Char) :
    Text.trimLeft (n.unsigned ++ rest) = n.unsigned ++ rest := by
  obtain ⟨c, cs, first, digit, -⟩ := n.exists_unsigned_eq
  rw [first, List.cons_append, Text.trimLeft, List.dropWhile_cons, (of_isDigit digit).2.1]
  rfl

/-- Numerals do not begin with blanks. -/
theorem trimLeft_numeral (n : Numeral) (rest : List Char) : Text.trimLeft (n.text ++ rest) = n.text ++ rest := by
  rw [n.text_eq]
  cases n.negative with
  | false => exact trimLeft_unsigned n rest
  | true => rfl

section

variable (n : Numeral) {rest : List Char} (ends : ∀ c ∈ rest.head?, c = ' ')

include ends

/-- The digits of a numeral are found, and the point as there are digits behind it. -/
theorem cutDigits?_unsigned : cutDigits? (n.unsigned ++ rest) = some (n.unsigned, rest) := by
  have whole : ∀ c ∈ n.whole, Text.isDecimalDigit c = true := fun c hc =>
    (of_isDigit (n.isDigit c (List.mem_append_left _ hc))).1
  have behind : ∀ c ∈ n.behind, Text.isDecimalDigit c = true := fun c hc =>
    (of_isDigit (n.isDigit c (List.mem_append_right _ hc))).1
  have blank : ∀ c ∈ rest.head?, Text.isDecimalDigit c = false := fun c hc => by
    rw [ends c hc]
    rfl
  unfold cutDigits? Numeral.unsigned
  cases places : n.behind with
  | nil =>
    rw [List.isEmpty_nil, if_pos rfl, List.append_nil, Text.takeWhile_run whole blank, Text.dropWhile_run whole blank]
    -- no point stands behind the numeral either
    split
    next => exact absurd (ends '.' rfl) (by decide)
    next => simp [n.whole_ne_nil]
  | cons d ds =>
    rw [places] at behind
    have point : ∀ c ∈ ('.' :: (d :: ds ++ rest)).head?, Text.isDecimalDigit c = false := by
      rintro _ ⟨⟩
      rfl
    rw [List.isEmpty_cons, if_neg Bool.false_ne_true, List.append_assoc, List.cons_append,
      Text.takeWhile_run whole point, Text.dropWhile_run whole point]
    show (if (!((d :: ds ++ rest).takeWhile _).isEmpty) = true then some (n.whole ++ '.' :: List.takeWhile _ _, _)
      else _) = _
    rw [Text.takeWhile_run behind blank, Text.dropWhile_run behind blank, List.isEmpty_cons]
    rfl

/-- The normal form leaves numerals as they are. -/
theorem replaceMatches_cutLiteral?_numeral :
    Text.replaceMatches cutLiteral? (n.text ++ rest) = n.text ++ Text.replaceMatches cutLiteral? rest := by
  obtain ⟨c, cs, first, digit, -⟩ := n.exists_unsigned_eq
  obtain ⟨decimal, -, notWord, notQuote, notApostrophe, notPoint⟩ := of_isDigit digit
  have cut : cutLiteral? (n.unsigned ++ rest) = some (n.unsigned, rest) := by
    have digits := cutDigits?_unsigned n ends
    rw [first, List.cons_append] at digits ⊢
    have noUnit : ∀ c ∈ rest.head?, isUnitCharacter c = false := fun c hc => by
      rw [ends c hc]
      rfl
    simp [cutLiteral?, notQuote, notApostrophe, decimal, digits, digit, Text.takeWhile_of_head? noUnit,
      Text.dropWhile_of_head? noUnit]
  have unsigned : Text.replaceMatches cutLiteral? (n.unsigned ++ rest) =
      n.unsigned ++ Text.replaceMatches cutLiteral? rest := by
    rw [first, List.cons_append] at cut ⊢
    exact Text.replaceMatches_of_some cut (by simp)
  rw [n.text_eq]
  cases n.negative with
  | false => exact unsigned
  | true =>
    -- the minus is kept as a character of its own, since a digit follows it
    have minus : cutLiteral? ('-' :: (n.unsigned ++ rest)) = none := by
      rw [first]
      have : startsBareWord '-' = false := rfl
      have : Text.isDecimalDigit '-' = false := rfl
      simp [cutLiteral?, *]
    exact (Text.replaceMatches_of_none minus).trans (congrArg ('-' :: ·) unsigned)

/-- The tokens of a numeral. -/
def numeralTokens (n : Numeral) : List Token :=
  (if n.negative then [.symbol .minus] else []) ++ [.number ⟨Decimal.nearest n.whole n.behind, none⟩]

/-- A numeral is cut off behind its minus. -/
theorem tokensFrom_of_unsigned {condition : String} {cs : List Char}
    (hc : Text.trimLeft cs = n.unsigned ++ rest) : tokensFrom condition cs =
      (tokensFrom condition rest).map (.number ⟨Decimal.nearest n.whole n.behind, none⟩ :: ·) := by
  obtain ⟨c, more, first, digit, all⟩ := n.exists_unsigned_eq
  obtain ⟨-, -, -, notQuote, notApostrophe, notPoint⟩ := of_isDigit digit
  have numeral : ∀ c ∈ rest.head?, (c.isDigit || c == '.') = false := fun c hc => by
    rw [ends c hc]
    rfl
  have unit : ∀ c ∈ rest.head?, (c.isAlpha || c == '%') = false := fun c hc => by
    rw [ends c hc]
    rfl
  have cut : cutNumber (n.unsigned ++ rest) =
      .ok (.number ⟨Decimal.nearest n.whole n.behind, none⟩, rest) := by
    unfold cutNumber
    dsimp only
    rw [Text.takeWhile_run all numeral, Text.dropWhile_run all numeral, n.read?_unsigned,
      Text.takeWhile_of_head? unit, Text.dropWhile_of_head? unit]
    rfl
  have starts : startsNumber (c :: (more ++ rest)) = true := by
    unfold startsNumber
    split
    next point => exact absurd (List.cons.inj point).1 notPoint
    next same => exact (List.cons.inj same).1 ▸ digit
    next none => cases none
  rw [first, List.cons_append] at hc cut
  refine tokensFrom_of_cutToken hc ?_
  rw [cutToken, if_neg (by simp [notQuote, notApostrophe]), if_pos starts, cut]

/-- The tokens of a numeral are cut off. -/
theorem tokensFrom_of_numeral {condition : String} {cs : List Char} (hc : Text.trimLeft cs = n.text ++ rest) :
    tokensFrom condition cs = (tokensFrom condition rest).map (numeralTokens n ++ ·) := by
  rw [n.text_eq] at hc
  unfold numeralTokens
  cases negative : n.negative with
  | false =>
    rw [negative] at hc
    exact tokensFrom_of_unsigned n ends hc
  | true =>
    rw [negative] at hc
    have minus : cutToken condition '-' (n.unsigned ++ rest) = .ok (.symbol .minus, n.unsigned ++ rest) := by
      obtain ⟨c, more, first, digit, -⟩ := n.exists_unsigned_eq
      rw [first]
      rfl
    rw [tokensFrom_of_cutToken hc minus, tokensFrom_of_unsigned n ends (trimLeft_unsigned n rest)]
    cases tokensFrom condition rest <;> rfl

end

/-- A numeral as a condition. -/
def numeralExpr (n : Numeral) : Expr :=
  let magnitude := Expr.literal (.number ⟨Decimal.nearest n.whole n.behind, none⟩)
  if n.negative then .negate magnitude else magnitude

/-- A numeral is written with its tokens, at the strength of a sum since it may begin with a minus. -/
theorem written_numeral (n : Numeral) : Written .sum (numeralExpr n) (numeralTokens n) := by
  unfold numeralExpr numeralTokens
  cases n.negative with
  | false => exact (Written.number _).anywhere _
  | true =>
    have signed := Written.negate ((Written.number ⟨Decimal.nearest n.whole n.behind, none⟩).anywhere _)
    have product : Written .product _ _ := signed.loosen rfl
    exact product.loosen rfl

/-- A numeral means its number. -/
theorem eval_numeral (n : Numeral) : (numeralExpr n).eval = .ok (.number ⟨n.value, none⟩) := by
  unfold numeralExpr Numeral.value Binary64.withSign
  cases n.negative <;> rfl

/-! ## Comparisons -/

/-- Whether a comparison holds between two doubles. -/
def Comparison.holds : Comparison → Float → Float → Bool
  | equal, a, b => a == b
  | notEqual, a, b => !(a == b)
  | less, a, b => a < b
  | atMost, a, b => a ≤ b
  | greater, a, b => a > b
  | atLeast, a, b => a ≥ b

open Binary64 (Alike)

/-- Doubles that are alike compare alike. -/
theorem Comparison.holds_congr (c : Comparison) {a a' b b' : Float} (ha : Alike a a') (hb : Alike b b') :
    c.holds a b = c.holds a' b' := by
  cases c with
  | equal => exact ha.beq_eq hb
  | notEqual => exact congrArg (!·) (ha.beq_eq hb)
  | less => exact decide_eq_decide.2 (ha.lt_iff hb)
  | atMost => exact decide_eq_decide.2 (ha.le_iff hb)
  | greater => exact decide_eq_decide.2 (hb.lt_iff ha)
  | atLeast => exact decide_eq_decide.2 (hb.le_iff ha)

/-- Numbers without units compare as their scalars do. -/
theorem Comparison.apply_numbers (c : Comparison) (a b : Float) :
    c.apply (.number ⟨a, none⟩) (.number ⟨b, none⟩) = .ok (.bool (c.holds a b)) := by
  cases c with
  | equal | notEqual => simp [apply, holds, Literal.equals, Literal.unitsAgree]
  | less | atMost | greater | atLeast => rfl

/-- The condition that compares two variables. -/
def comparing (s : Symbol) (x y : String) : String := "$" ++ x ++ " " ++ s.text ++ " $" ++ y

section

variable {c : Comparison} {s : Symbol} (spelt : s ∈ c.symbols)

include spelt

/-- The characters of a comparison, and the spaces around it, mean nothing else. -/
theorem Comparison.kept_of_mem_symbols {d : Char} (hd : d ∈ ' ' :: (s.text.toList ++ [' '])) :
    d ≠ '$' ∧ ∀ cs, cutLiteral? (d :: cs) = none := by
  have among : d ∈ [' ', '=', '!', '<', '>'] := by
    have all : ∀ c : Comparison, ∀ s ∈ c.symbols,
        (' ' :: (s.text.toList ++ [' '])).Forall (· ∈ [' ', '=', '!', '<', '>']) := by
      rintro (_ | _ | _ | _ | _ | _) <;> decide
    exact List.forall_iff_forall_mem.1 (all c s spelt) d hd
  simp only [List.mem_cons, List.not_mem_nil, or_false] at among
  rcases among with rfl | rfl | rfl | rfl | rfl <;> exact ⟨by decide, fun _ => rfl⟩

/-- A comparison is cut off as a token. -/
theorem Comparison.tokensFrom_of_mem_symbols (condition : String) (rest : List Char) :
    tokensFrom condition (' ' :: (s.text.toList ++ ' ' :: rest)) =
      (tokensFrom condition (' ' :: rest)).map (.symbol s :: ·) := by
  have cut : ∃ d ds, s.text.toList = d :: ds ∧ Text.isBlank d = false ∧
      cutToken condition d (ds ++ ' ' :: rest) = .ok (.symbol s, ' ' :: rest) := by
    cases c with
    | equal =>
      rcases (by simpa [symbols] using spelt : s = .equal ∨ s = .assign) with rfl | rfl <;>
        exact ⟨_, _, rfl, rfl, rfl⟩
    | notEqual | less | atMost | greater | atLeast =>
      obtain rfl := List.mem_singleton.1 spelt
      exact ⟨_, _, rfl, rfl, rfl⟩
  obtain ⟨d, ds, text, visible, cut⟩ := cut
  refine tokensFrom_of_cutToken ?_ cut
  rw [text, Text.trimLeft, List.cons_append, List.dropWhile_cons_of_pos (by decide), List.dropWhile_cons, visible]
  rfl

/-- Numbers are written as numerals where their variables stand. -/
theorem substituteVariables_comparing {lookup : Lookup} {x y : String} {a b : Float} (hx : IsName x) (hy : IsName y)
    (foundx : lookup x = some [.number ⟨a, none⟩]) (foundy : lookup y = some [.number ⟨b, none⟩]) :
    (substituteVariables lookup (comparing s x y)).toList = (Number.scalarText a).toList ++
      (' ' :: (s.text.toList ++ [' '])) ++ (Number.scalarText b).toList := by
  have whole : (comparing s x y).toList =
      '$' :: (x.toList ++ ((' ' :: (s.text.toList ++ [' '])) ++ '$' :: (y.toList ++ []))) := by
    simp [comparing, String.toList_append]
  have written (z : Float) : (Value.text [.number ⟨z, none⟩]).toList = (Number.scalarText z).toList := by
    simp [Term.text, Number.text, Number.unitText]
  have kept : ∀ d ∈ ' ' :: (s.text.toList ++ [' ']), ∀ cs,
      Interpolation.writing lookup Value.text Interpolation.cutVariable? (d :: cs) = none := by
    intro d hd cs
    have plain := (Comparison.kept_of_mem_symbols spelt hd).1
    simp [Interpolation.writing, Interpolation.cutVariable?, plain]
  have blank : ∀ c ∈ (' ' :: (s.text.toList ++ [' ']) ++ '$' :: (y.toList ++ [])).head?, Text.isName c = false := by
    rintro _ ⟨⟩
    decide
  have last : ∀ c ∈ ([] : List Char).head?, Text.isName c = false := by
    rintro _ ⟨⟩
  rw [substituteVariables, String.toList_ofList, whole, replaceMatches_cutVariable? hx foundx blank,
    Text.replaceMatches_append_of_none kept, replaceMatches_cutVariable? hy foundy last, written, written,
    Text.replaceMatches_nil, List.append_nil, List.append_assoc]

/-- Two numerals that are compared. -/
theorem evaluate_normalize_comparing {condition : String} {n m : Numeral}
    (h : condition.toList = n.text ++ (' ' :: (s.text.toList ++ [' '])) ++ m.text) :
    evaluate (normalize condition) = .ok (.bool (c.holds n.value m.value)) := by
  have kept : ∀ d ∈ ' ' :: (s.text.toList ++ [' ']), ∀ cs, cutLiteral? (d :: cs) = none :=
    fun d hd => (Comparison.kept_of_mem_symbols spelt hd).2
  have blank (cs : List Char) : ∀ c ∈ (' ' :: cs).head?, c = ' ' := by
    rintro _ ⟨⟩
    rfl
  have behind : ∀ c ∈ ([] : List Char).head?, c = ' ' := by
    rintro _ ⟨⟩
  -- neither the numerals nor the symbol between them are put into quotes
  have normal : (normalize condition).toList = condition.toList := by
    have begins : ∀ c ∈ (' ' :: (s.text.toList ++ [' ']) ++ m.text).head?, c = ' ' := blank _
    rw [normalize, String.toList_ofList, h, List.append_assoc, replaceMatches_cutLiteral?_numeral n begins,
      Text.replaceMatches_append_of_none kept]
    have last := replaceMatches_cutLiteral?_numeral m behind
    rw [List.append_nil, Text.replaceMatches_nil, List.append_nil] at last
    rw [last]
  have read : tokens (normalize condition) = .ok (numeralTokens n ++ .symbol s :: numeralTokens m) := by
    have first : Text.trimLeft condition.toList =
        n.text ++ ' ' :: (s.text.toList ++ ' ' :: (m.text ++ [])) := by
      rw [h, List.append_assoc, trimLeft_numeral]
      simp
    have second : Text.trimLeft (' ' :: (m.text ++ [])) = m.text ++ [] := trimLeft_numeral m []
    rw [tokens, normal, tokensFrom_of_numeral n (blank _) first, Comparison.tokensFrom_of_mem_symbols spelt,
      tokensFrom_of_numeral m behind second, tokensFrom_of_blank rfl]
    simp [Except.map]
  have written : Written .comparison _ _ := .compare spelt (written_numeral n) (written_numeral m)
  rw [evaluate, read]
  show evaluateTokens _ _ = _
  rw [written.disjunction.evaluateTokens_eq, Expr.eval, eval_numeral, eval_numeral]
  exact c.apply_numbers n.value m.value

end

end Condition

namespace Walker

open Binary64 Condition

variable {σ : Type} {services : Services σ}

/-- **Numbers reach conditions with five decimal places.** With two variables that hold finite numbers without
units, a comparison of them holds exactly if it holds between the numbers rounded to five places. So it holds
exactly if it holds between the numbers themselves where each of them is whole, whatever its size, or is the double
nearest to a decimal with five places. Asking for it changes nothing. -/
theorem holds_compare_numbers (plain : services.conditions = Services.plain.conditions) {w : World σ}
    {x y : String} {a b : Float} (hx : IsName x) (hy : IsName y)
    (boundx : w.context.scope.get? x = some [.number ⟨a, none⟩])
    (boundy : w.context.scope.get? y = some [.number ⟨b, none⟩])
    (finitea : (ofFloat? a).isSome = true) (finiteb : (ofFloat? b).isSome = true)
    {c : Comparison} {s : Symbol} (spelt : s ∈ c.symbols) :
    (holds services (comparing s x y)).exec w = (.ok (c.holds (rounded a) (rounded b)), w) ∧
      (isInteger a = true ∨ HasFivePlaces a → isInteger b = true ∨ HasFivePlaces b →
        (holds services (comparing s x y)).exec w = (.ok (c.holds a b), w)) := by
  have compared : (holds services (comparing s x y)).exec w = (.ok (c.holds (rounded a) (rounded b)), w) := by
    obtain ⟨u, hu⟩ := Option.isSome_iff_exists.1 finitea
    obtain ⟨v, hv⟩ := Option.isSome_iff_exists.1 finiteb
    obtain ⟨n, texta, valuea⟩ := exists_numeral hu
    obtain ⟨m, textb, valueb⟩ := exists_numeral hv
    -- written as numerals, which the normal form keeps and the tokens give back
    have text := substituteVariables_comparing spelt hx hy boundx boundy
    rw [texta, textb] at text
    have value := evaluate_normalize_comparing spelt text
    rw [c.holds_congr valuea valueb] at value
    rw [holds, Expansion.exec_scope_bind, plain]
    simp only [Services.plain, value]
    rfl
  have kept {z : Float} (h : isInteger z = true ∨ HasFivePlaces z) : rounded z = z := by
    rcases h with integer | places
    · obtain ⟨v, hv, whole⟩ := isInteger_iff.1 integer
      exact rounded_of_isWhole hv whole
    · exact rounded_of_hasFivePlaces places
  exact ⟨compared, fun ha hb => by rw [compared, kept ha, kept hb]⟩

/-- A world that knows two variables with numbers. -/
def numberWorld (a b : Float) : World Unit :=
  ⟨.empty, { Context.empty with
    scope := (Scope.empty.define "x" [.number ⟨a, none⟩]).define "y" [.number ⟨b, none⟩] }, ()⟩

/-- A negative number with places, and a whole one that is written with all its zeros. -/
theorem holds_compare_numbers_apart :
    (holds Services.plain "$x < $y").exec (numberWorld (-0.25) 1e20) = (.ok true, numberWorld (-0.25) 1e20) := by
  have condition : comparing .less "x" "y" = "$x < $y" := by decide
  have hx : IsName "x" := ⟨by decide, by decide⟩
  have hy : IsName "y" := ⟨by decide, by decide⟩
  have less : Comparison.less.holds (-0.25) 1e20 = true := by decide +kernel
  have places : isInteger (-0.25) = true ∨ HasFivePlaces (-0.25) := .inr ⟨true, 25000, by decide +kernel⟩
  have whole : isInteger 1e20 = true ∨ HasFivePlaces 1e20 := .inl (by decide +kernel)
  rw [← condition, ← less]
  exact (holds_compare_numbers rfl hx hy rfl rfl (by decide +kernel) (by decide +kernel) (by decide)).2 places whole

/-- A number that is too small for five places is no number at all to a condition. -/
theorem not_holds_compare_numbers :
    ¬ ∀ a b : Float, (ofFloat? a).isSome = true → (ofFloat? b).isSome = true →
      (holds Services.plain "$x == $y").exec (numberWorld a b) = (.ok (a == b), numberWorld a b) := by
  intro h
  have text : substituteVariables (numberWorld 0.000001 0).context.scope.get? "$x == $y" = "0 == 0" := by
    decide +kernel
  let zero : Numeral := ⟨false, ['0'], [], by decide, List.forall_mem_singleton.2 rfl⟩
  have value : Condition.evaluate (normalize "0 == 0") = .ok (.bool (zero.value == zero.value)) :=
    evaluate_normalize_comparing (c := .equal) (s := .equal) (n := zero) (m := zero) (by decide) (by decide)
  rw [show (zero.value == zero.value) = true by decide +kernel] at value
  have holds : (holds Services.plain "$x == $y").exec (numberWorld 0.000001 0) =
      (.ok true, numberWorld 0.000001 0) := by
    rw [holds, Expansion.exec_scope_bind]
    simp only [Services.plain, text, value]
    rfl
  have same : (.ok ((0.000001 : Float) == 0) : Except Stop Bool) = .ok true :=
    congrArg Prod.fst ((h 0.000001 0 (by decide +kernel) (by decide +kernel)).symm.trans holds)
  exact absurd (Except.ok.inj same) (by decide +kernel)

end Walker

end Stylesheet
