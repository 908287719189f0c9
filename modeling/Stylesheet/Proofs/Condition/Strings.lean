import Stylesheet.Condition.Evaluation
import Stylesheet.Expansion.Compile
import Stylesheet.Proofs.Expansion.Steps
import Stylesheet.Proofs.Interpolation.Texts

/-! # Strings in conditions

A string takes four steps into a condition. It is written in double quotes where its variable stands, it
is brought into single quotes with what is special there escaped (`replaceMatches_cutLiteral?_string`), it
is cut off as a token, and its escapes are undone (`untilQuote_escape`). Whatever follows it is left for the
next step, so texts of several strings are gone through one string at a time.

As a value is written without any escapes, the first double quote in a string ends it. Two strings without
double quotes are compared as what they are (`Walker.holds_equal_strings`). -/

namespace Stylesheet

namespace Condition

/-! ## Escapes -/

/-- Reading a string undoes its escapes. -/
theorem untilQuote_escape (text rest : List Char) :
    untilQuote '\'' (Literal.escape text ++ '\'' :: rest) = some (text, rest) := by
  induction text with
  | nil => simp [untilQuote]
  | cons c cs ih =>
    have step : Literal.escape (c :: cs) =
        (if c == '\\' || c == '\'' then ['\\', c] else [c]) ++ Literal.escape cs := rfl
    rw [step]
    by_cases special : (c == '\\' || c == '\'') = true
    · rw [if_pos special]
      simp only [List.cons_append, List.nil_append, untilQuote, ih]
      rfl
    · rw [if_neg special]
      simp only [Bool.or_eq_true, beq_iff_eq, not_or] at special
      simp [untilQuote, special.1, special.2, ih]

/-! ## Tokens -/

section

variable {condition : String} {cs behind rest : List Char} {c : Char} {t : Token}

/-- Behind the last token there are at most blanks. -/
theorem tokensFrom_of_blank (hc : Text.trimLeft cs = []) : tokensFrom condition cs = .ok [] := by
  rw [tokensFrom]
  split
  · rfl
  · next h => simp [hc] at h

/-- A token is cut off behind the blanks in front. -/
theorem tokensFrom_of_cutToken (hc : Text.trimLeft cs = c :: behind)
    (ht : cutToken condition c behind = .ok (t, rest)) :
    tokensFrom condition cs = (tokensFrom condition rest).map (t :: ·) := by
  rw [tokensFrom]
  split
  · next h => simp [hc] at h
  · next h =>
    rw [hc] at h
    cases h
    split
    · next h => simp [ht] at h
    · next h =>
      rw [ht] at h
      cases h
      rfl

/-- A fault in cutting off a token is one of the condition. -/
theorem tokensFrom_of_cutToken_error {fault : Fault} (hc : Text.trimLeft cs = c :: behind)
    (ht : cutToken condition c behind = .error fault) : tokensFrom condition cs = .error fault := by
  rw [tokensFrom]
  split
  next h => simp [hc] at h
  next h =>
    rw [hc] at h
    cases h
    split
    next h =>
      rw [ht] at h
      cases h
      rfl
    next h => simp [ht] at h

/-- Two equals signs are one token. -/
theorem cutToken_equal (condition : String) (rest : List Char) :
    cutToken condition '=' ('=' :: ' ' :: rest) = .ok (.symbol .equal, ' ' :: rest) := rfl

/-- A text in single quotes is a string token, with any characters inside. -/
theorem tokensFrom_of_quote {text : List Char} (hc : Text.trimLeft cs = Literal.quote text ++ rest) :
    tokensFrom condition cs = (tokensFrom condition rest).map (.str (String.ofList text) :: ·) := by
  have quoted : Literal.quote text ++ rest = '\'' :: (Literal.escape text ++ '\'' :: rest) := by
    simp [Literal.quote]
  have cut : cutToken condition '\'' (Literal.escape text ++ '\'' :: rest) =
      .ok (.str (String.ofList text), rest) := by
    rw [cutToken, if_pos (by decide), untilQuote_escape]
  exact tokensFrom_of_cutToken (hc.trans quoted) cut

end

/-! ## Normal forms -/

/-- A string in double quotes is brought into single quotes whole. -/
theorem cutLiteral?_string {text : List Char} (free : '"' ∉ text) (rest : List Char) :
    cutLiteral? ('"' :: (text ++ '"' :: rest)) = some (Literal.quote text, rest) := by
  have inside : ∀ c ∈ text, (c != '"') = true := by
    intro c hc
    simpa using fun h : c = '"' => free (h ▸ hc)
  have ends : ∀ c ∈ ('"' :: rest).head?, (c != '"') = false := by simp
  simp only [cutLiteral?, beq_self_eq_true, if_true, Text.dropWhile_run inside ends,
    Text.takeWhile_run inside ends]

/-- A string in a condition is written in normal form, and what comes behind it is read on its own. -/
theorem replaceMatches_cutLiteral?_string {text : List Char} (free : '"' ∉ text) (rest : List Char) :
    Text.replaceMatches cutLiteral? ('"' :: (text ++ '"' :: rest)) =
      Literal.quote text ++ Text.replaceMatches cutLiteral? rest :=
  Text.replaceMatches_of_some (cutLiteral?_string free rest) (by simp; omega)

/-! ## Comparing two strings -/

/-- The value of a variable takes the place of the variable, and the rest is gone through on its own. -/
theorem replaceMatches_cutVariable? {lookup : Lookup} {name : String} {value : Value}
    (named : IsName name) (found : lookup name = some value) {rest : List Char}
    (ends : ∀ c ∈ rest.head?, Text.isName c = false) :
    Text.replaceMatches (Interpolation.writing lookup Value.text Interpolation.cutVariable?)
        ('$' :: (name.toList ++ rest)) =
      value.text.toList ++
        Text.replaceMatches (Interpolation.writing lookup Value.text Interpolation.cutVariable?) rest := by
  refine Text.replaceMatches_of_some ?_ (by simp)
  rw [Interpolation.writing, Interpolation.cutVariable?_variable named ends]
  simp [found]

/-- The condition that two variables are equal. -/
def equation (x y : String) : String := "$" ++ x ++ " == $" ++ y

/-- The text of the condition that two strings are equal, in double quotes as they are. -/
def stringEquation (a b : List Char) : List Char :=
  '"' :: (a ++ '"' :: ' ' :: '=' :: '=' :: ' ' :: '"' :: (b ++ ['"']))

variable {x y a b : String}

/-- Strings are written in double quotes where their variables stand. -/
theorem substituteVariables_equation {lookup : Lookup} (hx : IsName x) (hy : IsName y)
    (foundx : lookup x = some [.str a]) (foundy : lookup y = some [.str b]) :
    (substituteVariables lookup (equation x y)).toList = stringEquation a.toList b.toList := by
  have whole : (equation x y).toList =
      '$' :: (x.toList ++ ' ' :: '=' :: '=' :: ' ' :: '$' :: (y.toList ++ [])) := by
    simp [equation, String.toList_append]
  have written (s : String) : (Value.text [.str s]).toList = '"' :: (s.toList ++ ['"']) := by
    simp [Term.text, String.toList_append]
  have kept (c : Char) (cs : List Char) (hc : c ≠ '$') :
      Interpolation.writing lookup Value.text Interpolation.cutVariable? (c :: cs) = none := by
    simp [Interpolation.writing, Interpolation.cutVariable?, hc]
  have blank (cs : List Char) : ∀ c ∈ (' ' :: cs).head?, Text.isName c = false := by
    simp; decide
  have last : ∀ c ∈ ([] : List Char).head?, Text.isName c = false := by simp
  rw [substituteVariables, String.toList_ofList, whole, replaceMatches_cutVariable? hx foundx (blank _),
    Text.replaceMatches_of_none (kept _ _ (by decide)), Text.replaceMatches_of_none (kept _ _ (by decide)),
    Text.replaceMatches_of_none (kept _ _ (by decide)), Text.replaceMatches_of_none (kept _ _ (by decide)),
    replaceMatches_cutVariable? hy foundy last, written, written, Text.replaceMatches_nil]
  simp [stringEquation]

/-- Strings without double quotes are still the same strings when the condition is evaluated. -/
theorem evaluate_normalize_stringEquation (freea : '"' ∉ a.toList) (freeb : '"' ∉ b.toList)
    {condition : String} (h : condition.toList = stringEquation a.toList b.toList) :
    evaluate (normalize condition) = .ok (.bool (a == b)) := by
  have kept (c : Char) (cs : List Char) (hc : c = ' ' ∨ c = '=') : cutLiteral? (c :: cs) = none := by
    rcases hc with rfl | rfl <;> rfl
  have normal : (normalize condition).toList =
      Literal.quote a.toList ++ ' ' :: '=' :: '=' :: ' ' :: (Literal.quote b.toList ++ []) := by
    rw [normalize, String.toList_ofList, h, stringEquation, replaceMatches_cutLiteral?_string freea,
      Text.replaceMatches_of_none (kept _ _ (.inl rfl)), Text.replaceMatches_of_none (kept _ _ (.inr rfl)),
      Text.replaceMatches_of_none (kept _ _ (.inr rfl)), Text.replaceMatches_of_none (kept _ _ (.inl rfl)),
      replaceMatches_cutLiteral?_string freeb, Text.replaceMatches_nil]
  have read : tokens (normalize condition) = .ok [.str a, .symbol .equal, .str b] := by
    rw [tokens, normal, tokensFrom_of_quote rfl, tokensFrom_of_cutToken rfl (cutToken_equal _ _),
      tokensFrom_of_quote rfl, tokensFrom_of_blank rfl, String.ofList_toList, String.ofList_toList]
    rfl
  rw [evaluate, read]
  rfl

end Condition

namespace Walker

open Condition (equation)

variable {σ : Type} {services : Services σ}

/-- **Strings reach conditions as they are**, as long as there is no double quote in them: with two variables
that hold such strings, the condition that they are equal holds exactly when the strings are the same,
whatever else is in them. Asking for it changes nothing. -/
theorem holds_equal_strings (plain : services.conditions = Services.plain.conditions) {w : World σ}
    {x y a b : String} (hx : IsName x) (hy : IsName y) (boundx : w.context.scope.get? x = some [.str a])
    (boundy : w.context.scope.get? y = some [.str b]) (freea : '"' ∉ a.toList) (freeb : '"' ∉ b.toList) :
    (holds services (equation x y)).exec w = (.ok (decide (a = b)), w) := by
  have text := Condition.substituteVariables_equation hx hy boundx boundy
  have value := Condition.evaluate_normalize_stringEquation freea freeb text
  rw [holds, Expansion.exec_scope_bind, plain]
  simp only [Services.plain, value]
  rfl

/-- A world that knows two variables with string values. -/
def stringWorld (a b : String) : World Unit :=
  ⟨.empty, { Context.empty with scope := (Scope.empty.define "x" [.str a]).define "y" [.str b] }, ()⟩

/-- Single quotes, backslashes, operators, variables and line ends make no difference. -/
theorem holds_equal_strings_special :
    (holds Services.plain "$x == $y").exec (stringWorld "it's \\ or $y\n" "it's \\ or $y\n") =
      (.ok true, stringWorld "it's \\ or $y\n" "it's \\ or $y\n") := by
  have condition : equation "x" "y" = "$x == $y" := by decide
  have hx : IsName "x" := ⟨by decide, by decide⟩
  have hy : IsName "y" := ⟨by decide, by decide⟩
  have free : '"' ∉ "it's \\ or $y\n".toList := by decide
  rw [← condition]
  exact holds_equal_strings rfl hx hy rfl rfl free free

/-- A double quote ends the string that it is in, and what is behind it is read as part of the condition. -/
theorem not_holds_equal_strings :
    ¬ ∀ a b : String, (holds Services.plain "$x == $y").exec (stringWorld a b) =
      (.ok (decide (a = b)), stringWorld a b) := by
  intro h
  have text : substituteVariables (stringWorld "z\" or \"" "z").context.scope.get? "$x == $y" =
      "\"z\" or \"\" == \"z\"" := by decide +kernel
  have value : Condition.evaluate (Condition.normalize "\"z\" or \"\" == \"z\"") = .ok (.bool true) := by
    have normal : (Condition.normalize "\"z\" or \"\" == \"z\"").toList =
        Literal.quote ['z'] ++ ' ' :: 'o' :: 'r' :: ' ' :: (Literal.quote [] ++
          ' ' :: '=' :: '=' :: ' ' :: (Literal.quote ['z'] ++ [])) := by decide +kernel
    generalize Condition.normalize "\"z\" or \"\" == \"z\"" = condition at normal ⊢
    have operator (rest : List Char) :
        Condition.cutToken condition 'o' ('r' :: ' ' :: rest) = .ok (.word "or", ' ' :: rest) := rfl
    rw [Condition.evaluate, Condition.tokens, normal, Condition.tokensFrom_of_quote rfl,
      Condition.tokensFrom_of_cutToken rfl (operator _), Condition.tokensFrom_of_quote rfl,
      Condition.tokensFrom_of_cutToken rfl (Condition.cutToken_equal _ _), Condition.tokensFrom_of_quote rfl,
      Condition.tokensFrom_of_blank rfl]
    rfl
  have holds : (holds Services.plain "$x == $y").exec (stringWorld "z\" or \"" "z") =
      (.ok true, stringWorld "z\" or \"" "z") := by
    rw [holds, Expansion.exec_scope_bind]
    simp only [Services.plain, text, value]
    rfl
  have same : (.ok (decide ("z\" or \"" = "z")) : Except Stop Bool) = .ok true :=
    congrArg Prod.fst ((h "z\" or \"" "z").symm.trans holds)
  exact absurd (of_decide_eq_true (Except.ok.inj same)) (by decide)

end Walker

end Stylesheet
