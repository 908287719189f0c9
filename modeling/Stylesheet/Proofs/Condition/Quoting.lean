import Stylesheet.Proofs.Condition.Strings

/-! # Quoted strings

A string as a literal is written in single quotes, with single quotes and backslashes in it escaped. Looking for its
end goes over the escapes just as reading undoes them (`untilApostrophe_escape`, beside `untilQuote_escape`), so it is
found whole and kept as it is, whatever stands behind it (`replaceMatches_cutLiteral?_quote`). There it is a
token of its own.

A literal therefore means the string that it was written for, and the normal form of a string in double quotes is the
literal (`normalize_quoted`). -/

namespace Stylesheet

namespace Condition

/-- What is special is escaped, and all else stands for itself. -/
theorem escape_cons (c : Char) (cs : List Char) : Literal.escape (c :: cs) =
    (if c == '\\' || c == '\'' then ['\\', c] else [c]) ++ Literal.escape cs := rfl

/-- The end of a string is not found in its escapes. -/
theorem untilApostrophe_escape (text rest : List Char) :
    untilApostrophe (Literal.escape text ++ '\'' :: rest) = some (Literal.escape text ++ ['\''], rest) := by
  induction text with
  | nil => rfl
  | cons c cs ih =>
    rw [escape_cons]
    by_cases special : (c == '\\' || c == '\'') = true
    · -- behind a backslash there is a quote or a backslash, so the line does not end there
      have inLine : (c == '\n') = false := by
        rcases Bool.or_eq_true_iff.1 special with is | is <;> rw [beq_iff_eq.1 is] <;> rfl
      rw [if_pos special, List.append_assoc]
      show untilApostrophe ('\\' :: c :: (Literal.escape cs ++ '\'' :: rest)) = _
      rw [untilApostrophe, inLine, if_neg Bool.false_ne_true, ih]
      rfl
    · rw [if_neg special, List.append_assoc, List.singleton_append]
      simp only [Bool.or_eq_true, beq_iff_eq, not_or] at special
      rw [untilApostrophe, ih]
      · rfl
      · exact special.2
      · exact special.1

/-- A literal is found whole, whatever stands behind it. -/
theorem cutLiteral?_quote (text rest : List Char) :
    cutLiteral? (Literal.quote text ++ rest) = some (Literal.quote text, rest) := by
  have quoted : Literal.quote text ++ rest = '\'' :: (Literal.escape text ++ '\'' :: rest) := by
    simp [Literal.quote]
  have notDouble : ('\'' == '"') = false := rfl
  rw [quoted, cutLiteral?, notDouble, if_neg Bool.false_ne_true, if_pos (beq_self_eq_true _),
    untilApostrophe_escape]
  rfl

/-- The normal form leaves literals as they are. -/
theorem replaceMatches_cutLiteral?_quote (text rest : List Char) :
    Text.replaceMatches cutLiteral? (Literal.quote text ++ rest) =
      Literal.quote text ++ Text.replaceMatches cutLiteral? rest := by
  have cut := cutLiteral?_quote text rest
  rw [Literal.quote, List.append_assoc, List.cons_append] at cut ⊢
  exact Text.replaceMatches_of_some cut (by simp; omega)

/-- A literal alone is the string it was written for. -/
theorem evaluate_quote {condition : String} {text : List Char} (h : condition.toList = Literal.quote text) :
    evaluate condition = .ok (.str (String.ofList text)) := by
  have read : tokens condition = .ok [.str (String.ofList text)] := by
    rw [tokens, h, ← List.append_nil (Literal.quote text), tokensFrom_of_quote rfl, tokensFrom_of_blank rfl]
    rfl
  rw [evaluate, read]
  rfl

/-- **Strings are written as literals and read back.** Whatever its characters are, the literal of a string is in
normal form already and is evaluated to the string; and it is the normal form of the string in double quotes, if there
is no double quote in it. -/
theorem normalize_quoted (s : String) :
    normalize (Literal.str s).text = (Literal.str s).text ∧ evaluate (Literal.str s).text = .ok (.str s) ∧
      ('"' ∉ s.toList → normalize ("\"" ++ s ++ "\"") = (Literal.str s).text) := by
  have text : (Literal.str s).text.toList = Literal.quote s.toList := String.toList_ofList
  refine ⟨?_, ?_, fun free => ?_⟩
  · have kept := replaceMatches_cutLiteral?_quote s.toList []
    rw [Text.replaceMatches_nil, List.append_nil] at kept
    rw [normalize, text, kept]
    rfl
  · rw [evaluate_quote text, String.ofList_toList]
  · have double : ("\"" ++ s ++ "\"").toList = '"' :: (s.toList ++ ['"']) := by simp [String.toList_append]
    rw [normalize, double, replaceMatches_cutLiteral?_string free, Text.replaceMatches_nil, List.append_nil]
    rfl

/-- Backslashes in front of quotes and at the end, line ends, keywords and operators make no difference. -/
theorem normalize_quoted_special :
    '"' ∉ "\\' or \\\n not 1 == '\\".toList ∧
      normalize "\"\\' or \\\n not 1 == '\\\"" = "'\\\\\\' or \\\\\n not 1 == \\'\\\\'" ∧
      evaluate "'\\\\\\' or \\\\\n not 1 == \\'\\\\'" = .ok (.str "\\' or \\\n not 1 == '\\") := by
  have free : '"' ∉ "\\' or \\\n not 1 == '\\".toList := by decide
  exact ⟨free, (normalize_quoted "\\' or \\\n not 1 == '\\").2.2 free,
    (normalize_quoted "\\' or \\\n not 1 == '\\").2.1⟩

end Condition

end Stylesheet
