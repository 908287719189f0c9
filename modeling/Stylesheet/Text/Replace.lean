/-! # Replacing matches in a text

**`Text.replaceMatches`** goes through a text once, from left to right, and replaces each match by what
is written for it. A match is found by a function that looks at the front of the text; where it finds
none, one character is kept. What has been written is not looked at again. -/

namespace Stylesheet

namespace Text

/-- Replace matches from left to right. `cut?` gives, for a match at the front, what to write for it and
the text behind it, which has to be shorter than the whole. -/
def replaceMatches (cut? : List Char → Option (List Char × List Char)) (text : List Char) : List Char :=
  match text with
  | [] => []
  | c :: cs =>
    match cut? (c :: cs) with
    | some (written, rest) =>
      if rest.length ≤ cs.length then written ++ replaceMatches cut? rest
      else c :: replaceMatches cut? cs   -- a match that takes nothing is none
    | none => c :: replaceMatches cut? cs
termination_by text.length

variable {cut? : List Char → Option (List Char × List Char)}

/-- In the empty text nothing is replaced. -/
@[simp] theorem replaceMatches_nil : replaceMatches cut? [] = [] := by rw [replaceMatches]

/-- Where nothing matches, a character is kept. -/
theorem replaceMatches_of_none {c : Char} {cs : List Char} (h : cut? (c :: cs) = none) :
    replaceMatches cut? (c :: cs) = c :: replaceMatches cut? cs := by rw [replaceMatches, h]

/-- A match is replaced, and the search goes on behind it. -/
theorem replaceMatches_of_some {c : Char} {cs written rest : List Char}
    (h : cut? (c :: cs) = some (written, rest)) (hlen : rest.length ≤ cs.length) :
    replaceMatches cut? (c :: cs) = written ++ replaceMatches cut? rest := by
  rw [replaceMatches, h]
  simp [hlen]

/-- Where nothing matches anywhere, a text stays as it is. -/
theorem replaceMatches_of_forall_none (h : ∀ c cs, cut? (c :: cs) = none) (text : List Char) :
    replaceMatches cut? text = text := by
  induction text with
  | nil => simp
  | cons c cs ih => rw [replaceMatches_of_none (h c cs), ih]

end Text

end Stylesheet
