import Stylesheet.Interpolation

/-! # Variables and placeholders in texts

What is cut off the front of a text where a variable or a placeholder stands. A placeholder
(**`IsPlaceholder`**) may stand anywhere: its value takes its place, and what is in front of it and what is
behind it are resolved on their own (`interpolate_placeholder`), since no match reaches over the `#` that
it begins with. -/

namespace Stylesheet

namespace Text

/-! ## Runs of characters -/

section

variable {p : Char → Bool} {c : Char}

/-- A run ends in front of a character that does not belong to it. -/
theorem takeWhile_append_cons (hc : p c = false) (text rest : List Char) :
    (text ++ c :: rest).takeWhile p = text.takeWhile p := by
  rw [List.takeWhile_append]
  split
  · next h =>
    rw [List.takeWhile_cons_of_neg (by simp [hc]), List.append_nil]
    exact ((List.takeWhile_prefix p).eq_of_length h).symm
  · rfl

/-- A run ends no later than at a character outside of its class. -/
theorem dropWhile_append_cons (hc : p c = false) (text rest : List Char) :
    (text ++ c :: rest).dropWhile p = text.dropWhile p ++ c :: rest := by
  rw [List.dropWhile_append]
  split
  · next h =>
    rw [List.isEmpty_iff.1 h, List.nil_append, List.dropWhile_cons_of_neg (by simp [hc])]
  · rfl

variable {run rest : List Char}

/-- A run is taken whole. -/
theorem takeWhile_run (hrun : ∀ c ∈ run, p c = true) (hrest : ∀ c ∈ rest.head?, p c = false) :
    (run ++ rest).takeWhile p = run := by
  rw [List.takeWhile_append_of_pos hrun]
  cases rest with
  | nil => simp
  | cons c rest => rw [List.takeWhile_cons_of_neg (by simp [hrest c rfl]), List.append_nil]

/-- A run is dropped up to what cannot continue it. -/
theorem dropWhile_run (hrun : ∀ c ∈ run, p c = true) (hrest : ∀ c ∈ rest.head?, p c = false) :
    (run ++ rest).dropWhile p = rest := by
  rw [List.dropWhile_append_of_pos hrun]
  cases rest with
  | nil => rfl
  | cons c rest => rw [List.dropWhile_cons_of_neg (by simp [hrest c rfl])]

/-- Where the first character is not taken, none is. -/
theorem takeWhile_of_head? (hrest : ∀ c ∈ rest.head?, p c = false) : rest.takeWhile p = [] := by
  have none : ∀ c ∈ ([] : List Char), p c = true := fun _ hc => nomatch hc
  exact takeWhile_run none hrest

/-- Where no run begins, nothing is dropped. -/
theorem dropWhile_of_head? (hrest : ∀ c ∈ rest.head?, p c = false) : rest.dropWhile p = rest := by
  have none : ∀ c ∈ ([] : List Char), p c = true := fun _ hc => nomatch hc
  exact dropWhile_run none hrest

end

/-- The code points of the blanks. -/
def blankCodes : List Nat :=
  [0x9, 0xA, 0xB, 0xC, 0xD, 0x20, 0x85, 0xA0, 0x1680, 0x2000, 0x2001, 0x2002, 0x2003, 0x2004, 0x2005,
   0x2006, 0x2007, 0x2008, 0x2009, 0x200A, 0x2028, 0x2029, 0x202F, 0x205F, 0x3000]

/-- No blank belongs to a name. -/
theorem isName_of_isBlank {c : Char} (h : isBlank c = true) : isName c = false := by
  have mem : c.toNat ∈ blankCodes := by
    simp only [isBlank, blankRanges, inRanges_cons, inRanges_nil, Bool.or_false, Bool.or_eq_true,
      Bool.and_eq_true, decide_eq_true_eq] at h
    simp only [blankCodes, List.mem_cons, List.not_mem_nil, or_false]
    omega
  have all : ∀ n ∈ blankCodes, isName (Char.ofNat n) = false := by decide +kernel
  rw [← Char.ofNat_toNat c]
  exact all _ mem

/-! ## Replacing on both sides of a border -/

/-- When no match reaches over a border, the texts on both sides of it are replaced on their own. -/
theorem replaceMatches_append {cut? : List Char → Option (List Char × List Char)} {behind : List Char}
    (border : ∀ c cs, cut? (c :: (cs ++ behind)) =
      (cut? (c :: cs)).map fun (written, rest) => (written, rest ++ behind)) (text : List Char) :
    replaceMatches cut? (text ++ behind) = replaceMatches cut? text ++ replaceMatches cut? behind := by
  fun_induction replaceMatches cut? text with
  | case1 => rfl
  | case2 c cs written rest cut shorter ih =>
    have cut' : cut? (c :: (cs ++ behind)) = some (written, rest ++ behind) := by rw [border, cut]; rfl
    rw [List.cons_append, replaceMatches_of_some cut' (by simpa using shorter), ih, List.append_assoc]
  | case3 c cs written rest cut longer ih =>
    have cut' : cut? (c :: (cs ++ behind)) = some (written, rest ++ behind) := by rw [border, cut]; rfl
    rw [List.cons_append, replaceMatches, cut', List.cons_append]
    dsimp only
    rw [if_neg (by simpa using longer), ih]
  | case4 c cs cut ih =>
    have cut' : cut? (c :: (cs ++ behind)) = none := by rw [border, cut]; rfl
    rw [List.cons_append, replaceMatches_of_none cut', ih, List.cons_append]

end Text

/-- A name that a variable may have. -/
structure IsName (name : String) : Prop where
  ne : name ≠ ""
  all : name.toList.all Text.isName = true

/-- All characters of a name continue one. -/
theorem IsName.chars {name : String} (h : IsName name) : ∀ c ∈ name.toList, Text.isName c = true :=
  List.all_eq_true.1 h.all

/-- A text is the placeholder of a name, with any blanks around the variable. -/
def IsPlaceholder (name text : String) : Prop :=
  IsName name ∧ ∃ before after : List Char, (before ++ after).all Text.isBlank = true ∧
    text.toList = '#' :: '\x7b' :: (before ++ '$' :: (name.toList ++ (after ++ ['\x7d'])))

namespace Interpolation

/-! ## Variables -/

/-- A variable is cut off as far as its name goes. -/
theorem cutVariable?_variable {name : String} (named : IsName name) {rest : List Char}
    (ends : ∀ c ∈ rest.head?, Text.isName c = false) :
    cutVariable? ('$' :: (name.toList ++ rest)) = some (name, rest) := by
  have ne : name.toList ≠ [] := fun h => named.ne (String.toList_eq_nil_iff.1 h)
  simp only [cutVariable?, Text.takeWhile_run named.chars ends, Text.dropWhile_run named.chars ends,
    String.ofList_toList, List.isEmpty_eq_false_iff.2 ne]
  rfl

/-- A variable does not reach over a `#`. -/
theorem cutVariable?_append (text rest : List Char) :
    cutVariable? (text ++ '#' :: rest) =
      (cutVariable? text).map fun (name, behind) => (name, behind ++ '#' :: rest) := by
  have stop : Text.isName '#' = false := by decide
  cases text with
  | nil => rfl
  | cons c cs =>
    by_cases hc : c = '$'
    · subst hc
      simp only [List.cons_append, cutVariable?, Text.takeWhile_append_cons stop,
        Text.dropWhile_append_cons stop]
      split <;> rfl
    · simp [cutVariable?, hc]

/-! ## Placeholders -/

/-- A placeholder is cut off. -/
theorem cutPlaceholder?_placeholder {name text : String} (h : IsPlaceholder name text)
    (rest : List Char) : cutPlaceholder? (text.toList ++ rest) = some (name, rest) := by
  obtain ⟨named, before, after, blank, written⟩ := h
  rw [List.all_append, Bool.and_eq_true, List.all_eq_true, List.all_eq_true] at blank
  obtain ⟨blank_before, blank_after⟩ := blank
  have ends : ∀ c ∈ (after ++ '\x7d' :: rest).head?, Text.isName c = false := by
    cases after with
    | nil => simp; decide
    | cons c cs => simpa using Text.isName_of_isBlank (blank_after c (by simp))
  have whole : text.toList ++ rest =
      '#' :: '\x7b' :: (before ++ '$' :: (name.toList ++ (after ++ '\x7d' :: rest))) := by
    simp [written]
  have first : Text.trimLeft (before ++ '$' :: (name.toList ++ (after ++ '\x7d' :: rest))) =
      '$' :: (name.toList ++ (after ++ '\x7d' :: rest)) :=
    Text.dropWhile_run blank_before (by simp; decide)
  have last : Text.trimLeft (after ++ '\x7d' :: rest) = '\x7d' :: rest :=
    Text.dropWhile_run blank_after (by simp; decide)
  rw [whole]
  simp only [cutPlaceholder?, first, cutVariable?_variable named ends, last]

/-- A placeholder does not reach over a `#` behind its own. -/
theorem cutPlaceholder?_append (c : Char) (cs rest : List Char) :
    cutPlaceholder? (c :: (cs ++ '#' :: rest)) =
      (cutPlaceholder? (c :: cs)).map fun (name, behind) => (name, behind ++ '#' :: rest) := by
  have stop : Text.isBlank '#' = false := by decide
  by_cases hash : c = '#'
  · subst hash
    cases cs with
    | nil => rfl
    | cons d cs =>
      by_cases brace : d = '\x7b'
      · subst brace
        simp only [List.cons_append, cutPlaceholder?, Text.trimLeft, Text.dropWhile_append_cons stop,
          cutVariable?_append]
        cases cutVariable? (cs.dropWhile Text.isBlank) with
        | none => rfl
        | some cut =>
          obtain ⟨name, behind⟩ := cut
          simp only [Option.map_some, Text.dropWhile_append_cons stop]
          -- what closes the placeholder, if anything does
          cases behind.dropWhile Text.isBlank with
          | nil => rfl
          | cons e es =>
            by_cases close : e = '\x7d'
            · subst close; rfl
            · simp [close]
      · simp [cutPlaceholder?, brace]
  · simp [cutPlaceholder?, hash]

/-! ## Texts -/

/-- Resolve the placeholders in the characters of a text. -/
def resolveChars (lookup : Lookup) : List Char → List Char :=
  Text.replaceMatches (writing lookup Value.unquoted cutPlaceholder?)

variable {lookup : Lookup}

/-- The empty text has no placeholders. -/
@[simp] theorem resolveChars_nil : resolveChars lookup [] = [] := Text.replaceMatches_nil

/-- A character that begins no placeholder is kept. -/
theorem resolveChars_cons {c : Char} {cs : List Char} (h : cutPlaceholder? (c :: cs) = none) :
    resolveChars lookup (c :: cs) = c :: resolveChars lookup cs :=
  Text.replaceMatches_of_none (by rw [writing, h])

/-- The value of a variable takes the place of its placeholder. -/
theorem resolveChars_placeholder {name placeholder : String} {value : Value}
    (found : lookup name = some value) (h : IsPlaceholder name placeholder) (rest : List Char) :
    resolveChars lookup (placeholder.toList ++ rest) =
      value.unquoted.toList ++ resolveChars lookup rest := by
  have cut := cutPlaceholder?_placeholder h rest
  obtain ⟨-, before, after, -, written⟩ := h
  rw [written, List.cons_append] at cut ⊢
  exact Text.replaceMatches_of_some (by rw [writing, cut]; simp [found]) (by simp; omega)

/-- In front of a `#` characters are resolved on their own. -/
theorem resolveChars_append (text rest : List Char) :
    resolveChars lookup (text ++ '#' :: rest) = resolveChars lookup text ++ resolveChars lookup ('#' :: rest) := by
  refine Text.replaceMatches_append (fun c cs => ?_) text
  simp only [writing, cutPlaceholder?_append]
  cases cutPlaceholder? (c :: cs) with
  | none => rfl
  | some cut => cases h : lookup cut.1 <;> simp [h]

end Interpolation

open Interpolation in
/-- **Placeholders are resolved wherever they stand**: the value takes the place of the placeholder, and the
texts on both sides of it are resolved on their own. -/
theorem interpolate_placeholder {lookup : Lookup} {name placeholder : String} {value : Value}
    (found : lookup name = some value) (h : IsPlaceholder name placeholder) (l r : String) :
    interpolate lookup (l ++ placeholder ++ r) =
      interpolate lookup l ++ value.unquoted ++ interpolate lookup r := by
  have middle := resolveChars_placeholder found h r.toList
  obtain ⟨-, before, after, -, written⟩ := h
  rw [written, List.cons_append] at middle
  have whole : resolveChars lookup (l ++ placeholder ++ r).toList =
      resolveChars lookup l.toList ++ (value.unquoted.toList ++ resolveChars lookup r.toList) := by
    rw [String.toList_append, String.toList_append, List.append_assoc, written, List.cons_append,
      resolveChars_append, middle]
  show String.ofList (resolveChars lookup (l ++ placeholder ++ r).toList) =
    String.ofList (resolveChars lookup l.toList) ++ value.unquoted ++
      String.ofList (resolveChars lookup r.toList)
  rw [whole, String.ofList_append, String.ofList_append, String.ofList_toList, String.append_assoc]

end Stylesheet
