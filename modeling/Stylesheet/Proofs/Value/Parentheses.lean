import Stylesheet.Value.Reader

/-! # Closing parentheses

The inside of a call goes up to the parenthesis that closes it, with open parentheses counted and quotes gone
over. A text **`Passes`** from one number of open parentheses to another if this search goes through it whatever
follows, and it is **`Closed`** if the search ends right behind it. Text that closes no parentheses but its own
is passed in parentheses at any depth (`Closed.passes`), since parentheses are closed from the inside out
(`untilClosed_add`). -/

namespace Stylesheet

namespace Lexeme

/-- Whether a character has a meaning for the search: a parenthesis or a quote. -/
def isDelimiter (c : Char) : Bool := c == '(' || c == ')' || c == '"' || c == '\''

/-- The search goes through a text and on behind it. -/
def Passes (d d' : Nat) (text : List Char) : Prop :=
  ∀ rest, untilClosed d none (text ++ rest) =
    (untilClosed d' none rest).map fun (inside, rest) => (text ++ inside, rest)

/-- The search ends right behind a text. -/
def Closed (d : Nat) (inside : List Char) : Prop :=
  ∀ rest, untilClosed d none (inside ++ ')' :: rest) = some (inside, rest)

/-- The search ends at a parenthesis that closes the last one, or goes on, with more parentheses around it as
with none. -/
theorem untilClosed_cons (k : Nat) (q : Option Char) (c : Char) : (k = 0 ∧ q = none ∧ c = ')') ∨
    ∃ k' q', ∀ m cs, untilClosed (k + m) q (c :: cs) =
      (untilClosed (k' + m) q' cs).map fun (inside, rest) => (c :: inside, rest) := by
  cases q with
  | some q => exact .inr ⟨k, _, fun _ _ => rfl⟩
  | none =>
    by_cases closing : c = ')'
    · subst closing
      cases k with
      | zero => exact .inl ⟨rfl, rfl, rfl⟩
      | succ k =>
        refine .inr ⟨k, none, fun m cs => ?_⟩
        rw [Nat.succ_add]
        rfl
    · by_cases opening : c = '('
      · subst opening
        refine .inr ⟨k + 1, none, fun m cs => ?_⟩
        rw [Nat.add_right_comm]
        rfl
      · refine .inr ⟨k, if c == '"' || c == '\'' then some c else none, fun m cs => ?_⟩
        simp [untilClosed, closing, opening]

/-- A search that succeeds has gone through what it found, and would have whatever follows. -/
theorem untilClosed_append {k : Nat} {q : Option Char} {cs inside rest : List Char}
    (h : untilClosed k q cs = some (inside, rest)) :
    cs = inside ++ ')' :: rest ∧ ∀ rest', untilClosed k q (inside ++ ')' :: rest') = some (inside, rest') := by
  induction cs generalizing k q inside with
  | nil => cases h
  | cons c cs ih =>
    rcases untilClosed_cons k q c with ⟨rfl, rfl, rfl⟩ | ⟨k', q', step⟩
    · cases h
      exact ⟨rfl, fun _ => rfl⟩
    · have inner := step 0
      simp only [Nat.add_zero] at inner
      rw [inner] at h
      obtain ⟨⟨inside', rest'⟩, found, same⟩ := Option.map_eq_some_iff.1 h
      cases same
      obtain ⟨parts, again⟩ := ih found
      refine ⟨congrArg (c :: ·) parts, fun more => ?_⟩
      rw [List.cons_append, inner, again more]
      rfl

/-- The innermost parentheses are closed first. -/
theorem untilClosed_add (k d : Nat) (q : Option Char) (cs : List Char) :
    untilClosed (k + (d + 1)) q cs = (untilClosed k q cs).bind fun (inside, rest) =>
      (untilClosed d none rest).map fun (inside', rest') => (inside ++ ')' :: inside', rest') := by
  induction cs generalizing k q with
  | nil => rfl
  | cons c cs ih =>
    rcases untilClosed_cons k q c with ⟨rfl, rfl, rfl⟩ | ⟨k', q', step⟩
    · -- the inner search ends here, and the outer one begins with its own parentheses
      rw [Nat.zero_add]
      rfl
    · have inner := step 0 cs
      rw [Nat.add_zero, Nat.add_zero] at inner
      rw [step, inner, ih]
      cases untilClosed k' q' cs with
      | none => rfl
      | some found => simp [Option.map_map, Function.comp_def]

namespace Passes

variable {d d' d'' : Nat} {text more : List Char}

/-- The empty text passes at every depth. -/
theorem nil : Passes d d [] := fun _ => by simp

/-- Texts that pass one after the other pass together. -/
theorem append (h : Passes d d' text) (h' : Passes d' d'' more) : Passes d d'' (text ++ more) := by
  intro rest
  rw [List.append_assoc, h, h', Option.map_map]
  simp [Function.comp_def]

/-- Characters without a meaning are passed. -/
theorem plain (h : ∀ c ∈ text, isDelimiter c = false) : Passes d d text := by
  induction text with
  | nil => exact nil
  | cons c cs ih =>
    have first : Passes d d [c] := by
      intro rest
      have free := h c (List.mem_cons_self ..)
      simp only [isDelimiter, Bool.or_eq_false_iff, beq_eq_false_iff_ne] at free
      obtain ⟨⟨⟨notLeft, notRight⟩, notQuote⟩, notApostrophe⟩ := free
      simp [untilClosed, notLeft, notRight, notQuote, notApostrophe]
    exact first.append (ih fun d hd => h d (List.mem_cons_of_mem _ hd))

/-- A quoted string is passed, whatever is in it. -/
theorem quoted {q : Char} (quote : q = '"' ∨ q = '\'') (free : q ∉ text) : Passes d d (q :: (text ++ [q])) := by
  have inside (rest : List Char) : untilClosed d (some q) (text ++ q :: rest) =
      (untilClosed d none rest).map fun (inside, rest) => (text ++ q :: inside, rest) := by
    induction text with
    | nil => simp [untilClosed]
    | cons c cs ih =>
      rw [List.mem_cons, not_or] at free
      rw [List.cons_append, untilClosed, if_neg (by simpa using Ne.symm free.1), ih free.2]
      exact Option.map_map ..
  intro rest
  have opened : untilClosed d none (q :: (text ++ q :: rest)) =
      (untilClosed d (some q) (text ++ q :: rest)).map fun (inside, rest) => (q :: inside, rest) := by
    rcases quote with rfl | rfl <;> rfl
  rw [List.cons_append, List.append_assoc, List.singleton_append, opened, inside, Option.map_map]
  simp [Function.comp_def]

/-- An opening parenthesis leads one deeper. -/
theorem left : Passes d (d + 1) ['('] := fun _ => rfl

/-- A closing parenthesis leads back. -/
theorem right : Passes (d + 1) d [')'] := fun _ => rfl

/-- With no parenthesis left, the next one that closes is the last. -/
theorem closed (h : Passes d 0 text) : Closed d text := by
  intro rest
  rw [h]
  simp [untilClosed]

/-- A search that ends behind more of a text goes on behind what is passed. -/
theorem closed_of_append (h : Passes d d' text) (closed : Closed d (text ++ more)) : Closed d' more := by
  intro rest
  have found := closed rest
  rw [List.append_assoc, h] at found
  obtain ⟨⟨inside, rest'⟩, found, same⟩ := Option.map_eq_some_iff.1 found
  obtain ⟨inside, rest⟩ := Prod.mk.inj same
  rw [found, List.append_cancel_left inside, rest]

end Passes

/-- Closed text in parentheses is passed at any depth. -/
theorem Closed.passes {inside : List Char} (h : Closed 0 inside) (d : Nat) : Passes d d ('(' :: (inside ++ [')'])) := by
  intro rest
  have opened : untilClosed d none ('(' :: (inside ++ ')' :: rest)) =
      (untilClosed (0 + (d + 1)) none (inside ++ ')' :: rest)).map fun (inside, rest) => ('(' :: inside, rest) := by
    rw [Nat.zero_add]
    rfl
  rw [List.cons_append, List.append_assoc, List.singleton_append, opened, untilClosed_add, h]
  simp [Option.map_map, Function.comp_def]

end Lexeme

end Stylesheet
