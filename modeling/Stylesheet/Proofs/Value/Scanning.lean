import Mathlib.Logic.Relation
import Stylesheet.Proofs.Outcome
import Stylesheet.Proofs.Value.Tracking

/-! # Reading stops only in front of words

Reading the bytes of a text goes on from one **`Scanner.Position`** to the next: over blanks, a lexeme is cut off, and
the parameters of a call are read as a text of their own before what stands behind the call. Every lexeme takes at
least one byte and parameters are shorter than what they stand in (`Scanner.Position.left_lt_of_next`), so reading ends.

All positions that are reached (**`Scanner.Position.Reached`**) are between characters
(`Scanner.Position.Reached.exists_between`). There the bytes are read as the characters are
(`Scanner.Position.Between.same_read`), unless a lexeme begins with a byte that is not ASCII: this is where the only
slice is asked for that is not there (**`Scanner.read_safe`**). -/

namespace Stylesheet

/-- Whether an operand has to follow a lexeme. -/
def Lexeme.wantsOperand : Lexeme → Bool
  | .term t => t.wantsOperand
  | .call _ _ => false

namespace Scanner

open Text

/-- What is read from bytes and what is read from characters: the same value, or the same fault, where a missing slice
is the fault of a word that begins with a character that is not ASCII. -/
inductive Same : Except Stop Value → Except Error Value → Prop
  | value (v : Value) : Same (.ok v) (.ok v)
  | slice (text : List Char) (start stop : Nat) :
    Same (.error (.slice text start stop)) (.error (.foreignWord (String.ofList text)))
  | fault {e : Error} (known : ∀ source, e ≠ .foreignWord source) : Same (.error (.fault e)) (.error e)

/-- What is made of the same value is the same. -/
theorem Same.map {x : Except Stop Value} {y : Except Error Value} (h : Same x y) (f : Value → Value) :
    Same (x.map f) (y.map f) := by
  cases h with
  | value v => exact .value (f v)
  | slice text start stop => exact .slice text start stop
  | fault known => exact .fault known

/-! ## Going on -/

section

variable {p : UInt8 → Bool} {text : List Char} {start stop place : Nat}

/-- A scan ends where the class of bytes does. -/
theorem gives_scan : Gives (fun r => r.2 = endOf p text start) (scan p text start) := .any_bind fun _ => .ok rfl

/-- A slice is part of the text behind its beginning. -/
theorem gives_slice : Gives (fun part => start + size part ≤ size text) (slice text start stop) := by
  unfold slice
  split
  next part found =>
    obtain ⟨front, back, rfl, rfl, -⟩ := slice?_eq_some_iff.1 found
    rw [size_append, size_append]
    exact .ok (Nat.le_add_right ..)
  next => exact .error _

/-- What is cut off at a place ends behind it, and parameters stand behind it. -/
structure Advances (text : List Char) (place : Nat) (r : Lexeme × Nat) : Prop where
  lt : place < r.2
  inside : ∀ name inside, r.1 = .call name inside → place + size inside < size text

/-- A term that takes at least one byte advances. -/
theorem Advances.term {t : Term} (lt : place < stop) : Advances text place (.term t, stop) := ⟨lt, nofun⟩

/-- A class of bytes ends no sooner than where it is looked for. -/
theorem le_endOf (p : UInt8 → Bool) (text : List Char) (start : Nat) : start ≤ endOf p text start := Nat.le_add_right ..

/-- A string takes at least its quotation marks. -/
theorem cutString_advances (quote : UInt8) : Gives (Advances text place) (cutString text place quote) := by
  have stop := le_endOf (· != quote) text (place + 1)
  unfold cutString
  dsimp only
  split
  · exact .any_bind fun _ => .ok (.term (by omega))
  · exact .error _

/-- A variable takes at least its dollar sign. -/
theorem cutVariable_advances : Gives (Advances text place) (cutVariable text place) := by
  refine gives_scan.bind fun (name, stop) found => ?_
  have start := le_endOf isNameByte text (place + 1)
  dsimp only at found ⊢
  split
  · exact .error _
  · exact .ok (.term (by omega))

/-- A color or a word behind a number sign takes at least that sign. -/
theorem cutHash_advances : Gives (Advances text place) (cutHash text place) := by
  refine gives_scan.bind fun r stop => .any_bind fun word => .ok (.term ?_)
  have start := le_endOf isNameByte text (place + 1)
  omega

/-- If the byte at a place is in a class, the class ends behind it. -/
theorem lt_endOf (h : (byteAt text place).any p = true) : place < endOf p text place := by
  unfold byteAt at h
  unfold endOf
  rw [← List.head?_drop] at h
  cases behind : (bytes text).drop place with
  | nil =>
    rw [behind] at h
    cases h
  | cons b bs =>
    rw [behind, List.head?_cons, Option.any_some] at h
    rw [List.takeWhile_cons_of_pos h, List.length_cons]
    omega

/-- A number has a sign, or begins with a digit or a point. -/
theorem cutNumber_advances
    (begins : (byteAt text place).any (· == byte '-') = true ∨ (byteAt text place).any isNumeral = true) :
    Gives (Advances text place) (cutNumber text place) := by
  unfold cutNumber
  dsimp only
  refine gives_scan.bind fun digits point => .any_bind fun numeral => gives_scan.bind fun unit stop => .ok (.term ?_)
  have unit := le_endOf isUnitByte text digits.2
  split at point
  next =>
    have digits := le_endOf isNumeral text (place + 1)
    omega
  next unsigned =>
    have digits := lt_endOf (begins.resolve_left unsigned)
    omega

/-- A word takes at least its first byte. -/
theorem cutWord_advances : Gives (Advances text place) (cutWord text place) := by
  refine gives_scan.bind fun (more, stop) found => .any_bind fun name => ?_
  have start := le_endOf (!endsWord ·) text (place + 1)
  dsimp only at found ⊢
  split
  · split
    · exact .error _
    next length closes =>
      refine gives_slice.bind fun inside fits => ?_
      split
      · exact .ok (.term (by omega))
      · refine .ok ⟨by dsimp only; omega, ?_⟩
        rintro _ _ ⟨⟩
        omega
  · exact .ok (.term (by omega))

/-- A number starts with a byte that belongs to its digits. -/
theorem any_isNumeral_of_startsNumber (h : startsNumber text place = true) :
    (byteAt text place).any isNumeral = true := by
  unfold startsNumber at h
  cases first : byteAt text place with
  | none =>
    rw [first] at h
    cases h
  | some b =>
    rw [first] at h
    simp only [Option.any_some, Bool.or_eq_true, Bool.and_eq_true] at h
    rw [Option.any_some, isNumeral, Bool.or_eq_true]
    exact h.imp_right And.left

/-- Cutting goes on. -/
theorem cut_advances (wanted : Bool) {b : UInt8} (first : byteAt text place = some b) :
    Gives (Advances text place) (cut text place wanted b) := by
  unfold cut
  dsimp only
  split
  · exact cutString_advances b
  split
  · exact cutVariable_advances
  split
  · exact cutHash_advances
  split
  next sign =>
    simp only [Bool.and_eq_true] at sign
    exact cutNumber_advances (.inl (by rw [first]; exact sign.1.1))
  split
  · exact cutWord_advances
  split
  next number => exact cutNumber_advances (.inr (any_isNumeral_of_startsNumber number))
  split
  · exact .ok (.term (Nat.lt_succ_self _))
  · exact cutWord_advances

end

/-! ## Positions -/

/-- How far reading has come in a text. `wanted` tells that an operand has to come. -/
structure Position where
  text : List Char
  place : Nat
  wanted : Bool

namespace Position

/-- The beginning of a text. -/
def start (text : List Char) : Position := ⟨text, 0, true⟩

/-- Where the next lexeme begins. -/
def lexemePlace (p : Position) : Nat := endOf isSpace p.text p.place

/-- Whether the next lexeme begins with a byte that is not ASCII. -/
def startsForeign (p : Position) : Bool := (byteAt p.text p.lexemePlace).any fun b => decide (0x80 ≤ b)

/-- The slice that a word would need which begins at the next lexeme: it begins behind the first byte. -/
def wordSlice (p : Position) : Stop :=
  .slice p.text (p.lexemePlace + 1) (endOf (!endsWord ·) p.text (p.lexemePlace + 1))

/-- The next lexeme and the position behind it; nothing at the end of the text. -/
def next (p : Position) : Except Stop (Option (Lexeme × Position)) := do
  let (_, place) ← scan isSpace p.text p.place
  match byteAt p.text place with
  | none => pure none
  | some b =>
    let (l, behind) ← cut p.text place p.wanted b
    pure (some (l, ⟨p.text, behind, l.wantsOperand⟩))

/-- How many bytes are left. -/
def left (p : Position) : Nat := size p.text - p.place

variable {p q : Position} {l : Lexeme}

section

variable {blanks : List Char} {place : Nat} (blank : scan isSpace p.text p.place = .ok (blanks, place))

include blank

/-- At the end nothing comes next. -/
theorem next_of_end (ends : byteAt p.text place = none) : p.next = .ok none := by
  unfold next
  rw [blank]
  simp only [bind, Except.bind, ends]
  rfl

/-- Where a byte stands, a lexeme is cut off there. -/
theorem next_of_byteAt {b : UInt8} (here : byteAt p.text place = some b) :
    p.next = (cut p.text place p.wanted b).map fun r => some (r.1, ⟨p.text, r.2, r.1.wantsOperand⟩) := by
  unfold next
  rw [blank]
  simp only [bind, Except.bind, here]
  cases cut p.text place p.wanted b <;> rfl

end

/-- Every lexeme takes at least one byte. -/
theorem next_advances (h : p.next = .ok (some (l, q))) :
    q.text = p.text ∧ p.lexemePlace < size p.text ∧ Advances p.text p.lexemePlace (l, q.place) := by
  have advances : Gives (fun r => ∀ l q, r = some (l, q) →
      q.text = p.text ∧ p.lexemePlace < size p.text ∧ Advances p.text p.lexemePlace (l, q.place)) p.next := by
    refine gives_scan.bind fun (blanks, place) found => ?_
    dsimp only at found ⊢
    subst found
    split
    · exact .ok nofun
    next b first =>
      refine (cut_advances p.wanted first).bind fun r cut => .ok ?_
      rintro _ _ ⟨⟩
      exact ⟨rfl, (List.getElem?_eq_some_iff.1 first).1, cut⟩
  exact advances _ h l q rfl

/-- Less is left behind a lexeme, and there is less in the parameters of a call. -/
theorem left_lt_of_next (h : p.next = .ok (some (l, q))) :
    q.left < p.left ∧ ∀ name inside, l = .call name inside → (start inside).left < p.left := by
  obtain ⟨text, within, advances⟩ := next_advances h
  have before : p.place ≤ p.lexemePlace := le_endOf ..
  have further : p.lexemePlace < q.place := advances.lt
  unfold left
  rw [text]
  refine ⟨by omega, fun name parameters call => ?_⟩
  have shorter := advances.inside name parameters call
  show size parameters - 0 < _
  omega

/-- Read the rest of a text. The parameters of a call are a text of their own. -/
def read (p : Position) : Except Stop Value :=
  match h : p.next with
  | .error stop => .error stop
  | .ok none => .ok []
  | .ok (some (.term t, q)) =>
    have := (left_lt_of_next h).1
    (read q).map (t :: ·)
  | .ok (some (.call name inside, q)) =>
    have := (left_lt_of_next h).1
    have := (left_lt_of_next h).2 name inside rfl
    match read (start inside) with
    | .error stop => .error stop
    | .ok parameters => (read q).map (.call name parameters :: ·)
termination_by p.left

/-- What is read from a position is the lexeme that comes next, and what is read behind it. -/
theorem read_eq (p : Position) : p.read =
    match p.next with
    | .error stop => .error stop
    | .ok none => .ok []
    | .ok (some (.term t, q)) => q.read.map (t :: ·)
    | .ok (some (.call name inside, q)) =>
      match (start inside).read with
      | .error stop => .error stop
      | .ok parameters => q.read.map (.call name parameters :: ·) := by
  rw [read]
  split
  next failed => simp only [failed]
  next ends => simp only [ends]
  next term => simp only [term]
  next call => simp only [call]

/-! ## Positions between characters -/

/-- A position behind `front` and in front of `cs`, where no blank has just been read. -/
structure Between (p : Position) (front cs : List Char) : Prop where
  text : p.text = front ++ cs
  place : p.place = size front
  visible : front.getLast?.any Lexeme.isSpace = false

/-- The start of a text is between characters. -/
theorem between_start (text : List Char) : (start text).Between [] text := ⟨rfl, rfl, rfl⟩

variable {front cs : List Char}

/-- Behind the blanks stands the next lexeme. -/
theorem Between.scan (h : p.Between front cs) :
    Scanner.scan isSpace p.text p.place =
        .ok (cs.takeWhile Lexeme.isSpace, size (front ++ cs.takeWhile Lexeme.isSpace)) ∧
      p.lexemePlace = size (front ++ cs.takeWhile Lexeme.isSpace) ∧
      p.text = front ++ cs.takeWhile Lexeme.isSpace ++ cs.dropWhile Lexeme.isSpace := by
  rw [lexemePlace, h.text, h.place, scan_append agree_isSpace, endOf_append agree_isSpace, size_append,
    List.append_assoc, List.takeWhile_append_dropWhile]
  exact ⟨rfl, rfl, rfl⟩

/-- Whether a blank stands in front of a lexeme is seen from the byte in front of it. -/
theorem Between.any_isSpace (h : p.Between front cs) :
    (front ++ cs.takeWhile Lexeme.isSpace).getLast?.any Lexeme.isSpace = cs.head?.any Lexeme.isSpace := by
  cases cs with
  | nil =>
    rw [List.takeWhile_nil, List.append_nil, h.visible]
    rfl
  | cons c cs =>
    cases blank : Lexeme.isSpace c with
    | false =>
      rw [List.takeWhile_cons_of_neg (by simp [blank]), List.append_nil, h.visible]
      exact blank.symm
    | true =>
      have filled : (c :: cs).takeWhile Lexeme.isSpace ≠ [] := by
        rw [List.takeWhile_cons_of_pos blank]
        exact List.cons_ne_nil _ _
      rw [List.getLast?_append, List.getLast?_eq_some_getLast filled]
      exact (List.mem_takeWhile_imp (List.getLast_mem filled)).trans blank.symm

/-- A lexeme starts foreign where the next character behind blanks is not ASCII. -/
theorem Between.startsForeign (h : p.Between front cs) :
    p.startsForeign = (cs.dropWhile Lexeme.isSpace).head?.any fun c => !isAscii c := by
  obtain ⟨-, place, text⟩ := h.scan
  rw [Position.startsForeign, place, text, any_byteAt .foreign]

/-- The outcome of going on at a position, and what its characters are then. -/
inductive Comes (p : Position) (cs : List Char) : Except Stop (Option (Lexeme × Position)) → Prop
  | ending (blank : cs.dropWhile Lexeme.isSpace = []) : Comes p cs (.ok none)
  | foreign {c : Char} {behind : List Char} (found : cs.dropWhile Lexeme.isSpace = c :: behind)
    (foreign : isAscii c = false) : Comes p cs (.error p.wordSlice)
  | fault {c : Char} {behind : List Char} {e : Error} (found : cs.dropWhile Lexeme.isSpace = c :: behind)
    (ascii : isAscii c = true) (known : ∀ source, e ≠ .foreignWord source)
    (cut : Lexeme.cut (String.ofList p.text) (p.wanted || cs.head?.any Lexeme.isSpace) c behind = .error e) :
    Comes p cs (.error (.fault e))
  | lexeme {c : Char} {behind front rest : List Char} {l : Lexeme} {q : Position}
    (found : cs.dropWhile Lexeme.isSpace = c :: behind) (ascii : isAscii c = true)
    (cut : Lexeme.cut (String.ofList p.text) (p.wanted || cs.head?.any Lexeme.isSpace) c behind = .ok (l, rest))
    (text : q.text = p.text) (wanted : q.wanted = l.wantsOperand) (between : q.Between front rest) :
    Comes p cs (.ok (some (l, q)))

/-- Between characters, bytes and characters have the same come next. -/
theorem Between.comes (h : p.Between front cs) : p.Comes cs p.next := by
  obtain ⟨scan, place, text⟩ := h.scan
  have blank := h.any_isSpace
  have visible := List.head?_dropWhile_not Lexeme.isSpace cs
  -- from here on, the blanks belong to what stands in front of the lexeme
  generalize front ++ cs.takeWhile Lexeme.isSpace = front' at scan place text blank
  have first := byteAt_add front' (cs.dropWhile Lexeme.isSpace) 0
  rw [← text, Nat.add_zero] at first
  cases found : cs.dropWhile Lexeme.isSpace with
  | nil =>
    rw [found] at first
    rw [next_of_end scan first]
    exact .ending found
  | cons c behind =>
    rw [found] at first visible text
    cases kind : isAscii c with
    | false =>
      obtain ⟨b, bs, encoded⟩ := List.exists_cons_of_ne_nil (String.utf8EncodeChar_ne_nil (c := c))
      rw [bytes_cons, encoded] at first
      have stops := cut_of_not_isAscii kind front' behind p.wanted (b := b) (by rw [encoded]; rfl)
      rw [← text, ← place] at stops
      rw [next_of_byteAt scan first, ← place, stops]
      exact .foreign found kind
    | true =>
      rw [bytes_cons, utf8EncodeChar_of_isAscii kind] at first
      have tracks := cut_tracks kind (by simpa using visible) p.wanted front' behind
      rw [← text, blank] at tracks
      rw [next_of_byteAt scan first]
      generalize chars : Lexeme.cut (String.ofList p.text) (p.wanted || cs.head?.any Lexeme.isSpace) c behind = y
        at tracks
      generalize Scanner.cut p.text (size front') p.wanted (byte c) = x at tracks
      cases tracks with
      | @found l _ rest consumed parts behind visible =>
        have all : p.text = front' ++ consumed ++ rest := text.trans (by rw [parts, List.append_assoc])
        have last : (front' ++ consumed).getLast?.any Lexeme.isSpace = false := by
          obtain ⟨d, last, visible⟩ := visible
          rw [List.getLast?_append, last]
          exact visible
        exact .lexeme found kind chars rfl rfl ⟨all, behind.trans (size_append ..).symm, last⟩
      | fault known => exact .fault found kind known chars

/-! ## Steps -/

/-- Reading goes on: behind a term, at the parameters of a call, or behind a call whose parameters have been read. -/
inductive Step : Position → Position → Prop
  | term {p q : Position} {t : Term} (next : p.next = .ok (some (.term t, q))) : Step p q
  | inside {p q : Position} {name : String} {inside : List Char} (next : p.next = .ok (some (.call name inside, q))) :
    Step p (start inside)
  | call {p q : Position} {name : String} {inside : List Char} {parameters : Value}
    (next : p.next = .ok (some (.call name inside, q))) (read : (start inside).read = .ok parameters) : Step p q

/-- Reading a text comes to a position. -/
def Reached (text : List Char) (p : Position) : Prop := Relation.ReflTransGen Step (start text) p

/-- Every step leaves less to be read. -/
theorem Step.left_lt (h : Step p q) : q.left < p.left := by
  cases h with
  | term next => exact (left_lt_of_next next).1
  | inside next => exact (left_lt_of_next next).2 _ _ rfl
  | call next => exact (left_lt_of_next next).1

/-- Steps come to an end. -/
theorem wellFounded_step : WellFounded fun q p => Step p q :=
  Subrelation.wf Step.left_lt (measure left).wf

/-- Every step leads from between characters to between characters. -/
theorem Step.exists_between (h : Step p q) (hp : p.Between front cs) : ∃ front' cs', q.Between front' cs' := by
  cases h with
  | inside next => exact ⟨_, _, between_start _⟩
  | term next | call next =>
    have comes := hp.comes
    rw [next] at comes
    cases comes with
    | lexeme _ _ _ _ _ between => exact ⟨_, _, between⟩

/-- All positions that are reached are between characters. -/
theorem Reached.exists_between {text : List Char} (h : Reached text p) : ∃ front cs, p.Between front cs := by
  induction h with
  | refl => exact ⟨_, _, between_start text⟩
  | tail _ step ih =>
    obtain ⟨front, cs, between⟩ := ih
    exact step.exists_between between

/-- What stops reading at a later position stops all of it. -/
theorem Step.read_eq_error (h : Step p q) {stop : Stop} (stops : q.read = .error stop) : p.read = .error stop := by
  rw [read_eq]
  cases h with
  | term next =>
    rw [next]
    dsimp only
    rw [stops]
    rfl
  | inside next =>
    rw [next]
    dsimp only
    rw [stops]
  | call next read =>
    rw [next]
    dsimp only
    rw [read]
    dsimp only
    rw [stops]
    rfl

/-- Where there is a lexeme next, reading characters finds it, too, and goes on behind it. -/
theorem Between.exists_readFrom_eq {l : Lexeme} (h : p.Between front cs) (next : p.next = .ok (some (l, q))) :
    ∃ front' rest, q.Between front' rest ∧ Value.readFrom (String.ofList p.text) p.wanted cs =
      match l with
      | .term t => (Value.readFrom (String.ofList q.text) q.wanted rest).map (t :: ·)
      | .call name inside =>
        match Value.readFrom (String.ofList inside) true inside with
        | .error e => .error e
        | .ok parameters =>
          (Value.readFrom (String.ofList q.text) q.wanted rest).map (.call name parameters :: ·) := by
  have comes := h.comes
  rw [next] at comes
  cases comes with
  | lexeme found _ cut text wanted between =>
    refine ⟨_, _, between, ?_⟩
    rw [Value.readFrom_eq, found, text, wanted]
    dsimp only
    rw [cut]
    cases l <;> rfl

/-- **Reading bytes is reading characters.** -/
theorem Between.same_read (h : p.Between front cs) :
    Same p.read (Value.readFrom (String.ofList p.text) p.wanted cs) := by
  fun_induction Position.read p generalizing front cs with
  | case1 p stop next =>
    have comes := h.comes
    rw [next] at comes
    cases comes with
    | foreign found foreign =>
      rw [Value.readFrom_eq, found]
      dsimp only
      rw [lexemeCut_of_not_isAscii foreign]
      exact .slice ..
    | fault found _ known cut =>
      rw [Value.readFrom_eq, found]
      dsimp only
      rw [cut]
      exact .fault known
  | case2 p next =>
    have comes := h.comes
    rw [next] at comes
    cases comes with
    | ending blank =>
      rw [Value.readFrom_eq, blank]
      exact .value []
  | case3 p t q next _ ih =>
    obtain ⟨front', rest, between, goesOn⟩ := h.exists_readFrom_eq next
    rw [goesOn]
    exact (ih between).map _
  | case4 p name inside q next _ _ stop read ih =>
    -- the parameters stop all of it, and what stands behind the call is not read
    obtain ⟨front', rest, -, goesOn⟩ := h.exists_readFrom_eq next
    have inner : Same _ (Value.readFrom (String.ofList inside) true inside) := ih (between_start inside)
    rw [read] at inner
    rw [goesOn]
    dsimp only
    generalize Value.readFrom (String.ofList inside) true inside = parameters at inner ⊢
    cases inner with
    | slice text start stop => exact .slice text start stop
    | fault known => exact .fault known
  | case5 p name inside q next _ _ parameters read ihInside ih =>
    obtain ⟨front', rest, between, goesOn⟩ := h.exists_readFrom_eq next
    have inner : Same _ (Value.readFrom (String.ofList inside) true inside) := ihInside (between_start inside)
    rw [read] at inner
    rw [goesOn]
    dsimp only
    generalize Value.readFrom (String.ofList inside) true inside = parameters' at inner ⊢
    cases inner
    exact (ih between).map _

/-! ## Stops -/

/-- In front of a character that is not ASCII, reading stops. -/
theorem Between.read_of_startsForeign (h : p.Between front cs) (foreign : p.startsForeign = true) :
    p.read = .error p.wordSlice := by
  have comes := h.comes
  rw [h.startsForeign] at foreign
  rw [read_eq]
  generalize p.next = outcome at comes ⊢
  cases comes with
  | ending blank =>
    rw [blank] at foreign
    cases foreign
  | foreign => rfl
  | fault found ascii | lexeme found ascii =>
    rw [found, List.head?_cons, Option.any_some, ascii] at foreign
    cases foreign

/-- Wherever a slice is missing, reading has come to such a character. -/
theorem Between.exists_of_read_eq_slice (h : p.Between front cs) {text : List Char} {first last : Nat}
    (stops : p.read = .error (.slice text first last)) :
    ∃ q, Relation.ReflTransGen Step p q ∧ q.startsForeign = true ∧ .slice text first last = q.wordSlice := by
  fun_induction Position.read p generalizing front cs with
  | case1 p stop next =>
    have comes := h.comes
    rw [next] at comes
    cases comes with
    | foreign found foreign =>
      refine ⟨p, .refl, ?_, (Except.error.inj stops).symm⟩
      rw [h.startsForeign, found, List.head?_cons, Option.any_some, foreign]
      rfl
    | fault => cases stops
  | case2 => cases stops
  | case3 p t q next _ ih =>
    have step := Step.term next
    obtain ⟨front', rest, between⟩ := step.exists_between h
    obtain ⟨r, reached, foreign, same⟩ := ih between (Outcome.map_eq_error_iff.1 stops)
    exact ⟨r, .head step reached, foreign, same⟩
  | case4 p name inside q next _ _ stop read ih =>
    cases stops
    -- reading stops inside of the parameters, which are a text of their own
    obtain ⟨r, reached, foreign, same⟩ := ih (between_start inside) read
    exact ⟨r, .head (.inside next) reached, foreign, same⟩
  | case5 p name inside q next _ _ parameters read ihInside ih =>
    have step := Step.call next read
    obtain ⟨front', rest, between⟩ := step.exists_between h
    obtain ⟨r, reached, foreign, same⟩ := ih between (Outcome.map_eq_error_iff.1 stops)
    exact ⟨r, .head step reached, foreign, same⟩

/-- What stops reading at a position that is reached stops all of it. -/
theorem read_eq_error_of_reached {p q : Position} (reached : Relation.ReflTransGen Step p q) {stop : Stop}
    (stops : q.read = .error stop) : p.read = .error stop := by
  induction reached using Relation.ReflTransGen.head_induction_on with
  | refl => exact stops
  | head step _ ih => exact step.read_eq_error ih

end Position

/-- Read a value from the bytes of its text. -/
def read (text : String) : Except Stop Value := (Position.start text.toList).read

/-- **Reading bytes ends, and only a word that begins with a character that is not ASCII stops it.** All positions that
are reached are between characters, and every lexeme takes at least one byte. Reading asks for a slice that is not there
exactly where it has come to a lexeme that begins with a byte that is not ASCII, and this slice begins behind that byte.
Otherwise it has the outcome of reading characters. -/
theorem read_safe (text : String) :
    (WellFounded fun q p => Position.Step p q) ∧
    (∀ p, Position.Reached text.toList p →
      (∃ front back, p.text = front ++ back ∧ p.place = size front) ∧
      ∀ l q, p.next = .ok (some (l, q)) →
        q.text = p.text ∧ p.place ≤ p.lexemePlace ∧ p.lexemePlace < q.place ∧ q.place ≤ size p.text) ∧
    (∀ part first last, read text = .error (.slice part first last) ↔
      ∃ p, Position.Reached text.toList p ∧ p.startsForeign = true ∧ .slice part first last = p.wordSlice) ∧
    Same (read text) (Value.read text) := by
  refine ⟨Position.wellFounded_step, fun p reached => ?_, fun part first last => ⟨fun stops => ?_, ?_⟩, ?_⟩
  · obtain ⟨front, cs, between⟩ := reached.exists_between
    refine ⟨⟨front, cs, between.text, between.place⟩, fun l q next => ?_⟩
    obtain ⟨same, -, advances⟩ := Position.next_advances next
    have comes := between.comes
    rw [next] at comes
    cases comes with
    | lexeme _ _ _ _ _ behind =>
      refine ⟨same, le_endOf .., advances.lt, ?_⟩
      rw [← same, behind.place, behind.text, size_append]
      exact Nat.le_add_right ..
  · exact (Position.between_start text.toList).exists_of_read_eq_slice stops
  · rintro ⟨p, reached, foreign, same⟩
    obtain ⟨front, cs, between⟩ := reached.exists_between
    rw [same]
    exact Position.read_eq_error_of_reached reached (between.read_of_startsForeign foreign)
  · have same := (Position.between_start text.toList).same_read
    change Same (read text) (Value.readFrom (String.ofList text.toList) true text.toList) at same
    rwa [String.ofList_toList] at same

/-- Among the parameters of a call. -/
theorem read_safe_parameter : read "f(é)" = .error (.slice ['é'] 1 2) := by
  have call : (Position.start "f(é)".toList).next =
      .ok (some (.call (String.ofList ['f']) ['é'], ⟨['f', '(', 'é', ')'], 5, false⟩)) := by rfl
  exact ((read_safe "f(é)").2.2.1 _ _ _).2 ⟨.start ['é'], .single (.inside call), by rfl, by rfl⟩

end Scanner

end Stylesheet
