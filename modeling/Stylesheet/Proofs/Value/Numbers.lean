import Stylesheet.Proofs.Condition.Strings
import Stylesheet.Proofs.Numeric.Decimals
import Stylesheet.Proofs.Value.RoundTrip
import Stylesheet.Proofs.Value.Tracking

/-! # Numbers as they are scanned

A number is scanned as digits and points, maybe behind a minus and with the letters of a unit behind it
(**`Scanned`**). With one point at most it is the double nearest to the decimal that the digits spell, and with more
of them it is zero (`Scanned.isRounded_scalar`, `Scanned.scalar_eq_zero`). The numbers of a value that is read, at any
depth and in their order, are those that are scanned in its text (**`Scans`**, `Value.read_numbers`). -/

namespace Stylesheet

open Lexeme

/-- A number as it stands in a text: maybe a minus, digits and points, and maybe the letters of a unit. -/
structure Scanned where
  negative : Bool
  digits : List Char
  unit : List Char
  starts : startsNumber digits = true
  isNumeralChar : ∀ c ∈ digits, Scanner.isNumeralChar c = true
  isUnitChar : ∀ c ∈ unit, isUnitChar c = true

namespace Scanned

variable (s : Scanned)

/-- The sign of a scanned number. -/
def sign : List Char := if s.negative then ['-'] else []

/-- The text of a scanned number. -/
def text : List Char := s.sign ++ (s.digits ++ s.unit)

/-- What follows does not go on with the number. -/
structure Ends (rest : List Char) : Prop where
  unit : ∀ c ∈ rest.head?, Lexeme.isUnitChar c = false
  digits : s.unit = [] → ∀ c ∈ rest.head?, Scanner.isNumeralChar c = false

/-- How many decimal points there are among the digits. -/
def points : Nat := s.digits.count '.'

/-- The digits in front of the first point. -/
def whole : List Char := s.digits.takeWhile Char.isDigit

/-- What stands behind the first point. -/
def behind : List Char := (s.digits.dropWhile Char.isDigit).drop 1

/-- The number that the digits spell, without the sign. -/
def decimal : ℚ := Decimal.ofDigits (s.whole ++ s.behind) / 10 ^ s.behind.length

/-- What it is read as. -/
def number : Number :=
  ⟨(Decimal.read? (s.sign ++ s.digits)).getD 0.0, if s.unit.isEmpty then none else some (String.ofList s.unit)⟩

/-! ## Scalars -/

/-- The digits are those of the whole part and whatever comes behind them. -/
theorem whole_append : s.whole ++ s.digits.dropWhile Char.isDigit = s.digits := List.takeWhile_append_dropWhile

/-- Behind the first digits there is nothing, or the first point. -/
theorem dropWhile_cases : (s.digits.dropWhile Char.isDigit = [] ∧ s.behind = [] ∧ s.points = 0) ∨
    (s.digits.dropWhile Char.isDigit = '.' :: s.behind ∧ s.points = s.behind.count '.' + 1) := by
  have noPoint : s.whole.count '.' = 0 := List.count_eq_zero.2 fun point => by
    have digit : Char.isDigit '.' = true := List.mem_takeWhile_imp point
    cases digit
  have points : s.points = (s.digits.dropWhile Char.isDigit).count '.' := by
    rw [Scanned.points, ← s.whole_append, List.count_append, noPoint, Nat.zero_add, s.whole_append]
  have first := List.head?_dropWhile_not Char.isDigit s.digits
  have numeral : ∀ c ∈ s.digits.dropWhile Char.isDigit, Scanner.isNumeralChar c = true := fun c hc =>
    s.isNumeralChar c ((List.dropWhile_sublist _).subset hc)
  rw [points]
  unfold behind
  cases found : s.digits.dropWhile Char.isDigit with
  | nil => exact .inl ⟨rfl, rfl, rfl⟩
  | cons c more =>
    -- the digits are over, so this can only be a point
    rw [found] at first numeral
    have noDigit : c.isDigit = false := by simpa using first
    have point : c = '.' := by simpa [Scanner.isNumeralChar, noDigit] using numeral c (List.mem_cons_self ..)
    subst point
    exact .inr ⟨rfl, List.count_cons_self ..⟩

/-- Behind the first point stand digits, and more points. -/
theorem all_isDigit_behind : s.behind.all Char.isDigit = true ↔ s.behind.count '.' = 0 := by
  rw [List.all_eq_true, List.count_eq_zero]
  refine ⟨fun digits point => Bool.false_ne_true (digits '.' point), fun noPoint c hc => ?_⟩
  have inside : c ∈ s.digits := (List.dropWhile_sublist _).subset ((List.drop_sublist ..).subset hc)
  have notPoint : c ≠ '.' := fun point => noPoint (point ▸ hc)
  simpa [Scanner.isNumeralChar, notPoint] using s.isNumeralChar c inside

/-- There is a digit in front of the first point or behind it. -/
theorem isEmpty_and_isEmpty : (s.whole.isEmpty && s.behind.isEmpty) = false := by
  have starts := s.starts
  rw [← s.whole_append] at starts
  rw [Bool.and_eq_false_iff, or_iff_not_imp_left]
  intro none
  rw [Bool.not_eq_false, List.isEmpty_iff] at none
  rw [none, List.nil_append] at starts
  rcases s.dropWhile_cases with ⟨nothing, -⟩ | ⟨point, -⟩
  · rw [nothing] at starts
    cases starts
  · rw [point] at starts
    cases found : s.behind with
    | nil =>
      rw [found] at starts
      cases starts
    | cons => rfl

/-- Digits are read when there is one point among them at most. -/
theorem readUnsigned?_eq :
    Decimal.readUnsigned? s.digits = if s.points ≤ 1 then some (Decimal.nearest s.whole s.behind) else none := by
  have some := s.isEmpty_and_isEmpty
  have whole : s.digits.takeWhile Char.isDigit = s.whole := rfl
  unfold Decimal.readUnsigned?
  rw [whole]
  rcases s.dropWhile_cases with ⟨nothing, behind, points⟩ | ⟨point, points⟩
  · rw [behind, List.isEmpty_nil, Bool.and_true] at some
    rw [nothing, behind, points]
    dsimp only
    rw [some]
    rfl
  · rw [point, points]
    show (if (s.behind.all Char.isDigit && !(s.whole.isEmpty && s.behind.isEmpty)) = true then _ else _) = _
    rw [some, Bool.not_false, Bool.and_true]
    refine if_congr (s.all_isDigit_behind.trans ?_) rfl rfl
    omega

/-- A minus is read as a sign. -/
theorem read?_eq : Decimal.read? (s.sign ++ s.digits) =
    if s.points ≤ 1 then some (Binary64.withSign s.negative (Decimal.nearest s.whole s.behind)) else none := by
  obtain ⟨c, more, first, numeral⟩ := Scanner.exists_of_startsNumber s.starts
  unfold sign
  cases s.negative with
  | false =>
    -- digits begin with no minus, so no sign is taken off them
    have unsigned : Decimal.read? s.digits = Decimal.readUnsigned? s.digits := by
      rw [first]
      unfold Decimal.read?
      split
      next minus =>
        cases minus
        cases numeral
      next => rfl
    exact unsigned.trans s.readUnsigned?_eq
  | true =>
    show (Decimal.readUnsigned? s.digits).map (- ·) = _
    rw [s.readUnsigned?_eq]
    split <;> rfl

/-- **Digits with one point at most are read as the nearest double.** -/
theorem isRounded_scalar (h : s.points ≤ 1) : Binary64.IsRounded s.negative s.decimal s.number.scalar := by
  have scalar : s.number.scalar = Binary64.withSign s.negative (Decimal.nearest s.whole s.behind) := by
    rw [number, s.read?_eq, if_pos h]
    rfl
  rw [scalar]
  exact Binary64.isRounded_ofScientific _ _ _

/-- Digits with more points are read as zero. -/
theorem scalar_eq_zero (h : 1 < s.points) : s.number.scalar = 0 := by
  rw [number, s.read?_eq, if_neg (Nat.not_le.2 h)]
  exact Binary64.ofScientific_zero 1

/-! ## Cutting -/

variable {s}
variable {signed : Bool} {c : Char} {cs rest : List Char}

/-- A unit does not begin like more digits. -/
theorem isNumeralChar_of_isUnitChar (h : Lexeme.isUnitChar c = true) : Scanner.isNumeralChar c = false := by
  by_contra numeral
  rw [Bool.not_eq_false, Scanner.isNumeralChar, Bool.or_eq_true, beq_iff_eq] at numeral
  rcases numeral with digit | rfl
  · have : Lexeme.isUnitChar c = false := Decimal.of_isDigit digit (by decide)
    cases this.symm.trans h
  · cases h

/-- Behind the digits and the unit, what follows is left. -/
theorem cutNumber_eq (ends : s.Ends rest) :
    cutNumber s.sign (s.digits ++ (s.unit ++ rest)) = (.term (.number s.number), rest) := by
  have endsDigits : ∀ c ∈ (s.unit ++ rest).head?, Scanner.isNumeralChar c = false := by
    cases unit : s.unit with
    | nil => exact ends.digits unit
    | cons d ds =>
      rintro _ ⟨⟩
      exact isNumeralChar_of_isUnitChar (s.isUnitChar d (by rw [unit]; exact List.mem_cons_self ..))
  rw [Scanner.cutNumber_eq, Text.takeWhile_run s.isNumeralChar endsDigits,
    Text.dropWhile_run s.isNumeralChar endsDigits]
  dsimp only
  rw [Text.takeWhile_run s.isUnitChar ends.unit, Text.dropWhile_run s.isUnitChar ends.unit]
  rfl

/-- What a number begins with is no mark of another lexeme. -/
theorem of_isNumeralChar (h : Scanner.isNumeralChar c = true) :
    (c ≠ '"' ∧ c ≠ '\'' ∧ c ≠ '$' ∧ c ≠ '#' ∧ c ≠ '-') ∧ isSpace c = false := by
  rw [Scanner.isNumeralChar, Bool.or_eq_true, beq_iff_eq] at h
  rcases h with digit | rfl
  · exact ⟨(of_isDigit digit).1, (of_isDigit digit).2.1⟩
  · decide

/-- The digits of a scanned number start a number, whatever comes behind them. -/
theorem startsNumber_text (more : List Char) : startsNumber (s.digits ++ more) = true :=
  startsNumber_append s.starts more

/-- **Where a number begins, it is cut off**, however many points are in it. A minus has to be a sign there. -/
theorem exists_cut_eq (source : String) (ends : s.Ends rest) (sign : s.negative = true → signed = true) :
    ∃ c behind, s.text ++ rest = c :: behind ∧ isSpace c = false ∧
      cut source signed c behind = .ok (.term (.number s.number), rest) := by
  have number := cutNumber_eq ends
  obtain ⟨c, more, first, numeral⟩ := Scanner.exists_of_startsNumber s.starts
  obtain ⟨⟨notQuote, notApostrophe, notDollar, notHash, notMinus⟩, visible⟩ := of_isNumeralChar numeral
  have begins := s.startsNumber_text (s.unit ++ rest)
  -- no lexeme that is tried before numbers begins like one
  unfold text Scanned.sign at *
  cases negative : s.negative with
  | false =>
    rw [negative] at number
    refine ⟨c, more ++ (s.unit ++ rest), by simp [first], visible, ?_⟩
    rw [first, List.cons_append] at number begins
    rw [cut, if_neg (by simp [notQuote, notApostrophe]), if_neg (by simpa using notDollar),
      if_neg (by simpa using notHash), if_neg (by simp [notMinus]), if_neg (by simp [notMinus]), if_pos begins]
    exact congrArg _ number
  | true =>
    rw [negative] at number
    refine ⟨'-', s.digits ++ (s.unit ++ rest), by simp, rfl, ?_⟩
    rw [cut, if_neg (by decide), if_neg (by decide), if_neg (by decide), if_pos (by rw [begins, sign negative]; rfl)]
    exact congrArg _ number

/-- A number begins with digits that begin one. -/
theorem startsNumber_takeWhile (h : startsNumber cs = true) :
    startsNumber (cs.takeWhile Scanner.isNumeralChar) = true := by
  have numeral {d : Char} (digit : d.isDigit = true) : Scanner.isNumeralChar d = true := by
    rw [Scanner.isNumeralChar, digit, Bool.true_or]
  rcases startsNumber_cases h with ⟨d, ds, rfl, digit⟩ | ⟨c, ds, rfl, point, digit⟩
  · rw [List.takeWhile_cons_of_pos rfl, List.takeWhile_cons_of_pos (numeral digit)]
    exact digit
  · rw [List.takeWhile_cons_of_pos (numeral digit), startsNumber_of_ne point, digit]

/-- Where digits begin, a number stands that goes on as far as it can. -/
theorem exists_append (negative : Bool) (starts : startsNumber cs = true) :
    ∃ (s : Scanned) (rest : List Char), s.negative = negative ∧ cs = s.digits ++ (s.unit ++ rest) ∧ s.Ends rest := by
  have digits := List.head?_dropWhile_not Scanner.isNumeralChar cs
  have unit := List.head?_dropWhile_not Lexeme.isUnitChar (cs.dropWhile Scanner.isNumeralChar)
  let s : Scanned := ⟨negative, cs.takeWhile Scanner.isNumeralChar,
    (cs.dropWhile Scanner.isNumeralChar).takeWhile Lexeme.isUnitChar, startsNumber_takeWhile starts,
    fun c hc => List.mem_takeWhile_imp hc, fun c hc => List.mem_takeWhile_imp hc⟩
  refine ⟨s, (cs.dropWhile Scanner.isNumeralChar).dropWhile Lexeme.isUnitChar, rfl, ?_, ?_, fun none => ?_⟩
  · dsimp only [s]
    rw [List.takeWhile_append_dropWhile, List.takeWhile_append_dropWhile]
  · intro c hc
    rw [Option.mem_def.1 hc] at unit
    simpa using unit
  · have whole : (cs.dropWhile Scanner.isNumeralChar).dropWhile Lexeme.isUnitChar =
        cs.dropWhile Scanner.isNumeralChar := by
      have parts := List.takeWhile_append_dropWhile (p := Lexeme.isUnitChar) (l := cs.dropWhile Scanner.isNumeralChar)
      dsimp only [s] at none
      rwa [none, List.nil_append] at parts
    intro c hc
    rw [whole] at hc
    rw [Option.mem_def.1 hc] at digits
    simpa using digits

/-- What is cut off where digits begin is such a number, behind a sign or without one. -/
theorem exists_cutNumber (negative : Bool) (starts : startsNumber cs = true) :
    ∃ (s : Scanned) (rest : List Char), s.negative = negative ∧
      cutNumber (if negative then ['-'] else []) cs = (.term (.number s.number), rest) ∧
        (if negative then ['-'] else []) ++ cs = s.text ++ rest ∧ s.Ends rest := by
  obtain ⟨s, rest, rfl, parts, ends⟩ := exists_append negative starts
  refine ⟨s, rest, rfl, ?_, ?_, ends⟩
  · rw [parts]
    exact cutNumber_eq ends
  · rw [parts, text, sign, List.append_assoc, List.append_assoc]

end Scanned

/-! ## Numbers of a value -/

mutual

/-- The numbers in a term, in order. -/
def Term.numbers : Term → List Number
  | .number n => [n]
  | .call _ parameters => Value.numbers parameters
  | .list items => Value.numbers items
  | _ => []

/-- The numbers in a chain at any depth, in order. -/
def Value.numbers : List Term → List Number
  | [] => []
  | t :: ts => t.numbers ++ Value.numbers ts

end

/-- The numbers in a term of a value are among those in the value. -/
theorem Value.mem_numbers_of_mem {n : Number} {t : Term} {v : List Term} (mem : t ∈ v) (h : n ∈ t.numbers) :
    n ∈ Value.numbers v := by
  induction v with
  | nil => cases mem
  | cons s ts ih =>
    rw [Value.numbers, List.mem_append]
    rcases List.mem_cons.1 mem with rfl | mem
    · exact .inl h
    · exact .inr (ih mem)

mutual

/-- The numbers in a term are the number terms that occur in it. -/
theorem Term.occurs_of_mem_numbers {n : Number} : ∀ t : Term, n ∈ t.numbers → Occurs (.number n) [t]
  | .number m, h => by
    rw [Term.numbers, List.mem_singleton] at h
    exact .here (by rw [h]; exact List.mem_singleton.2 rfl)
  | .call name parameters, h => .parameter (List.mem_singleton.2 rfl) (Value.occurs_of_mem_numbers parameters h)
  | .list items, h => .item (List.mem_singleton.2 rfl) (Value.occurs_of_mem_numbers items h)
  | .str _, h | .color _, h | .ident _, h | .var _, h | .op _, h => by cases h

/-- The numbers in a value are the number terms that occur in it. -/
theorem Value.occurs_of_mem_numbers {n : Number} : ∀ v : List Term, n ∈ Value.numbers v → Occurs (.number n) v
  | t :: ts, h => by
    rw [Value.numbers, List.mem_append] at h
    rcases h with h | h
    · exact (Term.occurs_of_mem_numbers t h).mono fun s hs => by
        rw [List.mem_singleton.1 hs]
        exact List.mem_cons_self ..
    · exact (Value.occurs_of_mem_numbers ts h).mono fun s hs => List.mem_cons_of_mem _ hs

end

/-- These are all the numbers that occur. -/
theorem Value.mem_numbers_iff {n : Number} {v : List Term} : n ∈ Value.numbers v ↔ Occurs (.number n) v := by
  refine ⟨Value.occurs_of_mem_numbers v, fun h => ?_⟩
  induction h with
  | here mem => exact Value.mem_numbers_of_mem mem (List.mem_singleton.2 rfl)
  | parameter mem _ ih => exact Value.mem_numbers_of_mem mem ih
  | item mem _ ih => exact Value.mem_numbers_of_mem mem ih

/-! ## Reading -/

/-- The numbers that are **scanned** in a text, in order, with those among the parameters of calls. `wanted` tells that
an operand has to come, so that a minus is a sign. -/
inductive Scans : Bool → List Char → List Scanned → Prop
  | done {wanted : Bool} {cs : List Char} (blank : ∀ c ∈ cs, isSpace c = true) : Scans wanted cs []
  | number {wanted : Bool} {blanks rest : List Char} {ns : List Scanned} (s : Scanned)
    (blank : ∀ c ∈ blanks, isSpace c = true) (sign : s.negative = true → wanted = true ∨ blanks ≠ [])
    (ends : s.Ends rest) (others : Scans false rest ns) : Scans wanted (blanks ++ (s.text ++ rest)) (s :: ns)
  | term {wanted : Bool} {source : String} {c : Char} {cs behind rest : List Char} {t : Term} {ns : List Scanned}
    (found : cs.dropWhile isSpace = c :: behind)
    (cut : Lexeme.cut source (wanted || cs.head?.any isSpace) c behind = .ok (.term t, rest)) (other : t.numbers = [])
    (others : Scans t.wantsOperand rest ns) : Scans wanted cs ns
  | call {wanted : Bool} {source name : String} {c : Char} {cs behind inside rest : List Char} {ns ms : List Scanned}
    (found : cs.dropWhile isSpace = c :: behind)
    (cut : Lexeme.cut source (wanted || cs.head?.any isSpace) c behind = .ok (.call name inside, rest))
    (parameters : Scans true inside ns) (others : Scans false rest ms) : Scans wanted cs (ns ++ ms)

section

variable {source : String} {signed wanted : Bool} {c : Char} {cs rest : List Char} {t : Term}

/-- A word is no number. -/
theorem numbers_of_cutWord (h : cutWord source c cs = .ok (.term t, rest)) : t.numbers = [] := by
  unfold cutWord at h
  dsimp only at h
  split at h
  · split at h
    · cases h
    · split at h <;> cases h
      rfl
  · cases h
    rfl

/-- A term that is cut off is a number as it is scanned, or there is none in it. -/
theorem scanned_of_cut (h : cut source signed c cs = .ok (.term t, rest)) :
    (∃ s : Scanned, t = .number s.number ∧ c :: cs = s.text ++ rest ∧ s.Ends rest ∧
      (s.negative = true → signed = true)) ∨ t.numbers = [] := by
  -- the cases are those of the first character; a number stands in two of them, with a sign and without
  unfold cut at h
  split at h
  · split at h <;> cases h
    exact .inr rfl
  split at h
  · dsimp only at h
    split at h <;> cases h
    exact .inr rfl
  split at h
  · cases h
    refine .inr ?_
    split <;> rfl
  split at h
  next sign =>
    simp only [Bool.and_eq_true, beq_iff_eq] at sign
    obtain ⟨⟨rfl, starts⟩, signed⟩ := sign
    obtain ⟨s, more, -, cutNumber, text, ends⟩ := Scanned.exists_cutNumber true starts
    cases (Except.ok.inj h).symm.trans cutNumber
    exact .inl ⟨s, rfl, text, ends, fun _ => signed⟩
  split at h
  · exact .inr (numbers_of_cutWord h)
  split at h
  next starts =>
    obtain ⟨s, more, unsigned, cutNumber, text, ends⟩ := Scanned.exists_cutNumber false starts
    cases (Except.ok.inj h).symm.trans cutNumber
    refine .inl ⟨s, rfl, text, ends, fun minus => ?_⟩
    cases unsigned.symm.trans minus
  split at h
  · cases h
    exact .inr rfl
  · split at h
    · exact .inr (numbers_of_cutWord h)
    · cases h

/-- Where a blank comes first, there are blanks to be skipped. -/
theorem takeWhile_isSpace_ne_nil (blank : cs.head?.any isSpace = true) : cs.takeWhile isSpace ≠ [] := by
  cases cs with
  | nil => cases blank
  | cons c cs =>
    have space : isSpace c = true := blank
    rw [List.takeWhile_cons_of_pos space]
    exact List.cons_ne_nil _ _

/-- **The numbers of what is read are those that are scanned**, in their order. -/
theorem exists_scans_of_readFrom {v : Value} (h : Value.readFrom source wanted cs = .ok v) :
    ∃ ns, Scans wanted cs ns ∧ Value.numbers v = ns.map Scanned.number := by
  fun_induction Value.readFrom source wanted cs generalizing v with
  | case1 source wanted cs blank =>
    cases h
    exact ⟨[], .done (by simpa using blank), rfl⟩
  | case2 => cases h
  | case3 source wanted cs c behind found _ t rest cut _ ih =>
    obtain ⟨ts, hts, rfl⟩ := Outcome.map_eq_ok_iff.1 h
    obtain ⟨ns, scans, numbers⟩ := ih hts
    rw [Value.numbers, numbers]
    rcases scanned_of_cut cut with ⟨s, rfl, text, ends, sign⟩ | other
    · have parts : cs = cs.takeWhile isSpace ++ (s.text ++ rest) := by
        rw [← text, ← found, List.takeWhile_append_dropWhile]
      refine ⟨s :: ns, ?_, rfl⟩
      rw [parts]
      refine .number s (fun c hc => List.mem_takeWhile_imp hc) (fun minus => ?_) ends scans
      exact (Bool.or_eq_true_iff.1 (sign minus)).imp_right takeWhile_isSpace_ne_nil
    · rw [other]
      exact ⟨ns, .term found cut other scans, rfl⟩
  | case4 => cases h
  | case5 source wanted cs c behind found _ name inside rest cut _ _ ps hps ihps ih =>
    obtain ⟨ts, hts, rfl⟩ := Outcome.map_eq_ok_iff.1 h
    obtain ⟨ns, parameters, numbers⟩ := ihps hps
    obtain ⟨ms, others, numbers'⟩ := ih hts
    refine ⟨ns ++ ms, .call found cut parameters others, ?_⟩
    rw [Value.numbers, Term.numbers, numbers, numbers', List.map_append]

/-- Where a number stands, it is read, and reading goes on behind it. -/
theorem readFrom_number {blanks : List Char} (s : Scanned) (blank : ∀ c ∈ blanks, isSpace c = true)
    (sign : s.negative = true → wanted = true ∨ blanks ≠ []) (ends : s.Ends rest) :
    Value.readFrom source wanted (blanks ++ (s.text ++ rest)) =
      (Value.readFrom source false rest).map (.number s.number :: ·) := by
  have signed : s.negative = true → (wanted || (blanks ++ (s.text ++ rest)).head?.any isSpace) = true := by
    intro minus
    rw [Bool.or_eq_true]
    refine (sign minus).imp_right fun some => ?_
    obtain ⟨b, bs, rfl⟩ := List.exists_cons_of_ne_nil some
    exact blank b (List.mem_cons_self ..)
  obtain ⟨c, behind, first, visible, cut⟩ := Scanned.exists_cut_eq source ends signed
  have found : (blanks ++ (s.text ++ rest)).dropWhile isSpace = c :: behind := by
    rw [first]
    exact Text.dropWhile_run blank (by rintro _ ⟨⟩; exact visible)
  exact readFrom_of_term found cut

end

/-- **Numbers are read as they are scanned.** Where a text is read as a value, the numbers of the value, at any depth
and in their order, are those that are scanned in the text. The scalar of such a number is the double nearest to the
decimal that stands there, with its sign, if there is one point at most among its digits; otherwise it is zero. No text
is refused for its digits: wherever a number begins, it is read, and reading goes on behind it. -/
theorem Value.read_numbers (text : String) :
    (∀ v, Value.read text = .ok v → ∃ ns, Scans true text.toList ns ∧ Value.numbers v = ns.map Scanned.number ∧
      ∀ n, Occurs (.number n) v ↔ n ∈ Value.numbers v) ∧
    (∀ s : Scanned, (s.points ≤ 1 → Binary64.IsRounded s.negative s.decimal s.number.scalar) ∧
      (1 < s.points → s.number.scalar = 0)) ∧
    (∀ (wanted : Bool) (blanks rest : List Char) (s : Scanned), (∀ c ∈ blanks, isSpace c = true) →
      (s.negative = true → wanted = true ∨ blanks ≠ []) → s.Ends rest →
        Value.readFrom text wanted (blanks ++ (s.text ++ rest)) =
          (Value.readFrom text false rest).map (.number s.number :: ·)) := by
  refine ⟨fun v read => ?_, fun s => ⟨s.isRounded_scalar, s.scalar_eq_zero⟩,
    fun wanted blanks rest s blank sign ends => readFrom_number s blank sign ends⟩
  obtain ⟨ns, scans, numbers⟩ := exists_scans_of_readFrom read
  exact ⟨ns, scans, numbers, fun n => Value.mem_numbers_iff.symm⟩

/-- Half a pixel with a minus in front, and digits with two points. -/
theorem Value.read_numbers_half :
    let half : Scanned := ⟨true, ['.', '5'], ['p', 'x'], rfl, List.all_eq_true.1 rfl, List.all_eq_true.1 rfl⟩
    let pointed : Scanned := ⟨false, ['1', '.', '2', '.', '3'], [], rfl, List.all_eq_true.1 rfl, nofun⟩
    Value.read "-.5px 1.2.3" = .ok [.number half.number, .number pointed.number] ∧
      (∃ ns, Scans true "-.5px 1.2.3".toList ns ∧ [half.number, pointed.number] = ns.map Scanned.number) ∧
      half.number.unit = some "px" ∧ Binary64.IsRounded true (1 / 2) half.number.scalar ∧
      pointed.number = ⟨0, none⟩ := by
  intro half pointed
  obtain ⟨scanned, scalars, goesOn⟩ := Value.read_numbers "-.5px 1.2.3"
  have read : Value.read "-.5px 1.2.3" = .ok [.number half.number, .number pointed.number] := by
    have first := goesOn true [] " 1.2.3".toList half nofun (fun _ => .inl rfl)
      ⟨by rintro _ ⟨⟩; rfl, nofun⟩
    have second := goesOn false [' '] [] pointed (List.all_eq_true.1 rfl) nofun ⟨nofun, nofun⟩
    refine first.trans ((congrArg _ second).trans ?_)
    rw [readFrom_of_blank rfl]
    rfl
  obtain ⟨ns, scans, numbers, -⟩ := scanned _ read
  have decimal : half.decimal = 1 / 2 := by
    have spelt : half.decimal = (5 : Nat) / 10 ^ 1 := rfl
    rw [spelt]
    norm_num
  have rounded := (scalars half).1 (by decide)
  rw [decimal] at rounded
  exact ⟨read, ⟨ns, scans, numbers⟩, rfl, rounded, congrArg₂ Number.mk ((scalars pointed).2 (by decide)) rfl⟩

/-- Digits with two points are zero in a value, and they are refused in a condition. -/
theorem Value.read_points :
    Value.read "1.2.3" = .ok [.number ⟨0, none⟩] ∧ Condition.tokens "1.2.3" = .error (.badNumber "1.2.3") := by
  have none : Decimal.read? "1.2.3".toList = none := rfl
  have zero : (0.0 : Float) = 0 := Binary64.ofScientific_zero 1
  have number : cut "1.2.3" true '1' ".2.3".toList = .ok (.term (.number ⟨0, Option.none⟩), []) := by
    rw [← zero]
    rfl
  have trimmed : Text.trimLeft "1.2.3".toList = '1' :: ".2.3".toList := rfl
  refine ⟨?_, Condition.tokensFrom_of_cutToken_error trimmed rfl⟩
  rw [Value.read, readFrom_of_term rfl number, readFrom_of_blank rfl]
  rfl

end Stylesheet
