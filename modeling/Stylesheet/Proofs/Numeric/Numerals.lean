import Mathlib.Data.List.DropRight
import Stylesheet.Proofs.Interpolation.Texts
import Stylesheet.Proofs.Numeric.Places

/-! # Numerals

A double is written as a **`Numeral`**: digits, with a point where some of them stand behind it, and a minus in
front. Reading the digits gives the double rounded to five places (`exists_numeral`), since zeros that are
dropped at the end make no difference. A whole number below `10 ^ 15` is written without a point, and is read
as what it was (`exists_numeral_of_isWhole`). -/

namespace Stylesheet

namespace Decimal

/-! ## Digits -/

/-- Digits are read as the library reads them. -/
theorem ofDigits_eq (digits : List Char) : ofDigits digits = Nat.ofDigitChars 10 digits 0 := rfl

/-- The digits of a number are read as that number. -/
theorem ofDigits_digits (n : Nat) : ofDigits (digits n) = n := Nat.ofDigitChars_ten_toDigits

/-- Zeros in front are of no account. -/
theorem ofDigits_paddedDigits (width n : Nat) : ofDigits (paddedDigits width n) = n := by
  rw [ofDigits_eq, paddedDigits, Nat.ofDigitChars_append, Nat.ofDigitChars_replicate_zero, Nat.mul_zero]
  exact ofDigits_digits n

/-- Zeros at the end are places. -/
theorem ofDigits_append_zeros (ds : List Char) (n : Nat) :
    ofDigits (ds ++ List.replicate n '0') = 10 ^ n * ofDigits ds := by
  rw [ofDigits_eq, Nat.ofDigitChars_append, Nat.ofDigitChars_replicate_zero]
  rfl

/-- A number is written with digits. -/
theorem isDigit_of_mem_digits {n : Nat} {c : Char} (h : c ∈ digits n) : c.isDigit = true :=
  Nat.isDigit_of_mem_toDigits (by decide) (by decide) h

/-- A number is padded with digits. -/
theorem isDigit_of_mem_paddedDigits {width n : Nat} {c : Char} (h : c ∈ paddedDigits width n) :
    c.isDigit = true := by
  rcases List.mem_append.1 h with zero | digit
  · rw [List.eq_of_mem_replicate zero]
    rfl
  · exact isDigit_of_mem_digits digit

/-- What is true of the ten digits is true of a digit. -/
@[elab_as_elim] theorem of_isDigit {p : Char → Prop} {c : Char} (digit : c.isDigit = true)
    (h : ['0', '1', '2', '3', '4', '5', '6', '7', '8', '9'].Forall p) : p c := by
  refine List.forall_iff_forall_mem.1 h c ?_
  have bounds : 48 ≤ c.toNat ∧ c.toNat ≤ 57 := by
    rw [Char.isDigit, Bool.and_eq_true, decide_eq_true_eq, decide_eq_true_eq] at digit
    exact ⟨digit.1, digit.2⟩
  have same : Char.ofNat c.toNat = c := Char.ofNat_toNat c
  obtain ⟨low, high⟩ := bounds
  generalize c.toNat = code at low high same
  subst same
  interval_cases code <;> decide

/-- Padding makes a number at least as wide as it asks for. -/
theorem le_length_paddedDigits (width n : Nat) : width ≤ (paddedDigits width n).length := by
  rw [paddedDigits, List.length_append, List.length_replicate]
  omega

end Decimal

namespace Number

/-! ## Characters at the end -/

section

variable {c : Char} {t u : List Char}

/-- Dropping a character from the end is what the library does for all that are equal to it. -/
theorem dropEnd_eq : dropEnd c t = t.rdropWhile (· == c) := rfl

/-- What is taken off are copies of the character. -/
theorem exists_dropEnd (c : Char) (t : List Char) : ∃ n, dropEnd c t ++ List.replicate n c = t := by
  refine ⟨(t.rtakeWhile (· == c)).length, ?_⟩
  have copies : t.rtakeWhile (· == c) = List.replicate (t.rtakeWhile (· == c)).length c :=
    List.eq_replicate_of_mem fun _ hd => beq_iff_eq.1 (List.mem_rtakeWhile_imp (p := (· == c)) hd)
  rw [← copies, dropEnd_eq]
  exact List.rdropWhile_append_rtakeWhile

/-- No such character is left at the end. -/
theorem ne_of_mem_getLast?_dropEnd : ∀ d ∈ (dropEnd c t).getLast?, d ≠ c := by
  intro d hd
  obtain ⟨some, rfl⟩ := List.mem_getLast?_eq_getLast hd
  exact fun eq => List.rdropWhile_last_not (· == c) t some (beq_iff_eq.2 eq)

/-- Nothing more is taken off than that. -/
theorem dropEnd_append_replicate (h : ∀ d ∈ t.getLast?, d ≠ c) (n : Nat) :
    dropEnd c (t ++ List.replicate n c) = t := by
  induction n with
  | zero =>
    rw [List.replicate_zero, List.append_nil, dropEnd_eq, List.rdropWhile_eq_self_iff]
    intro some
    simpa using h _ (List.getLast?_eq_some_getLast some)
  | succ n ih =>
    have last := List.rdropWhile_concat_pos (· == c) (t ++ List.replicate n c) c (beq_self_eq_true c)
    rw [List.replicate_succ', ← List.append_assoc, dropEnd_eq, last]
    exact ih

end

/-! ## Texts -/

/-- An optional minus, digits, and a point where digits stand behind it. -/
def numeral (negative : Bool) (whole behind : List Char) : List Char :=
  (if negative then ['-'] else []) ++ whole ++ (if behind.isEmpty then [] else '.' :: behind)

/-- Without digits behind the point there is no point. -/
theorem numeral_nil (negative : Bool) (whole : List Char) :
    numeral negative whole [] = (if negative then ['-'] else []) ++ whole := List.append_nil _

/-- When a numeral is `-0`. -/
theorem eq_of_numeral_eq_zero {negative : Bool} {whole behind : List Char} (some : whole ≠ [])
    (digits : ∀ c ∈ whole, c.isDigit = true) (h : numeral negative whole behind = ['-', '0']) :
    negative = true ∧ whole = ['0'] ∧ behind = [] := by
  obtain ⟨c, whole, rfl⟩ := List.exists_cons_of_ne_nil some
  cases negative with
  | false =>
    have first : c = '-' := (List.cons.inj h).1
    rw [first] at digits
    exact absurd (digits '-' (List.mem_cons_self ..)) (by decide)
  | true =>
    obtain ⟨rfl, rest⟩ := List.cons.inj (List.cons.inj h).2
    obtain ⟨rfl, none⟩ := List.append_eq_nil_iff.1 rest
    refine ⟨rfl, rfl, ?_⟩
    cases behind with
    | nil => rfl
    | cons _ _ => cases none

/-- An integer is written as a numeral without a point. -/
theorem toList_toString_int (i : Int) :
    (toString i).toList = numeral (decide (i < 0)) (Decimal.digits i.natAbs) [] := by
  rw [numeral_nil]
  cases i with
  | ofNat n =>
    rw [if_neg (by simp)]
    exact String.toList_ofList
  | negSucc n =>
    rw [if_pos (by simp)]
    show ("-" ++ String.ofList (Nat.toDigits 10 (n + 1))).toList = _
    rw [String.toList_append]
    exact congrArg ('-' :: ·) String.toList_ofList

/-- Zeros behind the point are dropped, and the point with the last of them. -/
theorem dropEnd_fixed (negative : Bool) {whole behind : List Char} (some : whole ≠ [])
    (digits : ∀ c ∈ whole ++ behind, c.isDigit = true) :
    dropEnd '.' (dropEnd '0' ((if negative then ['-'] else []) ++ whole ++ '.' :: behind)) =
      numeral negative whole (dropEnd '0' behind) := by
  unfold numeral
  generalize (if negative then ['-'] else []) = sign
  have notPoint {c : Char} (hc : c ∈ whole ++ behind) : c ≠ '.' := fun eq => by
    have := digits c hc
    rw [eq] at this
    exact absurd this (by decide)
  obtain ⟨n, zeros⟩ := exists_dropEnd '0' behind
  have notZero := ne_of_mem_getLast?_dropEnd (c := '0') (t := behind)
  have inside {c : Char} (hc : c ∈ dropEnd '0' behind) : c ∈ behind := by
    rw [← zeros]
    exact List.mem_append_left _ hc
  generalize dropEnd '0' behind = kept at *
  rw [← zeros, ← List.cons_append, ← List.append_assoc]
  -- the point goes only if every digit behind it was a zero
  rcases List.eq_nil_or_concat' kept with rfl | ⟨front, c, rfl⟩
  · rw [dropEnd_append_replicate (by simp)]
    have last : ∀ d ∈ (sign ++ whole).getLast?, d ≠ '.' := by
      intro d hd
      rw [List.getLast?_append_of_ne_nil _ some] at hd
      exact notPoint (List.mem_append_left _ (List.mem_of_getLast? hd))
    exact (dropEnd_append_replicate last 1).trans (List.append_nil _).symm
  · have last (e : Char) (hc : c ≠ e) : ∀ d ∈ (sign ++ whole ++ '.' :: (front ++ [c])).getLast?, d ≠ e := by
      rw [← List.cons_append, ← List.append_assoc, List.getLast?_concat]
      rintro _ ⟨⟩
      exact hc
    have notZero : c ≠ '0' := notZero c (by simp)
    have notPoint : c ≠ '.' := notPoint (List.mem_append_right _ (inside (by simp)))
    rw [dropEnd_append_replicate (last '0' notZero), if_neg (by simp)]
    have kept := dropEnd_append_replicate (last '.' notPoint) 0
    rwa [List.replicate_zero, List.append_nil] at kept

end Number

/-- An optional minus and digits, some of them before the point. -/
structure Numeral where
  negative : Bool
  whole : List Char
  behind : List Char
  whole_ne_nil : whole ≠ []
  isDigit : ∀ c ∈ whole ++ behind, c.isDigit = true

namespace Numeral

/-- The text of a numeral. -/
def text (n : Numeral) : List Char := Number.numeral n.negative n.whole n.behind

/-- The double it is read as. -/
def value (n : Numeral) : Float := Binary64.withSign n.negative (Decimal.nearest n.whole n.behind)

/-- The digits of a numeral, and the point. -/
def unsigned (n : Numeral) : List Char := n.whole ++ (if n.behind.isEmpty then [] else '.' :: n.behind)

/-- A minus stands in front of all else. -/
theorem text_eq (n : Numeral) : n.text = (if n.negative then ['-'] else []) ++ n.unsigned := List.append_assoc ..

/-- A digit comes first, and there are only digits and points. -/
theorem exists_unsigned_eq (n : Numeral) :
    ∃ c cs, n.unsigned = c :: cs ∧ c.isDigit = true ∧ ∀ d ∈ n.unsigned, (d.isDigit || d == '.') = true := by
  obtain ⟨c, cs, hw⟩ := List.exists_cons_of_ne_nil n.whole_ne_nil
  refine ⟨c, _, by rw [unsigned, hw]; rfl, n.isDigit c (by simp [hw]), fun d hd => ?_⟩
  rcases List.mem_append.1 hd with whole | behind
  · rw [n.isDigit d (List.mem_append_left _ whole), Bool.true_or]
  · split at behind
    · cases behind
    · rcases List.mem_cons.1 behind with rfl | digit
      · rfl
      · rw [n.isDigit d (List.mem_append_right _ digit), Bool.true_or]

/-- Reading the digits gives the magnitude. -/
theorem readUnsigned?_unsigned (n : Numeral) :
    Decimal.readUnsigned? n.unsigned = some (Decimal.nearest n.whole n.behind) := by
  have whole : ∀ c ∈ n.whole, c.isDigit = true := fun c hc => n.isDigit c (List.mem_append_left _ hc)
  have behind : ∀ c ∈ n.behind, c.isDigit = true := fun c hc => n.isDigit c (List.mem_append_right _ hc)
  unfold Decimal.readUnsigned? unsigned
  cases places : n.behind with
  | nil =>
    rw [List.isEmpty_nil, if_pos rfl, Text.takeWhile_run whole (by simp), Text.dropWhile_run whole (by simp)]
    simp [n.whole_ne_nil]
  | cons d ds =>
    rw [places] at behind
    have point : ∀ c ∈ ('.' :: d :: ds).head?, c.isDigit = false := by
      rintro _ ⟨⟩
      rfl
    have all : (d :: ds).all Char.isDigit = true := List.all_eq_true.2 behind
    rw [List.isEmpty_cons, if_neg Bool.false_ne_true, Text.takeWhile_run whole point, Text.dropWhile_run whole point]
    show (if ((d :: ds).all Char.isDigit && !(n.whole.isEmpty && (d :: ds).isEmpty)) = true then _ else _) = _
    rw [all]
    simp

/-- Without its minus, a numeral is read as the double nearest to its digits. -/
theorem read?_unsigned (n : Numeral) : Decimal.read? n.unsigned = some (Decimal.nearest n.whole n.behind) := by
  obtain ⟨c, cs, first, digit, -⟩ := n.exists_unsigned_eq
  have unsigned := n.readUnsigned?_unsigned
  rw [first] at unsigned ⊢
  unfold Decimal.read?
  split
  next minus =>
    rw [(List.cons.inj minus).1] at digit
    cases digit
  next => exact unsigned

/-- Reading a numeral gives its value. -/
theorem read?_text (n : Numeral) : Decimal.read? n.text = some n.value := by
  rw [n.text_eq, value]
  cases n.negative with
  | false => exact n.read?_unsigned
  | true =>
    show (Decimal.readUnsigned? n.unsigned).map (- ·) = _
    rw [n.readUnsigned?_unsigned]
    rfl

end Numeral

namespace Binary64

open Float.Model Float.Model.UnpackedFloat

/-- A double that is packed with a sign unpacks to its sign, its mantissa and its exponent. -/
theorem Normal.unpack_withSign {m : Nat} {e : Int} (h : Normal m e) (negative : Bool) :
    (withSign negative ⟨pack (.finite .positive m e h.pos)⟩).toModel.unpack =
      .finite (if negative then .negative else .positive) m e h.pos := by
  cases negative with
  | false => exact h.unpack_pack .positive
  | true =>
    show (pack (UnpackedFloat.neg (Float.Model.unpack (pack _)))).unpack = _
    rw [h.unpack_pack]
    exact h.unpack_pack .negative

/-- A whole number is zero when its mantissa is, and is equal to itself. -/
theorem beq_zero_iff {x : Float} {v : Binary64} (hx : ofFloat? x = some v) (whole : v.isWhole = true) :
    ((x == 0) = true ↔ v.mantissa = 0) ∧ (x == x) = true := by
  have beq (a b : Float) : (a == b) = (a.toModel.unpack.compare b.toModel.unpack == some .eq) := rfl
  rcases Nat.eq_zero_or_pos v.mantissa with zero | pos
  · rw [eq_withSign_zero hx zero]
    cases v.negative <;> exact ⟨iff_of_true (by decide +kernel) zero, by decide +kernel⟩
  · have normal := normal_of_isWhole hx whole pos
    have unpacked : (0 : Float).toModel.unpack = .zero .positive := rfl
    have same : (compare v.exponent v.exponent).then (compare v.mantissa v.mantissa) = .eq := by
      rw [Int.compare_eq_eq.2 rfl, Nat.compare_eq_eq.2 rfl]
      rfl
    rw [beq, beq, eq_withSign hx normal, normal.unpack_withSign, unpacked]
    cases v.negative with
    | false => exact ⟨iff_of_false Bool.false_ne_true pos.ne', beq_iff_eq.2 (congrArg some same)⟩
    | true => exact ⟨iff_of_false Bool.false_ne_true pos.ne', beq_iff_eq.2 (congrArg (some ∘ Ordering.swap) same)⟩

/-- The greatest number that is written as a whole one, taken apart. -/
theorem unpack_largest : (1e15 : Float).toModel.unpack = .finite .positive (10 ^ 15 * 2 ^ 3) (-3) (by decide) := by
  rfl

/-- Below `10 ^ 15` doubles lie an eighth apart, or closer together. -/
theorem Normal.exponent_le_of_abs_lt {x : Float} {v : Binary64} (hx : ofFloat? x = some v)
    (h : Normal v.mantissa v.exponent) (small : x.abs < 1e15) : v.exponent ≤ -3 := by
  have abs : x.abs.toModel.unpack = .finite .positive v.mantissa v.exponent h.pos := by
    rw [eq_withSign hx h]
    show (pack (UnpackedFloat.abs (Float.Model.unpack _))).unpack = _
    rw [h.unpack_withSign]
    exact h.unpack_pack .positive
  have less : UnpackedFloat.lt x.abs.toModel.unpack (1e15 : Float).toModel.unpack = true := of_decide_eq_true small
  rw [abs, unpack_largest] at less
  have order : (compare v.exponent (-3)).then (compare v.mantissa (10 ^ 15 * 2 ^ 3)) = .lt :=
    Option.some.inj (beq_iff_eq.1 less)
  rcases Ordering.then_eq_lt.1 order with lt | ⟨eq, -⟩
  · exact (Int.compare_eq_lt.1 lt).le
  · exact (Int.compare_eq_eq.1 eq).le

/-- Below `10 ^ 15` whole parts have few bits. -/
theorem wholePart_lt {x : Float} {v : Binary64} (hx : ofFloat? x = some v) (small : x.abs < 1e15) :
    v.wholePart < 2 ^ 53 := by
  have fewer : v.mantissa < 2 ^ 53 ∧ v.exponent < 0 := by
    rcases normal_or_of_ofFloat? hx with normal | ⟨few, least⟩
    · have := normal.exponent_le_of_abs_lt hx small
      exact ⟨normal.high, by omega⟩
    · exact ⟨by omega, by omega⟩
  unfold wholePart shift
  rw [if_neg (by omega)]
  exact (Nat.div_le_self _ _).trans_lt fewer.1

/-- Without its sign, a truncated double is its whole part. -/
theorem natAbs_truncate (v : Binary64) : v.truncate.natAbs = v.wholePart := by
  unfold truncate
  split <;> omega

/-- Whole numbers below `10 ^ 15` are written as integers, since these have room for them. -/
theorem scalarText_of_isWhole {x : Float} {v : Binary64} (hx : ofFloat? x = some v) (whole : v.isWhole = true)
    (small : x.abs < 1e15) : Number.scalarText x = toString v.truncate := by
  have few := wholePart_lt hx small
  have integer : toInteger x = v.truncate := by
    unfold toInteger
    rw [hx]
    unfold truncate leastInteger greatestInteger
    dsimp only
    split <;> omega
  unfold Number.scalarText
  rw [isInteger_iff.2 ⟨v, hx, whole⟩, decide_eq_true small, integer]
  rfl

/-- So nothing is lost of them but the sign of zero. -/
theorem exists_numeral_of_isWhole {x : Float} {v : Binary64} (hx : ofFloat? x = some v) (whole : v.isWhole = true)
    (small : x.abs < 1e15) :
    ∃ n : Numeral, (Number.scalarText x).toList = n.text ∧ n.value = if v.mantissa = 0 then 0 else x := by
  rw [scalarText_of_isWhole hx whole small, Number.toList_toString_int, natAbs_truncate]
  have isDigit : ∀ c ∈ Decimal.digits v.wholePart ++ [], c.isDigit = true := by
    rw [List.append_nil]
    exact fun c => Decimal.isDigit_of_mem_digits
  refine ⟨⟨decide (v.truncate < 0), Decimal.digits v.wholePart, [], Nat.toDigits_ne_nil, isDigit⟩, rfl, ?_⟩
  show withSign (decide (v.truncate < 0)) (Decimal.nearest (Decimal.digits v.wholePart) []) = _
  have value : Decimal.nearest (Decimal.digits v.wholePart) [] = Float.ofScientific v.wholePart true 0 := by
    rw [Decimal.nearest, List.append_nil, Decimal.ofDigits_digits]
    rfl
  rw [value]
  rcases Nat.eq_zero_or_pos v.mantissa with zero | pos
  · have positive : ¬v.truncate < 0 := by
      unfold truncate
      rw [wholePart_eq_zero zero]
      split <;> decide
    rw [if_pos zero, wholePart_eq_zero zero, ofScientific_zero, decide_eq_false positive]
    rfl
  · have some := wholePart_pos hx whole pos
    have sign : decide (v.truncate < 0) = v.negative := by
      unfold truncate
      cases v.negative with
      | false => exact decide_eq_false (by simp)
      | true => exact decide_eq_true (by simpa using some)
    rw [if_neg pos.ne', sign]
    exact withSign_ofScientific_wholePart hx whole pos

/-- The digits of a magnitude in units of the fifth place, before the point and behind it. -/
theorem exists_fixed (v : Binary64) : ∃ whole behind, whole ≠ [] ∧ behind.length = 5 ∧
    whole ++ behind = Decimal.paddedDigits 6 v.fivePlaces ∧
    Decimal.fixed 5 v = (if v.negative then ['-'] else []) ++ whole ++ '.' :: behind := by
  have long := Decimal.le_length_paddedDigits 6 v.fivePlaces
  refine ⟨_, _, ?_, ?_, List.take_append_drop ((Decimal.paddedDigits 6 v.fivePlaces).length - 5) _, rfl⟩
  · refine List.ne_nil_of_length_pos ?_
    rw [List.length_take]
    omega
  · rw [List.length_drop]
    omega

/-- All other numbers are rounded. -/
theorem exists_numeral_of_fixed {x : Float} {v : Binary64} (hx : ofFloat? x = some v)
    (text : Number.scalarText x = if Number.dropEnd '.' (Number.dropEnd '0' (Decimal.fixed 5 v)) = ['-', '0']
      then "0" else String.ofList (Number.dropEnd '.' (Number.dropEnd '0' (Decimal.fixed 5 v)))) :
    ∃ n : Numeral, (Number.scalarText x).toList = n.text ∧ Alike n.value (rounded x) := by
  obtain ⟨whole, behind, some, places, all, fixed⟩ := v.exists_fixed
  have digits : ∀ c ∈ whole ++ behind, c.isDigit = true := by
    rw [all]
    exact fun c => Decimal.isDigit_of_mem_paddedDigits
  rw [fixed, Number.dropEnd_fixed _ some digits] at text
  obtain ⟨n, zeros⟩ := Number.exists_dropEnd '0' behind
  generalize Number.dropEnd '0' behind = kept at text zeros
  have count : kept.length + n = 5 := by rw [← places, ← zeros, List.length_append, List.length_replicate]
  have value : Decimal.nearest whole kept = Float.ofScientific v.fivePlaces true 5 := by
    refine ofScientific_congr (by omega) ?_
    have scaled : v.fivePlaces = 10 ^ n * Decimal.ofDigits (whole ++ kept) := by
      rw [← Decimal.ofDigits_append_zeros, List.append_assoc, zeros, all, Decimal.ofDigits_paddedDigits]
    rw [scaled, ← count, pow_add]
    push_cast
    field_simp
  by_cases zero : Number.numeral v.negative whole kept = ['-', '0']
  · -- a zero is written without its sign
    obtain ⟨negative, rfl, rfl⟩ := Number.eq_of_numeral_eq_zero some
      (fun c hc => digits c (List.mem_append_left _ hc)) zero
    rw [if_pos zero] at text
    have none : v.fivePlaces = 0 := by
      have := congrArg Decimal.ofDigits all
      rw [Decimal.ofDigits_paddedDigits, ← zeros, List.nil_append, Decimal.ofDigits_append_zeros] at this
      exact this.symm
    refine ⟨⟨false, ['0'], [], by simp, by simp⟩, by rw [text]; rfl, .inr ⟨false, v.negative, ?_, ?_⟩⟩
    · show Decimal.nearest ['0'] [] = 0
      rw [value, none, ofScientific_zero]
    · rw [rounded_eq hx, none, ofScientific_zero]
  · rw [if_neg zero] at text
    have isDigit : ∀ c ∈ whole ++ kept, c.isDigit = true := by
      rw [← zeros, ← List.append_assoc] at digits
      exact fun c hc => digits c (List.mem_append_left _ hc)
    refine ⟨⟨v.negative, whole, kept, some, isDigit⟩, ?_, .inl ?_⟩
    · rw [text, String.toList_ofList]
      rfl
    · show withSign v.negative (Decimal.nearest whole kept) = _
      rw [value, rounded_eq hx]

/-- **Numbers are written as numerals.** Read again, a numeral gives the number rounded to five places. -/
theorem exists_numeral {x : Float} {v : Binary64} (hx : ofFloat? x = some v) :
    ∃ n : Numeral, (Number.scalarText x).toList = n.text ∧ Alike n.value (rounded x) := by
  by_cases written : v.isWhole = true ∧ x.abs < 1e15
  · obtain ⟨n, text, value⟩ := exists_numeral_of_isWhole hx written.1 written.2
    refine ⟨n, text, ?_⟩
    rw [rounded_of_isWhole hx written.1, value]
    split
    next zero => exact .inr ⟨false, _, rfl, eq_withSign_zero hx zero⟩
    next => exact .inl rfl
  · have text : Number.scalarText x = _ := if_neg fun h => written (by
      obtain ⟨integer, small⟩ := Bool.and_eq_true_iff.1 h
      obtain ⟨w, hw, whole⟩ := isInteger_iff.1 integer
      rw [hx, Option.some.injEq] at hw
      exact ⟨hw ▸ whole, of_decide_eq_true small⟩)
    rw [hx] at text
    dsimp only at text
    exact exists_numeral_of_fixed hx text

end Binary64

end Stylesheet
