import Stylesheet.Proofs.Value.Cutting

/-! # Reading what was written

A value that was read can be written and read again, as long as no string has a double quote in it and all numbers
are whole and not too large: the same value comes out, but that zero has no sign (`Value.read_text`).

It is read term by term. Whatever stands in front of it, the text of a term is cut off as this term, if what follows
ends it (**`Rereads`**). What follows is a space, or an operator that no space goes in front of; where no space goes
behind a term, an operand is wanted, so that a minus is a sign there as it is behind a space. The inside of a call is
found again since the parentheses in it are balanced (`passes_textBehind`). -/

namespace Stylesheet

open Lexeme

/-! ## Terms at any depth -/

/-- A term stands in a chain, or in the parameters of a call or in a list, at any depth. -/
inductive Occurs (t : Term) : List Term → Prop
  | here {v : List Term} (mem : t ∈ v) : Occurs t v
  | parameter {v parameters : List Term} {name : String} (mem : .call name parameters ∈ v)
    (inside : Occurs t parameters) : Occurs t v
  | item {v items : List Term} (mem : .list items ∈ v) (inside : Occurs t items) : Occurs t v

/-- A term that stands in a value stands in every value with the same terms and more. -/
theorem Occurs.mono {t : Term} {v w : List Term} (h : Occurs t v) (sub : ∀ s ∈ v, s ∈ w) : Occurs t w := by
  cases h with
  | here mem => exact .here (sub _ mem)
  | parameter mem inside => exact .parameter (sub _ mem) inside
  | item mem inside => exact .item (sub _ mem) inside

/-- Nothing in a chain is lost when it is written. -/
structure Lossless (v : List Term) : Prop where
  str : ∀ s, Occurs (.str s) v → '"' ∉ s.toList
  number : ∀ n, Occurs (.number n) v → Binary64.isInteger n.scalar = true ∧ n.scalar.abs < 1e15

/-- Fewer terms are lossless as well. -/
theorem Lossless.mono {v w : List Term} (h : Lossless w) (sub : ∀ s ∈ v, s ∈ w) : Lossless v :=
  ⟨fun s hs => h.str s (hs.mono sub), fun n hn => h.number n (hn.mono sub)⟩

/-- Each term of a lossless value is lossless on its own. -/
theorem Lossless.single {v : List Term} {t : Term} (h : Lossless v) (mem : t ∈ v) : Lossless [t] :=
  h.mono fun s hs => by rwa [List.mem_singleton.1 hs]

/-- The parameters of a call in a lossless value are lossless. -/
theorem Lossless.parameters {v parameters : List Term} {name : String} (h : Lossless v)
    (mem : .call name parameters ∈ v) : Lossless parameters :=
  ⟨fun s hs => h.str s (.parameter mem hs), fun n hn => h.number n (.parameter mem hn)⟩

/-- Each term among the parameters of a lossless call is lossless on its own. -/
theorem Lossless.inside {t : Term} {parameters : List Term} {name : String} (h : Lossless [.call name parameters])
    (mem : t ∈ parameters) : Lossless [t] := (h.parameters (List.mem_singleton.2 rfl)).single mem

/-- A number without the sign of zero. -/
def Number.unsignZero (n : Number) : Number := { n with scalar := if n.scalar == 0 then 0 else n.scalar }

mutual

/-- A term in which zeros have no sign. -/
def Term.unsignZeros : Term → Term
  | .number n => .number n.unsignZero
  | .call name parameters => .call name (Value.unsignZeros parameters)
  | .list items => .list (Value.unsignZeros items)
  | t => t

/-- A chain in which zeros have no sign. -/
def Value.unsignZeros : List Term → List Term
  | [] => []
  | t :: ts => t.unsignZeros :: Value.unsignZeros ts

end

/-! ## Texts -/

/-- A space stands in front of a term unless one of its neighbors hugs it. -/
theorem Value.toList_textBehind_cons (glued : Bool) (t : Term) (ts : List Term) :
    (textBehind glued (t :: ts)).toList = (if glued || t.hugsLeft then [] else [' ']) ++
      (t.text.toList ++ (textBehind t.hugsRight ts).toList) := by
  rw [textBehind, String.toList_append, String.toList_append, List.append_assoc]
  cases glued || t.hugsLeft <;> rfl

/-- A color read from hexadecimal digits keeps their text, and it is opaque. -/
theorem Color.of_ofHex? {text : String} {color : Color} (h : ofHex? text = some color) :
    color.text = text ∧ color.alpha = 1.0 := by
  unfold ofHex? at h
  split at h <;> cases h <;> exact ⟨rfl, rfl⟩

/-- The text of an operator is its character. -/
theorem Operator.toList_text (o : Operator) : o.text.toList = [o.char] := String.toList_singleton ..

/-- The text of a string stands between double quotes. -/
theorem toList_text_str (s : String) : (Term.str s).text.toList = '"' :: (s.toList ++ ['"']) := by
  simp [Term.text, String.toList_append]

/-- The text of a variable is its name behind a dollar sign. -/
theorem toList_text_var (name : List Char) : (Term.var (String.ofList name)).text.toList = '$' :: name := by
  simp [Term.text, String.toList_append]

/-- The text of a call is its name, with the parameters in parentheses. -/
theorem toList_text_call (name : List Char) (parameters : List Term) :
    (Term.call (String.ofList name) parameters).text.toList =
      name ++ '(' :: (Value.textBehind true parameters).toList ++ [')'] := by
  rw [Term.text, String.toList_append, String.toList_append, String.toList_append, String.toList_ofList,
    List.append_assoc name]
  rfl

/-- The text of a number that is not lossy is a numeral with a unit. -/
theorem Number.exists_text_eq {n : Number} (integer : Binary64.isInteger n.scalar = true)
    (small : n.scalar.abs < 1e15) : ∃ numeral : Numeral,
      n.text.toList = numeral.text ++ n.unitText.toList ∧ numeral.value = n.unsignZero.scalar := by
  obtain ⟨v, hv, whole⟩ := Binary64.isInteger_iff.1 integer
  obtain ⟨numeral, text, value⟩ := Binary64.exists_numeral_of_isWhole hv whole small
  refine ⟨numeral, by rw [Number.text, String.toList_append, text], ?_⟩
  rw [value, unsignZero]
  exact if_congr (Binary64.beq_zero_iff hv whole).1.symm rfl rfl

section

variable {n : Number} (unit : ∀ u, n.unit = some u → u ≠ "" ∧ ∀ c ∈ u.toList, isUnitChar c = true)

include unit

/-- A unit is written with characters that units are read with. -/
theorem Number.isUnitChar_of_mem_unitText : ∀ c ∈ n.unitText.toList, isUnitChar c = true := by
  intro c hc
  unfold unitText at hc
  cases some : n.unit with
  | none =>
    rw [some] at hc
    cases hc
  | some u =>
    rw [some] at hc
    exact (unit u some).2 c hc

/-- A unit is known from its text. -/
theorem Number.unit_eq_of_unitText :
    (if n.unitText.toList.isEmpty then none else some (String.ofList n.unitText.toList)) = n.unit := by
  unfold unitText
  cases some : n.unit with
  | none => rfl
  | some u =>
    have notEmpty : u.toList.isEmpty = false := by simpa using (unit u some).1
    rw [Option.getD_some, notEmpty, String.ofList_toList]
    rfl

end

/-! ## Parentheses -/

/-- The search for a closing parenthesis goes through the text of a chain as through its terms. -/
theorem passes_textBehind {v : List Term} (turns : ∀ t ∈ v, Turns t t.text.toList) (glued : Bool) {d d' : Nat}
    (after : Value.depthAfter d v = some d') : Passes d d' (Value.textBehind glued v).toList := by
  induction v generalizing glued d with
  | nil =>
    cases after
    exact .nil
  | cons t ts ih =>
    rw [Value.depthAfter_cons] at after
    obtain ⟨d'', first, others⟩ := Option.bind_eq_some_iff.1 after
    have blank : Passes d d (if glued || t.hugsLeft then [] else [' ']) := by
      cases glued || t.hugsLeft with
      | true => exact .nil
      | false => exact .plain (List.forall_mem_singleton.2 rfl)
    rw [Value.toList_textBehind_cons]
    exact blank.append ((((turns t (List.mem_cons_self ..)) d).1 d'' first).append
      (ih (fun s hs => turns s (List.mem_cons_of_mem _ hs)) _ others))

/-- A numeral is cut off by no character that it is written with. -/
theorem Numeral.plain (n : Numeral) : ∀ c ∈ n.text, isDelimiter c = false := by
  obtain ⟨-, -, -, -, digits⟩ := n.exists_unsigned_eq
  intro c hc
  rw [n.text_eq] at hc
  rcases List.mem_append.1 hc with sign | digit
  · split at sign
    · rw [List.mem_singleton.1 sign]
      rfl
    · cases sign
  · exact isDelimiter_of (p := fun c => c.isDigit || c == '.') (by decide) (digits c digit)

/-- A name is cut off by none of its characters. -/
theorem plain_name {c : Char} {name : List Char} (first : isDelimiter c = false)
    (chars : ∀ d ∈ name, isNameChar d = true) : ∀ d ∈ c :: name, isDelimiter d = false := by
  intro d hd
  rcases List.mem_cons.1 hd with rfl | hd
  · exact first
  · exact isDelimiter_of_isNameChar (chars d hd)

/-- The search goes through the text of a term as through the term. -/
theorem turns_text {t : Term} (lexical : Lexical t) (lossless : Lossless [t]) : Turns t t.text.toList := by
  -- no text of a term has parentheses or quotes in it but those that belong to calls and strings
  induction lexical with
  | number n unit =>
    obtain ⟨integer, small⟩ := lossless.number n (.here (List.mem_singleton.2 rfl))
    obtain ⟨numeral, text, -⟩ := Number.exists_text_eq integer small
    refine turns_of_passes (fun _ => rfl) fun _ => .plain fun c hc => ?_
    rw [Term.text, text] at hc
    rcases List.mem_append.1 hc with digit | inUnit
    · exact numeral.plain c digit
    · exact isDelimiter_of_isUnitChar (Number.isUnitChar_of_mem_unitText unit c inUnit)
  | color chars spelt =>
    rw [Term.text, (Color.of_ofHex? spelt).1, String.toList_ofList]
    exact turns_of_passes (fun _ => rfl) fun _ => .plain (plain_name rfl chars)
  | hash chars =>
    rw [Term.text, String.toList_ofList]
    exact turns_of_passes (fun _ => rfl) fun _ => .plain (plain_name rfl chars)
  | word word =>
    rw [Term.text, String.toList_ofList]
    exact turns_of_passes (fun _ => rfl) fun _ => .plain word.plain
  | address word _ closed =>
    rw [Term.text, String.toList_ofList]
    exact turns_of_passes (fun _ => rfl) (word.passes_call closed)
  | str s =>
    have free := lossless.str s (.here (List.mem_singleton.2 rfl))
    rw [toList_text_str]
    exact turns_of_passes (fun _ => rfl) fun _ => .quoted (.inl rfl) free
  | op o =>
    rw [Term.text, Operator.toList_text]
    exact turns_op o
  | @var name _ chars =>
    rw [toList_text_var]
    exact turns_of_passes (fun _ => rfl) fun _ => .plain (plain_name rfl chars)
  | @call c more parameters word named inside balanced ih =>
    have closed := (passes_textBehind (fun t ht => ih t ht (lossless.inside ht)) true balanced).closed
    rw [toList_text_call]
    exact turns_of_passes (fun _ => rfl) (word.passes_call closed)

/-! ## Reading again -/

/-- A term is read from its text, whatever stands in front of it, where what follows ends it. -/
structure Rereads (t : Term) : Prop where
  visible : ∃ c cs, t.text.toList = c :: cs ∧ isSpace c = false
  reads : ∀ (source : String) (wanted : Bool) (cs rest : List Char), cs.dropWhile isSpace = t.text.toList ++ rest →
    (t.hugsLeft = false → (wanted || cs.head?.any isSpace) = true) → (t.hugsRight = false → Follows rest) →
    Value.readFrom source wanted cs = (Value.readFrom source t.wantsOperand rest).map (t.unsignZeros :: ·)

section

variable {source : String} {wanted : Bool} {c : Char} {cs behind rest : List Char}

/-- Nothing is read from blanks. -/
theorem readFrom_of_blank (hc : cs.dropWhile isSpace = []) : Value.readFrom source wanted cs = .ok [] := by
  rw [Value.readFrom_eq, hc]

/-- Behind a term that is cut off, reading goes on. -/
theorem readFrom_of_term {t : Term} (hc : cs.dropWhile isSpace = c :: behind)
    (ht : cut source (wanted || cs.head?.any isSpace) c behind = .ok (.term t, rest)) :
    Value.readFrom source wanted cs = (Value.readFrom source t.wantsOperand rest).map (t :: ·) := by
  rw [Value.readFrom_eq, hc]
  dsimp only
  rw [ht]

/-- The parameters of a call that is cut off are read on their own, and reading goes on behind it. -/
theorem readFrom_of_call {name : String} {inside : List Char} {parameters : Value}
    (hc : cs.dropWhile isSpace = c :: behind)
    (ht : cut source (wanted || cs.head?.any isSpace) c behind = .ok (.call name inside, rest))
    (hp : Value.readFrom (String.ofList inside) true inside = .ok parameters) :
    Value.readFrom source wanted cs = (Value.readFrom source false rest).map (.call name parameters :: ·) := by
  rw [Value.readFrom_eq, hc]
  dsimp only
  rw [ht]
  dsimp only
  rw [hp]

end

/-- What is written behind a term that has a space behind it ends that term. -/
theorem follows_textBehind (v : List Term) : Follows (Value.textBehind false v).toList := by
  cases v with
  | nil => exact fun _ h => nomatch h
  | cons t ts =>
    rw [Value.toList_textBehind_cons, Bool.false_or]
    cases hugs : t.hugsLeft with
    | false =>
      rintro _ ⟨⟩
      rfl
    | true =>
      obtain ⟨o, rfl, ends⟩ : ∃ o, t = .op o ∧ endsTerm o.char = true := by
        unfold Term.hugsLeft at hugs
        split at hugs
        next => exact ⟨_, rfl, rfl⟩
        next => exact ⟨_, rfl, rfl⟩
        next => exact ⟨_, rfl, rfl⟩
        next => cases hugs
      rw [Term.text, Operator.toList_text]
      rintro _ ⟨⟩
      exact ends

/-- Where a space is left out in front of a chain, an operand is wanted. -/
theorem readFrom_textBehind {v : List Term} (rereads : ∀ t ∈ v, Rereads t) (source : String) (wanted glued : Bool)
    (operand : glued = true → wanted = true) :
    Value.readFrom source wanted (Value.textBehind glued v).toList = .ok (Value.unsignZeros v) := by
  induction v generalizing wanted glued with
  | nil =>
    rw [Value.textBehind, readFrom_of_blank rfl]
    rfl
  | cons t ts ih =>
    obtain ⟨⟨c, cs, text, visible⟩, reads⟩ := rereads t (List.mem_cons_self ..)
    have others := fun s hs => rereads s (List.mem_cons_of_mem _ hs)
    have follows : t.hugsRight = false → Follows (Value.textBehind t.hugsRight ts).toList := fun h => by
      rw [h]
      exact follows_textBehind ts
    -- only behind an opening parenthesis and a slash is there no space, and both want an operand
    have wants : t.hugsRight = true → t.wantsOperand = true := fun h => by
      unfold Term.hugsRight at h
      split at h
      next => rfl
      next => rfl
      next => cases h
    rw [Value.toList_textBehind_cons, reads source wanted _ _ ?_ ?_ follows, ih others _ _ wants]
    · rw [Value.unsignZeros]
      rfl
    · have blank : isSpace ' ' = true := rfl
      rw [text]
      cases glued || t.hugsLeft <;> simp [visible, blank]
    · intro hugs
      cases glued with
      | false => simp [hugs, isSpace]
      | true => rw [operand rfl, Bool.true_or]

/-- A term that is cut off from its text. -/
theorem Rereads.of_cut {t : Term} {c : Char} {cs : List Char} (text : t.text.toList = c :: cs)
    (visible : isSpace c = false) (operand : t.unsignZeros.wantsOperand = t.wantsOperand)
    (cuts : ∀ (source : String) (signed : Bool) (rest : List Char), (t.hugsLeft = false → signed = true) →
      (t.hugsRight = false → Follows rest) → cut source signed c (cs ++ rest) = .ok (.term t.unsignZeros, rest)) :
    Rereads t := by
  refine ⟨⟨c, cs, text, visible⟩, fun source wanted all rest found signed follows => ?_⟩
  rw [text] at found
  rw [readFrom_of_term found (cuts source _ rest signed follows), operand]

/-- Terms that can be read at all are read again. -/
theorem rereads_of_lexical {t : Term} (lexical : Lexical t) (lossless : Lossless [t]) : Rereads t := by
  induction lexical with
  | number n unit =>
    obtain ⟨integer, small⟩ := lossless.number n (.here (List.mem_singleton.2 rfl))
    obtain ⟨numeral, text, value⟩ := Number.exists_text_eq integer small
    have chars := Number.isUnitChar_of_mem_unitText unit
    obtain ⟨c, cs, first, visible⟩ := exists_numeral_eq numeral
    have whole : (Term.number n).text.toList = c :: (cs ++ n.unitText.toList) := by
      rw [Term.text, text, first]
      rfl
    refine .of_cut whole visible rfl fun source signed rest sign follows => ?_
    rw [sign rfl, List.append_assoc, cut_numeral numeral first chars (follows rfl), Number.unit_eq_of_unitText unit,
      value]
    rfl
  | color chars spelt =>
    have text := (Color.of_ofHex? spelt).1
    refine .of_cut (by rw [Term.text, text, String.toList_ofList]) rfl rfl fun source signed rest _ follows => ?_
    rw [cut_hash chars (follows rfl), spelt]
    rfl
  | hash chars noColor =>
    refine .of_cut (by rw [Term.text, String.toList_ofList]) rfl rfl fun source signed rest _ follows => ?_
    rw [cut_hash chars (follows rfl), noColor]
    rfl
  | word word =>
    refine .of_cut (by rw [Term.text, String.toList_ofList]) word.visible rfl fun source signed rest _ follows => ?_
    exact cut_word word (follows rfl)
  | @address c more inside word named closed =>
    refine .of_cut (by rw [Term.text, String.toList_ofList]; rfl) word.visible rfl fun source signed rest _ _ => ?_
    refine (cut_call word closed).trans ?_
    rw [named]
    rfl
  | str s =>
    have free := lossless.str s (.here (List.mem_singleton.2 rfl))
    refine .of_cut (toList_text_str s) rfl rfl fun source signed rest _ _ => ?_
    rw [List.append_assoc, List.singleton_append, cut_str free, String.ofList_toList]
    rfl
  | op o =>
    have visible : isSpace o.char = false := by cases o <;> rfl
    refine .of_cut (o.toList_text) visible rfl fun source signed rest _ follows => ?_
    exact cut_op o fun minus => follows (by rw [minus]; rfl)
  | @var name some chars =>
    refine .of_cut (toList_text_var name) rfl rfl fun source signed rest _ follows => ?_
    exact cut_var some chars (follows rfl)
  | @call c more parameters word named inside balanced ih =>
    have turns : ∀ t ∈ parameters, Turns t t.text.toList := fun t ht =>
      turns_text (inside t ht) (lossless.inside ht)
    -- what is written between the parentheses is balanced, so it is found, and it is read by induction
    have closed := (passes_textBehind turns true balanced).closed
    have again := readFrom_textBehind (fun t ht => ih t ht (lossless.inside ht))
      (String.ofList (Value.textBehind true parameters).toList) true true fun _ => rfl
    refine ⟨⟨c, _, toList_text_call _ _, word.visible⟩, fun source wanted cs rest found _ _ => ?_⟩
    rw [toList_text_call] at found
    refine readFrom_of_call found ((cut_call word closed).trans ?_) again
    rw [named]
    rfl

/-! ## Equality -/

/-- If taking the sign off zeros changes no term, it does not change the value. -/
theorem unsignZeros_beq {v : List Term} (each : ∀ t ∈ v, (t.unsignZeros == t) = true) :
    (Value.unsignZeros v == v) = true := by
  induction v with
  | nil => rfl
  | cons t ts ih =>
    rw [Value.unsignZeros]
    exact Bool.and_eq_true_iff.2 ⟨each t (List.mem_cons_self ..), ih fun s hs => each s (List.mem_cons_of_mem _ hs)⟩

/-- The sign of zero makes no difference to equality. -/
theorem unsignZeros_beq_of_lexical {t : Term} (lexical : Lexical t) (lossless : Lossless [t]) :
    (t.unsignZeros == t) = true := by
  induction lexical with
  | number n unit =>
    obtain ⟨integer, -⟩ := lossless.number n (.here (List.mem_singleton.2 rfl))
    obtain ⟨v, hv, whole⟩ := Binary64.isInteger_iff.1 integer
    obtain ⟨zero, same⟩ := Binary64.beq_zero_iff hv whole
    have scalar : ((if n.scalar == 0 then 0 else n.scalar) == n.scalar) = true := by
      split
      next h =>
        rw [Binary64.eq_withSign_zero hv (zero.1 h)]
        cases v.negative <;> decide +kernel
      next => exact same
    exact Bool.and_eq_true_iff.2 ⟨scalar, beq_self_eq_true n.unit⟩
  | @color name color chars spelt =>
    have alpha : (color.alpha == color.alpha) = true := by
      rw [(Color.of_ofHex? spelt).2]
      decide +kernel
    show (color.red == color.red && color.green == color.green && color.blue == color.blue &&
      color.alpha == color.alpha && color.spelling == color.spelling) = true
    simp [alpha]
  | hash | word | address | str | var => exact beq_self_eq_true (α := String) _
  | op o => exact beq_self_eq_true o
  | @call c more parameters word named inside balanced ih =>
    refine Bool.and_eq_true_iff.2 ⟨beq_self_eq_true _, ?_⟩
    rw [Term.beqAll_eq]
    exact unsignZeros_beq fun t ht => ih t ht (lossless.inside ht)

/-- **Reading undoes writing.** Where a text is read as a value in which no string has a double quote in it and
every number is whole and below `10 ^ 15`, at any depth, the text that this value is written as is read, as the same
value without the signs of its zeros, which is equal to it. -/
theorem Value.read_text {text : String} {v : Value} (h : Value.read text = .ok v)
    (quotes : ∀ s, Occurs (.str s) v → '"' ∉ s.toList)
    (whole : ∀ n, Occurs (.number n) v → Binary64.isInteger n.scalar = true ∧ n.scalar.abs < 1e15) :
    Value.read v.text = .ok (Value.unsignZeros v) ∧ (Value.unsignZeros v == v) = true := by
  obtain ⟨lexical, -⟩ := Value.lexical_of_readFrom h
  have lossless : Lossless v := ⟨quotes, whole⟩
  have again : ∀ t ∈ v, Rereads t := fun t ht => rereads_of_lexical (lexical t ht) (lossless.single ht)
  have equal : ∀ t ∈ v, (t.unsignZeros == t) = true := fun t ht =>
    unsignZeros_beq_of_lexical (lexical t ht) (lossless.single ht)
  exact ⟨readFrom_textBehind again _ true true fun _ => rfl, unsignZeros_beq equal⟩

/-- Written again, the string has other quotes and a space in front, and the zero has no sign. -/
theorem Value.read_text_call :
    let v : Value := [.call "f" [.number ⟨-0, some "px"⟩, .op .comma, .str "a"]]
    Value.read "f(-0px,'a')" = .ok v ∧ v.text = "f(0px, \"a\")" ∧
      Value.read v.text = .ok (Value.unsignZeros v) ∧ (Value.unsignZeros v == v) = true := by
  intro v
  have zero : Decimal.read? ['-', '0'] = some (-0) := by decide +kernel
  have number (source : String) (rest : List Char) : cut source true '-' ('0' :: 'p' :: 'x' :: ',' :: rest) =
      .ok (.term (.number ⟨-0, some "px"⟩), ',' :: rest) := by
    have cutNumber : cutNumber ['-'] ('0' :: 'p' :: 'x' :: ',' :: rest) =
        (.term (.number ⟨(Decimal.read? ['-', '0']).getD 0.0, some "px"⟩), ',' :: rest) := rfl
    have signed : cut source true '-' ('0' :: 'p' :: 'x' :: ',' :: rest) =
        .ok (Lexeme.cutNumber ['-'] ('0' :: 'p' :: 'x' :: ',' :: rest)) := rfl
    rw [signed, cutNumber, zero]
    rfl
  have string (source : String) (signed : Bool) :
      cut source signed '\'' ['a', '\''] = .ok (.term (.str "a"), []) := rfl
  have call (source : String) : cut source true 'f' "(-0px,'a')".toList =
      .ok (.call "f" ['-', '0', 'p', 'x', ',', '\'', 'a', '\''], []) := rfl
  have inside (source : String) : readFrom source true ['-', '0', 'p', 'x', ',', '\'', 'a', '\''] =
      .ok [.number ⟨-0, some "px"⟩, .op .comma, .str "a"] := by
    rw [readFrom_of_term rfl (number _ _), readFrom_of_term rfl (cut_op .comma nofun),
      readFrom_of_term rfl (string _ _), readFrom_of_blank rfl]
    rfl
  have read : Value.read "f(-0px,'a')" = .ok v := by
    rw [Value.read, readFrom_of_call rfl (call _) (inside _), readFrom_of_blank rfl]
    rfl
  have occurs {t : Term} (h : Occurs t v) :
      (∃ name parameters, t = .call name parameters) ∨ t = .number ⟨-0, some "px"⟩ ∨ t = .op .comma ∨
        t = .str "a" := by
    rcases h with mem | ⟨mem, inside⟩ | ⟨mem, inside⟩
    · exact .inl ⟨_, _, List.mem_singleton.1 mem⟩
    · obtain ⟨rfl, rfl⟩ := Term.call.inj (List.mem_singleton.1 mem)
      rcases inside with mem | ⟨mem, -⟩ | ⟨mem, -⟩
      · right
        simpa using mem
      · simp at mem
      · simp at mem
    · cases List.mem_singleton.1 mem
  refine ⟨read, by decide +kernel, Value.read_text read (fun s hs => ?_) fun n hn => ?_⟩
  · obtain ⟨_, _, h⟩ | h | h | h := occurs hs <;> cases h
    decide
  · obtain ⟨_, _, h⟩ | h | h | h := occurs hn <;> cases h
    decide +kernel

end Stylesheet
