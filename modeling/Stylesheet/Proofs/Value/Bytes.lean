import Mathlib.Data.List.TakeWhile
import Stylesheet.Text.Ranges

/-! # Texts as bytes

In memory a text is the row of bytes of its characters in UTF-8 (**`Text.bytes`**, `Text.toByteArray_bytes`), and a
place in it is a number of bytes. A part of it can only be taken between places where characters begin or the text
ends (**`Text.slice?`**, `slice?_eq_some_iff`). An ASCII character is one byte and all bytes of any other character
are `0x80` or more, so a class of bytes that takes the latter all alike is a class of characters (**`Text.Agree`**):
searching the bytes ends where searching the characters ends (`Text.takeWhile_bytes`). -/

namespace Stylesheet

namespace Text

/-! ## Bytes -/

/-- The bytes of a text. -/
def bytes (cs : List Char) : List UInt8 := cs.flatMap String.utf8EncodeChar

/-- The number of bytes of a text. -/
def size (cs : List Char) : Nat := (bytes cs).length

variable {front mid back cs : List Char} {c : Char} {start stop : Nat}

/-- The empty text has no bytes. -/
@[simp] theorem bytes_nil : bytes [] = [] := rfl

/-- The bytes of the first character stand in front of those of the others. -/
@[simp] theorem bytes_cons (c : Char) (cs : List Char) : bytes (c :: cs) = String.utf8EncodeChar c ++ bytes cs := rfl

/-- Texts one after the other have their bytes one after the other. -/
@[simp] theorem bytes_append (cs ds : List Char) : bytes (cs ++ ds) = bytes cs ++ bytes ds := by simp [bytes]

/-- These are the bytes that a string is stored as. -/
theorem toByteArray_bytes (text : String) : (bytes text.toList).toByteArray = text.toUTF8 := by
  rw [← String.ofList_toList (s := text)]
  simp only [String.toList_ofList]
  rfl

/-- The empty text takes no bytes. -/
@[simp] theorem size_nil : size [] = 0 := rfl

/-- The first character takes its bytes, and the others take theirs. -/
@[simp] theorem size_cons (c : Char) (cs : List Char) : size (c :: cs) = c.utf8Size + size cs := by
  simp [size, String.length_utf8EncodeChar]

/-- Texts one after the other take the bytes of both. -/
@[simp] theorem size_append (cs ds : List Char) : size (cs ++ ds) = size cs + size ds := by simp [size]

/-- The byte of an ASCII character. -/
def byte (c : Char) : UInt8 := UInt8.ofNat c.toNat

/-- An ASCII character is the one byte of its code point. -/
theorem utf8EncodeChar_of_isAscii (h : isAscii c = true) : String.utf8EncodeChar c = [byte c] := by
  have few : c.val.toNat ≤ 127 := Nat.le_of_lt_succ (of_decide_eq_true h)
  unfold String.utf8EncodeChar
  exact if_pos few

/-- The byte of an ASCII character has its code point. -/
theorem toNat_byte (h : isAscii c = true) : (byte c).toNat = c.toNat := by
  have few : c.toNat < 128 := of_decide_eq_true h
  rw [byte, UInt8.toNat_ofNat', Nat.mod_eq_of_lt (by omega)]

/-- The byte of an ASCII character is below `0x80`. -/
theorem byte_lt (h : isAscii c = true) : byte c < 0x80 := by
  rw [UInt8.lt_iff_toNat_lt, toNat_byte h]
  exact of_decide_eq_true h

/-- All bytes of any other character are `0x80` or more. -/
theorem le_of_mem_utf8EncodeChar (h : isAscii c = false) : ∀ b ∈ String.utf8EncodeChar c, 0x80 ≤ b := by
  have many : ¬c.val.toNat ≤ 127 := fun few => absurd h (by simpa [isAscii] using Nat.lt_succ_of_le few)
  have high {n : Nat} (low : 128 ≤ n) (few : n < 256) : 0x80 ≤ UInt8.ofNat n := by
    rw [UInt8.le_iff_toNat_le, UInt8.toNat_ofNat', Nat.mod_eq_of_lt few]
    exact low
  unfold String.utf8EncodeChar
  dsimp only
  rw [if_neg many]
  split
  · simp only [List.forall_mem_cons, List.not_mem_nil, false_implies, implies_true, and_true]
    exact ⟨high (by omega) (by omega), high (by omega) (by omega)⟩
  · split
    · simp only [List.forall_mem_cons, List.not_mem_nil, false_implies, implies_true, and_true]
      exact ⟨high (by omega) (by omega), high (by omega) (by omega), high (by omega) (by omega)⟩
    · simp only [List.forall_mem_cons, List.not_mem_nil, false_implies, implies_true, and_true]
      exact ⟨high (by omega) (by omega), high (by omega) (by omega), high (by omega) (by omega),
        high (by omega) (by omega)⟩

/-- A character that is not ASCII is none that is. -/
theorem beq_eq_false_of_isAscii {d : Char} (foreign : isAscii c = false) (ascii : isAscii d = true) :
    (c == d) = false := by
  refine beq_eq_false_iff_ne.2 fun same => ?_
  rw [same, ascii] at foreign
  cases foreign

/-- A byte from `0x80` on is not that of an ASCII character. -/
theorem beq_byte_eq_false {b : UInt8} (high : 0x80 ≤ b) (ascii : isAscii c = true) : (b == byte c) = false :=
  beq_eq_false_iff_ne.2 fun same => UInt8.not_lt.2 high (same ▸ byte_lt ascii)

/-- An ASCII character takes one byte. -/
theorem utf8Size_of_isAscii (h : isAscii c = true) : c.utf8Size = 1 := by
  rw [← String.length_utf8EncodeChar, utf8EncodeChar_of_isAscii h, List.length_singleton]

/-- There are several of them. -/
theorem one_lt_utf8Size (h : isAscii c = false) : 1 < c.utf8Size := by
  have many : ¬c.val.toNat ≤ 127 := fun few => absurd h (by simpa [isAscii] using Nat.lt_succ_of_le few)
  rw [← String.length_utf8EncodeChar]
  unfold String.utf8EncodeChar
  dsimp only
  rw [if_neg many]
  split
  · exact Nat.lt_add_of_pos_left Nat.zero_lt_one
  · split <;> exact Nat.lt_add_of_pos_left (by simp)

/-! ## Slices -/

/-- The text in front of a place and the text behind it; nothing if the place is inside of a character or behind the
end. -/
def splitBytes? (place : Nat) : List Char → Option (List Char × List Char)
  | [] => if place = 0 then some ([], []) else none
  | c :: cs =>
    if place = 0 then some ([], c :: cs)
    else if place < c.utf8Size then none
    else (splitBytes? (place - c.utf8Size) cs).map fun (front, back) => (c :: front, back)

/-- The part of a text between two places; nothing if one of them is inside of a character or behind the end, or if the
first is behind the second. -/
def slice? (cs : List Char) (start stop : Nat) : Option (List Char) :=
  if start ≤ stop then
    (splitBytes? start cs).bind fun (_, behind) => (splitBytes? (stop - start) behind).map (·.1)
  else none

/-- Behind the bytes of a front, a text is split into this front and the rest. -/
theorem splitBytes?_append (front back : List Char) :
    splitBytes? (size front) (front ++ back) = some (front, back) := by
  induction front with
  | nil => cases back <;> rfl
  | cons c front ih =>
    have pos : c.utf8Size ≠ 0 := c.utf8Size_pos.ne'
    simp [splitBytes?, pos, ih]

/-- A text can be split at a place exactly if a front of that many bytes stands there. -/
theorem splitBytes?_eq_some_iff {place : Nat} :
    splitBytes? place cs = some (front, back) ↔ cs = front ++ back ∧ size front = place := by
  constructor
  · intro h
    induction cs generalizing place front with
    | nil =>
      unfold splitBytes? at h
      split at h
      next none =>
        cases h
        exact ⟨rfl, none.symm⟩
      next => cases h
    | cons c cs ih =>
      unfold splitBytes? at h
      split at h
      next none =>
        cases h
        exact ⟨rfl, none.symm⟩
      next =>
        split at h
        next => cases h
        next whole =>
          obtain ⟨⟨front', back'⟩, found, same⟩ := Option.map_eq_some_iff.1 h
          cases same
          obtain ⟨rfl, count⟩ := ih found
          exact ⟨rfl, by rw [size_cons, count]; omega⟩
  · rintro ⟨rfl, rfl⟩
    exact splitBytes?_append front back

/-- A slice goes from the beginning of a character, or from the end of the text, to another such place. -/
theorem slice?_eq_some_iff : slice? cs start stop = some mid ↔
    ∃ front back, cs = front ++ mid ++ back ∧ size front = start ∧ size front + size mid = stop := by
  unfold slice?
  constructor
  · intro h
    split at h
    next order =>
      obtain ⟨⟨front, behind⟩, first, rest⟩ := Option.bind_eq_some_iff.1 h
      obtain ⟨⟨mid', back⟩, second, rfl⟩ := Option.map_eq_some_iff.1 rest
      obtain ⟨rfl, rfl⟩ := splitBytes?_eq_some_iff.1 first
      obtain ⟨rfl, count⟩ := splitBytes?_eq_some_iff.1 second
      dsimp only
      exact ⟨front, back, (List.append_assoc ..).symm, rfl, by omega⟩
    next => cases h
  · rintro ⟨front, back, rfl, rfl, rfl⟩
    rw [if_pos (Nat.le_add_right ..), List.append_assoc, splitBytes?_append, Nat.add_sub_cancel_left]
    show (splitBytes? (size mid) (mid ++ back)).map (·.1) = some mid
    rw [splitBytes?_append]
    rfl

/-- Between the bytes of a front and those of a back stands what is between them. -/
theorem slice?_append (front mid back : List Char) :
    slice? (front ++ mid ++ back) (size front) (size front + size mid) = some mid :=
  slice?_eq_some_iff.2 ⟨front, back, rfl, rfl, rfl⟩

/-- No slice begins inside of a character. -/
theorem slice?_eq_none_of_inside (inside : size front < start ∧ start < size front + c.utf8Size) :
    slice? (front ++ c :: back) start stop = none := by
  rw [Option.eq_none_iff_forall_ne_some]
  intro mid h
  obtain ⟨front', back', parts, rfl, -⟩ := slice?_eq_some_iff.1 h
  rw [List.append_assoc, List.append_eq_append_iff] at parts
  rcases parts with ⟨more, rfl, rest⟩ | ⟨more, rfl, rest⟩
  · -- the slice begins behind the character, or in front of it
    cases more with
    | nil => simp at inside
    | cons d more =>
      cases rest
      simp only [size_append, size_cons] at inside
      omega
  · simp only [size_append] at inside
    omega

/-! ## Classes of bytes -/

/-- A class of bytes that holds all bytes of a character or none of them, as a class of characters. -/
def Agree (p : UInt8 → Bool) (q : Char → Bool) : Prop := ∀ c, ∀ b ∈ String.utf8EncodeChar c, p b = q c

variable {p : UInt8 → Bool} {q : Char → Bool}

namespace Agree

variable {p' : UInt8 → Bool} {q' : Char → Bool}

/-- Classes that agree can be united. -/
theorem or (h : Agree p q) (h' : Agree p' q') : Agree (fun b => p b || p' b) fun c => q c || q' c :=
  fun c b hb => congrArg₂ _ (h c b hb) (h' c b hb)

/-- Classes that agree agree in what they leave out. -/
theorem not (h : Agree p q) : Agree (fun b => !p b) fun c => !q c := fun c b hb => congrArg _ (h c b hb)

/-- On ASCII characters, classes that agree are the same. -/
theorem apply_byte (h : Agree p q) (ascii : isAscii c = true) : p (byte c) = q c :=
  h c _ (by rw [utf8EncodeChar_of_isAscii ascii]; exact .head _)

/-- What holds of no other characters than ASCII. -/
theorem of_ascii (ascii : ∀ c, isAscii c = true → p (byte c) = q c) (bytes : ∀ b, p b = true → b < 0x80)
    (chars : ∀ c, q c = true → isAscii c = true) : Agree p q := by
  intro c b hb
  cases kind : isAscii c with
  | true =>
    rw [utf8EncodeChar_of_isAscii kind, List.mem_singleton] at hb
    rw [hb, ascii c kind]
  | false =>
    have noByte : p b = false :=
      Bool.eq_false_iff.2 fun h => absurd (bytes b h) (UInt8.not_lt.2 (le_of_mem_utf8EncodeChar kind b hb))
    have noChar : q c = false := Bool.eq_false_iff.2 fun h => by
      rw [chars c h] at kind
      cases kind
    rw [noByte, noChar]

/-- A single ASCII character. -/
theorem single {d : Char} (ascii : isAscii d = true) : Agree (· == byte d) (· == d) := by
  refine of_ascii (fun c hc => ?_) (fun b h => ?_) fun c h => ?_
  · rw [Bool.eq_iff_iff, beq_iff_eq, beq_iff_eq, ← UInt8.toNat_inj, toNat_byte hc, toNat_byte ascii]
    exact Char.toNat_inj
  · rw [beq_iff_eq.1 h]
    exact byte_lt ascii
  · rw [beq_iff_eq.1 h, ascii]

/-- All bytes but that of an ASCII character are the class of all other characters. -/
theorem ne {d : Char} (ascii : isAscii d = true) : Agree (· != byte d) (· != d) := (single ascii).not

/-- The ASCII characters between two of them. -/
theorem range (low high : Char) (lowAscii : isAscii low = true) (highAscii : isAscii high = true) :
    Agree (fun b => decide (byte low ≤ b) && decide (b ≤ byte high))
      fun c => decide (low ≤ c) && decide (c ≤ high) := by
  refine of_ascii (fun c hc => ?_) (fun b h => ?_) fun c h => ?_
  · simp only [UInt8.le_iff_toNat_le, toNat_byte hc, toNat_byte lowAscii, toNat_byte highAscii]
    rfl
  · rw [Bool.and_eq_true, decide_eq_true_eq, decide_eq_true_eq] at h
    exact UInt8.lt_of_le_of_lt h.2 (byte_lt highAscii)
  · rw [Bool.and_eq_true, decide_eq_true_eq, decide_eq_true_eq] at h
    have few : high.toNat < 128 := of_decide_eq_true highAscii
    exact decide_eq_true (Nat.lt_of_le_of_lt (UInt32.le_iff_toNat_le.1 (Char.le_def.1 h.2)) few)

/-- The characters that are not ASCII. -/
theorem foreign : Agree (fun b => decide (0x80 ≤ b)) fun c => !isAscii c := by
  intro c b hb
  dsimp only
  cases kind : isAscii c with
  | true =>
    rw [utf8EncodeChar_of_isAscii kind, List.mem_singleton] at hb
    rw [hb]
    exact decide_eq_false (UInt8.not_le.2 (byte_lt kind))
  | false => exact decide_eq_true (le_of_mem_utf8EncodeChar kind b hb)

end Agree

/-- A class of bytes searches a text as the class of characters does. -/
theorem Agree.takeWhile_bytes (h : Agree p q) (cs : List Char) : (bytes cs).takeWhile p = bytes (cs.takeWhile q) := by
  induction cs with
  | nil => rfl
  | cons c cs ih =>
    rw [bytes_cons]
    cases hc : q c with
    | true =>
      rw [List.takeWhile_append_of_pos fun b hb => (h c b hb).trans hc, ih, List.takeWhile_cons_of_pos hc, bytes_cons]
    | false =>
      obtain ⟨b, bs, encoded⟩ := List.exists_cons_of_ne_nil (String.utf8EncodeChar_ne_nil (c := c))
      have first : p b = false := (h c b (by simp [encoded])).trans hc
      rw [encoded, List.cons_append, List.takeWhile_cons_of_neg (by simp [first]),
        List.takeWhile_cons_of_neg (by simp [hc]), bytes_nil]

end Text

end Stylesheet
