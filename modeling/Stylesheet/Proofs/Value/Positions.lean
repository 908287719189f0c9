import Stylesheet.Proofs.Numeric.Integers
import Stylesheet.Proofs.Numeric.Truncation
import Stylesheet.Proofs.Value.Lists

/-! # Positions in lists

The items of a list are counted from one, and with negative positions from the end. So each item has two positions
(**`Builtin.IsPosition`**), and every other integer is out of bounds (**`Builtin.itemAt?_eq_none_iff`**). `index` gives
the first position of an item that equals a value, and `nth` leads back from it to this item
(**`Builtin.nth_index_agree`**).

The position is an integer of 64 bits, and what is counted from the end is subtracted from a length of 64 bits without
a sign. **`Builtin.placeOf?`** takes these steps in machine words: none of them overflows, whatever the position, the
least integer included (**`Builtin.placeOf?_eq_some`**). -/

namespace Stylesheet

namespace Builtin

/-- The item behind `i` others in a list of `count` items has this position, counted from the front or the back. -/
def IsPosition (position : Int) (i count : Nat) : Prop := position = i + 1 ∨ position = i - count

variable {position : Int} {items : List Value} {v x argument : Value} {i : Nat}

/-! ## Items at positions -/

/-- The item at a position is the one with the index that the position is for. -/
theorem itemAt?_of_isPosition (h : i < items.length) (located : IsPosition position i items.length) :
    itemAt? items position = some items[i] := by
  unfold itemAt?
  rcases located with rfl | rfl
  · rw [if_pos (by omega), show ((i : Int) + 1 - 1).toNat = i by omega, List.getElem?_eq_getElem h]
  · rw [if_neg (by omega), if_pos (by omega), show items.length - ((i : Int) - items.length).natAbs = i by omega,
      List.getElem?_eq_getElem h]

/-- There is no item at the positions beyond both ends, and at zero. -/
theorem itemAt?_eq_none_iff :
    itemAt? items position = none ↔ position = 0 ∨ items.length < position ∨ position < -items.length := by
  unfold itemAt?
  split
  · rw [List.getElem?_eq_none_iff]
    omega
  · split
    · rw [List.getElem?_eq_none_iff]
      omega
    · simp only [true_iff]
      omega

/-! ## Machine words -/

/-- The difference of two words with a sign, unless it overflows. -/
def subSigned? (a b : Int64) : Option Int64 :=
  if a.toBitVec.ssubOverflow b.toBitVec then none else some (a - b)

/-- The difference of two words without a sign, unless it overflows. -/
def subUnsigned? (a b : UInt64) : Option UInt64 :=
  if a.toBitVec.usubOverflow b.toBitVec then none else some (a - b)

/-- The place of the item at a position in a list of `count` items, in words of 64 bits; `count` itself when there is
no such item, and nothing when a subtraction overflows. -/
def placeOf? (position : Int64) (count : UInt64) : Option UInt64 :=
  -- the absolute value of the least integer fits into a word without a sign
  let distance := position.abs.toUInt64
  if 0 < position then (subSigned? position 1).map Int64.toUInt64
  else if position < 0 ∧ distance ≤ count then subUnsigned? count distance
  else some count

/-- Taking one from a positive machine word does not overflow. -/
theorem subSigned?_one {k : Int64} (pos : 0 < k) : subSigned? k 1 = some (k - 1) := by
  have low := Int64.lt_iff_toInt_lt.1 pos
  have high := Int64.toInt_le k
  refine if_neg fun overflow => ?_
  have one : (1 : Int64).toBitVec.toInt = 1 := rfl
  have same : k.toBitVec.toInt = k.toInt := rfl
  rw [BitVec.ssubOverflow, one, same, Bool.or_eq_true, decide_eq_true_iff, decide_eq_true_iff] at overflow
  rw [show (0 : Int64).toInt = 0 from rfl] at low
  rw [show Int64.maxValue.toInt = 2 ^ 63 - 1 from rfl] at high
  omega

/-- Taking a machine word from one that is no smaller does not overflow. -/
theorem subUnsigned?_of_le {a b : UInt64} (le : b ≤ a) : subUnsigned? a b = some (a - b) := by
  have le := UInt64.le_iff_toNat_le.1 le
  refine if_neg fun overflow => ?_
  have overflow := of_decide_eq_true overflow
  rw [UInt64.toNat_toBitVec, UInt64.toNat_toBitVec] at overflow
  omega

/-- The size of a machine word, taken as one without a sign, is that of its integer, even for the least one. -/
theorem toNat_toUInt64_abs (k : Int64) : k.abs.toUInt64.toNat = k.toInt.natAbs := by
  show k.toBitVec.abs.toNat = k.toBitVec.toInt.natAbs
  rw [BitVec.toNat_abs, BitVec.toInt_eq_msb_cond]
  have bound := k.toBitVec.isLt
  split <;> omega

/-- No subtraction overflows, and the place is the one where the item is looked up. -/
theorem placeOf?_eq_some (k : Int64) {count : UInt64} (length : count.toNat = items.length) :
    ∃ place, placeOf? k count = some place ∧ items[place.toNat]? = itemAt? items k.toInt := by
  have zero : (0 : Int64).toInt = 0 := rfl
  unfold placeOf? itemAt?
  simp only [Int64.lt_iff_toInt_lt, UInt64.le_iff_toNat_le, toNat_toUInt64_abs, length, zero]
  split
  next pos =>
    have pos' : 0 < k := Int64.lt_iff_toInt_lt.2 pos
    have least : (k - 1).toInt = k.toInt - 1 := Int64.toInt_sub_of_le k 1 (by decide) (Int64.le_iff_toInt_le.2 pos)
    refine ⟨(k - 1).toUInt64, by rw [subSigned?_one pos', Option.map_some], ?_⟩
    rw [Int64.toNat_toUInt64_of_le (Int64.le_iff_toInt_le.2 (by rw [least, zero]; omega)), ← least]
    rfl
  next =>
    split
    next within =>
      have le : k.abs.toUInt64 ≤ count := UInt64.le_iff_toNat_le.2 (by rw [toNat_toUInt64_abs, length]; exact within.2)
      refine ⟨count - k.abs.toUInt64, subUnsigned?_of_le le, ?_⟩
      rw [UInt64.toNat_sub_of_le _ _ le, toNat_toUInt64_abs, length]
    next => exact ⟨count, rfl, by rw [length, List.getElem?_eq_none_iff.2 (Nat.le_refl _)]⟩

/-! ## Functions -/

/-- The integer that an argument is fits into a word. -/
theorem exists_toInt_eq (integer : argument.integer? = some position) : ∃ k : Int64, k.toInt = position := by
  obtain ⟨n, -, whole⟩ := Option.bind_eq_some_iff.1 integer
  unfold Number.integer? at whole
  split at whole
  · cases whole
    obtain ⟨least, greatest⟩ := Binary64.toInteger_mem n.scalar
    exact ⟨.ofInt _, Int64.toInt_ofInt_of_le least (by unfold Binary64.greatestInteger at greatest; omega)⟩
  · cases whole

/-- The item at a position is given. -/
theorem call_nth_of_isPosition (integer : argument.integer? = some position) (h : i < v.items.length)
    (located : IsPosition position i v.items.length) : nth.call [v, argument] = .ok v.items[i] := by
  rw [call_nth integer, itemAt?_of_isPosition h located]

/-- Beyond both ends, and at zero, it is the position that is faulted. -/
theorem call_nth_of_outOfBounds (integer : argument.integer? = some position)
    (out : position = 0 ∨ v.items.length < position ∨ position < -v.items.length) :
    nth.call [v, argument] = nth.fault (.outOfBounds position v.text) := by
  rw [call_nth integer, itemAt?_eq_none_iff.2 out]

/-- The position that is given is that of the first item which is equal, counted from one. -/
theorem call_index (v x : Value) : index.call [v, x] = match v.items.findIdx? (· == x) with
    | some i => .ok [.ofFloat (Float.ofNat (i + 1))]
    | none => .ok [.ident "null"] := rfl

/-- No position is given exactly if no item is equal. -/
theorem call_index_eq_null_iff : index.call [v, x] = .ok [.ident "null"] ↔ ∀ item ∈ v.items, (item == x) = false := by
  rw [← List.findIdx?_eq_none_iff, call_index]
  cases v.items.findIdx? (· == x) with
  | none => simp
  | some i => simp [Term.ofFloat]

/-- The position of the first item that is equal is given. -/
theorem call_index_of_first (h : i < v.items.length) (equal : (v.items[i] == x) = true)
    (first : ∀ j (hj : j < i), (v.items[j] == x) = false) :
    index.call [v, x] = .ok [.ofFloat (Float.ofNat (i + 1))] := by
  have found : v.items.findIdx? (· == x) = some i :=
    List.findIdx?_eq_some_iff_getElem.2 ⟨h, equal, fun j hj => Bool.eq_false_iff.1 (first j hj)⟩
  rw [call_index, found]

/-- **`nth` and `index` use the same positions.** For every word `k`, `nth` gives the item that has this position and
otherwise faults its arguments; every integer that an argument can be is such a word, and no step overflows on the way.
`index` gives the position of the first item that equals the value, and `null` exactly if there is none; and `nth` finds
this item at the position given. The position is a double, and those up to `2 ^ 53` are exact: a list with more items
than that fits into no address space. -/
theorem nth_index_agree (v x : Value) :
    (∀ k : Int64,
      (∀ argument : Value, argument.integer? = some k.toInt →
        (∀ i (h : i < v.items.length), IsPosition k.toInt i v.items.length →
          nth.call [v, argument] = .ok v.items[i]) ∧
        (k.toInt = 0 ∨ v.items.length < k.toInt ∨ k.toInt < -v.items.length →
          ∃ e, nth.call [v, argument] = .error e ∧ e.kind = .invalidArguments)) ∧
      ∀ count : UInt64, count.toNat = v.items.length →
        ∃ place, placeOf? k count = some place ∧ v.items[place.toNat]? = itemAt? v.items k.toInt) ∧
    (∀ (argument : Value) position, argument.integer? = some position → ∃ k : Int64, k.toInt = position) ∧
    (index.call [v, x] = .ok [.ident "null"] ↔ ∀ item ∈ v.items, (item == x) = false) ∧
    ∀ i (h : i < v.items.length), (v.items[i] == x) = true → (∀ j (hj : j < i), (v.items[j] == x) = false) →
      index.call [v, x] = .ok [.ofFloat (Float.ofNat (i + 1))] ∧
      (i < 2 ^ 53 → nth.call [v, [.ofFloat (Float.ofNat (i + 1))]] = .ok v.items[i]) := by
  refine ⟨fun k => ⟨fun argument integer => ⟨?_, fun out => ?_⟩, ?_⟩, ?_, call_index_eq_null_iff, ?_⟩
  · intro i h located
    exact call_nth_of_isPosition integer h located
  · exact ⟨_, call_nth_of_outOfBounds integer out, rfl⟩
  · intro count length
    exact placeOf?_eq_some k length
  · intro argument position integer
    exact exists_toInt_eq integer
  · intro i h equal first
    refine ⟨call_index_of_first h equal first, fun small => ?_⟩
    have held : Value.integer? [.ofFloat (Float.ofInt (i + 1 : Nat))] = some ((i + 1 : Nat) : Int) :=
      Number.integer?_ofInt (by omega) (by omega)
    exact call_nth_of_isPosition held h (.inl rfl)

/-- The last item, the least integer as a position, and the first of two items that are equal. -/
theorem nth_index_agree_three :
    let v : Value := [.ident "a", .ident "b", .ident "b"]
    nth.call [v, [.ofFloat (-1)]] = .ok [.ident "b"] ∧
      (∃ e, nth.call [v, [.ofFloat (-9223372036854775808)]] = .error e ∧ e.kind = .invalidArguments) ∧
      placeOf? Int64.minValue 3 = some 3 ∧
      index.call [v, [.ident "b"]] = .ok [.ofFloat (Float.ofNat 2)] ∧
      nth.call [v, [.ofFloat (Float.ofNat 2)]] = .ok [.ident "b"] ∧
      index.call [v, [.ident "c"]] = .ok [.ident "null"] := by
  intro v
  obtain ⟨positions, -, -, first⟩ := nth_index_agree v [.ident "b"]
  obtain ⟨-, -, absent, -⟩ := nth_index_agree v [.ident "c"]
  have last : Value.integer? [.ofFloat (-1)] = some (Int64.toInt (-1)) := by decide +kernel
  have least : Value.integer? [.ofFloat (-9223372036854775808)] = some Int64.minValue.toInt := by decide +kernel
  obtain ⟨found, back⟩ := first 1 (by decide) (by decide) (by decide)
  exact ⟨((positions (-1)).1 _ last).1 2 (by decide) (.inr rfl), ((positions Int64.minValue).1 _ least).2 (by decide),
    rfl, found, back (by decide), absent.2 (by decide)⟩

end Builtin

end Stylesheet
