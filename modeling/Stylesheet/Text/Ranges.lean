/-! # Ranges of characters

Classes of characters are tables of closed ranges of code points, ascending and apart. The tables in
this folder hold the properties of Unicode 15.0 that the texts of a stylesheet ask about. -/

namespace Stylesheet

namespace Text

/-- Whether a code point lies in one of the ranges. -/
def inRanges (ranges : List (Nat × Nat)) (n : Nat) : Bool :=
  ranges.any fun r => r.1 ≤ n && n ≤ r.2

/-- No code point is in no ranges. -/
@[simp] theorem inRanges_nil (n : Nat) : inRanges [] n = false := rfl

/-- A code point is in the first range or in one of the others. -/
@[simp] theorem inRanges_cons (r : Nat × Nat) (ranges : List (Nat × Nat)) (n : Nat) :
    inRanges (r :: ranges) n = ((r.1 ≤ n && n ≤ r.2) || inRanges ranges n) := rfl

/-- Whether a character is one of the first 128. -/
def isAscii (c : Char) : Bool := c.toNat < 128

/-- Letters and digits are among the first 128 characters. -/
theorem isAscii_of_isAlphanum {c : Char} (h : c.isAlphanum = true) : isAscii c = true := by
  change (((decide (65 ≤ c.val ∧ c.val ≤ 90)) || (decide (97 ≤ c.val) && decide (c.val ≤ 122))) ||
    (decide (48 ≤ c.val) && decide (c.val ≤ 57))) = true at h
  simp only [Bool.or_eq_true, Bool.and_eq_true, decide_eq_true_eq, UInt32.le_iff_toNat_le] at h
  change (((65 ≤ c.toNat ∧ c.toNat ≤ 90) ∨ (97 ≤ c.toNat ∧ c.toNat ≤ 122)) ∨
    (48 ≤ c.toNat ∧ c.toNat ≤ 57)) at h
  rw [isAscii, decide_eq_true_eq]
  omega

end Text

end Stylesheet
