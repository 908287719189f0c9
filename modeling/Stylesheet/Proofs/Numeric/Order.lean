import Mathlib.Data.Prod.Lex
import Mathlib.Order.Compare
import Stylesheet.Numeric.Binary64

/-! # The order of doubles

Doubles other than a NaN are ordered by sign, exponent and mantissa, with the infinities at the ends and both zeros
in one place (**`Binary64.placement`**). Places are linearly ordered, so `<` is transitive (`lt_trans`), and of two
doubles that are no NaN one is at most the other (`le_of_not_lt`). Every comparison with a NaN fails.

What is held between two bounds therefore lies between them (`clamp_bounds`), a NaN included. -/

namespace Stylesheet

namespace Binary64

open Float.Model Float.Model.UnpackedFloat

/-! ## Places -/

/-- The place of a double among all others. -/
def placement : UnpackedFloat → ℤ ×ₗ ℤ ×ₗ ℤ
  | .infinity .negative => toLex (-2, toLex (0, 0))
  | .finite .negative m e _ => toLex (-1, toLex (-e, -m))
  | .zero _ => toLex (0, toLex (0, 0))
  | .finite .positive m e _ => toLex (1, toLex (e, m))
  | .infinity .positive => toLex (2, toLex (0, 0))
  | .notANumber => toLex (0, toLex (0, 0))

/-- Places compare by their first component, then by the second, then by the third. -/
theorem compare_toLex (a b c a' b' c' : ℤ) : compare (toLex (a, toLex (b, c))) (toLex (a', toLex (b', c'))) =
    (compare a a').then ((compare b b').then (compare c c')) := by
  have inner : compare (toLex (b, c)) (toLex (b', c')) = (compare b b').then (compare c c') := by
    rw [Prod.Lex.compare_def]
    rfl
  rw [← inner, Prod.Lex.compare_def]
  rfl

/-- Negation turns comparisons around. -/
theorem compare_neg (a b : ℤ) : compare (-a) (-b) = compare b a := by
  rcases Int.lt_trichotomy a b with lt | rfl | gt
  · rw [Int.compare_eq_gt.2 (Int.neg_lt_neg lt), Int.compare_eq_gt.2 lt]
  · rw [Int.compare_eq_eq.2 rfl, Int.compare_eq_eq.2 rfl]
  · rw [Int.compare_eq_lt.2 (Int.neg_lt_neg gt), Int.compare_eq_lt.2 gt]

/-- Naturals compare as integers do. -/
theorem compare_natCast (m n : ℕ) : compare (m : ℤ) n = compare m n := by
  rcases Nat.lt_trichotomy m n with lt | rfl | gt
  · rw [Int.compare_eq_lt.2 (Int.ofNat_lt.2 lt), Nat.compare_eq_lt.2 lt]
  · rw [Int.compare_eq_eq.2 rfl, Nat.compare_eq_eq.2 rfl]
  · rw [Int.compare_eq_gt.2 (Int.ofNat_lt.2 gt), Nat.compare_eq_gt.2 gt]

/-- Doubles are compared by their places. -/
protected theorem compare_eq {u v : UnpackedFloat} (hu : u.isNaN = false) (hv : v.isNaN = false) :
    u.compare v = some (compare (placement u) (placement v)) := by
  cases u with
  | notANumber => cases hu
  | zero s =>
    cases v with
    | notANumber => cases hv
    | zero s' => rfl
    | infinity s' | finite s' => cases s' <;> rfl
  | infinity s =>
    cases v with
    | notANumber => cases hv
    | zero s' => cases s <;> rfl
    | infinity s' | finite s' => cases s <;> cases s' <;> rfl
  | finite s m e =>
    cases v with
    | notANumber => cases hv
    | zero s' => cases s <;> rfl
    | infinity s' => cases s <;> cases s' <;> rfl
    | finite s' m' e' =>
      cases s with
      | positive =>
        cases s' with
        | negative => rfl
        | positive =>
          have placed : compare (toLex ((1 : ℤ), toLex (e, (m : ℤ)))) (toLex ((1 : ℤ), toLex (e', (m' : ℤ)))) =
              (compare e e').then (compare m m') := by
            rw [compare_toLex, compare_natCast]
            rfl
          exact congrArg some placed.symm
      | negative =>
        cases s' with
        | positive => rfl
        | negative =>
          have placed : compare (toLex ((-1 : ℤ), toLex (-e, -(m : ℤ)))) (toLex ((-1 : ℤ), toLex (-e', -(m' : ℤ)))) =
              ((compare e e').then (compare m m')).swap := by
            rw [compare_toLex, compare_neg e e', compare_neg m m', compare_natCast, Ordering.swap_then,
              Int.compare_swap, Nat.compare_swap]
            rfl
          exact congrArg some placed.symm

/-- Nothing can be compared with a NaN. -/
theorem compare_eq_none {u v : UnpackedFloat} (h : u.isNaN = true ∨ v.isNaN = true) : u.compare v = none := by
  rcases h with h | h
  · cases u with
    | notANumber => rfl
    | _ => cases h
  · cases v with
    | notANumber =>
      cases u with
      | finite s | infinity s => cases s <;> rfl
      | _ => rfl
    | _ => cases h

/-! ## Comparisons -/

/-- The place of a double. -/
def rank (x : Float) : ℤ ×ₗ ℤ ×ₗ ℤ := placement x.toModel.unpack

variable {x y z low high : Float}

/-- With a NaN, doubles do not compare; others do as their places do. -/
theorem compare_cases (x y : Float) :
    ((x.isNaN = true ∨ y.isNaN = true) ∧ x.toModel.unpack.compare y.toModel.unpack = none) ∨
      (x.isNaN = false ∧ y.isNaN = false ∧
        x.toModel.unpack.compare y.toModel.unpack = some (compare (rank x) (rank y))) := by
  cases hx : x.isNaN with
  | true => exact .inl ⟨.inl rfl, compare_eq_none (.inl hx)⟩
  | false =>
    cases hy : y.isNaN with
    | true => exact .inl ⟨.inr rfl, compare_eq_none (.inr hy)⟩
    | false => exact .inr ⟨rfl, rfl, Binary64.compare_eq hx hy⟩

/-- One double is below another if neither is a NaN and it is placed below. -/
protected theorem lt_iff : x < y ↔ x.isNaN = false ∧ y.isNaN = false ∧ rank x < rank y := by
  have lt : x < y ↔ x.toModel.unpack.lt y.toModel.unpack = true := decide_eq_true_iff
  rw [lt, UnpackedFloat.lt, beq_iff_eq]
  rcases compare_cases x y with ⟨nan, h⟩ | ⟨hx, hy, h⟩
  · rw [h]
    rcases nan with nan | nan <;> simp only [nan, reduceCtorEq, false_and, and_false]
  · rw [h, Option.some.injEq, compare_lt_iff_lt]
    simp only [hx, hy, true_and]

/-- One double is at most another if neither is a NaN and it is placed no higher. -/
protected theorem le_iff : x ≤ y ↔ x.isNaN = false ∧ y.isNaN = false ∧ rank x ≤ rank y := by
  have le : x ≤ y ↔ x.toModel.unpack.le y.toModel.unpack = true := decide_eq_true_iff
  rw [le, UnpackedFloat.le]
  rcases compare_cases x y with ⟨nan, h⟩ | ⟨hx, hy, h⟩
  · rw [h, Option.any_none]
    rcases nan with nan | nan <;> simp only [nan, reduceCtorEq, false_and, and_false]
  · rw [h, ← compare_le_iff_le, Option.any_some, Ordering.isLE_iff_ne_gt]
    simp only [hx, hy, true_and]

/-- Being below is transitive. -/
protected theorem lt_trans (hxy : x < y) (hyz : y < z) : x < z := by
  obtain ⟨hx, -, below⟩ := Binary64.lt_iff.1 hxy
  obtain ⟨-, hz, above⟩ := Binary64.lt_iff.1 hyz
  exact Binary64.lt_iff.2 ⟨hx, hz, below.trans above⟩

/-- Of two doubles that are no NaN one is at most the other. -/
protected theorem le_of_not_lt (hx : x.isNaN = false) (hy : y.isNaN = false) (h : ¬x < y) : y ≤ x :=
  Binary64.le_iff.2 ⟨hy, hx, not_lt.1 fun lt => h (Binary64.lt_iff.2 ⟨hx, hy, lt⟩)⟩

/-- Every double but a NaN is at most itself. -/
protected theorem le_refl (hx : x.isNaN = false) : x ≤ x := Binary64.le_iff.2 ⟨hx, hx, le_rfl⟩

/-! ## Bounds -/

/-- The larger of two doubles is no NaN if the second is none, and is at least the second. -/
theorem le_larger (hy : y.isNaN = false) (x : Float) : y ≤ larger x y := by
  unfold larger
  split
  next => exact Binary64.le_refl hy
  next hx =>
    split
    next => exact Binary64.le_refl hy
    next notBelow => exact Binary64.le_of_not_lt (Bool.eq_false_iff.2 hx) hy notBelow

/-- What is held between two bounds lies between them. -/
theorem clamp_bounds (bounds : low ≤ high) (x : Float) : low ≤ clamp low high x ∧ clamp low high x ≤ high := by
  obtain ⟨lowNumber, highNumber, -⟩ := Binary64.le_iff.1 bounds
  have above := le_larger lowNumber x
  have number : (larger x low).isNaN = false := (Binary64.le_iff.1 above).2.1
  unfold clamp smaller
  rw [if_neg (Bool.eq_false_iff.1 number)]
  split
  next => exact ⟨bounds, Binary64.le_refl highNumber⟩
  next notAbove => exact ⟨above, Binary64.le_of_not_lt highNumber number notAbove⟩

end Binary64

end Stylesheet
