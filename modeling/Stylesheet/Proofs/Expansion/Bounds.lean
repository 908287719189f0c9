import Stylesheet.Proofs.Expansion.Counting
import Stylesheet.Proofs.Numeric.Wholes

/-! # Counting loops with large bounds

The bounds of a counting loop are doubles, and it counts through the signed integers of 64 bits. Whole bounds are
never refused. A loop from `a` to `b` counts from what is held of `a` up to what is held of `b`, and its first and
last pass bind the variable to `a` and to `b` themselves as long as these lie within `2 ^ 63`
(`counting_bounds`). A bound that lies further out is replaced by `2 ^ 63` with its sign
(`counting_replaces_bounds`). -/

namespace Stylesheet

open Expansion

/-- The value is this integer, without a unit. -/
def Value.IsInt (v : Value) (i : ℤ) : Prop := ∃ x, v = [.ofFloat x] ∧ Binary64.IsInt x i

/-- A value is one integer only. -/
theorem Value.IsInt.unique {v : Value} {i j : ℤ} (h : v.IsInt i) (h' : v.IsInt j) : i = j := by
  obtain ⟨x, rfl, hx⟩ := h
  obtain ⟨y, same, hy⟩ := h'
  cases same
  exact hx.unique hy

/-- A whole number is read as that integer, held within a machine word. -/
theorem Value.IsInt.integer? {v : Value} {i : ℤ} (h : v.IsInt i) : v.integer? = some (Binary64.held i) := by
  obtain ⟨x, rfl, hx⟩ := h
  exact hx.integer?

/-- What is held of a bound is what a pass binds for it. -/
theorem Value.IsInt.valueOf_held {v : Value} {i : ℤ} (h : v.IsInt i) :
    (Counting.valueOf (Binary64.held i) : Value).IsInt (max (-2 ^ 63) (min (2 ^ 63) i)) := by
  obtain ⟨x, -, hx⟩ := h
  exact ⟨_, rfl, hx.ofInt_held⟩

namespace Counting

/-- The first value of a loop is that of its lower bound. -/
theorem head?_valuesFrom (i : ℤ) (count : Nat) {value : Value} (h : (valuesFrom i count).head? = some value) :
    value = valueOf i := by
  cases count with
  | zero => cases h
  | succ count => exact (Option.some.inj h).symm

/-- The last value of a loop is that of its upper bound. -/
theorem getLast?_valuesFrom (i : ℤ) (count : Nat) :
    (valuesFrom i (count + 1)).getLast? = some (valueOf (i + count)) := by
  induction count generalizing i with
  | zero =>
    rw [Nat.cast_zero, Int.add_zero]
    rfl
  | succ count ih =>
    have next := ih (i + 1)
    rw [valuesFrom, List.getLast?_cons, next, Option.getD_some]
    congr 2
    omega

variable {σ : Type} {services : Services σ} {depth : Nat} {loop : Counting} {p id : NodeId} {a b : ℤ} {W W' : World σ}

/-- A loop is reached with **whole bounds**: it stands under its parent in a tree that hangs together, and its bounds
are evaluated to the integers `a` and `b`, however large they are. The second world is the one that the bounds
leave. -/
structure Bounded (loop : Counting) (services : Services σ) (depth : Nat) (p id : NodeId) (a b : ℤ) (W W' : World σ) :
    Prop where
  linked : W.tree.LinkedFrom 0
  placed : ∃ d, W.tree.Depth p d
  child : W.tree.parent? id = some p
  node : W.tree.node id = .counting loop
  bounds : ∃ low high W₁, (evaluate services depth loop.low).exec W = (.ok low, W₁) ∧ low.IsInt a ∧
    (evaluate services depth loop.high).exec W₁ = (.ok high, W') ∧ high.IsInt b

/-- It counts from what is held of the one up to what is held of the other. -/
theorem Bounded.reached (h : loop.Bounded services depth p id a b W W') :
    loop.Reached services depth p id (Binary64.held a) (Binary64.held b) W W' := by
  obtain ⟨low, high, W₁, hlow, ha, hhigh, hb⟩ := h.bounds
  exact ⟨h.linked, h.placed, h.child, h.node, low, high, W₁, hlow, ha.integer?, hhigh, hb.integer?⟩

/-- With `through` the last pass is the one for the upper bound. -/
theorem getLast?_valuesFrom_passes (inclusive : loop.inclusive = true) (le : a ≤ b) :
    (valuesFrom a (loop.passes a b)).getLast? = some (valueOf b) := by
  have passes : loop.passes a b = (b - a).toNat + 1 := by
    unfold Counting.passes
    rw [inclusive]
    rfl
  rw [passes, getLast?_valuesFrom, show a + ((b - a).toNat : ℤ) = b by omega]

end Counting

/-- **Counting loops bind their bounds up to `2 ^ 63`.** Wherever a loop is reached with whole bounds `a ≤ b` of any
magnitude and without a unit, it is never refused: it makes its passes, one for each integer from what is held of `a`
in 64 bits up to what is held of `b`. The first pass binds the variable to `a` and, with `through`, the last one
binds it to `b`, unless such a bound lies beyond `2 ^ 63` on either side: then it is `2 ^ 63` with the sign of the
bound. -/
theorem counting_bounds {σ : Type} (services : Services σ) (depth : Nat) (mode : Mode) (loop : Counting)
    (p id : NodeId) (a b : ℤ) (W W' : World σ) (bounds : loop.Bounded services depth p id a b W W') (le : a ≤ b) :
    let values := Counting.valuesFrom (Binary64.held a) (loop.passes (Binary64.held a) (Binary64.held b))
    loop.Ran services depth mode p id values W W' ∧
      (∀ value, values.head? = some value → value.IsInt (max (-2 ^ 63) (min (2 ^ 63) a))) ∧
      (loop.inclusive = true →
        ∃ value, values.getLast? = some value ∧ value.IsInt (max (-2 ^ 63) (min (2 ^ 63) b))) := by
  intro values
  have order := Binary64.held_le_held le
  obtain ⟨low, high, W₁, -, ha, -, hb⟩ := bounds.bounds
  refine ⟨bounds.reached.ran mode order, fun value first => ?_, fun inclusive => ?_⟩
  · rw [Counting.head?_valuesFrom _ _ first]
    exact ha.valueOf_held
  · exact ⟨_, Counting.getLast?_valuesFrom_passes inclusive order, hb.valueOf_held⟩

/-- A stylesheet that holds nothing but a loop from an integer through the same one, which writes its variable. -/
def Counting.single (i : ℤ) : Counting × World Unit :=
  let loop : Counting := ⟨"i", valueOf i, valueOf i, true⟩
  (loop, ⟨Tree.ofNodes [⟨.counting loop, [⟨.declaration "w" [.var "i"] false, []⟩]⟩], .empty, ()⟩)

/-- Its loop is reached. -/
theorem Counting.bounded_single {i : ℤ} (whole : Value.IsInt (valueOf i) i) :
    (single i).1.Bounded Services.plain 8 Tree.root ⟨1⟩ i i (single i).2 (single i).2 := by
  have stylesheet : (single i).2.tree.IsStylesheet := Tree.ofNodes_isStylesheet _
  exact ⟨stylesheet.linked, ⟨_, stylesheet.depth⟩, rfl, rfl, _, _, (single i).2, rfl, whole, rfl, whole⟩

/-- The double `2 ^ 63` is one more than the greatest integer of 64 bits, and it is bound nevertheless. -/
theorem counting_bounds_greatest :
    let (loop, w) := Counting.single (2 ^ 63)
    let u := (compile Services.plain 9).exec w
    loop.Bounded Services.plain 8 Tree.root ⟨1⟩ (2 ^ 63) (2 ^ 63) w w ∧
      loop.Ran Services.plain 8 .stylesheet Tree.root ⟨1⟩ [Counting.valueOf (2 ^ 63 - 1)] w w ∧
      (Counting.valueOf (2 ^ 63 - 1) : Value).IsInt (2 ^ 63) ∧
      u.1 = .ok () ∧ u.2.tree.outline = "w: 9223372036854775808" := by
  have whole : (Counting.valueOf (2 ^ 63) : Value).IsInt (2 ^ 63) :=
    ⟨_, rfl, ⟨false, 2 ^ 52, 11⟩, by decide +kernel, by norm_num [Binary64.value, Binary64.magnitude]⟩
  have bounded := Counting.bounded_single whole
  obtain ⟨ran, first, -⟩ := counting_bounds Services.plain 8 .stylesheet _ Tree.root ⟨1⟩ _ _ _ _ bounded le_rfl
  exact ⟨bounded, ran, first _ rfl, by decide +kernel, by decide +kernel⟩

/-- `10 ^ 19` is too large for 64 bits. A loop from there through there is not refused: it makes one pass, and binds
`2 ^ 63` in it. -/
theorem counting_replaces_bounds :
    let (loop, w) := Counting.single (10 ^ 19)
    let u := (compile Services.plain 9).exec w
    loop.Bounded Services.plain 8 Tree.root ⟨1⟩ (10 ^ 19) (10 ^ 19) w w ∧
      loop.Ran Services.plain 8 .stylesheet Tree.root ⟨1⟩ [Counting.valueOf (2 ^ 63 - 1)] w w ∧
      ¬(Counting.valueOf (2 ^ 63 - 1) : Value).IsInt (10 ^ 19) ∧
      u.1 = .ok () ∧ u.2.tree.outline = "w: 9223372036854775808" := by
  have whole : (Counting.valueOf (10 ^ 19) : Value).IsInt (10 ^ 19) :=
    ⟨_, rfl, ⟨false, 10 ^ 19 / 2 ^ 11, 11⟩, by decide +kernel, by norm_num [Binary64.value, Binary64.magnitude]⟩
  have bounded := Counting.bounded_single whole
  -- what is bound is `2 ^ 63`, and a value is one integer only
  refine ⟨bounded, bounded.reached.ran .stylesheet le_rfl, fun same => ?_, by decide +kernel, by decide +kernel⟩
  have bound : (Counting.valueOf (2 ^ 63 - 1) : Value).IsInt (2 ^ 63) := whole.valueOf_held
  exact absurd (same.unique bound) (by decide)

end Stylesheet
