import Stylesheet.Proofs.Condition.Grammar

/-! # Units in conditions

Values and conditions have an arithmetic of their own each. A value divides equal units out, and does not
multiply equal ones or mix different ones (`Number.combineUnits`). A condition keeps the first unit that it
finds, whatever the operator, and never fails on numbers (`Literal.combine`).

So the two come to the same only where that unit is the right one (**`Calculation.KeepsUnit`**): one of the
numbers has none, or both have the same and are neither multiplied nor divided. Then, and only then, what is
computed in a condition is what would be computed in a value (`evaluateTokens_calculate`). -/

namespace Stylesheet

namespace Condition

/-! ## Units of values -/

/-- Whether the first unit that is found is the unit of the result. -/
def Calculation.KeepsUnit (o : Calculation) (u v : Option String) : Prop :=
  u = none ∨ v = none ∨ (u = v ∧ o ≠ .multiply ∧ o ≠ .divide)

/-- What a value makes of two units that it does not keep. -/
theorem Calculation.combineUnits_some (o : Calculation) (u v : String) :
    Number.combineUnits o.operator (some u) (some v) =
      if u ≠ v then .error (.mixedUnits u v)
      else if o = .multiply then .error (.squaredUnits u v)
      else if o = .divide then .ok none
      else .ok (some u) := by
  by_cases same : u = v
  · cases o <;> simp [Number.combineUnits, Calculation.operator, same]
  · simp [Number.combineUnits, same]

/-- A value takes the first unit that it finds exactly if it keeps it. -/
theorem Calculation.combineUnits_eq_or_iff (o : Calculation) (u v : Option String) :
    Number.combineUnits o.operator u v = .ok (u.or v) ↔ o.KeepsUnit u v := by
  cases u with
  | none => simp [Number.combineUnits, KeepsUnit]
  | some u =>
    cases v with
    | none => simp [Number.combineUnits, KeepsUnit]
    | some v =>
      rw [o.combineUnits_some u v]
      by_cases same : u = v
      · cases o <;> simp [KeepsUnit, same]
      · simp [KeepsUnit, same]

/-- What a value computes is the number with the first unit exactly if that unit is kept. -/
theorem Calculation.combine?_eq_or_iff (o : Calculation) (m n : Number) :
    m.combine? o.operator n = .ok ⟨o.operator.apply m.scalar n.scalar, m.unit.or n.unit⟩ ↔
      o.KeepsUnit m.unit n.unit := by
  rw [← o.combineUnits_eq_or_iff, Number.combine?]
  cases Number.combineUnits o.operator m.unit n.unit <;> simp [Except.map]

/-! ## Conditions -/

/-- Tokens that a condition is written as have its value. -/
theorem Written.evaluateTokens_eq {e : Expr} {ts : List Token} (h : Written .disjunction e ts)
    (condition : String) : evaluateTokens condition ts = e.eval := by
  have all := h.expression_eq
  obtain ⟨t, us, rfl, -⟩ := h.exists_cons
  rw [evaluateTokens, List.isEmpty_cons, if_neg Bool.false_ne_true, all]
  cases e.eval <;> rfl

/-- **Conditions compute with numbers as values do where units are kept.** A condition that is written with an
operator between two numbers, however these come about, always gives a number, with the first unit that is
found. This is what the same operator gives in a value exactly if one of the numbers has no unit, or both have
the same and are neither multiplied nor divided. Elsewhere a value divides the units out, or fails on squared
or on mixed units. -/
theorem evaluateTokens_calculate (condition : String) (o : Calculation) {l r : Expr} {m n : Number}
    {ts : List Token} (written : Written .disjunction (.calculate o l r) ts)
    (left : l.eval = .ok (.number m)) (right : r.eval = .ok (.number n)) :
    let scalar := o.operator.apply m.scalar n.scalar
    evaluateTokens condition ts = .ok (.number ⟨scalar, m.unit.or n.unit⟩) ∧
      ((∃ k, m.combine? o.operator n = .ok k ∧ evaluateTokens condition ts = .ok (.number k)) ↔
        o.KeepsUnit m.unit n.unit) ∧
      ∀ u v, m.unit = some u → n.unit = some v → ¬ o.KeepsUnit m.unit n.unit →
        m.combine? o.operator n =
          if u ≠ v then .error (.mixedUnits u v)
          else if o = .multiply then .error (.squaredUnits u v)
          else .ok ⟨scalar, none⟩ := by
  intro scalar
  have value : evaluateTokens condition ts = .ok (.number ⟨scalar, m.unit.or n.unit⟩) := by
    rw [written.evaluateTokens_eq, Expr.eval, left, right]
    rfl
  refine ⟨value, ?_, fun u v hu hv kept => ?_⟩
  · rw [← o.combine?_eq_or_iff, value]
    constructor
    · rintro ⟨k, computed, same⟩
      cases same
      exact computed
    · exact fun computed => ⟨_, computed, rfl⟩
  · rw [hu, hv] at kept
    rw [Number.combine?, hu, hv, o.combineUnits_some]
    by_cases same : u = v
    · have divides : o ≠ .multiply → o = .divide := fun multiplies =>
        Decidable.not_not.1 fun h => kept (.inr (.inr ⟨congrArg some same, multiplies, h⟩))
      cases o <;> simp_all [Except.map, scalar]
    · simp [same, Except.map]

/-- With one unit at most, or the same one twice in a sum, there is no difference; the parentheses make none. -/
theorem evaluateTokens_calculate_sum :
    let sum : Number := ⟨1 + 2 * 3, some "px"⟩
    evaluateTokens "1px + (2 * 3px)" [.number ⟨1, some "px"⟩, .symbol .plus, .symbol .leftParen,
        .number ⟨2, none⟩, .symbol .star, .number ⟨3, some "px"⟩, .symbol .rightParen] = .ok (.number sum) ∧
      Number.combine? .plus ⟨1, some "px"⟩ ⟨2 * 3, some "px"⟩ = .ok sum := by
  intro sum
  have product : Written .product
      (.calculate .multiply (.literal (.number ⟨2, none⟩)) (.literal (.number ⟨3, some "px"⟩)))
      [.number ⟨2, none⟩, .symbol .star, .number ⟨3, some "px"⟩] :=
    .calculate .multiply ((Written.number _).anywhere _) ((Written.number _).anywhere _)
  have written : Written .sum _ [.number ⟨1, some "px"⟩, .symbol .plus, .symbol .leftParen,
      .number ⟨2, none⟩, .symbol .star, .number ⟨3, some "px"⟩, .symbol .rightParen] :=
    .calculate .add ((Written.number ⟨1, some "px"⟩).anywhere _) ((Written.group product.disjunction).anywhere _)
  obtain ⟨value, agree, -⟩ := evaluateTokens_calculate "1px + (2 * 3px)" .add (m := ⟨1, some "px"⟩)
    (n := ⟨2 * 3, some "px"⟩) written.disjunction rfl rfl
  obtain ⟨k, computed, same⟩ := agree.2 (.inr (.inr ⟨rfl, nofun, nofun⟩))
  cases value.symm.trans same
  exact ⟨value, computed⟩

/-- Ten pixels by two pixels are five in a value, and five pixels in a condition. -/
theorem not_evaluateTokens_calculate :
    ¬ ∀ (condition : String) (o : Calculation) (m n k : Number),
      evaluateTokens condition [.number m, .symbol o.symbol, .number n] = .ok (.number k) ↔
        m.combine? o.operator n = .ok k := by
  intro h
  have computed : Number.combine? .slash ⟨10, some "px"⟩ ⟨2, some "px"⟩ = .ok ⟨10 / 2, some "px"⟩ :=
    (h "10px / 2px" .divide ⟨10, some "px"⟩ ⟨2, some "px"⟩ ⟨10 / 2, some "px"⟩).1 rfl
  cases computed

example : ((evaluate "10px / 2px").map Literal.text).toOption = some "5px" := by decide +kernel

end Condition

end Stylesheet
