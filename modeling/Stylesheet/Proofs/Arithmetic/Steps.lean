import Mathlib.Tactic.Tauto
import Stylesheet.Proofs.Arithmetic.Balance

/-! # Steps of arithmetic

One term moves a reduction on in one of six ways (**`Reduction.Moves`**): an operand is put down, a sign is
noted, an operator waits for its second operand, a group opens or closes, a comma is noted. What a step does
is said here once (`Reduction.step_eq_ok`); whoever follows a reduction goes through the moves. While operators
are carried out (**`Reduction.unwind`**) the topmost one goes as long as it is to go (`Reduction.unwind_cons`). -/

namespace Stylesheet

namespace Arithmetic

/-- A plus or a minus, in front of an operand or between two of them. -/
inductive Sign
  | plus
  | minus
  deriving DecidableEq

/-- The operator that is written for a sign. -/
def Sign.operator : Sign → Operator
  | plus => .plus
  | minus => .minus

/-- Signs as they are written. -/
def signTerms (signs : List Sign) : Value := signs.map fun o => .op o.operator

/-- Whether signs negate what stands behind them. -/
def negative (signs : List Sign) : Bool := signs.count .minus % 2 == 1

/-- Noting signs, all that matters is how many of them are minuses. -/
theorem negative_cons (o : Sign) (signs : List Sign) :
    negative (o :: signs) = (negative [o] ^^ negative signs) := by
  cases o with
  | plus => simp [negative]
  | minus =>
    simp only [negative, List.count_cons_self, List.count_nil]
    rcases Nat.mod_two_eq_zero_or_one (signs.count .minus) with h | h <;> simp [Nat.add_mod, h]

/-- Signs are balanced. -/
theorem balanced_signTerms (signs : List Sign) : (signTerms signs).Balanced := by
  induction signs with
  | nil => rfl
  | cons o signs ih =>
    rw [signTerms, List.map_cons, Value.Balanced, Value.depth?_cons]
    cases o <;> exact ih

end Arithmetic

namespace Reduction

/-- An operator that takes two operands, unless it is a sign. -/
def Binary (o : Operator) : Prop := o ≠ .leftParen ∧ o ≠ .rightParen ∧ o ≠ .comma

/-! ## Carrying out operators -/

/-- Take the topmost operator off its stack and compute. -/
def carryOut : List Operator → List Value → Except Error (List Operator × List Value) := carryOutWith applyTop

/-- Compute as long as `goes` holds of the topmost operator. -/
def unwind (goes : Operator → Bool) : List Operator → List Value → Except Error (List Operator × List Value) :=
  unwindWith applyTop goes

section

variable {goes : Operator → Bool} {o : Operator}

/-- Where open parentheses stay, what goes is none. -/
theorem ne_leftParen_of_goes (stays : goes .leftParen = false) (going : goes o = true) : o ≠ .leftParen := by
  rintro rfl
  rw [stays] at going
  cases going

/-- Where an operator waits, one is there to be carried out. -/
theorem carryOutWith_cons (apply : Operation) (o : Operator) (operators : List Operator) (values : List Value) :
    carryOutWith apply (o :: operators) values = (apply o values).map fun values => (operators, values) := by
  show (apply o values >>= fun values => pure (operators, values)) = _
  cases apply o values <;> rfl

/-- Where no operator waits, none is carried out. -/
@[simp] theorem unwind_nil (goes : Operator → Bool) (values : List Value) :
    unwind goes [] values = .ok ([], values) := rfl

/-- An operator that is to go is carried out before those below. -/
theorem unwind_cons (h : goes o = true) (operators : List Operator) (values : List Value) :
    unwind goes (o :: operators) values = applyTop o values >>= unwind goes operators := by
  rw [unwind, unwindWith, if_pos h, carryOutWith_cons]
  cases applyTop o values <;> rfl

/-- An operator that is to stay keeps those below. -/
theorem unwind_cons_of_stays (h : goes o = false) (operators : List Operator) (values : List Value) :
    unwind goes (o :: operators) values = .ok (o :: operators, values) := by
  simp [unwind, unwindWith, h]

/-- Where the topmost operator is to stay, none is carried out. -/
theorem unwind_of_head? {operators : List Operator} {values : List Value} (h : ∀ o ∈ operators.head?, goes o = false) :
    unwind goes operators values = .ok (operators, values) := by
  cases operators with
  | nil => exact unwind_nil goes values
  | cons o operators => exact unwind_cons_of_stays (h o rfl) operators values

end

/-! ## The kinds of terms -/

/-- An operand is put down. -/
theorem step_of_operand {t : Term} (plain : t.isOperator = false) (r : Reduction) :
    r.step t = .ok ({ r with negates := false }.pushOperand (if r.negates then t.negate else t)) := by
  cases t with
  | op o => cases plain
  | _ => rfl

/-- A sign is noted. -/
theorem step_of_sign {r : Reduction} (wanted : r.wanted = true) (o : Arithmetic.Sign) :
    r.step (.op o.operator) = .ok { r with negates := r.negates ^^ Arithmetic.negative [o] } := by
  cases r
  subst wanted
  cases o <;> simp [step, stepWith, Arithmetic.Sign.operator, Arithmetic.negative]

/-- The signs in front of an operand are read. -/
theorem foldlM_signTerms {values : List Value} {operators : List Operator} {groups : List Group}
    {depth : Int} (negates pendingComma : Bool) (signs : List Arithmetic.Sign) (rest : Value) :
    (Arithmetic.signTerms signs ++ rest).foldlM step
        ⟨values, operators, groups, depth, true, negates, pendingComma⟩ =
      rest.foldlM step
        ⟨values, operators, groups, depth, true, negates ^^ Arithmetic.negative signs, pendingComma⟩ := by
  induction signs generalizing negates with
  | nil => simp [Arithmetic.signTerms, Arithmetic.negative]
  | cons o signs ih =>
    rw [Arithmetic.negative_cons, ← Bool.xor_assoc, ← ih]
    simp only [Arithmetic.signTerms, List.map_cons, List.cons_append, List.foldlM_cons]
    rw [step_of_sign rfl]
    rfl

/-- An operator waits, once those that bind at least as tightly have been carried out. -/
theorem step_of_operator {r : Reduction} {o : Operator} (binary : Binary o)
    (unsigned : r.wanted = true → ∀ s : Arithmetic.Sign, o ≠ s.operator) :
    r.step (.op o) =
      (unwind (fun last => last != .leftParen && last.bindsAtLeast o) r.operators r.values).map fun w =>
        { r with operators := o :: w.1, values := w.2, wanted := true } := by
  have minus : ¬ (o = .minus ∧ r.wanted = true) := fun h => unsigned h.2 .minus h.1
  have plus : ¬ (o = .plus ∧ r.wanted = true) := fun h => unsigned h.2 .plus h.1
  obtain ⟨leftParen, rightParen, comma⟩ := binary
  rw [step, stepWith.eq_4 _ _ _ leftParen rightParen comma, if_neg minus, if_neg plus, unwindWhile, unwind]
  cases unwindWith _ _ r.operators r.values <;> rfl

/-- A parenthesis that closes carries out the operators of its group. -/
theorem step_rightParen (r : Reduction) :
    r.step (.op .rightParen) =
      unwind (· != .leftParen) r.operators r.values >>= fun w =>
        closeGroup { r with operators := w.1.tail, values := w.2, depth := r.depth - 1 } := by
  rw [step, stepWith, unwindGroup, unwindWhile, unwind]
  cases unwindWith _ _ r.operators r.values <;> rfl

/-- A comma carries out the operators of its group. -/
theorem step_comma (r : Reduction) :
    r.step (.op .comma) =
      (unwind (· != .leftParen) r.operators r.values).map fun w =>
        { r with operators := w.1, values := w.2 }.noteComma := by
  rw [step, stepWith, unwindGroup, unwindWhile, unwind]
  cases unwindWith _ _ r.operators r.values <;> rfl

/-- At the end all operators are carried out, and an open parenthesis is in the way. -/
theorem finish_eq (r : Reduction) :
    r.finish = unwind (· != .leftParen) r.operators r.values >>= fun w =>
      if w.1.isEmpty then pure w.2.reverse.flatten else .error .unclosedGroup := by
  rw [finish, finishWith, unwindGroup, unwindWhile, unwind]
  cases unwindWith _ _ r.operators r.values <;> rfl

/-- What a term is to a reduction. -/
inductive Kind (r : Reduction) : Term → Prop
  | operand {t : Term} (plain : t.isOperator = false) : Kind r t
  | sign (s : Arithmetic.Sign) (wanted : r.wanted = true) : Kind r (.op s.operator)
  | operator {o : Operator} (binary : Binary o)
      (unsigned : r.wanted = true → ∀ s : Arithmetic.Sign, o ≠ s.operator) : Kind r (.op o)
  | leftParen : Kind r (.op .leftParen)
  | rightParen : Kind r (.op .rightParen)
  | comma : Kind r (.op .comma)

/-- Where an operand has to come a plus or a minus is a sign, and else it takes two operands. -/
theorem kind (r : Reduction) (t : Term) : r.Kind t := by
  cases ht : t.isOperator with
  | false => exact .operand ht
  | true =>
    obtain ⟨o, rfl⟩ : ∃ o, t = .op o := by cases t <;> first | exact ⟨_, rfl⟩ | cases ht
    by_cases binary : Binary o
    · by_cases sign : ∃ s : Arithmetic.Sign, o = s.operator ∧ r.wanted = true
      · obtain ⟨s, rfl, wanted⟩ := sign
        exact .sign s wanted
      · exact .operator binary fun wanted s hs => sign ⟨s, hs, wanted⟩
    · obtain rfl | rfl | rfl : o = .leftParen ∨ o = .rightParen ∨ o = .comma := by
        rw [Binary] at binary; tauto
      · exact .leftParen
      · exact .rightParen
      · exact .comma

/-! ## Runs -/

section

variable {r r₁ : Reduction} {t : Term} {v : Value}

/-- A run goes on behind its first term. -/
theorem foldlM_cons_of_eq_ok (h : r.step t = .ok r₁) (rest : Value) :
    (t :: rest).foldlM step r = rest.foldlM step r₁ := by
  rw [List.foldlM_cons, h]
  rfl

/-- A run goes on behind a part. -/
theorem foldlM_append_of_eq_ok (h : v.foldlM step r = .ok r₁) (rest : Value) :
    (v ++ rest).foldlM step r = rest.foldlM step r₁ := by
  rw [List.foldlM_append, h]
  rfl

end

/-! ## Moves -/

/-- The operands behind a group that closes, which may have had none. -/
def leaveGroup (g : Group) (values : List Value) : List Value :=
  if values.length ≤ g.below then values else placeGroup g values

/-- How a term moves a reduction on. -/
inductive Moves (r : Reduction) : Term → Reduction → Prop
  | operand {t : Term} (plain : t.isOperator = false) :
      Moves r t ({ r with negates := false }.pushOperand (if r.negates then t.negate else t))
  | sign (o : Arithmetic.Sign) (wanted : r.wanted = true) :
      Moves r (.op o.operator) { r with negates := r.negates ^^ Arithmetic.negative [o] }
  | operator {o : Operator} {operators : List Operator} {values : List Value} (binary : Binary o)
      (unsigned : r.wanted = true → ∀ s : Arithmetic.Sign, o ≠ s.operator)
      (run : unwind (fun last => last != .leftParen && last.bindsAtLeast o) r.operators r.values =
        .ok (operators, values)) :
      Moves r (.op o) { r with operators := o :: operators, values := values, wanted := true }
  | opens : Moves r (.op .leftParen) r.openGroup
  | closes {operators : List Operator} {values : List Value} {g : Group} {groups : List Group}
      (innermost : r.groups = g :: groups)
      (run : unwind (· != .leftParen) r.operators r.values = .ok (operators, values)) :
      Moves r (.op .rightParen) { r with
        operators := operators.tail, values := leaveGroup g values, groups := groups,
        depth := r.depth - 1, pendingComma := false, wanted := false }
  | comma {operators : List Operator} {values : List Value}
      (run : unwind (· != .leftParen) r.operators r.values = .ok (operators, values)) :
      Moves r (.op .comma) { r with operators := operators, values := values }.noteComma

/-- What a step does is one of the moves. -/
private theorem moves_of_step {r r' : Reduction} {t : Term} (h : r.step t = .ok r') : r.Moves t r' := by
  cases r.kind t with
  | operand plain =>
    rw [step_of_operand plain] at h
    cases h
    exact .operand plain
  | sign s wanted =>
    rw [step_of_sign wanted] at h
    cases h
    exact .sign s wanted
  | @operator o binary unsigned =>
    rw [step_of_operator binary unsigned] at h
    cases run : unwind (fun last => last != .leftParen && last.bindsAtLeast o) r.operators r.values
    <;> rw [run] at h <;> cases h
    exact .operator binary unsigned run
  | leftParen =>
    cases h
    exact .opens
  | rightParen =>
    rw [step_rightParen] at h
    cases run : unwind (· != .leftParen) r.operators r.values <;> rw [run] at h
    · cases h
    · cases innermost : r.groups <;>
        simp only [bind, Except.bind, closeGroup, innermost, reduceCtorEq, Except.ok.injEq] at h
      subst h
      exact .closes innermost run
  | comma =>
    rw [step_comma] at h
    cases run : unwind (· != .leftParen) r.operators r.values <;> rw [run] at h <;> cases h
    exact .comma run

/-- Steps are moves. -/
theorem step_eq_ok {r r' : Reduction} {t : Term} : r.step t = .ok r' ↔ r.Moves t r' := by
  refine ⟨moves_of_step, fun h => ?_⟩
  cases h with
  | operand plain => exact step_of_operand plain r
  | sign o wanted => exact step_of_sign wanted o
  | operator binary unsigned run => rw [step_of_operator binary unsigned, run]; rfl
  | opens => rfl
  | closes innermost run =>
    rw [step_rightParen, run]
    simp only [bind, Except.bind, closeGroup, innermost, leaveGroup]
  | comma run => rw [step_comma, run]; rfl

end Reduction

end Stylesheet
