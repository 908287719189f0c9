import Mathlib.Logic.Relation
import Stylesheet.Proofs.Arithmetic.Inheritance
import Stylesheet.Proofs.Arithmetic.Room

/-! # Stacks in step

The stacks of a reduction are **in step** (**`Reduction.InStep`**) when there are as many open parentheses among the
operators as there are open groups, when this number is the depth, and when all other operators take two operands. No
term puts them out of step (`Reduction.InStep.move`), and neither does any operator that is carried out meanwhile
(`Reduction.InStep.unwinds`). So a reduction goes on in the same way whatever carrying out a parenthesis or a comma
would do (`Reduction.stepWith_eq_step`): it never happens. What goes wrong is a parenthesis that has no counterpart, or
an operator with two operands (`Reduction.fault_of_reduce`), and a chain that has a value is closed
(`Value.reduce_in_step`). -/

namespace Stylesheet

/-! ## Operators that fail -/

/-- What can go wrong when an operator is carried out. -/
inductive Operator.Fault (o : Operator) : Error → Prop
  | missing : Fault o .missingOperand
  | empty : Fault o (.emptyOperand o)
  | undefined (left right : String) : Fault o (.undefinedOperation left o right)
  | squared (left right : String) : Fault o (.squaredUnits left right)
  | mixed (left right : String) : Fault o (.mixedUnits left right)

section

variable {o : Operator} {e : Error}

/-- None of this is worded like an operator that is missing. -/
theorem Operator.Fault.message_ne (h : o.Fault e) : e.message ≠ "Expected an operator" := by
  intro same
  cases h with
  | missing => exact absurd same (by decide)
  | empty => cases o <;> exact absurd same (by decide)
  | undefined left right =>
    have same : (s!"Undefined operation: `{left} " ++ o.text ++ s!" {right}`").toList = _ :=
      congrArg String.toList same
    simp [toString] at same
  | squared left right =>
    have same : ("Multiplication of " ++ Text.quoted left ++ " and " ++ Text.quoted right ++
        " would produce invalid squared units").toList = _ := congrArg String.toList same
    simp at same
  | mixed left right =>
    have same : ("Incompatible units: " ++ Text.quotedOption (some left) ++ " and " ++
        Text.quotedOption (some right)).toList = _ := congrArg String.toList same
    simp at same

/-- Where units cannot be combined, this is the fault of the operator. -/
theorem Number.fault_of_combineUnits {u v : Option String} (h : combineUnits o u v = .error e) : o.Fault e := by
  unfold combineUnits at h
  split at h
  · split at h
    · split at h <;> cases h
      exact .squared ..
    · cases h
      exact .mixed ..
  · cases h
  · cases h

/-- Where terms cannot be joined, this is the fault of the operator. -/
theorem Term.fault_of_concatenate {a b : Term} (h : concatenate o a b = .error e) : o.Fault e := by
  unfold concatenate at h
  split at h
  · split at h <;> cases h
  · cases h
  · cases h
  · cases h
    exact .undefined ..

/-- Where terms cannot be combined, this is the fault of the operator. -/
theorem Term.fault_of_combine {a b : Term} (h : combine o a b = .error e) : o.Fault e := by
  unfold combine at h
  split at h
  · exact Number.fault_of_combineUnits (Outcome.map_eq_error_iff.1 (Outcome.map_eq_error_iff.1 h))
  · split at h
    · cases h
    · exact fault_of_concatenate h
  · cases h
  · exact fault_of_concatenate h

end

namespace Reduction

/-- An operator fails for want of operands, or since it does not apply to their terms. -/
theorem fault_of_applyTop {o : Operator} {values : List Value} {e : Error} (h : applyTop o values = .error e) :
    o.Fault e := by
  unfold applyTop at h
  split at h
  · replace h := Outcome.map_eq_error_iff.1 h
    unfold combineValues at h
    split at h
    · exact Term.fault_of_combine (Outcome.map_eq_error_iff.1 h)
    · cases h
      exact .empty
  · cases h
    exact .missing

/-! ## Rounds -/

section

variable {goes : Operator → Bool} {w w' : List Operator × List Value}

/-- The topmost operator is to go, and it is carried out. -/
def Round (goes : Operator → Bool) (w w' : List Operator × List Value) : Prop :=
  (∃ o ∈ w.1.head?, goes o = true) ∧ carryOut w.1 w.2 = .ok w'

/-- How far carrying out operators comes round by round. -/
def Unwinds (goes : Operator → Bool) : List Operator × List Value → List Operator × List Value → Prop :=
  Relation.ReflTransGen (Round goes)

/-- In a round an operator goes that waits on top. -/
theorem Round.exists_operator (h : Round goes w w') :
    ∃ o, w.1 = o :: w'.1 ∧ goes o = true ∧ applyTop o w.2 = .ok w'.2 := by
  obtain ⟨operators, values⟩ := w
  obtain ⟨⟨o, top, going⟩, run⟩ := h
  obtain ⟨operators, rfl⟩ : ∃ below, operators = o :: below := List.head?_eq_some_iff.1 top
  rw [carryOut, carryOutWith_cons] at run
  obtain ⟨values', applied, rfl⟩ := Outcome.map_eq_ok_iff.1 run
  exact ⟨o, rfl, going, applied⟩

/-- Operators are carried out round by round, down to the first one that is to stay. -/
theorem unwind_eq_ok_iff :
    unwind goes w.1 w.2 = .ok w' ↔ Unwinds goes w w' ∧ ∀ o ∈ w'.1.head?, goes o = false := by
  constructor
  · intro run
    obtain ⟨operators, values⟩ := w
    induction operators generalizing values with
    | nil =>
      cases run
      exact ⟨.refl, by simp⟩
    | cons o operators ih =>
      cases going : goes o with
      | true =>
        obtain ⟨values', applied, run⟩ := Outcome.bind_eq_ok_iff.1 ((unwind_cons going _ _).symm.trans run)
        obtain ⟨rounds, stays⟩ := ih values' run
        have round : Round goes (o :: operators, values) (operators, values') := by
          refine ⟨⟨o, rfl, going⟩, ?_⟩
          rw [carryOut, carryOutWith_cons, applied]
          rfl
        exact ⟨.head round rounds, stays⟩
      | false =>
        cases (unwind_cons_of_stays going operators values).symm.trans run
        exact ⟨.refl, by simpa using going⟩
  · rintro ⟨rounds, stays⟩
    induction rounds using Relation.ReflTransGen.head_induction_on with
    | refl => exact unwind_of_head? stays
    | head round _ ih =>
      obtain ⟨o, top, going, applied⟩ := round.exists_operator
      rw [top, unwind_cons going, applied]
      exact ih

/-- When carrying out operators fails, one of them fails that is to go. -/
theorem fault_of_unwind {operators : List Operator} {values : List Value} {e : Error}
    (h : unwind goes operators values = .error e) : ∃ o ∈ operators, goes o = true ∧ o.Fault e := by
  induction operators generalizing values with
  | nil => cases h
  | cons o operators ih =>
    cases going : goes o with
    | true =>
      rw [unwind_cons going] at h
      cases applied : applyTop o values with
      | error e' =>
        rw [applied] at h
        cases h
        exact ⟨o, .head _, going, fault_of_applyTop applied⟩
      | ok values' =>
        rw [applied] at h
        obtain ⟨o', below, found⟩ := ih h
        exact ⟨o', .tail _ below, found⟩
    | false =>
      rw [unwind_cons_of_stays going] at h
      cases h

end

/-! ## Stacks in step -/

/-- The open parentheses among the operators are as many as the open groups and as the depth says, and all other
operators take two operands. -/
structure InStep (r : Reduction) : Prop where
  parentheses : r.operators.count .leftParen = r.groups.length
  depth : r.depth = r.groups.length
  binary : ∀ o ∈ r.operators, o ≠ .leftParen → Binary o

/-- A reduction that has not begun is in step. -/
theorem inStep_start : InStep {} := ⟨rfl, rfl, by simp⟩

section

variable {r r' : Reduction} {t : Term} {v : Value} {e : Error} {goes : Operator → Bool}
  {w : List Operator × List Value}

/-- Carrying out operators in front of a parenthesis keeps the stacks in step, round by round. -/
theorem InStep.unwinds (h : r.InStep) (stays : goes .leftParen = false)
    (rounds : Unwinds goes (r.operators, r.values) w) : InStep { r with operators := w.1, values := w.2 } := by
  induction rounds with
  | refl => exact h
  | tail _ round ih =>
    obtain ⟨o, top, going, -⟩ := round.exists_operator
    have plain : o ≠ .leftParen := ne_leftParen_of_goes stays going
    obtain ⟨parentheses, depth, binary⟩ := ih
    dsimp only at parentheses binary
    rw [top] at parentheses binary
    exact ⟨by rwa [List.count_cons_of_ne plain] at parentheses, depth, fun o ho => binary o (.tail _ ho)⟩

/-- So all that are to go may be carried out. -/
theorem InStep.unwind (h : r.InStep) (stays : goes .leftParen = false)
    (run : Reduction.unwind goes r.operators r.values = .ok w) :
    InStep { r with operators := w.1, values := w.2 } :=
  h.unwinds stays (unwind_eq_ok_iff (w := (r.operators, r.values)).1 run).1

/-- What waits on top of an open group, once its operators are carried out, is its parenthesis. -/
theorem InStep.exists_outer (h : r.InStep) {g : Group} {groups : List Group} (innermost : r.groups = g :: groups)
    (run : Reduction.unwind (· != .leftParen) r.operators r.values = .ok w) : ∃ outer, w.1 = .leftParen :: outer := by
  have parentheses := (h.unwind rfl run).parentheses
  dsimp only at parentheses
  cases top : w.1 with
  | nil => simp [top, innermost] at parentheses
  | cons o outer =>
    have stopped := (unwind_eq_ok_iff (w := (r.operators, r.values)).1 run).2 o (by rw [top]; rfl)
    obtain rfl : o = .leftParen := by simpa using stopped
    exact ⟨outer, rfl⟩

/-- **Every move keeps the stacks in step.** -/
theorem InStep.move (h : r.InStep) (m : r.Moves t r') : r'.InStep := by
  cases m with
  | operand plain => exact ⟨h.parentheses, h.depth, h.binary⟩
  | sign o wanted => exact ⟨h.parentheses, h.depth, h.binary⟩
  | @operator o operators values binary unsigned run =>
    obtain ⟨parentheses, depth, others⟩ := h.unwind (by rfl) run
    refine ⟨?_, depth, List.forall_mem_cons.2 ⟨fun _ => binary, others⟩⟩
    simpa [List.count_cons_of_ne binary.1] using parentheses
  | opens =>
    refine ⟨?_, ?_, List.forall_mem_cons.2 ⟨fun plain => absurd rfl plain, h.binary⟩⟩
    · simp [openGroup, h.parentheses]
    · simp [openGroup, h.depth]
  | @closes operators values g groups innermost run =>
    -- the parenthesis of the group goes with it
    obtain ⟨outer, rfl⟩ := h.exists_outer innermost run
    obtain ⟨parentheses, depth, others⟩ := h.unwind rfl run
    dsimp only at parentheses depth others
    rw [innermost] at parentheses depth
    refine ⟨by simpa using parentheses, ?_, fun o ho => others o (.tail _ ho)⟩
    simp [depth]
  | comma run =>
    obtain ⟨parentheses, depth, others⟩ := h.unwind rfl run
    dsimp only at parentheses depth others
    refine ⟨?_, ?_, others⟩ <;> cases groups : r.groups <;> simp_all [noteComma]

/-- **So does every run.** -/
theorem InStep.foldlM (h : r.InStep) (run : v.foldlM step r = .ok r') : r'.InStep :=
  Gives.foldlM h (fun _ _ _ inStep _ moved => inStep.move (step_eq_ok.1 moved)) r' run

/-! ### What is carried out -/

section

variable {apply : Operation} (same : ∀ o, Binary o → apply o = applyTop o)
include same

/-- It does not matter what carrying out an operator would do that is not to go. -/
theorem InStep.unwindWhile_eq (h : r.InStep) (stays : goes .leftParen = false) :
    r.unwindWhile apply goes = r.unwindWhile applyTop goes := by
  have all (operators : List Operator) (values : List Value)
      (binary : ∀ o ∈ operators, o ≠ .leftParen → Binary o) :
      unwindWith apply goes operators values = unwindWith applyTop goes operators values := by
    induction operators generalizing values with
    | nil => rfl
    | cons o operators ih =>
      rw [List.forall_mem_cons] at binary
      cases going : goes o with
      | true =>
        rw [unwindWith, unwindWith, if_pos going, if_pos going, carryOutWith_cons, carryOutWith_cons,
          same o (binary.1 (ne_leftParen_of_goes stays going))]
        exact bind_congr fun w => ih w.2 binary.2
      | false => simp [unwindWith, going]
  rw [unwindWhile, unwindWhile, all _ _ h.binary]

/-- **No term has a parenthesis or a comma carried out**: a step is the same whatever this would do. -/
theorem stepWith_eq_step (h : r.InStep) (t : Term) : r.stepWith apply t = r.step t := by
  have group : r.unwindGroup apply = r.unwindGroup applyTop := h.unwindWhile_eq same rfl
  have tighter (o : Operator) : r.unwindWhile apply (fun last => last != .leftParen && last.bindsAtLeast o) =
      r.unwindWhile applyTop fun last => last != .leftParen && last.bindsAtLeast o := h.unwindWhile_eq same rfl
  simp only [step, stepWith, group, tighter]

/-- Neither has a run. -/
theorem foldlM_stepWith (h : r.InStep) (v : Value) : v.foldlM (stepWith apply) r = v.foldlM step r := by
  induction v generalizing r with
  | nil => rfl
  | cons t v ih =>
    rw [List.foldlM_cons, List.foldlM_cons, stepWith_eq_step same h t]
    cases moved : r.step t with
    | error e => rfl
    | ok r' => exact ih (h.move (step_eq_ok.1 moved))

/-- Nor does it happen at the end. -/
theorem finishWith_eq_finish (h : r.InStep) : r.finishWith apply = r.finish := by
  have group : r.unwindGroup apply = r.unwindGroup applyTop := h.unwindWhile_eq same rfl
  simp only [finish, finishWith, group]

end

/-! ### What goes wrong -/

/-- When operators in front of a parenthesis fail to be carried out, one fails that takes two operands. -/
theorem InStep.fault_of_unwind (h : r.InStep) (stays : goes .leftParen = false)
    (failed : Reduction.unwind goes r.operators r.values = .error e) : ∃ o, Binary o ∧ o.Fault e := by
  obtain ⟨o, waits, going, fault⟩ := Reduction.fault_of_unwind failed
  exact ⟨o, h.binary o waits (ne_leftParen_of_goes stays going), fault⟩

/-- A term goes wrong that closes no group, or when an operator fails that takes two operands. -/
theorem InStep.fault_of_step (h : r.InStep) (failed : r.step t = .error e) :
    e = .strayParenthesis ∨ ∃ o, Binary o ∧ o.Fault e := by
  cases r.kind t with
  | operand plain =>
    rw [step_of_operand plain] at failed
    cases failed
  | sign s wanted =>
    rw [step_of_sign wanted] at failed
    cases failed
  | operator binary unsigned =>
    rw [step_of_operator binary unsigned] at failed
    exact .inr (h.fault_of_unwind (by rfl) (Outcome.map_eq_error_iff.1 failed))
  | leftParen => cases failed
  | rightParen =>
    rw [step_rightParen] at failed
    cases run : Reduction.unwind (· != .leftParen) r.operators r.values with
    | error e' =>
      rw [run] at failed
      cases failed
      exact .inr (h.fault_of_unwind rfl run)
    | ok w =>
      rw [run] at failed
      cases groups : r.groups with
      | nil =>
        simp only [bind, Except.bind, closeGroup, groups, Except.error.injEq] at failed
        exact .inl failed.symm
      | cons g gs => simp [bind, Except.bind, closeGroup, groups] at failed
  | comma =>
    rw [step_comma] at failed
    exact .inr (h.fault_of_unwind rfl (Outcome.map_eq_error_iff.1 failed))

/-- At the end a group is open, or an operator fails that takes two operands. -/
theorem InStep.fault_of_finish (h : r.InStep) (failed : r.finish = .error e) :
    e = .unclosedGroup ∨ ∃ o, Binary o ∧ o.Fault e := by
  rw [finish_eq] at failed
  cases run : Reduction.unwind (· != .leftParen) r.operators r.values with
  | error e' =>
    rw [run] at failed
    cases failed
    exact .inr (h.fault_of_unwind rfl run)
  | ok w =>
    rw [run] at failed
    simp only [bind, Except.bind] at failed
    split at failed <;> cases failed
    exact .inl rfl

/-- A run goes wrong as one of its terms does. -/
theorem InStep.fault_of_foldlM (h : r.InStep) (failed : v.foldlM step r = .error e) :
    e = .strayParenthesis ∨ ∃ o, Binary o ∧ o.Fault e := by
  induction v generalizing r with
  | nil => cases failed
  | cons t v ih =>
    rw [List.foldlM_cons] at failed
    cases moved : r.step t with
    | error e' =>
      rw [moved] at failed
      cases failed
      exact h.fault_of_step moved
    | ok r' =>
      rw [moved] at failed
      exact ih (h.move (step_eq_ok.1 moved)) failed

/-- What goes wrong is a group that stays open, a parenthesis that closes none, or an operator with two operands. -/
theorem fault_of_reduce (h : v.reduce = .error e) :
    e = .strayParenthesis ∨ e = .unclosedGroup ∨ ∃ o, Binary o ∧ o.Fault e := by
  rw [Value.reduce] at h
  cases run : v.foldlM step {} with
  | error e' =>
    rw [run] at h
    cases h
    exact (inStep_start.fault_of_foldlM run).imp_right .inr
  | ok r =>
    rw [run] at h
    exact .inr ((inStep_start.foldlM run).fault_of_finish h)

/-! ### What is closed -/

/-- The groups that are open are those of the terms that have been read. -/
theorem nesting?_of_foldlM (run : v.foldlM step r = .ok r') : v.nesting? r.groups.length = some r'.groups.length := by
  induction v generalizing r with
  | nil =>
    cases run
    rfl
  | cons t v ih =>
    rw [List.foldlM_cons] at run
    obtain ⟨r₁, moved, run⟩ := Outcome.bind_eq_ok_iff.1 run
    rw [Value.nesting?_cons, (step_eq_ok.1 moved).nesting?, Option.bind_some, ih run]

/-- A reduction that can be finished has closed its groups. -/
theorem InStep.groups_of_finish (h : r.InStep) {u : Value} (finished : r.finish = .ok u) : r.groups = [] := by
  rw [finish_eq] at finished
  obtain ⟨w, run, finished⟩ := Outcome.bind_eq_ok_iff.1 finished
  have parentheses := (h.unwind rfl run).parentheses
  split at finished
  · rename_i carried
    rw [List.isEmpty_iff.1 carried, List.count_nil] at parentheses
    exact List.eq_nil_of_length_eq_zero parentheses.symm
  · cases finished

end

end Reduction

/-! ## Results -/

/-- No new term is an operator but the comma. -/
theorem Term.formed_eq_comma : Formed fun t => ∀ o, t = .op o → o = .comma where
  number _ := nofun
  ident _ := nofun
  str _ := nofun
  comma := by
    rintro _ ⟨⟩
    rfl
  color _ _ _ _ := nofun
  list _ := nofun

/-- Nor does a list hold one, if what stands in it does not. -/
theorem Term.formed_isListed : Formed (·.isListed true = true) where
  number _ := rfl
  ident _ := rfl
  str _ := rfl
  comma := rfl
  color _ _ _ _ := rfl
  list items := by
    rw [isListed]
    exact Value.areListed_iff.2 items

namespace Value

open Reduction

/-- Reduce a whole chain with some other operation in the place of computing. -/
def reduceWith (apply : Operation) (v : Value) : Except Error Value := do
  let r ← v.foldlM (stepWith apply) {}
  r.finishWith apply

/-- A chain that has a value closes all its parentheses. -/
theorem isClosed_of_reduce {v w : Value} (h : v.reduce = .ok w) : v.isClosed = true := by
  obtain ⟨r, run, finished⟩ := Outcome.bind_eq_ok_iff.1 h
  have closed := (inStep_start.foldlM run).groups_of_finish finished
  have nesting := nesting?_of_foldlM run
  rw [closed] at nesting
  exact beq_iff_eq.2 nesting

/-- **The stacks stay in step.** Before each term there are as many open parentheses as open groups and as the depth
says, and so there are after each operator that is carried out in front of a parenthesis. No parenthesis and no comma
is ever carried out: with any operation that computes where operators take two operands every run and its end are the
same, whatever it does with the others. No operator is ever missing. A chain that has a value closes all its
parentheses, and the value holds no operators but commas; neither do its lists, if those among the operands do not. -/
theorem reduce_in_step (v : Value) :
    (∀ read rest r, v = read ++ rest → read.foldlM step {} = .ok r →
      r.InStep ∧ ∀ goes w, goes .leftParen = false → Unwinds goes (r.operators, r.values) w →
        InStep { r with operators := w.1, values := w.2 }) ∧
    (∀ apply : Operation, (∀ o, Binary o → apply o = applyTop o) →
      (∀ read rest, v = read ++ rest → read.foldlM (stepWith apply) {} = read.foldlM step {}) ∧
        v.reduceWith apply = v.reduce) ∧
    (∀ e, v.reduce = .error e → e.message ≠ "Expected an operator") ∧
    ∀ w, v.reduce = .ok w → v.isClosed = true ∧ (∀ o, .op o ∈ w → o = .comma) ∧
      ((∀ t ∈ v, t.isOperator = false → t.isListed true = true) → areListed true w = true) := by
  refine ⟨fun read rest r _ run => ?_, fun apply same => ⟨fun read rest _ => ?_, ?_⟩, fun e failed => ?_,
    fun w reduced => ⟨isClosed_of_reduce reduced, fun o ho => ?_, fun listed => ?_⟩⟩
  · have inStep := inStep_start.foldlM run
    exact ⟨inStep, fun goes w stays rounds => inStep.unwinds stays rounds⟩
  · exact foldlM_stepWith same inStep_start read
  · rw [reduceWith, reduce, foldlM_stepWith same inStep_start]
    cases run : v.foldlM step {} with
    | error e => rfl
    | ok r => exact finishWith_eq_finish same (inStep_start.foldlM run)
  · obtain rfl | rfl | ⟨o, -, fault⟩ := fault_of_reduce failed
    · decide
    · decide
    · exact fault.message_ne
  · have operands : ∀ t ∈ v, t.isOperator = false → ∀ o, t = .op o → o = .comma := by
      rintro _ - plain o rfl
      cases plain
    exact Term.formed_eq_comma.reduce operands w reduced _ ho o rfl
  · exact areListed_iff.2 (Term.formed_isListed.reduce listed w reduced)

/-- In `a - (b + c), d` the plus is carried out when the parenthesis closes, and refusing to carry out parentheses and
commas changes nothing; in `a *` an operand is missing. -/
theorem reduce_in_step_group :
    let read : Value := [.ident "a", .op .minus, .op .leftParen, .ident "b", .op .plus, .ident "c"]
    let rest : Value := [.op .rightParen, .op .comma, .ident "d"]
    let r : Reduction := ⟨[[.ident "c"], [.ident "b"], [.ident "a"]], [.plus, .leftParen, .minus],
      [⟨false, false, false, 1⟩], 1, false, false, false⟩
    let refusing : Operation := fun o values => match o with
      | .leftParen | .rightParen | .comma => .error .missingOperator
      | o => applyTop o values
    let w : Value := [.ident "a-bc", .op .comma, .ident "d"]
    read.foldlM step {} = .ok r ∧ r.InStep ∧
      Unwinds (· != .leftParen) (r.operators, r.values) ([.leftParen, .minus], [[.ident "bc"], [.ident "a"]]) ∧
      InStep { r with operators := [.leftParen, .minus], values := [[.ident "bc"], [.ident "a"]] } ∧
      (∀ o, Binary o → refusing o = applyTop o) ∧ read.foldlM (stepWith refusing) {} = .ok r ∧
      reduceWith refusing (read ++ rest) = .ok w ∧
      reduce (read ++ rest) = .ok w ∧ isClosed (read ++ rest) = true ∧ (∀ o, .op o ∈ w → o = .comma) ∧
      areListed true w = true ∧
      reduce [.ident "a", .op .star] = .error .missingOperand ∧
      Error.missingOperand.message ≠ "Expected an operator" := by
  intro read rest r refusing w
  have run : read.foldlM step {} = .ok r := rfl
  have rounds : Unwinds (· != .leftParen) (r.operators, r.values)
      ([.leftParen, .minus], [[.ident "bc"], [.ident "a"]]) := .single ⟨⟨.plus, rfl, rfl⟩, rfl⟩
  have same : ∀ o, Binary o → refusing o = applyTop o := by
    rintro o ⟨leftParen, rightParen, comma⟩
    cases o <;> first | rfl | contradiction
  have reduced : reduce (read ++ rest) = .ok w := rfl
  have failed : reduce [.ident "a", .op .star] = .error .missingOperand := rfl
  have listed : ∀ t ∈ read ++ rest, t.isOperator = false → t.isListed true = true := by
    simp [read, rest, Term.isListed, Term.isOperator]
  obtain ⟨between, alike, -, results⟩ := reduce_in_step (read ++ rest)
  obtain ⟨inStep, meanwhile⟩ := between read rest r rfl run
  obtain ⟨runs, whole⟩ := alike refusing same
  obtain ⟨closed, commas, lists⟩ := results w reduced
  exact ⟨run, inStep, rounds, meanwhile _ _ rfl rounds, same, (runs read rest rfl).trans run, whole.trans reduced,
    reduced, closed, commas, lists listed, failed, (reduce_in_step _).2.2.1 _ failed⟩

end Value

end Stylesheet
