import Stylesheet.Value.Basic

/-! # Arithmetic on values

A chain with operators is **reduced** (**`Value.reduce`**) by going through its terms once, with the
operands waiting on one stack and the operators on another: an operator first carries out those waiting
that bind at least as tightly. What carrying out does is a parameter of the stacks (**`Reduction.Operation`**);
reducing computes (**`Reduction.applyTop`**). Parentheses open a **group**; when it closes, its value may be negated,
joins the operand it directly follows, and becomes a list if it held a comma. Whether a chain asks for
arithmetic at all is decided on the chain as written (**`Value.asksArithmetic`**), since a slash between
plain numbers does not divide. -/

namespace Stylesheet

/-! ## Operations on terms -/

namespace Term

/-- A term with its sign changed; what is no number gets a minus in front. -/
def negate : Term → Term
  | .number n => .number n.negate
  | t => .ident ("-" ++ t.text)

/-- The result of an operator on terms that do not compute: texts are joined, and a string stays quoted
when it comes first. -/
def concatenate (o : Operator) (a b : Term) : Except Error Term :=
  match o with
  | .plus =>
    match a, b with
    | .str s, b => .ok (.str (s ++ b.unquoted))
    | a, .str s => .ok (.ident (a.unquoted ++ s))
    | a, b => .ok (.ident (a.text ++ b.text))
  | .minus => .ok (.ident (a.text ++ "-" ++ b.text))
  | .slash => .ok (.ident (a.text ++ "/" ++ b.text))
  | o => .error (.undefinedOperation a.text o b.text)

/-- The result of an operator on two terms: numbers compute, colors compute channel by channel with
numbers without a unit and with each other, and everything else is joined as text. -/
def combine (o : Operator) (a b : Term) : Except Error Term :=
  match a, b with
  | .number x, .number y => (Number.combine? o x y).map .number
  | .color c, .number n =>
    if n.unit.isNone then .ok (.color (c.mapChannels (o.apply · n.scalar)))
    else concatenate o a b
  | .color c, .color d => .ok (.color (c.zipChannels d o.apply))
  | a, b => concatenate o a b

end Term

/-! ## Stacks -/

/-- An open group: whether it directly follows an operand, whether a minus stands in front, whether it
holds a comma, and how many operands were waiting when it opened. -/
structure Group where
  joinsPrevious : Bool
  negated : Bool
  hasComma : Bool
  below : Nat
  deriving Repr, DecidableEq

/-- How far a reduction has come. All stacks have their top first. -/
structure Reduction where
  values : List Value := []
  operators : List Operator := []
  groups : List Group := []
  /-- How many groups are open. -/
  depth : Int := 0
  /-- Whether an operand has to come, so that a plus or minus is a sign. -/
  wanted : Bool := true
  /-- Whether the next operand is negated. -/
  negates : Bool := false
  /-- Whether a comma goes in front of the next operand. -/
  pendingComma : Bool := false

namespace Reduction

/-- Combine the last term of one operand with the first of the other; their further terms stay around
the result. -/
def combineValues (o : Operator) (first second : Value) : Except Error Value :=
  match first.getLast?, second with
  | some a, b :: rest => (Term.combine o a b).map fun t => first.dropLast ++ t :: rest
  | _, _ => .error (.emptyOperand o)

/-- Carry out one operator on the two topmost operands. -/
def applyTop (o : Operator) : List Value → Except Error (List Value)
  | second :: first :: values => (combineValues o first second).map (· :: values)
  | _ => .error .missingOperand

/-- Take the topmost operator off its stack. -/
def popOperator : List Operator → Except Error (Operator × List Operator)
  | [] => .error .missingOperator
  | o :: operators => .ok (o, operators)

/-- What an operator does to the operands that wait. -/
abbrev Operation := Operator → List Value → Except Error (List Value)

section

-- Which operators are carried out is up to the stacks alone, so what carrying one out does is left open.
variable (apply : Operation)

/-- Take the topmost operator off its stack and carry it out. -/
def carryOutWith (operators : List Operator) (values : List Value) : Except Error (List Operator × List Value) := do
  let (o, operators) ← popOperator operators
  let values ← apply o values
  pure (operators, values)

/-- Carry out the waiting operators as long as `goes` holds of the topmost one. -/
def unwindWith (goes : Operator → Bool) : List Operator → List Value →
    Except Error (List Operator × List Value)
  | [], values => .ok ([], values)
  | o :: operators, values =>
    if goes o then do
      -- without its topmost operator the stack is `operators`
      let (_, values) ← carryOutWith apply (o :: operators) values
      unwindWith goes operators values
    else .ok (o :: operators, values)

/-- Carry out waiting operators as long as `goes` holds of the topmost one. -/
def unwindWhile (r : Reduction) (goes : Operator → Bool) : Except Error Reduction :=
  (unwindWith apply goes r.operators r.values).map fun (operators, values) =>
    { r with operators := operators, values := values }

/-- Carry out the operators of the innermost group. -/
def unwindGroup (r : Reduction) : Except Error Reduction := r.unwindWhile apply (· != .leftParen)

end

/-- Open a group. -/
def openGroup (r : Reduction) : Reduction :=
  { r with
    groups := ⟨!r.wanted, r.negates, false, r.values.length⟩ :: r.groups
    operators := .leftParen :: r.operators
    negates := false
    wanted := true
    depth := r.depth + 1 }

/-- The value of a group that closes, as it takes its place among the operands. -/
def placeGroup (g : Group) : List Value → List Value
  | [] => []
  | top :: values =>
    -- a sign applies to each term of a group without commas, but to a list as a whole
    let listed := if g.hasComma then [.list top] else top
    let signed := if g.negated then listed.map Term.negate else listed
    match values with
    | previous :: values' =>
      if g.joinsPrevious then (previous ++ signed) :: values' else signed :: values
    | [] => [signed]

/-- Close the innermost group. A group without operands leaves nothing. -/
def closeGroup (r : Reduction) : Except Error Reduction :=
  match r.groups with
  | [] => .error .strayParenthesis
  | g :: groups =>
    .ok { r with
      groups := groups
      values := if r.values.length ≤ g.below then r.values else placeGroup g r.values
      pendingComma := false
      wanted := false }

/-- Add an operand. Behind another operand or a comma it joins the topmost one. -/
def pushOperand (r : Reduction) (t : Term) : Reduction :=
  { r with
    values :=
      match r.values with
      | previous :: values =>
        if !r.wanted || r.pendingComma then
          (previous ++ (if r.pendingComma then [.op .comma] else []) ++ [t]) :: values
        else [t] :: r.values
      | [] => [[t]]
    pendingComma := false
    wanted := false }

/-- Note a comma in the innermost group. -/
def noteComma (r : Reduction) : Reduction :=
  { r with
    groups := match r.groups with
      | g :: groups => { g with hasComma := true } :: groups
      | [] => []
    pendingComma := true
    wanted := true }

section

variable (apply : Operation)

/-- Go on by one term. -/
def stepWith (r : Reduction) (t : Term) : Except Error Reduction :=
  match t with
  | .op .leftParen => .ok r.openGroup
  | .op .rightParen => do
    let r ← r.unwindGroup apply
    closeGroup { r with operators := r.operators.tail, depth := r.depth - 1 }
  | .op .comma => do
    let r ← r.unwindGroup apply
    pure r.noteComma
  | .op o =>
    -- where an operand has to come, a minus or plus is a sign
    if o = .minus ∧ r.wanted then .ok { r with negates := !r.negates }
    else if o = .plus ∧ r.wanted then .ok r
    else do
      let r ← r.unwindWhile apply fun last => last != .leftParen && last.bindsAtLeast o
      pure { r with operators := o :: r.operators, wanted := true }
  | t => .ok ({ r with negates := false }.pushOperand (if r.negates then t.negate else t))

/-- Carry out what is left, and join the operands that remain. -/
def finishWith (r : Reduction) : Except Error Value := do
  let r ← r.unwindGroup apply
  -- an operator that is left can only be an open parenthesis
  if r.operators.isEmpty then pure r.values.reverse.flatten else .error .unclosedGroup

end

/-- Go on by one term, and compute what is due. -/
def step (r : Reduction) (t : Term) : Except Error Reduction := r.stepWith applyTop t

/-- Compute what is left, and join the operands that remain. -/
def finish (r : Reduction) : Except Error Value := r.finishWith applyTop

end Reduction

namespace Value

/-! ## Chains -/

/-- Reduce a whole chain, commas included. -/
def reduce (v : Value) : Except Error Value := do
  let r ← v.foldlM Reduction.step {}
  r.finish

/-- Nothing is reduced to nothing. -/
@[simp] theorem reduce_nil : reduce [] = .ok [] := rfl

/-- Reduce each argument of a chain on its own. -/
def evaluate (v : Value) : Except Error Value := do
  let results ← v.arguments.mapM reduce
  pure (ofItems v.hasComma results)

/-- Whether a slash divides next to this term. -/
def makesDivision : Term → Bool
  | .var _ | .call _ _ | .op .leftParen | .op .rightParen => true
  | _ => false

/-- Whether the rest of a chain asks for arithmetic; `before` is the term in front of it. -/
def asksArithmeticBehind (before : Option Term) : List Term → Bool
  | [] => false
  | t :: ts =>
    (match t with
      | .op .slash => before.any makesDivision || ts.head?.any makesDivision
      | .op .comma | .op .rightParen => false
      | .op _ => true
      | _ => false) || asksArithmeticBehind (some t) ts

/-- Whether a chain asks for arithmetic: it has an operator, where a slash counts only next to a
variable, a call or a parenthesis. -/
def asksArithmetic (v : Value) : Bool := asksArithmeticBehind none v

/-- No terms ask for arithmetic. -/
@[simp] theorem asksArithmetic_nil : asksArithmetic [] = false := rfl

end Value

end Stylesheet
