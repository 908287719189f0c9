import Stylesheet.Condition.Token

/-! # Evaluating conditions

A condition is evaluated while its tokens are read. From loose to tight, `or`, `and`, `not`, the
comparisons, sums, products and the sign make one level each, and each level is built from the next
tighter one: a level of operators that group to the left is a **`Condition.chain`**, and parentheses
start over with the loosest one. Both sides of an operator are always evaluated, left before right. -/

namespace Stylesheet

namespace Condition

/-- Evaluate a condition at the front of some tokens, and leave the tokens behind it. -/
abbrev Level := List Token → Except Fault (Literal × List Token)

/-! ## Levels -/

/-- Go on with operators and operands behind a first operand, at most `steps` times. Each operator
takes a token, so the number of tokens is enough. -/
def chainBehind {α : Type} (operand : Level) (operator? : Token → Option α)
    (combine : α → Literal → Literal → Except Fault Literal) :
    Nat → Literal → Level
  | 0, left, ts => .ok (left, ts)
  | _ + 1, left, [] => .ok (left, [])
  | steps + 1, left, t :: ts =>
    match operator? t with
    | none => .ok (left, t :: ts)
    | some o => do
      let (right, rest) ← operand ts
      let left ← combine o left right
      chainBehind operand operator? combine steps left rest

/-- Operands with operators between them that group to the left. -/
def chain {α : Type} (operand : Level) (operator? : Token → Option α)
    (combine : α → Literal → Literal → Except Fault Literal) : Level := fun ts => do
  let (left, rest) ← operand ts
  chainBehind operand operator? combine rest.length left rest

/-- Any number of a sign in front of an operand. -/
def signed (isSign : Token → Bool) (change : Literal → Except Fault Literal) (operand : Level) : Level
  | [] => operand []
  | t :: ts =>
    if isSign t then do
      let (value, rest) ← signed isSign change operand ts
      let value ← change value
      pure (value, rest)
    else operand (t :: ts)

/-! ## Operators -/

/-- Whether a token says `or`. -/
def isOr : Token → Bool
  | .symbol .either => true
  | .word w => w == "or"
  | _ => false

/-- Whether a token says `and`. -/
def isAnd : Token → Bool
  | .symbol .both => true
  | .word w => w == "and"
  | _ => false

/-- Whether a token says `not`. -/
def isNot : Token → Bool
  | .symbol .bang => true
  | .word w => w == "not"
  | _ => false

/-- Whether a token is a minus. -/
def isMinus : Token → Bool
  | .symbol .minus => true
  | _ => false

/-- The operators of sums. -/
def additive? : Token → Option Operator
  | .symbol .plus => some .plus
  | .symbol .minus => some .minus
  | _ => none

/-- The operators of products. -/
def multiplicative? : Token → Option Operator
  | .symbol .star => some .star
  | .symbol .slash => some .slash
  | .symbol .percent => some .percent
  | _ => none

/-- The comparisons. -/
inductive Comparison
  | equal
  | notEqual
  | less
  | atMost
  | greater
  | atLeast
  deriving Repr, DecidableEq

/-- The comparison a token stands for. -/
def comparison? : Token → Option Comparison
  | .symbol .equal | .symbol .assign => some .equal   -- one sign or two
  | .symbol .notEqual => some .notEqual
  | .symbol .less => some .less
  | .symbol .atMost => some .atMost
  | .symbol .greater => some .greater
  | .symbol .atLeast => some .atLeast
  | _ => none

/-- The result of a comparison. -/
def Comparison.apply (c : Comparison) (left right : Literal) : Except Fault Literal :=
  match c with
  | equal => .ok (.bool (left.equals right))
  | notEqual => .ok (.bool (!left.equals right))
  | less => left.compare (fun x y => x < y) right
  | atMost => left.compare (fun x y => x ≤ y) right
  | greater => left.compare (fun x y => y < x) right
  | atLeast => left.compare (fun x y => y ≤ x) right

/-- A yes-or-no operator that is found by a test on tokens. -/
def matching (test : Token → Bool) (t : Token) : Option Unit := if test t then some () else none

/-! ## The grammar -/

/-- A single value, or a condition in parentheses. -/
def primary (group : Level) : Level
  | [] => .error .cutShort
  | .number n :: ts => .ok (.number n, ts)
  | .str s :: ts => .ok (.str s, ts)
  | .word w :: ts =>
    .ok (if w = "true" then .bool true else if w = "false" then .bool false
      else if w = "null" then .null else .str w, ts)
  | .symbol .leftParen :: ts =>
    match group ts with
    | .error e => .error e
    | .ok (value, .symbol .rightParen :: rest) => .ok (value, rest)
    | .ok _ => .error .unclosed
  | .symbol s :: _ => .error (.unexpectedSymbol s.text)

/-- An operand with signs. -/
def unary (group : Level) : Level := signed isMinus Literal.negate (primary group)

/-- Products. -/
def product (group : Level) : Level := chain (unary group) multiplicative? Literal.combine

/-- Sums. -/
def sum (group : Level) : Level := chain (product group) additive? Literal.combine

/-- Two sums that are compared, or a sum alone. -/
def comparison (group : Level) : Level := fun ts => do
  let (left, rest) ← sum group ts
  match rest with
  | [] => pure (left, [])
  | t :: behind =>
    match comparison? t with
    | none => pure (left, rest)
    | some c => do
      let (right, rest) ← sum group behind
      let value ← c.apply left right
      pure (value, rest)

/-- A comparison that may be negated. -/
def negation (group : Level) : Level :=
  signed isNot (fun value => .ok (.bool !value.isTruthy)) (comparison group)

/-- Negations that all have to hold. -/
def conjunction (group : Level) : Level :=
  chain (negation group) (matching isAnd) fun _ left right =>
    .ok (.bool (left.isTruthy && right.isTruthy))

/-- Conjunctions of which one has to hold. -/
def disjunction (group : Level) : Level :=
  chain (conjunction group) (matching isOr) fun _ left right =>
    .ok (.bool (left.isTruthy || right.isTruthy))

/-- A whole condition with parentheses nested at most `depth` deep. -/
def expression : Nat → Level
  | 0 => fun _ => .error .cutShort
  | depth + 1 => disjunction (expression depth)

/-- Evaluate all of some tokens; `condition` is the text they come from. Every parenthesis takes a
token, so their number bounds how deep parentheses nest. -/
def evaluateTokens (condition : String) (ts : List Token) : Except Fault Literal :=
  if ts.isEmpty then .error .empty
  else
    -- the last depth is never reached
    match expression (ts.length + 1) ts with
    | .error e => .error e
    | .ok (value, []) => .ok value
    | .ok (_, t :: _) => .error (.leftover t.shown condition)

/-- Evaluate a condition. -/
def evaluate (condition : String) : Except Fault Literal := do
  let ts ← tokens condition
  evaluateTokens condition ts

end Condition

end Stylesheet
