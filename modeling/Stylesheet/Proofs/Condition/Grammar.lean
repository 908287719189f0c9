import Stylesheet.Condition.Evaluation
import Stylesheet.Condition.Normal

/-! # The grammar of conditions

A condition is a tree (**`Expr`**) whose value is computed from the leaves up, left before right
(**`Expr.eval`**). It is **`Written`** as tokens in many ways: operators have several spellings, and there
are parentheses where one operator binds looser than it would have to (**`Strength`**), and wherever else
one likes. Every tree can be written (`exists_written`).

Evaluating such tokens gives the value of the tree, or the first fault on the way to it
(`evaluateTokens_written`). Each level of the grammar reads what is written at its strength and leaves what
follows it (`Written.reads`). That follows from what is true of every chain of operators
(**`Continues`**) and of every sign (`ReadsOff.sign`), whatever the level below is. -/

namespace Stylesheet

namespace Condition

/-! ## Trees -/

/-- The operators that compute. -/
inductive Calculation
  | add
  | subtract
  | multiply
  | divide
  | modulo
  deriving Repr, DecidableEq

/-- What a calculation does to literals. -/
def Calculation.operator : Calculation → Operator
  | add => .plus
  | subtract => .minus
  | multiply => .star
  | divide => .slash
  | modulo => .percent

/-- A condition as a tree. -/
inductive Expr
  | literal (l : Literal)
  | negate (e : Expr)
  | calculate (o : Calculation) (left right : Expr)
  | compare (c : Comparison) (left right : Expr)
  | not (e : Expr)
  | and (left right : Expr)
  | or (left right : Expr)

/-- The value of a condition. Both sides of an operator are evaluated, the left one first. -/
def Expr.eval : Expr → Except Fault Literal
  | literal l => .ok l
  | negate e => do
    let value ← e.eval
    value.negate
  | calculate o left right => do
    let a ← left.eval
    let b ← right.eval
    Literal.combine o.operator a b
  | compare c left right => do
    let a ← left.eval
    let b ← right.eval
    c.apply a b
  | not e => do
    let value ← e.eval
    pure (.bool !value.isTruthy)
  | and left right => do
    let a ← left.eval
    let b ← right.eval
    pure (.bool (a.isTruthy && b.isTruthy))
  | or left right => do
    let a ← left.eval
    let b ← right.eval
    pure (.bool (a.isTruthy || b.isTruthy))

/-! ## Written forms -/

/-- How tightly a written condition holds together, from loose to tight. -/
inductive Strength
  | disjunction
  | conjunction
  | negation
  | comparison
  | sum
  | product
  | signed
  | single
  deriving Repr, DecidableEq

/-- The next tighter strength. -/
def Strength.next : Strength → Strength
  | disjunction => conjunction
  | conjunction => negation
  | negation => comparison
  | comparison => sum
  | sum => product
  | product => signed
  | signed => single
  | single => single

/-- The spellings of a comparison. -/
def Comparison.symbols : Comparison → List Symbol
  | equal => [.equal, .assign]
  | notEqual => [.notEqual]
  | less => [.less]
  | atMost => [.atMost]
  | greater => [.greater]
  | atLeast => [.atLeast]

/-- The symbol of a calculation. -/
def Calculation.symbol : Calculation → Symbol
  | add => .plus
  | subtract => .minus
  | multiply => .star
  | divide => .slash
  | modulo => .percent

/-- The strength of what a calculation makes of its operands. -/
def Calculation.strength : Calculation → Strength
  | add | subtract => .sum
  | multiply | divide | modulo => .product

/-- Tokens that a condition is written as, so that it holds together with a given strength. Operators that
take two operands group to the left, but comparisons do not group. -/
inductive Written : Strength → Expr → List Token → Prop
  | number (n : Number) : Written .single (.literal (.number n)) [.number n]
  | str (s : String) : Written .single (.literal (.str s)) [.str s]
  | word {w : String} (free : w.toList ∉ keywords) : Written .single (.literal (.str w)) [.word w]
  | yes : Written .single (.literal (.bool true)) [.word "true"]
  | no : Written .single (.literal (.bool false)) [.word "false"]
  | null : Written .single (.literal .null) [.word "null"]
  | group {e : Expr} {ts : List Token} (inside : Written .disjunction e ts) :
    Written .single e (.symbol .leftParen :: (ts ++ [.symbol .rightParen]))
  | negate {e : Expr} {ts : List Token} (operand : Written .signed e ts) :
    Written .signed (.negate e) (.symbol .minus :: ts)
  | calculate (o : Calculation) {l r : Expr} {ts us : List Token} (left : Written o.strength l ts)
    (right : Written o.strength.next r us) :
    Written o.strength (.calculate o l r) (ts ++ .symbol o.symbol :: us)
  | compare {c : Comparison} {s : Symbol} (spelt : s ∈ c.symbols) {l r : Expr} {ts us : List Token}
    (left : Written .sum l ts) (right : Written .sum r us) :
    Written .comparison (.compare c l r) (ts ++ .symbol s :: us)
  | not {t : Token} (spelt : t = .word "not" ∨ t = .symbol .bang) {e : Expr} {ts : List Token}
    (operand : Written .negation e ts) : Written .negation (.not e) (t :: ts)
  | and {t : Token} (spelt : t = .word "and" ∨ t = .symbol .both) {l r : Expr} {ts us : List Token}
    (left : Written .conjunction l ts) (right : Written .negation r us) :
    Written .conjunction (.and l r) (ts ++ t :: us)
  | or {t : Token} (spelt : t = .word "or" ∨ t = .symbol .either) {l r : Expr} {ts us : List Token}
    (left : Written .disjunction l ts) (right : Written .conjunction r us) :
    Written .disjunction (.or l r) (ts ++ t :: us)
  | loosen {s tight : Strength} {e : Expr} {ts : List Token} (tighter : Written tight e ts)
    (next : s.next = tight) : Written s e ts

/-- What is written at some strength can stand wherever any condition can. -/
theorem Written.disjunction {s : Strength} {e : Expr} {ts : List Token} (h : Written s e ts) :
    Written .disjunction e ts := by
  have conjunction (h : Written .conjunction e ts) : Written .disjunction e ts := h.loosen rfl
  have negation (h : Written .negation e ts) : Written .disjunction e ts := conjunction (h.loosen rfl)
  have comparison (h : Written .comparison e ts) : Written .disjunction e ts := negation (h.loosen rfl)
  have sum (h : Written .sum e ts) : Written .disjunction e ts := comparison (h.loosen rfl)
  have product (h : Written .product e ts) : Written .disjunction e ts := sum (h.loosen rfl)
  have signed (h : Written .signed e ts) : Written .disjunction e ts := product (h.loosen rfl)
  cases s with
  | disjunction => exact h
  | conjunction => exact conjunction h
  | negation => exact negation h
  | comparison => exact comparison h
  | sum => exact sum h
  | product => exact product h
  | signed => exact signed h
  | single => exact signed (h.loosen rfl)

/-- What stands for itself can stand anywhere. -/
theorem Written.anywhere {e : Expr} {ts : List Token} (h : Written .single e ts) (s : Strength) :
    Written s e ts := by
  have signed : Written .signed e ts := h.loosen rfl
  have product : Written .product e ts := signed.loosen rfl
  have sum : Written .sum e ts := product.loosen rfl
  have comparison : Written .comparison e ts := sum.loosen rfl
  have negation : Written .negation e ts := comparison.loosen rfl
  cases s with
  | disjunction => exact h.disjunction
  | conjunction => exact negation.loosen rfl
  | negation => exact negation
  | comparison => exact comparison
  | sum => exact sum
  | product => exact product
  | signed => exact signed
  | single => exact h

/-- Every condition can be written, at every strength. -/
theorem exists_written (s : Strength) (e : Expr) : ∃ ts, Written s e ts := by
  -- with parentheses around all that is not a literal
  suffices h : ∃ ts, Written .single e ts from h.imp fun ts h => h.anywhere s
  induction e with
  | literal l =>
    cases l with
    | bool b => cases b with
      | true => exact ⟨_, .yes⟩
      | false => exact ⟨_, .no⟩
    | number n => exact ⟨_, .number n⟩
    | str text => exact ⟨_, .str text⟩
    | null => exact ⟨_, .null⟩
  | negate e ih =>
    obtain ⟨ts, h⟩ := ih
    exact ⟨_, .group (Written.negate (h.anywhere _)).disjunction⟩
  | calculate o l r ihl ihr =>
    obtain ⟨⟨ts, hl⟩, us, hr⟩ := And.intro ihl ihr
    exact ⟨_, .group (Written.calculate o (hl.anywhere _) (hr.anywhere _)).disjunction⟩
  | compare c l r ihl ihr =>
    obtain ⟨⟨ts, hl⟩, us, hr⟩ := And.intro ihl ihr
    have spelt : ∃ s, s ∈ c.symbols := by cases c <;> exact ⟨_, .head _⟩
    obtain ⟨s, spelt⟩ := spelt
    exact ⟨_, .group (Written.compare spelt (hl.anywhere _) (hr.anywhere _)).disjunction⟩
  | not e ih =>
    obtain ⟨ts, h⟩ := ih
    exact ⟨_, .group (Written.not (.inl rfl) (h.anywhere _)).disjunction⟩
  | and l r ihl ihr =>
    obtain ⟨⟨ts, hl⟩, us, hr⟩ := And.intro ihl ihr
    exact ⟨_, .group (Written.and (.inl rfl) (hl.anywhere _) (hr.anywhere _)).disjunction⟩
  | or l r ihl ihr =>
    obtain ⟨⟨ts, hl⟩, us, hr⟩ := And.intro ihl ihr
    exact ⟨_, .group (Written.or (.inl rfl) (hl.anywhere _) (hr.anywhere _))⟩

/-! ## Reading -/

/-- A level reads some tokens as a value, or fails with a fault, and leaves what follows, as long as that
begins with no token that would go on. -/
def ReadsOff (level : Level) (stop : Token → Prop) (value : Except Fault Literal) (ts : List Token) :
    Prop :=
  ∀ rest, (∀ t ∈ rest.head?, stop t) →
    level (ts ++ rest) = value >>= fun v => pure (v, rest)

/-- A chain of operators reads some tokens as a value and goes on behind it. -/
def Continues {α : Type} (operand : Level) (operator? : Token → Option α)
    (combine : α → Literal → Literal → Except Fault Literal) (stop : Token → Prop)
    (value : Except Fault Literal) (ts : List Token) : Prop :=
  ∀ rest, (∀ t ∈ rest.head?, stop t) → ∃ steps, rest.length ≤ steps ∧
    chain operand operator? combine (ts ++ rest) =
      value >>= fun v => chainBehind operand operator? combine steps v rest

section

variable {α : Type} {operand : Level} {operator? : Token → Option α}
  {combine : α → Literal → Literal → Except Fault Literal} {stop : Token → Prop}
  {value other : Except Fault Literal} {ts us : List Token}

/-- Behind a token that is no operator, a chain is over. -/
theorem chainBehind_of_head? {rest : List Token} (h : ∀ t ∈ rest.head?, operator? t = none) (steps : Nat)
    (left : Literal) : chainBehind operand operator? combine steps left rest = .ok (left, rest) := by
  cases steps with
  | zero => rfl
  | succ steps =>
    cases rest with
    | nil => rfl
    | cons t rest => rw [chainBehind, h t rfl]

/-- A chain begins with an operand. -/
theorem ReadsOff.continues (h : ReadsOff operand stop value ts) :
    Continues operand operator? combine stop value ts := by
  intro rest hrest
  refine ⟨rest.length, Nat.le_refl _, ?_⟩
  rw [chain, h rest hrest, bind_assoc]
  rfl

/-- A chain goes on with an operator and an operand. -/
theorem Continues.join {t : Token} {o : α} (h : Continues operand operator? combine stop value ts)
    (operator : operator? t = some o) (hstop : stop t) (next : ReadsOff operand stop other us) :
    Continues operand operator? combine stop
      (do let a ← value; let b ← other; combine o a b) (ts ++ t :: us) := by
  intro rest hrest
  obtain ⟨steps, enough, reads⟩ := h (t :: us ++ rest) (by simpa using hstop)
  rw [List.cons_append, List.length_cons, List.length_append] at enough
  -- the operator takes a step, and at least one token
  obtain ⟨steps, rfl⟩ : ∃ n, steps = n + 1 := ⟨steps - 1, by omega⟩
  refine ⟨steps, by omega, ?_⟩
  rw [List.append_assoc, reads, bind_assoc]
  refine bind_congr fun a => ?_
  rw [List.cons_append, chainBehind, operator]
  dsimp only
  rw [next rest hrest, bind_assoc, bind_assoc]
  rfl

/-- A chain is read off as far as it goes. -/
theorem Continues.readsOff {stop' : Token → Prop} (h : Continues operand operator? combine stop value ts)
    (ends : ∀ t, stop' t → stop t ∧ operator? t = none) :
    ReadsOff (chain operand operator? combine) stop' value ts := by
  intro rest hrest
  obtain ⟨steps, -, reads⟩ := h rest fun t ht => (ends t (hrest t ht)).1
  rw [reads]
  refine bind_congr fun v => ?_
  rw [chainBehind_of_head? fun t ht => (ends t (hrest t ht)).2]
  rfl

/-- A sign changes the value behind it. -/
theorem ReadsOff.sign {isSign : Token → Bool} {change : Literal → Except Fault Literal} {t : Token}
    (ht : isSign t = true) (h : ReadsOff (Condition.signed isSign change operand) stop value ts) :
    ReadsOff (Condition.signed isSign change operand) stop (value >>= change) (t :: ts) := by
  intro rest hrest
  rw [List.cons_append, Condition.signed, if_pos ht, h rest hrest, bind_assoc, bind_assoc]
  rfl

/-- Without a sign the operand is read off. -/
theorem ReadsOff.unsigned {isSign : Token → Bool} {change : Literal → Except Fault Literal} {t : Token}
    (ht : isSign t = false) (h : ReadsOff operand stop value (t :: ts)) :
    ReadsOff (Condition.signed isSign change operand) stop value (t :: ts) := by
  intro rest hrest
  rw [← h rest hrest, List.cons_append, Condition.signed, if_neg (by simp [ht])]

variable {group : Level}

/-- A sum that is not compared. -/
theorem ReadsOff.alone (h : ReadsOff (sum group) stop value ts) :
    ReadsOff (comparison group) (fun t => stop t ∧ comparison? t = none) value ts := by
  intro rest hrest
  rw [Condition.comparison, h rest fun t ht => (hrest t ht).1, bind_assoc]
  refine bind_congr fun v => ?_
  rw [pure_bind]
  cases rest with
  | nil => rfl
  | cons t rest =>
    dsimp only
    rw [(hrest t rfl).2]

/-- Two sums that are compared. -/
theorem ReadsOff.compared {t : Token} {c : Comparison} (h : ReadsOff (sum group) stop value ts)
    (operator : comparison? t = some c) (hstop : stop t) (next : ReadsOff (sum group) stop other us) :
    ReadsOff (comparison group) (fun t => stop t ∧ comparison? t = none)
      (do let a ← value; let b ← other; c.apply a b) (ts ++ t :: us) := by
  intro rest hrest
  rw [Condition.comparison, List.append_assoc, h (t :: us ++ rest) (by simpa using hstop), bind_assoc,
    bind_assoc]
  refine bind_congr fun a => ?_
  rw [pure_bind, List.cons_append]
  dsimp only
  rw [operator]
  dsimp only
  rw [next rest fun t ht => (hrest t ht).1, bind_assoc, bind_assoc]
  rfl

/-- A condition in parentheses. -/
theorem ReadsOff.parenthesized (h : ReadsOff group stop value ts) (closed : stop (.symbol .rightParen)) :
    ReadsOff (primary group) (fun _ => True) value (.symbol .leftParen :: (ts ++ [.symbol .rightParen])) := by
  intro rest _
  rw [List.cons_append, List.append_assoc, List.singleton_append, primary,
    h (.symbol .rightParen :: rest) (by simpa using closed)]
  cases value <;> rfl

end

/-! ## Levels -/

/-- The level that reads what is written at some strength. -/
def Strength.level (group : Level) : Strength → Level
  | disjunction => Condition.disjunction group
  | conjunction => Condition.conjunction group
  | negation => Condition.negation group
  | comparison => Condition.comparison group
  | sum => Condition.sum group
  | product => Condition.product group
  | signed => unary group
  | single => primary group

/-- Whether what is written at some strength ends in front of a token. -/
def Strength.EndsAt : Strength → Token → Prop
  | disjunction, t => ((((multiplicative? t = none ∧ additive? t = none) ∧ comparison? t = none) ∧
      matching isAnd t = none) ∧ matching isOr t = none)
  | conjunction, t => (((multiplicative? t = none ∧ additive? t = none) ∧ comparison? t = none) ∧
      matching isAnd t = none)
  | negation, t => ((multiplicative? t = none ∧ additive? t = none) ∧ comparison? t = none)
  | comparison, t => ((multiplicative? t = none ∧ additive? t = none) ∧ comparison? t = none)
  | sum, t => multiplicative? t = none ∧ additive? t = none
  | product, t => multiplicative? t = none
  | signed, _ => True
  | single, _ => True

/-- What is written at some strength is read: where operators group, the level goes on behind it, and
elsewhere it leaves what follows. -/
def Reads (group : Level) : Strength → Expr → List Token → Prop
  | .disjunction, e, ts =>
    Continues (conjunction group) (matching isOr)
      (fun _ left right => .ok (.bool (left.isTruthy || right.isTruthy))) Strength.conjunction.EndsAt e.eval ts
  | .conjunction, e, ts =>
    Continues (negation group) (matching isAnd)
      (fun _ left right => .ok (.bool (left.isTruthy && right.isTruthy))) Strength.negation.EndsAt e.eval ts
  | .sum, e, ts =>
    Continues (product group) additive? Literal.combine Strength.product.EndsAt e.eval ts
  | .product, e, ts =>
    Continues (unary group) multiplicative? Literal.combine Strength.signed.EndsAt e.eval ts
  | s, e, ts => ReadsOff (s.level group) s.EndsAt e.eval ts

/-- What is read is read off. -/
theorem Reads.readsOff {group : Level} {s : Strength} {e : Expr} {ts : List Token}
    (h : Reads group s e ts) : ReadsOff (s.level group) s.EndsAt e.eval ts := by
  cases s with
  | disjunction | conjunction | sum => exact Continues.readsOff h fun _ ends => ends
  | product => exact Continues.readsOff h fun _ ends => ⟨trivial, ends⟩
  | negation | comparison | signed | single => exact h

/-- The first token of a written condition. Only from a negation on does it say `not`, and only from
a signed condition on is it a minus. -/
theorem Written.exists_cons {s : Strength} {e : Expr} {ts : List Token} (h : Written s e ts) :
    ∃ t us, ts = t :: us ∧
      (s ≠ .disjunction → s ≠ .conjunction → s ≠ .negation → isNot t = false) ∧
      (s = .single → isMinus t = false) := by
  induction h with
  | number | str | yes | no | null => exact ⟨_, _, rfl, fun _ _ _ => rfl, fun _ => rfl⟩
  | @word w free =>
    have ne : w ≠ "not" := by
      rintro rfl
      exact free (by decide)
    exact ⟨_, _, rfl, fun _ _ _ => by simpa [isNot] using ne, fun _ => rfl⟩
  | group | negate => exact ⟨_, _, rfl, fun _ _ _ => rfl, by simp [isMinus]⟩
  | calculate o _ _ ih =>
    obtain ⟨t, us, rfl, start, -⟩ := ih
    refine ⟨t, _, rfl, start, ?_⟩
    cases o <;> nofun
  | compare _ _ _ ih =>
    obtain ⟨t, us, rfl, start, -⟩ := ih
    exact ⟨t, _, rfl, fun _ _ _ => start nofun nofun nofun, nofun⟩
  | not => exact ⟨_, _, rfl, fun _ _ h => absurd rfl h, nofun⟩
  | and _ _ _ ih =>
    obtain ⟨t, us, rfl, -⟩ := ih
    exact ⟨t, _, rfl, fun _ h _ => absurd rfl h, nofun⟩
  | or _ _ _ ih =>
    obtain ⟨t, us, rfl, -⟩ := ih
    exact ⟨t, _, rfl, fun h _ _ => absurd rfl h, nofun⟩
  | @loosen s _ _ _ _ next ih =>
    subst next
    obtain ⟨t, us, rfl, start, sign⟩ := ih
    refine ⟨t, us, rfl, fun h h' h'' => start ?_ ?_ ?_, fun h => sign (by rw [h]; rfl)⟩ <;>
      revert h h' h'' <;> cases s <;> decide

/-- A spelling of a comparison stands for it, and ends the sum in front of it. -/
theorem Comparison.of_mem_symbols {c : Comparison} {s : Symbol} (spelt : s ∈ c.symbols) :
    comparison? (.symbol s) = some c ∧ Strength.sum.EndsAt (.symbol s) := by
  have spellings : (c = .equal ∧ (s = .equal ∨ s = .assign)) ∨ (c = .notEqual ∧ s = .notEqual) ∨
      (c = .less ∧ s = .less) ∨ (c = .atMost ∧ s = .atMost) ∨ (c = .greater ∧ s = .greater) ∨
      (c = .atLeast ∧ s = .atLeast) := by
    cases c <;> simpa [Comparison.symbols] using spelt
  rcases spellings with ⟨rfl, rfl | rfl⟩ | ⟨rfl, rfl⟩ | ⟨rfl, rfl⟩ | ⟨rfl, rfl⟩ | ⟨rfl, rfl⟩ | ⟨rfl, rfl⟩ <;>
    exact ⟨rfl, rfl, rfl⟩

/-- A spelling of `and` stands for it, and ends the negation in front of it. -/
theorem isAnd_of_spelt {t : Token} (spelt : t = .word "and" ∨ t = .symbol .both) :
    matching isAnd t = some () ∧ Strength.negation.EndsAt t := by
  rcases spelt with rfl | rfl <;>
    simp [matching, isAnd, Strength.EndsAt, multiplicative?, additive?, comparison?]

/-- A spelling of `or` stands for it, and ends the conjunction in front of it. -/
theorem isOr_of_spelt {t : Token} (spelt : t = .word "or" ∨ t = .symbol .either) :
    matching isOr t = some () ∧ Strength.conjunction.EndsAt t := by
  rcases spelt with rfl | rfl <;>
    simp [matching, isOr, isAnd, Strength.EndsAt, multiplicative?, additive?, comparison?]

/-- **Levels read what is written.** With enough depth for its parentheses, what is written at some strength
is read by the level of that strength. -/
theorem Written.reads {s : Strength} {e : Expr} {ts : List Token} (h : Written s e ts) (depth : Nat)
    (enough : ts.length ≤ depth) : Reads (expression depth) s e ts := by
  induction h generalizing depth with
  | number | str | yes | no | null => exact fun rest _ => rfl
  | @word w free =>
    intro rest _
    have other (k : String) (hk : k.toList ∈ keywords) : w ≠ k := by
      rintro rfl
      exact free hk
    show primary (expression depth) (.word w :: rest) = _
    rw [primary, if_neg (other "true" (by decide)), if_neg (other "false" (by decide)),
      if_neg (other "null" (by decide))]
    rfl
  | group inside ih =>
    rw [List.length_cons, List.length_append, List.length_singleton] at enough
    obtain ⟨depth, rfl⟩ : ∃ d, depth = d + 1 := ⟨depth - 1, by omega⟩
    have read := (ih depth (by omega)).readsOff
    exact ReadsOff.parenthesized read ⟨⟨⟨⟨rfl, rfl⟩, rfl⟩, rfl⟩, rfl⟩
  | negate _ ih =>
    rw [List.length_cons] at enough
    exact ReadsOff.sign (t := .symbol .minus) rfl (ih depth (by omega))
  | calculate o _ _ ihl ihr =>
    rw [List.length_append, List.length_cons] at enough
    have left := ihl depth (by omega)
    have right := (ihr depth (by omega)).readsOff
    -- the chain is found from its operands: the goal shows it only once all is unfolded
    cases o with
    | add =>
      have joined := Continues.join (t := .symbol .plus) (o := .plus) left rfl rfl right
      exact joined
    | subtract =>
      have joined := Continues.join (t := .symbol .minus) (o := .minus) left rfl rfl right
      exact joined
    | multiply =>
      have joined := Continues.join (t := .symbol .star) (o := .star) left rfl trivial right
      exact joined
    | divide =>
      have joined := Continues.join (t := .symbol .slash) (o := .slash) left rfl trivial right
      exact joined
    | modulo =>
      have joined := Continues.join (t := .symbol .percent) (o := .percent) left rfl trivial right
      exact joined
  | compare spelt _ _ ihl ihr =>
    rw [List.length_append, List.length_cons] at enough
    have left := (ihl depth (by omega)).readsOff
    have right := (ihr depth (by omega)).readsOff
    obtain ⟨operator, ends⟩ := Comparison.of_mem_symbols spelt
    exact ReadsOff.compared left operator ends right
  | not spelt _ ih =>
    rw [List.length_cons] at enough
    exact ReadsOff.sign (by rcases spelt with rfl | rfl <;> rfl) (ih depth (by omega))
  | and spelt _ _ ihl ihr =>
    rw [List.length_append, List.length_cons] at enough
    have left := ihl depth (by omega)
    have right := (ihr depth (by omega)).readsOff
    obtain ⟨operator, ends⟩ := isAnd_of_spelt spelt
    exact Continues.join left operator ends right
  | or spelt _ _ ihl ihr =>
    rw [List.length_append, List.length_cons] at enough
    have left := ihl depth (by omega)
    have right := (ihr depth (by omega)).readsOff
    obtain ⟨operator, ends⟩ := isOr_of_spelt spelt
    exact Continues.join left operator ends right
  | @loosen s _ _ ts tighter next ih =>
    subst next
    have read := (ih depth enough).readsOff
    obtain ⟨t, us, rfl, start, sign⟩ := tighter.exists_cons
    cases s with
    | disjunction | conjunction | sum | product => exact ReadsOff.continues read
    | negation => exact ReadsOff.unsigned (start nofun nofun nofun) read
    | comparison => exact ReadsOff.alone read
    | signed => exact ReadsOff.unsigned (sign rfl) read
    | single => exact read

/-- With a level for each token, no token of a condition is left. -/
theorem Written.expression_eq {e : Expr} {ts : List Token} (h : Written .disjunction e ts) :
    expression (ts.length + 1) ts = e.eval >>= fun v => pure (v, []) := by
  have read : ReadsOff (expression (ts.length + 1)) Strength.disjunction.EndsAt e.eval ts :=
    (h.reads ts.length (Nat.le_refl _)).readsOff
  have all := read [] nofun
  rwa [List.append_nil] at all

end Condition

end Stylesheet
