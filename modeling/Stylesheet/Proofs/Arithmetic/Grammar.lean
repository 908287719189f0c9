import Stylesheet.Proofs.Arithmetic.Steps

/-! # The grammar of arithmetic

A chain without commas whose operators all have their operands is a **`Sum`** of **`Product`**s of
**`Factor`**s. Such an expression has its terms (**`Sum.terms`**) and a value, computed by recursion over
it (**`Sum.eval`**): operators take their operands from left to right, those of a product before those of
a sum, and a factor is negated when an odd number of its signs are minuses.

Evaluating the terms gives that value or the first error on the way to it (`evaluate_terms`). The
stacks hold, after the terms of an expression have been read, the operators that still wait and what they
wait for (**`Sum.waiting`**); carrying them out gives the value (`Sum.unwind_waiting`). -/

namespace Stylesheet

namespace Arithmetic

/-! ## Expressions -/

/-- What stands between the factors of a product. -/
inductive Scaling
  | times
  | divided
  | modulo

/-- The operator that is written between the factors of a product. -/
def Scaling.operator : Scaling → Operator
  | times => .star
  | divided => .slash
  | modulo => .percent

mutual

/-- Products that are added and subtracted from left to right. -/
inductive Sum
  | product (p : Product)
  | join (s : Sum) (o : Sign) (p : Product)

/-- Factors that are multiplied and divided from left to right. -/
inductive Product
  | factor (f : Factor)
  | join (p : Product) (o : Scaling) (f : Factor)

/-- A term that is no operator, or a sum in parentheses, with signs in front. -/
inductive Factor
  | term (signs : List Sign) (t : Term) (plain : t.isOperator = false)
  | group (signs : List Sign) (s : Sum)

end

mutual

/-- The terms of a sum. -/
def Sum.terms : Sum → Value
  | .product p => p.terms
  | .join s o p => s.terms ++ .op o.operator :: p.terms

/-- The terms of a product. -/
def Product.terms : Product → Value
  | .factor f => f.terms
  | .join p o f => p.terms ++ .op o.operator :: f.terms

/-- The terms of a factor. -/
def Factor.terms : Factor → Value
  | .term signs t _ => signTerms signs ++ [t]
  | .group signs s => signTerms signs ++ .op .leftParen :: (s.terms ++ [.op .rightParen])

end

/-- A term with signs in front. -/
def signed (signs : List Sign) (t : Term) : Term := if negative signs then t.negate else t

mutual

/-- The value of a sum. -/
def Sum.eval : Sum → Except Error Term
  | .product p => p.eval
  | .join s o p => do
    let a ← s.eval
    let b ← p.eval
    Term.combine o.operator a b

/-- The value of a product. -/
def Product.eval : Product → Except Error Term
  | .factor f => f.eval
  | .join p o f => do
    let a ← p.eval
    let b ← f.eval
    Term.combine o.operator a b

/-- The value of a factor. -/
def Factor.eval : Factor → Except Error Term
  | .term signs t _ => .ok (signed signs t)
  | .group signs s => do
    let t ← s.eval
    pure (signed signs t)

end

/-! ## Stacks -/

/-- A reduction in which an operand has to come. -/
def awaiting (values : List Value) (operators : List Operator) (groups : List Group) (depth : Int) :
    Reduction := ⟨values, operators, groups, depth, true, false, false⟩

/-- A reduction in which an operand has just come. -/
def supplied (values : List Value) (operators : List Operator) (groups : List Group) (depth : Int) :
    Reduction := ⟨values, operators, groups, depth, false, false, false⟩

/-- The operators of a product that still wait once its terms have been read, and what they wait for. -/
def Product.waiting : Product → Except Error (List Operator × List Value)
  | .factor f => do
    let t ← f.eval
    pure ([], [[t]])
  | .join p o f => do
    let a ← p.eval
    let b ← f.eval
    pure ([o.operator], [[b], [a]])

/-- The operators of a sum that still wait once its terms have been read, and what they wait for. -/
def Sum.waiting : Sum → Except Error (List Operator × List Value)
  | .product p => p.waiting
  | .join s o p => do
    let a ← s.eval
    let (operators, values) ← p.waiting
    pure (operators ++ [o.operator], values ++ [[a]])

section

variable {goes : Operator → Bool} {operators : List Operator} {values : List Value}

/-- An operator between two operands of one term is carried out on these terms. -/
theorem unwind_pair {o : Operator} {a b : Term} (h : goes o = true) :
    Reduction.unwind goes (o :: operators) ([b] :: [a] :: values) =
      Term.combine o a b >>= fun t => Reduction.unwind goes operators ([t] :: values) := by
  rw [Reduction.unwind_cons h]
  cases hc : Term.combine o a b <;>
    simp [Reduction.applyTop, Reduction.combineValues, hc, Except.map, bind, Except.bind]

/-- Carrying out what waits in a product gives its value. -/
theorem Product.unwind_waiting (h : ∀ o : Scaling, goes o.operator = true) (p : Product) :
    (p.waiting >>= fun w => Reduction.unwind goes (w.1 ++ operators) (w.2 ++ values)) =
      p.eval >>= fun t => Reduction.unwind goes operators ([t] :: values) := by
  cases p with
  | factor f => simp [Product.waiting, Product.eval]
  | join p o f =>
    simp only [Product.waiting, Product.eval, bind_assoc, pure_bind, List.cons_append, List.nil_append]
    exact bind_congr fun a => bind_congr fun b => unwind_pair (h o)

/-- Carrying out what waits in a sum gives its value. -/
theorem Sum.unwind_waiting (hs : ∀ o : Sign, goes o.operator = true)
    (hp : ∀ o : Scaling, goes o.operator = true) (s : Sum) :
    (s.waiting >>= fun w => Reduction.unwind goes (w.1 ++ operators) (w.2 ++ values)) =
      s.eval >>= fun t => Reduction.unwind goes operators ([t] :: values) := by
  cases s with
  | product p => exact p.unwind_waiting hp
  | join s o p =>
    simp only [Sum.waiting, Sum.eval, bind_assoc, pure_bind, List.append_assoc, List.cons_append,
      List.nil_append]
    refine bind_congr fun a => ?_
    rw [p.unwind_waiting hp]
    exact bind_congr fun b => unwind_pair (hs o)

end

/-! ## Reading -/

section

variable {values : List Value} {operators : List Operator} {groups : List Group} {depth : Int}

/-- A term that is no operator is an operand. -/
theorem step_operand {t : Term} (h : t.isOperator = false) (negates : Bool) :
    Reduction.step ⟨values, operators, groups, depth, true, negates, false⟩ t =
      .ok (supplied ([if negates then t.negate else t] :: values) operators groups depth) := by
  rw [Reduction.step_of_operand h]
  cases values <;> rfl

/-- Behind an operand, an operator carries out those that bind at least as tightly, and then waits. -/
theorem step_operator {o : Operator} (h : Reduction.Binary o) :
    Reduction.step (supplied values operators groups depth) (.op o) =
      (Reduction.unwind (fun last => last != .leftParen && last.bindsAtLeast o) operators values) >>=
        fun w => pure (awaiting w.2 (o :: w.1) groups depth) := by
  rw [Reduction.step_of_operator h (by simp [supplied])]
  show Except.map _ (Reduction.unwind _ operators values) = _
  cases Reduction.unwind _ operators values <;> rfl

/-- A parenthesis that closes carries out the operators of its group. -/
theorem step_rightParen (g : Group) :
    Reduction.step (supplied values operators (g :: groups) (depth + 1)) (.op .rightParen) =
      Reduction.unwind (· != .leftParen) operators values >>= fun w =>
        Reduction.closeGroup (supplied w.2 w.1.tail (g :: groups) depth) := by
  simp only [Reduction.step_rightParen, supplied, Int.add_sub_cancel]

/-- A group of one value that closes takes the place of an operand, with its sign. -/
theorem closeGroup_single (negated : Bool) (t : Term) :
    Reduction.closeGroup (supplied ([t] :: values) operators
        (⟨false, negated, false, values.length⟩ :: groups) depth) =
      .ok (supplied ([if negated then t.negate else t] :: values) operators groups depth) := by
  have placed : Reduction.placeGroup ⟨false, negated, false, values.length⟩ ([t] :: values) =
      [if negated then t.negate else t] :: values := by
    cases values <;> cases negated <;> rfl
  simp only [Reduction.closeGroup, supplied, List.length_cons, Nat.not_succ_le_self, if_false, placed]

/-- A plus or minus behind a sum carries out what waits in it, and waits for the next product. -/
theorem Sum.step_sign (s : Sum) (o : Sign) (h : ∀ o ∈ operators.head?, o = .leftParen) :
    (s.waiting >>= fun w =>
        Reduction.step (supplied (w.2 ++ values) (w.1 ++ operators) groups depth) (.op o.operator)) =
      s.eval >>= fun t => pure (awaiting ([t] :: values) (o.operator :: operators) groups depth) := by
  have plain : Reduction.Binary o.operator := by
    cases o <;> simp [Sign.operator, Reduction.Binary]
  simp only [step_operator plain]
  rw [← bind_assoc, s.unwind_waiting (by cases o <;> rintro ⟨⟩ <;> rfl) (by cases o <;> rintro ⟨⟩ <;> rfl),
    bind_assoc]
  refine bind_congr fun t => ?_
  rw [Reduction.unwind_of_head? fun o' ho => by simp [h o' ho]]
  rfl

/-- A star, slash or percent sign behind a product carries out what waits in it, and waits for the next
factor. -/
theorem Product.step_scaling (p : Product) (o : Scaling)
    (h : ∀ o ∈ operators.head?, o = .leftParen ∨ o = .plus ∨ o = .minus) :
    (p.waiting >>= fun w =>
        Reduction.step (supplied (w.2 ++ values) (w.1 ++ operators) groups depth) (.op o.operator)) =
      p.eval >>= fun t => pure (awaiting ([t] :: values) (o.operator :: operators) groups depth) := by
  have plain : Reduction.Binary o.operator := by
    cases o <;> simp [Scaling.operator, Reduction.Binary]
  simp only [step_operator plain]
  rw [← bind_assoc, p.unwind_waiting (by cases o <;> rintro ⟨⟩ <;> rfl), bind_assoc]
  refine bind_congr fun t => ?_
  rw [Reduction.unwind_of_head? fun o' ho => by rcases h o' ho with rfl | rfl | rfl <;> cases o <;> rfl]
  rfl

mutual

/-- Reading the terms of a sum leaves what waits in it, on top of an open parenthesis or of nothing. -/
theorem Sum.read (s : Sum) {values : List Value} {operators : List Operator} {groups : List Group}
    {depth : Int} (h : ∀ o ∈ operators.head?, o = .leftParen) :
    s.terms.foldlM Reduction.step (awaiting values operators groups depth) =
      s.waiting >>= fun w => pure (supplied (w.2 ++ values) (w.1 ++ operators) groups depth) := by
  match s with
  | .product p => exact p.read fun o ho => .inl (h o ho)
  | .join s o p =>
    have wall : ∀ o' ∈ (o.operator :: operators).head?, o' = .leftParen ∨ o' = .plus ∨ o' = .minus := by
      cases o <;> simp [Sign.operator]
    rw [Sum.terms, List.foldlM_append, s.read h, bind_assoc]
    simp only [pure_bind, List.foldlM_cons]
    rw [← bind_assoc, s.step_sign o h, bind_assoc, Sum.waiting, bind_assoc]
    refine bind_congr fun a => ?_
    rw [pure_bind, p.read wall, bind_assoc]
    exact bind_congr fun w => by simp

/-- Reading the terms of a product leaves what waits in it, also on top of a plus or a minus. -/
theorem Product.read (p : Product) {values : List Value} {operators : List Operator} {groups : List Group}
    {depth : Int} (h : ∀ o ∈ operators.head?, o = .leftParen ∨ o = .plus ∨ o = .minus) :
    p.terms.foldlM Reduction.step (awaiting values operators groups depth) =
      p.waiting >>= fun w => pure (supplied (w.2 ++ values) (w.1 ++ operators) groups depth) := by
  match p with
  | .factor f =>
    rw [Product.terms, f.read, Product.waiting, bind_assoc]
    rfl
  | .join p o f =>
    rw [Product.terms, List.foldlM_append, p.read h, bind_assoc]
    simp only [pure_bind, List.foldlM_cons]
    rw [← bind_assoc, p.step_scaling o h, bind_assoc, Product.waiting, bind_assoc]
    refine bind_congr fun a => ?_
    rw [pure_bind, f.read, bind_assoc]
    rfl

/-- Reading the terms of a factor supplies its value. -/
theorem Factor.read (f : Factor) {values : List Value} {operators : List Operator} {groups : List Group}
    {depth : Int} :
    f.terms.foldlM Reduction.step (awaiting values operators groups depth) =
      f.eval >>= fun t => pure (supplied ([t] :: values) operators groups depth) := by
  match f with
  | .term signs t plain =>
    rw [Factor.terms, awaiting, Reduction.foldlM_signTerms, Bool.false_xor, List.foldlM_cons,
      step_operand plain, Factor.eval, signed]
    rfl
  | .group signs s =>
    -- the sum inside starts anew on top of the open parenthesis
    have opened : Reduction.step ⟨values, operators, groups, depth, true, negative signs, false⟩
        (.op .leftParen) = .ok (awaiting values (.leftParen :: operators)
          (⟨false, negative signs, false, values.length⟩ :: groups) (depth + 1)) := rfl
    rw [Factor.terms, awaiting, Reduction.foldlM_signTerms, Bool.false_xor, List.foldlM_cons, opened]
    show List.foldlM _ _ (s.terms ++ [_]) = _
    rw [List.foldlM_append, s.read (by simp), bind_assoc]
    simp only [pure_bind, List.foldlM_cons, List.foldlM_nil, bind_pure, step_rightParen]
    rw [← bind_assoc, s.unwind_waiting (by rintro ⟨⟩ <;> rfl) (by rintro ⟨⟩ <;> rfl), bind_assoc,
      Factor.eval, bind_assoc]
    refine bind_congr fun t => ?_
    rw [Reduction.unwind_of_head? (by simp)]
    exact closeGroup_single (negative signs) t

end

end

/-! ## Evaluation -/

/-- Reducing the terms of a sum gives its value. -/
theorem Sum.reduce_terms (s : Sum) : s.terms.reduce = s.eval.map ([·]) := by
  show (s.terms.foldlM Reduction.step (awaiting [] [] [] 0) >>= Reduction.finish) = _
  rw [s.read (by simp), bind_assoc]
  -- the operators that still wait are carried out at the end
  simp only [pure_bind, Reduction.finish_eq, supplied]
  rw [← bind_assoc, s.unwind_waiting (by rintro ⟨⟩ <;> rfl) (by rintro ⟨⟩ <;> rfl), bind_assoc]
  cases s.eval <;> rfl

/-- A term that is neither a parenthesis nor a comma is balanced. -/
theorem balanced_singleton {t : Term} (h : t.depth? 0 = some 0) : Value.Balanced [t] := by
  rw [Value.Balanced, Value.depth?_cons, h]
  rfl

mutual

/-- The terms of a sum are balanced. -/
theorem Sum.balanced_terms : (s : Sum) → s.terms.Balanced
  | .product p => p.balanced_terms
  | .join s o p =>
    s.balanced_terms.append ((balanced_singleton (by cases o <;> rfl)).append p.balanced_terms)

/-- The terms of a product are balanced. -/
theorem Product.balanced_terms : (p : Product) → p.terms.Balanced
  | .factor f => f.balanced_terms
  | .join p o f =>
    p.balanced_terms.append ((balanced_singleton (by cases o <;> rfl)).append f.balanced_terms)

/-- The terms of a factor are balanced. -/
theorem Factor.balanced_terms : (f : Factor) → f.terms.Balanced
  | .term signs t plain =>
    (balanced_signTerms signs).append (balanced_singleton (Term.depth?_operand plain 0))
  | .group signs s => by
    refine (balanced_signTerms signs).append ?_
    rw [Value.Balanced, Value.depth?_cons, Term.depth?, Option.bind_some, Value.depth?_append,
      s.balanced_terms.depth?]
    rfl

end

/-- **Arithmetic follows its grammar.** Evaluating the terms of an expression gives the value of the
expression, or the first error in the order of its operators. -/
theorem evaluate_terms (s : Sum) : s.terms.evaluate = s.eval.map ([·]) := by
  rw [Value.evaluate_of_balanced s.balanced_terms, s.reduce_terms]

end Arithmetic

end Stylesheet
