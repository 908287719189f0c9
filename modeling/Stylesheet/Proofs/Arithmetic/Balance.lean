import Stylesheet.Value.Arithmetic

/-! # Balanced chains

Following a chain means to count the parentheses that are open behind each term (**`Term.depth?`**), where
a parenthesis that closes none is refused, and so is a comma outside of all. A chain is **balanced**
(**`Value.Balanced`**) when it can be followed and leaves nothing open. Whoever takes a chain apart at the
commas outside of parentheses leaves a balanced part whole (`Value.arguments_of_balanced`). -/

namespace Stylesheet

/-- Whether a term is an operator. -/
def Term.isOperator : Term → Bool
  | .op _ => true
  | _ => false

/-- How many parentheses are open behind a term when `depth` are open in front of it. -/
def Term.depth? (depth : Nat) : Term → Option Nat
  | .op .leftParen => some (depth + 1)
  | .op .rightParen => if depth = 0 then none else some (depth - 1)
  | .op .comma => if depth = 0 then none else some depth
  | _ => some depth

/-- An operand leaves the depth as it is. -/
theorem Term.depth?_operand {t : Term} (h : t.isOperator = false) (depth : Nat) :
    t.depth? depth = some depth := by
  cases t with
  | op o => cases h
  | _ => rfl

/-- Around a term that can be followed, further parentheses may be open. -/
theorem Term.depth?_add {t : Term} {d e : Nat} (h : t.depth? d = some e) (outer : Nat) :
    t.depth? (d + outer) = some (e + outer) := by
  cases t with
  | op o =>
    cases o <;> simp only [depth?, Option.ite_none_left_eq_some, Option.some.injEq] at h ⊢ <;> omega
  | _ => simpa [depth?] using h

namespace Value

/-- How many parentheses are open behind a chain when `depth` are open in front of it. -/
def depth? (depth : Nat) (v : Value) : Option Nat := v.foldlM Term.depth? depth

/-- Parentheses match, and no comma stands outside of them. -/
def Balanced (v : Value) : Prop := v.depth? 0 = some 0

/-- Whether a chain is balanced can be decided. -/
instance (v : Value) : Decidable v.Balanced := inferInstanceAs (Decidable (_ = _))

/-- The depth behind two chains is that behind the second one, from where the first one has led. -/
theorem depth?_append (depth : Nat) (v w : Value) :
    depth? depth (v ++ w) = (depth? depth v).bind fun d => depth? d w :=
  List.foldlM_append ..

/-- The depth behind a chain is that behind its terms, one after the other. -/
theorem depth?_cons (depth : Nat) (t : Term) (v : Value) :
    depth? depth (t :: v) = (t.depth? depth).bind fun d => depth? d v :=
  List.foldlM_cons ..

/-- Around a chain that can be followed, further parentheses may be open. -/
theorem depth?_add {v : Value} {d e : Nat} (h : v.depth? d = some e) (outer : Nat) :
    v.depth? (d + outer) = some (e + outer) := by
  induction v generalizing d with
  | nil => simpa [depth?] using h
  | cons t v ih =>
    rw [depth?_cons, Option.bind_eq_some_iff] at h
    obtain ⟨d', ht, hv⟩ := h
    rw [depth?_cons, Term.depth?_add ht, Option.bind_some, ih hv]

/-- A balanced part leaves the depth as it is. -/
theorem Balanced.depth? {v : Value} (h : v.Balanced) (depth : Nat) : v.depth? depth = some depth := by
  simpa using depth?_add h depth

/-- Balanced parts make a balanced chain. -/
theorem Balanced.append {v w : Value} (hv : v.Balanced) (hw : w.Balanced) : Balanced (v ++ w) := by
  rw [Balanced, depth?_append, hv, Option.bind_some, hw]

/-- A term that can be followed belongs to the argument begun. -/
theorem argumentsFrom_cons {t : Term} {d e : Nat} (h : t.depth? d = some e) (current rest : List Term) :
    argumentsFrom d current (t :: rest) = argumentsFrom e (t :: current) rest := by
  cases t with
  | op o =>
    cases o <;> simp only [Term.depth?, Option.ite_none_left_eq_some, Option.some.injEq] at h <;>
      simp only [argumentsFrom]
    case leftParen => rw [← h, Int.natCast_add, Int.natCast_one]
    case rightParen => rw [show (d : Int) - 1 = e by omega]
    case comma => rw [← h.2, if_neg (Int.natCast_ne_zero.2 h.1)]
    all_goals rw [h]
  | _ =>
    simp only [Term.depth?, Option.some.injEq] at h
    simp [argumentsFrom, h]

/-- A part that can be followed belongs to the argument begun. -/
theorem argumentsFrom_append {v : Value} {d e : Nat} (h : v.depth? d = some e) (current rest : List Term) :
    argumentsFrom d current (v ++ rest) = argumentsFrom e (v.reverse ++ current) rest := by
  induction v generalizing d current with
  | nil => simp_all [depth?]
  | cons t v ih =>
    rw [depth?_cons, Option.bind_eq_some_iff] at h
    obtain ⟨d', ht, hv⟩ := h
    simp [argumentsFrom_cons ht, ih hv]

/-- A balanced chain is a single argument. -/
theorem arguments_of_balanced {v : Value} (h : v.Balanced) (nonempty : v ≠ []) : v.arguments = [v] := by
  have := argumentsFrom_append h [] []
  simpa [arguments, argumentsFrom, nonempty] using this

/-- The terms of arguments are terms of the chain. -/
theorem mem_of_mem_arguments {v a : Value} {t : Term} (ha : a ∈ v.arguments) (ht : t ∈ a) : t ∈ v := by
  have all (v : Value) (depth : Int) (current : List Term) :
      ∀ a ∈ argumentsFrom depth current v, ∀ t ∈ a, t ∈ current ∨ t ∈ v := by
    fun_induction argumentsFrom depth current v with
    | case1 => simp
    | case2 => simp
    | _ => grind
  simpa using all v 0 [] a ha t ht

/-- A balanced chain is reduced as a whole. -/
theorem evaluate_of_balanced {v : Value} (h : v.Balanced) : v.evaluate = v.reduce := by
  by_cases nonempty : v = []
  · rw [nonempty]; rfl
  · simp [evaluate, arguments_of_balanced h nonempty]

end Value

end Stylesheet
