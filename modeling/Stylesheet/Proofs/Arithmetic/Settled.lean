import Stylesheet.Expansion.Traversal
import Stylesheet.Proofs.Arithmetic.Inheritance

/-! # Settled values

A value is **settled** when nothing is left in it to be computed (**`Value.isSettled`**): it has no operators
but commas, what stands in its lists is settled too, and no built-in function is called in it, not even among
the parameters of another call (**`Value.isQuiet`**). Such a value does not ask for arithmetic
(`Value.asksArithmetic_of_isSettled`). Arithmetic on settled operands, built-in functions and list
directives give settled values again (`Value.isSettled_evaluate`, `Builtin.isSettled_call`,
`Walker.isSettled_editList`). -/

namespace Stylesheet

mutual

/-- Whether a term calls no built-in function, at any depth. -/
def Term.isQuiet : Term → Bool
  | .call name parameters => !Builtin.isName name && Value.isQuiet parameters
  | .list items => Value.isQuiet items
  | _ => true

/-- Whether no term of a chain calls a built-in function. -/
def Value.isQuiet : List Term → Bool
  | [] => true
  | t :: ts => t.isQuiet && Value.isQuiet ts

end

mutual

/-- Whether nothing is left to be computed in a term that may stand next to others. -/
def Term.isSettled : Term → Bool
  | .op o => o == .comma
  | .call name parameters => !Builtin.isName name && Value.isQuiet parameters
  | .list items => Value.isSettled items
  | _ => true

/-- Whether nothing is left to be computed in a chain. -/
def Value.isSettled : List Term → Bool
  | [] => true
  | t :: ts => t.isSettled && Value.isSettled ts

end

namespace Value

variable {v w : Value}

/-- A chain is quiet if its terms are. -/
theorem isQuiet_iff : isQuiet v = true ↔ ∀ t ∈ v, t.isQuiet = true := by
  induction v with
  | nil => simp [isQuiet]
  | cons t ts ih => simp [isQuiet, ih]

/-- A chain is settled if its terms are. -/
theorem isSettled_iff : isSettled v = true ↔ ∀ t ∈ v, t.isSettled = true := by
  induction v with
  | nil => simp [isSettled]
  | cons t ts ih => simp [isSettled, ih]

/-- A single term is settled as a chain if it is as a term. -/
@[simp] theorem isSettled_singleton (t : Term) : isSettled [t] = t.isSettled := by simp [isSettled]

/-- Chains one after the other are settled if both are. -/
@[simp] theorem isSettled_append : isSettled (v ++ w) = (isSettled v && isSettled w) := by
  rw [Bool.eq_iff_iff, Bool.and_eq_true, isSettled_iff, isSettled_iff, isSettled_iff, List.forall_mem_append]

end Value

mutual

/-- Settled terms are quiet. -/
theorem Term.isQuiet_of_isSettled : ∀ {t : Term}, t.isSettled = true → t.isQuiet = true
  | .number _, _ | .color _, _ | .ident _, _ | .str _, _ | .var _, _ | .op _, _ => by
    rw [Term.isQuiet] <;> nofun
  | .call _ _, h => by
    rw [Term.isSettled] at h
    rw [Term.isQuiet, h]
  | .list items, h => by
    rw [Term.isSettled] at h
    rw [Term.isQuiet, Value.isQuiet_of_isSettled h]

/-- What is settled is quiet. -/
theorem Value.isQuiet_of_isSettled : ∀ {v : List Term}, Value.isSettled v = true → Value.isQuiet v = true
  | [], _ => rfl
  | t :: ts, h => by
    rw [Value.isSettled, Bool.and_eq_true] at h
    rw [Value.isQuiet, Term.isQuiet_of_isSettled h.1, Value.isQuiet_of_isSettled h.2, Bool.and_true]

end

namespace Value

/-- Settled values do not ask for arithmetic. -/
theorem asksArithmetic_of_isSettled {v : Value} (h : isSettled v = true) : v.asksArithmetic = false := by
  have rest (before : Option Term) : asksArithmeticBehind before v = false := by
    induction v generalizing before with
    | nil => rfl
    | cons t ts ih =>
      rw [isSettled, Bool.and_eq_true] at h
      have behind := ih h.2 (some t)
      cases t with
      | op o =>
        obtain rfl : o = .comma := by simpa [Term.isSettled] using h.1
        exact behind
      | _ => exact behind
  exact rest none

end Value

/-! ## Results -/

/-- Everything new is settled, and a list is when its items are. -/
theorem Term.inherited_isSettled : Inherited (·.isSettled = true) where
  number _ := rfl
  ident _ := rfl
  str _ := rfl
  comma := rfl
  color _ _ _ _ := rfl
  list := by
    intro items
    rw [isSettled, Value.isSettled_iff]

namespace Value

/-- The items of a settled list are settled. -/
theorem isSettled_items {v : Value} (h : isSettled v = true) : ∀ i ∈ v.items, isSettled i = true := fun i hi =>
  isSettled_iff.2 (Term.inherited_isSettled.items (isSettled_iff.1 h) i hi)

/-- So is a list of settled items. -/
theorem isSettled_ofItems (comma : Bool) {vs : List Value} (h : ∀ v ∈ vs, isSettled v = true) :
    isSettled (ofItems comma vs) = true :=
  isSettled_iff.2 (Term.inherited_isSettled.ofItems comma fun v hv => isSettled_iff.1 (h v hv))

/-- What is evaluated argument by argument is settled when all operands are. -/
theorem isSettled_evaluate {v : Value} (hv : ∀ t ∈ v, t.isOperator = false → t.isSettled = true) :
    Gives (isSettled · = true) v.evaluate := fun w result =>
  isSettled_iff.2 (Term.inherited_isSettled.evaluate hv w result)

end Value

/-- **Built-in functions give settled values** for settled arguments. -/
theorem Builtin.isSettled_call (b : Builtin) {args : List Value} (h : ∀ a ∈ args, Value.isSettled a = true) :
    Gives (Value.isSettled · = true) (b.call args) := fun v result =>
  Value.isSettled_iff.2 <| Term.inherited_isSettled.call b (fun a ha => Value.isSettled_iff.1 (h a ha))
    (fun _ _ _ _ => rfl) v result

/-- So do list directives. -/
theorem Walker.isSettled_editList (edit : ListEdit) (comma : Bool) {v w : Value} (hv : Value.isSettled v = true)
    (hw : Value.isSettled w = true) : Value.isSettled (editList edit comma v w) = true := by
  cases edit with
  | append =>
    exact Value.isSettled_ofItems _
      (List.forall_mem_append.2 ⟨Value.isSettled_items hv, Value.isSettled_items hw⟩)
  | remove =>
    exact Value.isSettled_ofItems _ fun i hi => Value.isSettled_items hv i (List.mem_filter.1 hi).1
  | contains => rfl

end Stylesheet
