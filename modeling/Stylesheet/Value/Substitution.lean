import Stylesheet.Value.Basic

/-! # Substitution in values

A **`Substitution`** says what stands in place of variables and of calls; **`Value.substitute`** carries
it through a chain, into the parameters of the calls that stay and into lists. At the top of a chain
a value is spliced in as it is. Among parameters a value with commas becomes one list term, so that it
stays one argument (**`Value.spliced`**). The lookups run in a monad, since calling a function may have
effects. Substituting goes through a chain part by part (`Value.substitute_append`). -/

namespace Stylesheet

/-- What takes the place of variables and calls; `none` leaves them where they are. -/
structure Substitution (m : Type → Type) where
  ofVar : String → m (Option Value)
  ofCall : String → Value → m (Option Value)

/-- The terms that stand for a value: among parameters (`nested`), one with commas is kept together. -/
def Value.spliced (nested : Bool) (v : Value) : Value :=
  if nested && v.hasComma then [.list v] else v

/-- Outside of parameters a value is spliced as it is. -/
@[simp] theorem Value.spliced_false (v : Value) : Value.spliced false v = v := rfl

section

variable {m : Type → Type} [Monad m]

mutual

/-- The terms that take the place of a term. -/
def Term.substitute (s : Substitution m) (nested : Bool) : Term → m Value
  | .var name => do
    match ← s.ofVar name with
    | some v => pure (Value.spliced nested v)
    | none => pure [.var name]
  | .call name parameters => do
    match ← s.ofCall name parameters with
    | some v => pure (Value.spliced nested v)
    | none => do
      let substituted ← Value.substitute s true parameters
      pure [.call name substituted]
  | .list items => do
    let substituted ← Value.substitute s true items
    pure [.list substituted]
  | t => pure [t]

/-- Substitute throughout a chain, from first term to last. -/
def Value.substitute (s : Substitution m) (nested : Bool) : List Term → m Value
  | [] => pure []
  | t :: ts => do
    let first ← t.substitute s nested
    let others ← Value.substitute s nested ts
    pure (first ++ others)

end

/-- Nothing is substituted in no terms. -/
@[simp] theorem Value.substitute_nil (s : Substitution m) (nested : Bool) :
    Value.substitute s nested [] = (pure [] : m Value) := by simp [Value.substitute]

end

/-! ## Laws -/

section

variable {m : Type → Type} [Monad m] [LawfulMonad m]

/-- Substituting goes through a chain part by part. -/
theorem Value.substitute_append (s : Substitution m) (nested : Bool) (u v : List Term) :
    Value.substitute s nested (u ++ v) = (do
      let first ← Value.substitute s nested u
      let others ← Value.substitute s nested v
      pure (first ++ others)) := by
  induction u with
  | nil => simp
  | cons t ts ih => simp [Value.substitute, ih, ← List.append_assoc]

end

end Stylesheet
