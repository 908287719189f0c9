import Mathlib.Tactic.Common
import Stylesheet.Value.Substitution

/-! # Compositional relations

A relation between computations is **compositional** (**`Compositional`**) if it relates computations that
only give a result, and sequences whose steps it relates. What is put together from related steps is related
then: a computation for each element of a list (`Compositional.mapM`), and a substitution whose lookups are
related (`Compositional.value_substitute`). A property of computations is such a relation, one that does not
look at the second computation. -/

namespace Stylesheet

/-- The relation goes through sequences of steps. -/
structure Compositional {m m' : Type → Type} [Monad m] [Monad m'] (R : ∀ α : Type, m α → m' α → Prop) :
    Prop where
  pure : ∀ {α : Type} (a : α), R α (pure a) (pure a)
  bind : ∀ {α β : Type} {x : m α} {x' : m' α} {f : α → m β} {f' : α → m' β}, R α x x' →
    (∀ a, R β (f a) (f' a)) → R β (x >>= f) (x' >>= f')

namespace Compositional

variable {m m' : Type → Type} [Monad m] [Monad m'] {R : ∀ α : Type, m α → m' α → Prop} (h : Compositional R)

include h

/-- What goes through single steps goes through a step for each element of a list. -/
theorem mapM [LawfulMonad m] [LawfulMonad m'] {α β : Type} (f : α → m β) (f' : α → m' β)
    (hf : ∀ a, R β (f a) (f' a)) (as : List α) : R (List β) (as.mapM f) (as.mapM f') := by
  induction as with
  | nil => exact h.pure []
  | cons a as ih =>
    rw [List.mapM_cons, List.mapM_cons]
    exact h.bind (hf a) fun b => h.bind ih fun bs => h.pure (b :: bs)

variable (s : Substitution m) (s' : Substitution m')

-- the parameters of a call and the items of a list are chains again, so terms and chains go together
mutual

/-- Substituting in a term is related where looking up variables and calls is. -/
theorem term_substitute (hv : ∀ name, R _ (s.ofVar name) (s'.ofVar name))
    (hc : ∀ name ps, R _ (s.ofCall name ps) (s'.ofCall name ps)) (nested : Bool) :
    ∀ t : Term, R Value (t.substitute s nested) (t.substitute s' nested)
  | .number _ | .color _ | .ident _ | .str _ | .op _ => by
    unfold Term.substitute
    exact h.pure _
  | .var name => by
    unfold Term.substitute
    refine h.bind (hv name) fun v => ?_
    cases v <;> exact h.pure _
  | .call name parameters => by
    unfold Term.substitute
    refine h.bind (hc name parameters) fun v => ?_
    cases v with
    | some v => exact h.pure _
    | none => exact h.bind (value_substitute hv hc true parameters) fun _ => h.pure _
  | .list items => by
    unfold Term.substitute
    exact h.bind (value_substitute hv hc true items) fun _ => h.pure _

/-- So is substituting in a chain. -/
theorem value_substitute (hv : ∀ name, R _ (s.ofVar name) (s'.ofVar name))
    (hc : ∀ name ps, R _ (s.ofCall name ps) (s'.ofCall name ps)) (nested : Bool) :
    ∀ v : List Term, R Value (Value.substitute s nested v) (Value.substitute s' nested v)
  | [] => by
    unfold Value.substitute
    exact h.pure _
  | t :: ts => by
    unfold Value.substitute
    exact h.bind (term_substitute hv hc nested t) fun _ =>
      h.bind (value_substitute hv hc nested ts) fun _ => h.pure _

end

end Compositional

end Stylesheet
