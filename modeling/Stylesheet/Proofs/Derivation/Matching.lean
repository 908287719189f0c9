import Stylesheet.Proofs.Derivation.Basic
import Stylesheet.Proofs.Expansion.Isolation

/-! # Steps that match

A step in a tree **matches** a step of a derivation when both end alike, with results and worlds that are
related (**`Expansion.Matches`**). Steps that match in order match as sequences
(`Expansion.Matches.bind`).

The simplest case is that of a step that moves nothing, such as the evaluation of a value: it
**echoes** another one when it has the same result wherever variables and definitions are the same
(**`Expansion.Echoes`**). The worlds of a whole run **mirror** each other (**`Mirrors`**): the contexts
agree, up to the numbers of the blocks that extensions refer to. -/

namespace Stylesheet

/-! ## Contexts without extensions -/

namespace Context

/-- Without extensions the scope is the same. -/
@[simp] theorem scope_bare (c : Context) : c.bare.scope = c.scope := rfl

/-- Without extensions the definitions are the same. -/
@[simp] theorem definitions_bare (c : Context) : c.bare.definitions = c.definitions := rfl

/-- Taking the extensions away twice is taking them away once. -/
@[simp] theorem bare_bare (c : Context) : c.bare.bare = c.bare := rfl

/-- Without extensions the same functions are found. -/
@[simp] theorem function_bare (c : Context) (name : String) : c.bare.function name = c.function name := rfl

/-- Without extensions the same mixins are found. -/
@[simp] theorem mixin_bare (c : Context) (name : String) : c.bare.mixin name = c.mixin name := rfl

/-- Without extensions the same functions are there. -/
@[simp] theorem hasFunction_bare (c : Context) (name : String) :
    c.bare.hasFunction name = c.hasFunction name := rfl

/-- The scope and the extensions of a context are independent. -/
@[simp] theorem bare_withScope (c : Context) (s : Scope) : (c.withScope s).bare = c.bare.withScope s := rfl

variable {c c' : Context}

/-- Contexts that differ in their extensions only have the same scope. -/
theorem scope_eq_of_bare (h : c.bare = c'.bare) : c.scope = c'.scope := by
  rw [← scope_bare, h, scope_bare]

/-- Contexts that differ in their extensions only have the same definitions. -/
theorem definitions_eq_of_bare (h : c.bare = c'.bare) : c.definitions = c'.definitions := by
  rw [← definitions_bare, h, definitions_bare]

/-- Contexts that differ in their extensions only find the same functions. -/
theorem function_eq_of_bare (h : c.bare = c'.bare) (name : String) : c.function name = c'.function name := by
  rw [← function_bare, h, function_bare]

/-- Contexts that differ in their extensions only find the same mixins. -/
theorem mixin_eq_of_bare (h : c.bare = c'.bare) (name : String) : c.mixin name = c'.mixin name := by
  rw [← mixin_bare, h, mixin_bare]

/-- Contexts that differ in their extensions only have the same functions. -/
theorem hasFunction_eq_of_bare (h : c.bare = c'.bare) (name : String) :
    c.hasFunction name = c'.hasFunction name := by
  rw [← hasFunction_bare, h, hasFunction_bare]

end Context

/-- Variables and definitions are the same, and the loaders are related. -/
structure Alike {σ τ : Type} (L : σ → τ → Prop) (w : World σ) (v : World τ) : Prop where
  bare : w.context.bare = v.context.bare
  loader : L w.loader v.loader

/-- A world that is alike although there is nothing in its tree. -/
theorem Alike.aside {σ : Type} (w : World σ) :
    Alike (fun _ _ => True) w (⟨⟨#[]⟩, w.context, ()⟩ : World Unit) := ⟨rfl, trivial⟩

/-- Worlds stay alike when one of them does not move. -/
theorem Alike.of_unmoved {σ τ : Type} {L : σ → τ → Prop} {w w' : World σ} {v : World τ}
    (h : Alike L w v) (hm : Unmoved w w') : Alike L w' v :=
  ⟨by rw [hm.context]; exact h.bare, by rw [hm.loader]; exact h.loader⟩

namespace Expansion

variable {σ τ α β α' β' : Type}

/-! ## Matching ends -/

/-- Both steps have succeeded with related results, or failed for the same reason. -/
inductive Matches (Q : α → World σ → β → World τ → Prop) (E : World σ → World τ → Prop) :
    Except Stop α × World σ → Except Stop β × World τ → Prop
  | ok {a : α} {w : World σ} {b : β} {v : World τ} : Q a w b v → Matches Q E (.ok a, w) (.ok b, v)
  | error {e : Stop} {w : World σ} {v : World τ} : E w v → Matches Q E (.error e, w) (.error e, v)

namespace Matches

variable {Q : α → World σ → β → World τ → Prop} {E : World σ → World τ → Prop}
  {Q' : α' → World σ → β' → World τ → Prop} {E' : World σ → World τ → Prop}

/-- What is related in a stronger way is related in a weaker one. -/
theorem imp {Q' : α → World σ → β → World τ → Prop} {x : Except Stop α × World σ}
    {y : Except Stop β × World τ} (h : Matches Q E x y) (hq : ∀ a w b v, Q a w b v → Q' a w b v)
    (he : ∀ w v, E w v → E' w v) : Matches Q' E' x y := by
  cases h with
  | ok h => exact .ok (hq _ _ _ _ h)
  | error h => exact .error (he _ _ h)

/-- The first one fails if the second one does. -/
theorem fst_eq_error {x : Except Stop α × World σ} {y : Except Stop β × World τ} (h : Matches Q E x y) {e : Stop}
    (failed : y.1 = .error e) : x.1 = .error e := by
  cases h with
  | ok => cases failed
  | error => exact congrArg Except.error (Except.error.inj failed)

variable {m : Expansion σ α} {f : Expansion τ β} {w : World σ} {v : World τ}

/-- Results that are related match. -/
theorem pure {a : α} {b : β} (h : Q a w b v) :
    Matches Q E ((pure a : Expansion σ α).exec w) ((Pure.pure b : Expansion τ β).exec v) := .ok h

/-- Steps that fail alike match. -/
theorem fail {e : Error} (h : E w v) :
    Matches Q E ((fail e : Expansion σ α).exec w) ((Expansion.fail e : Expansion τ β).exec v) := .error h

/-- Steps that stop alike match. -/
theorem throw {e : Stop} (h : E w v) :
    Matches Q E ((throw e : Expansion σ α).exec w) ((throw e : Expansion τ β).exec v) := .error h

/-- Sequences match when their steps do. -/
theorem bind {g : α → Expansion σ α'} {k : β → Expansion τ β'}
    (h : Matches Q E (m.exec w) (f.exec v))
    (hok : ∀ a w' b v', Q a w' b v' → Matches Q' E' ((g a).exec w') ((k b).exec v'))
    (herr : ∀ w' v', E w' v' → E' w' v') : Matches Q' E' ((m >>= g).exec w) ((f >>= k).exec v) := by
  rw [exec_bind, exec_bind]
  revert h
  rcases m.exec w with ⟨x, w'⟩
  rcases f.exec v with ⟨y, v'⟩
  intro h
  cases h with
  | ok h => exact hok _ _ _ _ h
  | error h => exact .error (herr _ _ h)

/-- After the same result, which may be an error, both go on. -/
theorem ofExcept_bind {γ : Type} {x : Except Error γ} {g : γ → Expansion σ α'} {k : γ → Expansion τ β'}
    (hok : ∀ a, x = .ok a → Matches Q' E' ((g a).exec w) ((k a).exec v)) (herr : E' w v) :
    Matches Q' E' ((ofExcept x >>= g).exec w) ((ofExcept x >>= k).exec v) := by
  cases x with
  | ok a => exact hok a rfl
  | error e => exact .error herr

/-- Steps in frames of their own match when they do inside of the frames. -/
theorem inFrame {kind : FrameKind} {Q' : α → World σ → β → World τ → Prop}
    (h : Matches Q E (m.exec (w.mapScope (·.enter kind))) (f.exec (v.mapScope (·.enter kind))))
    (hok : ∀ a w' b v', Q a w' b v' → Q' a (w'.mapScope Scope.leave) b (v'.mapScope Scope.leave))
    (herr : ∀ w' v', E w' v' → E' (w'.mapScope Scope.leave) (v'.mapScope Scope.leave)) :
    Matches Q' E' ((inFrame kind m).exec w) ((inFrame kind f).exec v) := by
  rw [exec_inFrame, exec_inFrame]
  revert h
  rcases m.exec (w.mapScope (·.enter kind)) with ⟨x, w'⟩
  rcases f.exec (v.mapScope (·.enter kind)) with ⟨y, v'⟩
  intro h
  cases h with
  | ok h => exact .ok (hok _ _ _ _ h)
  | error h => exact .error (herr _ _ h)

end Matches

/-! ## Echoes -/

/-- A step has the same result as another one wherever variables and definitions are the same. The tree
grows at most, and nothing else changes. -/
structure Echoes (L : σ → τ → Prop) (m : Expansion σ α) (f : Expansion τ α) : Prop where
  result : ∀ {w v}, Alike L w v → f.exec v = ((m.exec w).1, v)
  grown : ∀ {w : World σ} {v : World τ}, Alike L w v → Tree.Grown w.tree (m.exec w).2.tree
  unmoved : ∀ {w : World σ} {v : World τ}, Alike L w v → Unmoved w (m.exec w).2

namespace Echoes

variable {L : σ → τ → Prop} {m : Expansion σ α} {f : Expansion τ α}

/-- Steps that leave the world alone. -/
theorem of_snd_eq (hm : ∀ w, (m.exec w).2 = w)
    (hf : ∀ w v, Alike L w v → f.exec v = ((m.exec w).1, v)) : Echoes L m f where
  result h := hf _ _ h
  grown _ := by
    rw [hm]
    exact .refl _
  unmoved _ := by
    rw [hm]
    exact ⟨rfl, rfl⟩

/-- A result alone echoes itself. -/
theorem pure (a : α) : Echoes L (pure a : Expansion σ α) (Pure.pure a) :=
  of_snd_eq (fun _ => rfl) fun _ _ _ => rfl

/-- Stopping echoes itself. -/
theorem throw (e : Stop) : Echoes L (throw e : Expansion σ α) (throw e) :=
  of_snd_eq (fun _ => rfl) fun _ _ _ => rfl

/-- Failing echoes itself. -/
theorem fail (e : Error) : Echoes L (fail e : Expansion σ α) (Expansion.fail e) :=
  of_snd_eq (fun _ => rfl) fun _ _ _ => rfl

/-- What is computed apart from the state echoes itself. -/
theorem ofExcept (x : Except Error α) : Echoes L (ofExcept x : Expansion σ α) (Expansion.ofExcept x) := by
  cases x with
  | ok a => exact pure a
  | error e => exact fail e

/-- Reading the scope echoes itself. -/
theorem scope : Echoes L (scope : Expansion σ Scope) scope :=
  of_snd_eq (fun _ => rfl) fun w v h => by
    rw [exec_scope, exec_scope, Context.scope_eq_of_bare h.bare]

/-- Sequences echo each other when their steps do. -/
theorem bind {g : α → Expansion σ β} {k : α → Expansion τ β} (h : Echoes L m f)
    (hg : ∀ a, Echoes L (g a) (k a)) : Echoes L (m >>= g) (f >>= k) := by
  -- the three parts go together, since the second steps run in worlds that are alike again
  have both {w : World σ} {v : World τ} (hw : Alike L w v) :
      (f >>= k).exec v = (((m >>= g).exec w).1, v) ∧
        Tree.Grown w.tree ((m >>= g).exec w).2.tree ∧ Unmoved w ((m >>= g).exec w).2 := by
    have hr := h.result hw
    have hgrown := h.grown hw
    have hmoved := h.unmoved hw
    rw [exec_bind, exec_bind, hr]
    revert hgrown hmoved
    rcases m.exec w with ⟨_ | a, w'⟩
    · exact fun hgrown hmoved => ⟨rfl, hgrown, hmoved⟩
    · intro hgrown hmoved
      have hw' : Alike L w' v := hw.of_unmoved hmoved
      exact ⟨(hg a).result hw', hgrown.trans ((hg a).grown hw'),
        trans_of Unmoved hmoved ((hg a).unmoved hw')⟩
  exact ⟨fun hw => (both hw).1, fun hw => (both hw).2.1, fun hw => (both hw).2.2⟩

/-- What is asked of a context does not depend on extensions. -/
theorem context_bind {g : Context → Expansion σ α} {k : Context → Expansion τ α}
    (h : ∀ c c', c.bare = c'.bare → Echoes L (g c) (k c')) : Echoes L (context >>= g) (context >>= k) where
  result hw := (h _ _ hw.bare).result hw
  grown hw := (h _ _ hw.bare).grown hw
  unmoved hw := (h _ _ hw.bare).unmoved hw

/-- What is put together from steps that are alike is alike. -/
theorem compositional :
    Compositional fun β (x : Expansion σ β) (y : Expansion τ β) => Echoes L x y := ⟨pure, bind⟩

end Echoes

end Expansion

end Stylesheet
