import Mathlib.Order.Defs.Unbundled
import Stylesheet.Expansion.Compile
import Stylesheet.Proofs.Value.Compositional

/-! # Running steps of expansion

**`Expansion.exec`** runs a step in a world: what it ends with, and the world it leaves behind. The
equations here say what each basic step does, and what a sequence of steps does.

A step **keeps** a relation between worlds when each world it runs in is related to the one it leaves,
however it ends (**`Expansion.Keeps`**). Sequences of steps keep what is reflexive and transitive. -/

namespace Stylesheet

/-- A context with another scope. -/
def Context.withScope (c : Context) (s : Scope) : Context :=
  ⟨s, c.extensions, c.definitions, c.functions, c.mixins⟩

/-- The scope of a context with another scope is that scope. -/
@[simp] theorem Context.scope_withScope (c : Context) (s : Scope) : (c.withScope s).scope = s := rfl

/-- Of two scopes set one after the other, the second stays. -/
@[simp] theorem Context.withScope_withScope (c : Context) (s s' : Scope) :
    (c.withScope s).withScope s' = c.withScope s' := rfl

/-- A context with its own scope is itself. -/
@[simp] theorem Context.withScope_scope (c : Context) : c.withScope c.scope = c := rfl

/-- A world with its scope changed. -/
def World.mapScope {σ : Type} (f : Scope → Scope) (w : World σ) : World σ :=
  ⟨w.tree, w.context.withScope (f w.context.scope), w.loader⟩

section

variable {σ : Type} (f : Scope → Scope) (w : World σ)

/-- Changing the scope leaves the tree. -/
@[simp] theorem World.tree_mapScope : (w.mapScope f).tree = w.tree := rfl

/-- Changing the scope leaves the loader. -/
@[simp] theorem World.loader_mapScope : (w.mapScope f).loader = w.loader := rfl

/-- Changing the scope of a world is changing that of its context. -/
@[simp] theorem World.context_mapScope :
    (w.mapScope f).context = w.context.withScope (f w.context.scope) := rfl

end

namespace Expansion

variable {σ α β : Type}

/-- What a step ends with in a world, and the world that it leaves. -/
def exec (m : Expansion σ α) (w : World σ) : Except Stop α × World σ := m.run w

/-! ## Equations -/

/-- A result alone leaves the world as it is. -/
@[simp] theorem exec_pure (a : α) (w : World σ) : (pure a : Expansion σ α).exec w = (.ok a, w) := rfl

/-- Stopping leaves the world as it is. -/
@[simp] theorem exec_throw (e : Stop) (w : World σ) :
    (throw e : Expansion σ α).exec w = (.error e, w) := rfl

/-- Failing is stopping with an error. -/
@[simp] theorem exec_fail (e : Error) (w : World σ) :
    (fail e : Expansion σ α).exec w = (.error (.failed e), w) := rfl

/-- What has been computed is a result alone. -/
@[simp] theorem exec_ofExcept_ok (a : α) (w : World σ) :
    (Expansion.ofExcept (.ok a) : Expansion σ α).exec w = (.ok a, w) := rfl

/-- What could not be computed fails. -/
@[simp] theorem exec_ofExcept_error (e : Error) (w : World σ) :
    (Expansion.ofExcept (.error e) : Expansion σ α).exec w = (.error (.failed e), w) := rfl

/-- Reading the tree gives it, and changes nothing. -/
@[simp] theorem exec_tree (w : World σ) : (tree : Expansion σ Tree).exec w = (.ok w.tree, w) := rfl

/-- Reading the context gives it, and changes nothing. -/
@[simp] theorem exec_context (w : World σ) :
    (context : Expansion σ Context).exec w = (.ok w.context, w) := rfl

/-- Reading the scope gives it, and changes nothing. -/
@[simp] theorem exec_scope (w : World σ) :
    (scope : Expansion σ Scope).exec w = (.ok w.context.scope, w) := rfl

/-- A change of the tree leaves a world with the changed tree. -/
@[simp] theorem exec_modifyTree (f : Tree → Tree) (w : World σ) :
    (modifyTree f).exec w = (.ok (), { w with tree := f w.tree }) := rfl

/-- A change of the tree that has a result gives it, and leaves a world with the changed tree. -/
@[simp] theorem exec_changeTree (f : Tree → α × Tree) (w : World σ) :
    (changeTree f).exec w = (.ok (f w.tree).1, { w with tree := (f w.tree).2 }) := rfl

/-- A change of the context leaves a world with the changed context. -/
@[simp] theorem exec_modifyContext (f : Context → Context) (w : World σ) :
    (modifyContext f).exec w = (.ok (), { w with context := f w.context }) := rfl

/-- A change of the scope leaves a world with the changed scope. -/
@[simp] theorem exec_modifyScope (f : Scope → Scope) (w : World σ) :
    (modifyScope f).exec w = (.ok (), w.mapScope f) := rfl

/-- A step in a frame of its own runs in the scope with the frame, and leaves it without. -/
theorem exec_inFrame (kind : FrameKind) (body : Expansion σ α) (w : World σ) :
    (inFrame kind body).exec w =
      ((body.exec (w.mapScope (·.enter kind))).1,
        (body.exec (w.mapScope (·.enter kind))).2.mapScope Scope.leave) := rfl

/-- What follows a step runs in the world that the step leaves, unless it failed. -/
theorem exec_bind (m : Expansion σ α) (f : α → Expansion σ β) (w : World σ) :
    (m >>= f).exec w =
      match m.exec w with
      | (.ok a, w') => (f a).exec w'
      | (.error e, w') => (.error e, w') := by
  show ExceptT.bindCont f (m w).1 (m w).2 =
    match m w with | (.ok a, w') => (f a).exec w' | (.error e, w') => (.error e, w')
  rcases m w with ⟨_ | a, w'⟩ <;> rfl

/-- What follows a step that succeeds runs in the world that the step leaves. -/
theorem exec_bind_ok {m : Expansion σ α} {f : α → Expansion σ β} {b : β} {w w' : World σ}
    (run : (m >>= f).exec w = (.ok b, w')) :
    ∃ a w₁, m.exec w = (.ok a, w₁) ∧ (f a).exec w₁ = (.ok b, w') := by
  rw [exec_bind] at run
  rcases hm : m.exec w with ⟨e | a, w₁⟩ <;> rw [hm] at run
  · cases run
  · exact ⟨a, w₁, rfl, run⟩

section

variable (w : World σ)

/-- A result is handed to what comes next. -/
@[simp] theorem exec_pure_bind (a : α) (f : α → Expansion σ β) :
    ((pure a : Expansion σ α) >>= f).exec w = (f a).exec w := rfl

/-- What has been computed is handed to what comes next. -/
@[simp] theorem exec_ofExcept_ok_bind (a : α) (f : α → Expansion σ β) :
    (Expansion.ofExcept (.ok a) >>= f).exec w = (f a).exec w := rfl

/-- Whatever is read from the world and changed in it, what comes next runs in the world that is left. -/
@[simp] theorem exec_modifyGet_bind (g : World σ → α × World σ) (f : α → Expansion σ β) :
    ((modifyGet g : Expansion σ α) >>= f).exec w = (f (g w).1).exec (g w).2 := rfl

/-- The tree is handed to what comes next. -/
@[simp] theorem exec_tree_bind (f : Tree → Expansion σ β) : (tree >>= f).exec w = (f w.tree).exec w := rfl

/-- The context is handed to what comes next. -/
@[simp] theorem exec_context_bind (f : Context → Expansion σ β) :
    (context >>= f).exec w = (f w.context).exec w := rfl

/-- The scope is handed to what comes next. -/
@[simp] theorem exec_scope_bind (f : Scope → Expansion σ β) :
    (scope >>= f).exec w = (f w.context.scope).exec w := rfl

/-- What comes next runs with the changed tree. -/
@[simp] theorem exec_modifyTree_bind (g : Tree → Tree) (f : Unit → Expansion σ β) :
    (modifyTree g >>= f).exec w = (f ()).exec { w with tree := g w.tree } := rfl

/-- What comes next runs with the changed tree, and is handed the result. -/
@[simp] theorem exec_changeTree_bind (g : Tree → α × Tree) (f : α → Expansion σ β) :
    (changeTree g >>= f).exec w = (f (g w.tree).1).exec { w with tree := (g w.tree).2 } := rfl

/-- What comes next runs in the changed context. -/
@[simp] theorem exec_modifyContext_bind (g : Context → Context) (f : Unit → Expansion σ β) :
    (modifyContext g >>= f).exec w = (f ()).exec { w with context := g w.context } := rfl

/-- What comes next runs in the changed scope. -/
@[simp] theorem exec_modifyScope_bind (g : Scope → Scope) (f : Unit → Expansion σ β) :
    (modifyScope g >>= f).exec w = (f ()).exec (w.mapScope g) := rfl

end

/-- A node that is expanded without an error may stand where it is found. -/
theorem exec_traverse_ok {services : Services σ} {depth : Nat} {id : NodeId} {mode : Mode} {flow : Flow}
    {w w' : World σ} (run : (traverse services depth id mode).exec w = (.ok flow, w')) :
    ∃ depth', mode.allows (w.tree.node id) = .ok () ∧
      (Walker.traverseWith services (walker services depth') id mode).exec w = (.ok flow, w') := by
  cases depth with
  | zero => cases run
  | succ depth =>
    refine ⟨depth, ?_, run⟩
    rw [traverse, Walker.traverseWith, exec_tree_bind] at run
    dsimp only at run
    cases allowed : mode.allows (w.tree.node id) with
    | error e => rw [allowed] at run; cases run
    | ok => rfl

/-! ## Relations that steps keep -/

section

variable {R : World σ → World σ → Prop} [IsPreorder (World σ) R] {w : World σ}

/-- A step and what follows it in the world that it leaves. -/
theorem related_bind {m : Expansion σ α} {f : α → Expansion σ β} (hm : R w (m.exec w).2)
    (hf : ∀ a w', m.exec w = (.ok a, w') → R w' ((f a).exec w').2) : R w ((m >>= f).exec w).2 := by
  rw [exec_bind]
  rcases h : m.exec w with ⟨_ | a, w'⟩ <;> rw [h] at hm
  · exact hm
  · exact trans_of R hm (hf a w' h)

/-- A result that may be an error, and what follows it. -/
theorem related_ofExcept_bind {e : Except Error α} {f : α → Expansion σ β}
    (hf : ∀ a, e = .ok a → R w ((f a).exec w).2) : R w ((Expansion.ofExcept e >>= f).exec w).2 := by
  cases e with
  | error e => exact refl_of R w
  | ok a => exact hf a rfl

end

/-- Each world the step runs in is related to the one it leaves. -/
def Keeps (R : World σ → World σ → Prop) (m : Expansion σ α) : Prop := ∀ w, R w (m.exec w).2

namespace Keeps

variable {R S : World σ → World σ → Prop} {m : Expansion σ α} {f : α → Expansion σ β}

/-- A step that keeps a relation keeps each wider one. -/
theorem mono (hm : Keeps R m) (h : ∀ w w', R w w' → S w w') : Keeps S m := fun w => h _ _ (hm w)

/-- What follows a look at the tree may depend on the world that the tree is from. -/
theorem tree_bind {f : Tree → Expansion σ β} (hf : ∀ w, R w ((f w.tree).exec w).2) :
    Keeps R (Expansion.tree >>= f) := hf

section

variable [IsPreorder (World σ) R]

/-- Steps that do not change the world keep everything reflexive. -/
theorem of_snd_eq (h : ∀ w, (m.exec w).2 = w) : Keeps R m := fun w => by
  rw [h w]
  exact refl_of R w

/-- A result alone keeps every reflexive relation. -/
theorem pure (a : α) : Keeps R (pure a : Expansion σ α) := of_snd_eq fun _ => rfl

/-- Stopping keeps every reflexive relation. -/
theorem throw (e : Stop) : Keeps R (throw e : Expansion σ α) := of_snd_eq fun _ => rfl

/-- Failing keeps every reflexive relation. -/
theorem fail (e : Error) : Keeps R (fail e : Expansion σ α) := of_snd_eq fun _ => rfl

/-- Reading the tree keeps every reflexive relation. -/
theorem tree : Keeps R (tree : Expansion σ Tree) := of_snd_eq fun _ => rfl

/-- Reading the context keeps every reflexive relation. -/
theorem context : Keeps R (context : Expansion σ Context) := of_snd_eq fun _ => rfl

/-- Reading the scope keeps every reflexive relation. -/
theorem scope : Keeps R (scope : Expansion σ Scope) := of_snd_eq fun _ => rfl

/-- What is computed apart from the state keeps every reflexive relation. -/
theorem ofExcept (e : Except Error α) : Keeps R (ofExcept e : Expansion σ α) :=
  of_snd_eq fun _ => by cases e <;> rfl

/-- A sequence keeps what all its steps keep. -/
theorem bind (hm : Keeps R m) (hf : ∀ a, Keeps R (f a)) : Keeps R (m >>= f) :=
  fun w => related_bind (hm w) fun a w' _ => hf a w'

/-- What follows a result that may be an error matters only if there is a result. -/
theorem ofExcept_bind {e : Except Error α} (hf : ∀ a, e = .ok a → Keeps R (f a)) :
    Keeps R (Expansion.ofExcept e >>= f) :=
  fun w => related_ofExcept_bind fun a h => hf a h w

/-- So does what is put together from steps that keep it. -/
theorem compositional : Compositional fun β (x _ : Expansion σ β) => Keeps R x := ⟨pure, bind⟩

end

end Keeps

end Expansion

/-! ## Compiling -/

open Expansion in
/-- A compilation succeeds where the walk from the root comes to its end. The extensions that it noted are
carried out then, and forgotten. -/
theorem compile_eq_ok_iff {σ : Type} {services : Services σ} {depth : Nat} {w w' : World σ} :
    (compile services depth).exec w = (.ok (), w') ↔
      ∃ w₁, ((walker services depth).walkChildren Tree.root .stylesheet).exec
          { w with context := { w.context with extensions := [] } } = (.ok .finished, w₁) ∧
        w' = { w₁ with
          tree := w₁.tree.applyExtensions w₁.context.extensions
          context := { w₁.context with extensions := [] } } := by
  unfold compile
  rw [exec_modifyContext_bind, exec_bind]
  generalize ((walker services depth).walkChildren Tree.root .stylesheet).exec _ = walked
  constructor
  · intro run
    rcases walked with ⟨_ | _ | value, w₁⟩
    · cases run
    · exact ⟨w₁, rfl, (Prod.mk.inj run).2.symm⟩
    · cases run
  · rintro ⟨w₁, rfl, rfl⟩
    rfl

end Stylesheet
