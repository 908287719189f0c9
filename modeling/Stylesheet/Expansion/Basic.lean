import Stylesheet.Condition.Literal
import Stylesheet.Context

/-! # Expanding a stylesheet

Expansion works on a **`World`**, the tree at hand together with the context and with the state of whatever
loads imports, and it may fail; what it did up to then stays done. An **`Expansion`** is such a step.
Nodes are expanded one after the other, and a value returned by a function ends the walk through its body
(**`Flow`**). Since a function can call itself, every step is given a **`Walker`**, the means to evaluate
values and to expand nodes one level deeper; a walker of level zero gives up. -/

namespace Stylesheet

/-- The kind of body that is being expanded. -/
inductive Mode
  | stylesheet
  | mixin
  | function
  deriving Repr, DecidableEq

/-- How a walk through nodes ended. -/
inductive Flow
  | finished
  /-- A value was returned. -/
  | returned (value : Value)

/-- What expansion asks of its surroundings: to evaluate conditions, and to load the tree of an import,
which may change the state `σ` of the loader. -/
structure Services (σ : Type) where
  conditions : String → Except String Literal
  load : String → σ → Except Error (Option Tree) × σ

/-- What expansion works on. -/
structure World (σ : Type) where
  tree : Tree
  context : Context
  loader : σ

/-- Why expansion stopped: for an error in the stylesheet, or because it went deeper than allowed. -/
inductive Stop
  | failed (e : Error)
  | tooDeep
  deriving Repr, DecidableEq

/-- A step of expansion. It changes the world even when it fails. -/
abbrev Expansion (σ : Type) := ExceptT Stop (StateM (World σ))

namespace Expansion

variable {σ α : Type}

/-- Fail with an error. -/
def fail (e : Error) : Expansion σ α := throw (.failed e)

/-- A result that may be an error. -/
def ofExcept : Except Error α → Expansion σ α
  | .ok a => pure a
  | .error e => fail e

/-- The tree at hand. -/
def tree : Expansion σ Tree := do pure (← get).tree

/-- The context. -/
def context : Expansion σ Context := do pure (← get).context

/-- The variables. -/
def scope : Expansion σ Scope := do pure (← get).context.scope

/-- Change the tree. -/
def modifyTree (f : Tree → Tree) : Expansion σ Unit :=
  modify fun w => { w with tree := f w.tree }

/-- Change the tree and keep a result. -/
def changeTree (f : Tree → α × Tree) : Expansion σ α :=
  modifyGet fun w => ((f w.tree).1, { w with tree := (f w.tree).2 })

/-- Change the context. -/
def modifyContext (f : Context → Context) : Expansion σ Unit :=
  modify fun w => { w with context := f w.context }

/-- Change the variables. -/
def modifyScope (f : Scope → Scope) : Expansion σ Unit :=
  modifyContext fun c => { c with scope := f c.scope }

/-- Run a step in a frame of its own, which is closed again however the step ends. -/
def inFrame (kind : FrameKind) (body : Expansion σ α) : Expansion σ α := fun w =>
  let entered := { w with context := { w.context with scope := w.context.scope.enter kind } }
  let (result, w) := body.run entered
  (result, { w with context := { w.context with scope := w.context.scope.leave } })

end Expansion

/-! ## Walking -/

/-- The means to go on one level deeper, and how many steps a loop may take meanwhile. -/
structure Walker (σ : Type) where
  steps : Nat
  evaluate : Value → Expansion σ Value
  traverse : NodeId → Mode → Expansion σ Flow

namespace Walker

open Expansion

variable {σ : Type}

/-- Expand nodes in order, but for those that have been taken out meanwhile. -/
def walkNodes (w : Walker σ) (mode : Mode) : List NodeId → Expansion σ Flow
  | [] => pure .finished
  | id :: ids => do
    if (← tree).isAttached id then
      match ← w.traverse id mode with
      | .returned value => pure (.returned value)
      | .finished => w.walkNodes mode ids
    else w.walkNodes mode ids

/-- Expand a child and those behind it. What a child puts behind itself it has expanded, so the walk goes
on at the sibling that stood behind it before. -/
def walkFrom (w : Walker σ) (parent : NodeId) (mode : Mode) :
    Nat → Option NodeId → Expansion σ Flow
  | _, none => pure .finished
  | 0, some _ => throw .tooDeep
  | steps + 1, some child => do
    let next := (← tree).nextSibling? child
    match ← w.traverse child mode with
    | .returned value => pure (.returned value)
    | .finished => do
      let t ← tree
      w.walkFrom parent mode steps (next.filter fun id => t.parent? id == some parent)

/-- Expand the children of a node in order. -/
def walkChildren (w : Walker σ) (id : NodeId) (mode : Mode) : Expansion σ Flow := do
  let t ← tree
  w.walkFrom id mode w.steps (t.children id).head?

end Walker

end Stylesheet
