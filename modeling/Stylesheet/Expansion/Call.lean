import Stylesheet.Builtin
import Stylesheet.Expansion.Basic
import Stylesheet.Tree.Interpolation
import Stylesheet.Value.Arithmetic
import Stylesheet.Value.Substitution

/-! # Values and calls

To evaluate a value (**`Walker.evaluateWith`**), its variables are replaced, the functions it calls are
called, and arithmetic is done if the value as written asks for it. Calling a function
(**`Walker.invoke`**) copies its body into the tree and walks through it in a frame of its own. Including
a mixin (**`Walker.includeMixin`**) puts the copy in the place of the include, with the block of the
include wherever the body asks for content. -/

namespace Stylesheet

namespace Tree

/-- Whether a node is a place for content. -/
def isContent (t : Tree) (id : NodeId) : Bool :=
  match t.node id with
  | .content => true
  | _ => false

/-- Put copies of the children of `source` in the place of a node for content. -/
def fillSlot (t : Tree) (source slot : NodeId) : Tree :=
  match t.parent? slot with
  | none => t
  | some parent =>
    (spliceAfter (fun id t => t.copySubtree id) parent slot (t.children source) t).2.remove parent slot

/-- Put copies of the children of `source` in all places for content under `body`. -/
def fillContent (t : Tree) (body source : NodeId) : Tree :=
  ((t.descendants body).filter t.isContent).foldl (fun t slot => t.fillSlot source slot) t

end Tree

namespace Walker

open Expansion

variable {σ : Type}

/-! ## Binding parameters -/

/-- Pair the arguments of a call with the parameters of the definition that was found for it. -/
def matchCall (name : String) (signature : Signature) (arguments : List Value) :
    Except Error (List (String × Argument)) :=
  if signature.name = name then Signature.collate name signature.parameters arguments
  else .error (.misnamed name signature.name)

/-- A call that matches has had its arguments paired with the parameters. -/
theorem pair?_of_matchCall {name : String} {signature : Signature} {arguments : List Value}
    {bound : List (String × Argument)} (h : matchCall name signature arguments = .ok bound) :
    Signature.pair? signature.parameters arguments = some bound := by
  unfold matchCall Signature.collate at h
  split at h
  · split at h
    next paired =>
      cases h
      exact paired
    · cases h
  · cases h

/-- Bind parameters in the innermost frame, one after the other, so that a default can refer to the
parameters before it. -/
def bindParameters (w : Walker σ) : List (String × Argument) → Expansion σ Unit
  | [] => pure ()
  | (name, argument) :: rest => do
    let value ← match argument with
      | .given value => pure value
      | .default value => w.evaluate value
    modifyScope (·.define name value)
    w.bindParameters rest

/-- What the names of the innermost frame stand for. -/
def innermostLookup : Expansion σ Lookup := do
  pure (← scope).innermost.lookup

/-! ## Functions -/

/-- Call a function that a stylesheet has defined; there is no value if its body ends without
returning one. -/
def invoke (w : Walker σ) (name : String) (arguments : List Value) : Expansion σ (Option Value) := do
  let c ← context
  let (definition, signature) ← ofExcept (c.function name)
  let collated ← ofExcept (matchCall name signature arguments)
  let body ← changeTree (·.graft c.definitions definition)
  let flow ← inFrame .call do
    w.bindParameters collated
    -- only the parameters are bound by now, so only they are resolved in the body
    let lookup ← innermostLookup
    modifyTree fun t => t.interpolateAll lookup (t.children body)
    w.walkChildren body .function
  modifyTree (·.setChildren body [])
  match flow with
  | .returned value => pure (some value)
  | .finished => pure none

/-- Call a function: a built-in one if there is one of that name, else one that a stylesheet has
defined. -/
def call (w : Walker σ) (name : String) (arguments : List Value) : Expansion σ (Option Value) := do
  match ← ofExcept (Builtin.call? name arguments) with
  | some value => pure (some value)
  | none => w.invoke name arguments

/-! ## Values -/

/-- Evaluate the arguments of a call, each on its own. -/
def arguments (w : Walker σ) (parameters : Value) : Expansion σ (List Value) :=
  parameters.arguments.mapM w.evaluate

/-- Variables stand for their values, and calls of known functions for their results. -/
def live (w : Walker σ) : Substitution (Expansion σ) where
  ofVar name := do pure ((← scope).get? name)
  ofCall name parameters := do
    if Builtin.isName name || (← context).hasFunction name then
      let args ← w.arguments parameters
      let result ← w.call name args
      pure (some (result.getD []))
    else pure none

/-- Replace the variables and calls in a value. -/
def replaceVariables (w : Walker σ) (value : Value) : Expansion σ Value :=
  Value.substitute w.live false value

/-- Evaluate a value. -/
def evaluateWith (w : Walker σ) (value : Value) : Expansion σ Value := do
  let substituted ← w.replaceVariables value
  if value.asksArithmetic then ofExcept (Value.evaluate substituted) else pure substituted

/-! ## Mixins -/

/-- Put the body of a mixin in the place of an include, and expand it there. -/
def includeMixin (w : Walker σ) (id : NodeId) (invocation : Invocation) : Expansion σ Unit := do
  let parent ← ofExcept ((← tree).parentOf id)
  let c ← context
  let (definition, signature) ← ofExcept (c.mixin invocation.name)
  let args ← w.arguments invocation.arguments
  let collated ← ofExcept (matchCall invocation.name signature args)
  let body ← changeTree (·.graft c.definitions definition)
  -- the content is filled in before parameters are bound, so that it can refer to them
  modifyTree (·.fillContent body id)
  let flow ← inFrame .call do
    w.bindParameters collated
    let lookup ← innermostLookup
    let moved := (← tree).children body
    modifyTree fun t =>
      (((t.interpolateAll lookup moved).moveAfter parent id moved).setChildren id []).remove parent id
    w.walkNodes .mixin moved
  match flow with
  | .finished => pure ()
  | .returned value => fail (.returnInMixin value.text invocation.name)

end Walker

end Stylesheet
