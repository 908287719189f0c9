import Stylesheet.Scope
import Stylesheet.Tree

/-! # Contexts

A **`Context`** is what lasts from one node to the next while stylesheets are expanded, and from one
stylesheet to the next: the variables, the definitions of functions and mixins, and the extensions that
are still to be carried out. Definitions are copied into a tree of their own, so that they outlive the
stylesheet they come from. -/

namespace Stylesheet

/-- What is known while stylesheets are expanded. -/
structure Context where
  scope : Scope
  /-- Blocks with the selectors they extend, in the order found. -/
  extensions : List (NodeId × List String)
  /-- The tree that the definitions have been copied into. -/
  definitions : Tree
  /-- Functions by name, the latest definition first. -/
  functions : List (String × NodeId)
  /-- Mixins by name, the latest definition first. -/
  mixins : List (String × NodeId)

namespace Context

/-- A context in which nothing is known yet. -/
def empty : Context := ⟨.empty, [], .empty, [], []⟩

/-- Define a function by a node of a tree. -/
def addFunction (c : Context) (name : String) (t : Tree) (id : NodeId) : Context :=
  let (copy, definitions) := c.definitions.graft t id
  { c with definitions := definitions, functions := (name, copy) :: c.functions }

/-- Define a mixin by a node of a tree. -/
def addMixin (c : Context) (name : String) (t : Tree) (id : NodeId) : Context :=
  let (copy, definitions) := c.definitions.graft t id
  { c with definitions := definitions, mixins := (name, copy) :: c.mixins }

/-- Whether there is a function of this name. -/
def hasFunction (c : Context) (name : String) : Bool := (c.functions.lookup name).isSome

/-- The signature of a function, and the node that holds its body. -/
def function (c : Context) (name : String) : Except Error (NodeId × Signature) :=
  match c.functions.lookup name with
  | none => .error (.undefinedFunction name)
  | some id =>
    match c.definitions.node id with
    | .functionDefinition signature => .ok (id, signature)
    | n => .error (.notFunction name n.text)

/-- The signature of a mixin, and the node that holds its body. -/
def mixin (c : Context) (name : String) : Except Error (NodeId × Signature) :=
  match c.mixins.lookup name with
  | none => .error (.undefinedMixin name)
  | some id =>
    match c.definitions.node id with
    | .mixinDefinition signature => .ok (id, signature)
    | n => .error (.notMixin name n.text)

end Context

end Stylesheet
