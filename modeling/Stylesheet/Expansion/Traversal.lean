import Stylesheet.Expansion.Directive
import Stylesheet.Selector

/-! # Expanding nodes

**`Walker.traverseWith`** does the work of one node. A node may change, move or go, and may put other
nodes behind itself, which it expands before the walk goes on. What a node may do in the body of
a function or a mixin is restricted (**`Mode.allows`**). **`evaluate`** and **`traverse`** tie evaluation
and expansion together, down to a given depth. -/

namespace Stylesheet

/-! ## What is allowed -/

/-- Check that a node may stand in a body of this kind. -/
def Mode.allows (mode : Mode) (n : Node) : Except Error Unit :=
  match mode with
  | .stylesheet => .ok ()
  | .mixin =>
    match n with
    | .keyframes _ _ | .media _ | .fontFace | .mixinDefinition _ | .functionDefinition _
    | .importing _ => .error (.forbiddenInMixin n.text)
    | _ => .ok ()
  | .function =>
    match n with
    | .comment _ | .functionCall _ | .fontFace | .vendor _ _ | .plain _ | .declaration _ _ _
    | .result _ | .listDirective _ => .ok ()
    | .assignment _ _ guarded =>
      if guarded then .error (.forbiddenInFunction n.text) else .ok ()
    | .each _ _ | .counting _ | .whileLoop _ | .conditional => .ok ()
    | .keyframeBlock _ | .keyframes _ _ | .media _ => .error (.forbiddenInFunction n.text)
    | .block _ | .content | .extend _ | .mixinCall _ | .nesting _ | .functionDefinition _
    | .mixinDefinition _ | .importing _ | .branch _ | .otherwise | .root =>
      .error (.unexpanded n.text)

/-- In a stylesheet everything is allowed. -/
@[simp] theorem Mode.allows_stylesheet (n : Node) : Mode.stylesheet.allows n = .ok () := rfl

namespace Tree

/-- The innermost block around a node, looked for `height` levels up. -/
def enclosingBlock? (t : Tree) : Nat → NodeId → Option NodeId
  | 0, _ => none
  | height + 1, id =>
    match t.parent? id with
    | none => none
    | some parent =>
      if (t.node parent).isBlock then some parent else enclosingBlock? t height parent

/-- Put the selectors of a block under outer ones; other nodes stay as they are. -/
def nestBlock (outer : List String) (id : NodeId) (t : Tree) : NodeId × Tree :=
  match t.node id with
  | .block own => (id, t.setNode id (.block (Selector.nestUnder own outer)))
  | _ => (id, t)

/-- Put a name in front of that of a declaration; other nodes stay as they are. -/
def lengthenName (name : String) (id : NodeId) (t : Tree) : NodeId × Tree :=
  match t.node id with
  | .declaration own value important =>
    (id, t.setNode id (.declaration (name ++ "-" ++ own) value important))
  | _ => (id, t)

end Tree

namespace Walker

open Expansion

variable {σ : Type}

/-- Resolve the placeholders in a text for the variables as they are. -/
def resolve (text : String) : Expansion σ String := do
  pure (interpolate (← scope).get? text)

/-! ## Nodes one by one -/

/-- Assign a variable, unless the assignment is guarded and the variable has a value. -/
def assign (w : Walker σ) (id : NodeId) (name : String) (value : Value) (guarded : Bool) :
    Expansion σ Unit := do
  if guarded && (← scope).isBound name then pure ()
  else
    let result ← w.evaluate value
    modifyScope (·.set name result)
  modifyTree (·.detach id)

/-- Expand a block. The blocks in it move out behind it, under its selectors. -/
def traverseBlock (w : Walker σ) (id : NodeId) (selectors : List String) (mode : Mode) :
    Expansion σ Flow := do
  let s ← scope
  let selectors := selectors.map (interpolate s.get?)
  modifyTree (·.setNode id (.block selectors))
  match ← w.walkChildren id mode with
  | .returned value => pure (.returned value)
  | .finished => do
    let t ← tree
    -- blocks that were deeper have moved up to here by now
    let nested := (t.children id).filter fun c => (t.node c).isBlock
    if nested.isEmpty then pure .finished
    else
      let parent ← ofExcept (t.parentOf id)
      modifyTree fun t => (Tree.spliceAfter (Tree.nestBlock selectors) parent id nested t).2
      pure .finished

/-- Expand declarations that share the beginning of their names. They take the place of the node. -/
def traverseNesting (w : Walker σ) (id : NodeId) (name : String) (mode : Mode) :
    Expansion σ Flow := do
  let name ← resolve name
  match ← w.walkChildren id mode with
  | .returned value => pure (.returned value)
  | .finished => do
    let t ← tree
    let parent ← ofExcept (t.parentOf id)
    modifyTree fun t =>
      (Tree.spliceAfter (Tree.lengthenName name) parent id (t.children id) t).2.detach id
    pure .finished

/-- Note that the block around a node extends the targets. Outside of blocks nothing is noted. -/
def recordExtension (id : NodeId) (targets : List String) : Expansion σ Unit := do
  let t ← tree
  match t.enclosingBlock? t.size id with
  | some block => modifyContext fun c => { c with extensions := c.extensions ++ [(block, targets)] }
  | none => pure ()
  modifyTree (·.detach id)

/-- Load the tree of an import. -/
def load (services : Services σ) (uri : String) : Expansion σ Tree := do
  let loaded ← modifyGet fun w =>
    let (loaded, state) := services.load uri w.loader
    (loaded, { w with loader := state })
  match ← ofExcept loaded with
  | some source => pure source
  | none => fail (.importNotFound uri)

/-- Expand an import: one for the browser becomes a plain line, and any other gives way to the nodes of
the stylesheet that it names. -/
def traverseImport (services : Services σ) (w : Walker σ) (id : NodeId) (i : Import) (mode : Mode) :
    Expansion σ Flow := do
  let uri ← resolve i.uri
  let i := { i with uri := uri }
  if i.isPlain then
    modifyTree (·.setNode id (.plain i.text))
    pure .finished
  else
    let source ← load services uri
    let parent ← ofExcept ((← tree).parentOf id)
    let grafted ← changeTree fun t =>
      -- the nodes are copied one by one, each behind the copy before
      let (grafted, t) :=
        Tree.spliceAfter (fun c t => t.graft source c) parent id (source.children Tree.root) t
      (grafted, t.detach id)
    w.walkNodes mode grafted

/-- The result of a list directive. -/
def editList (edit : ListEdit) (comma : Bool) (list items : Value) : Value :=
  match edit with
  | .append => .ofItems comma (list.items ++ items.items)
  | .remove => .ofItems comma (list.items.filter fun item => !items.items.contains item)
  | .contains => [.ofBool (items.items.all fun item => list.items.contains item)]

/-- Carry out a list directive. -/
def traverseList (w : Walker σ) (id : NodeId) (d : ListDirective) : Expansion σ Unit := do
  let list ← w.evaluate d.list
  let items ← w.evaluate d.items
  let comma :=
    Builtin.Separator.combinesByComma (d.separator.bind Builtin.Separator.ofName?) list items
  modifyScope (·.set d.variableName (editList d.edit comma list items))
  modifyTree (·.detach id)

/-! ## All nodes -/

/-- Expand one node. -/
def traverseWith (services : Services σ) (w : Walker σ) (id : NodeId) (mode : Mode) :
    Expansion σ Flow := do
  let n := (← tree).node id
  ofExcept (mode.allows n)
  match n with
  | .root | .fontFace | .keyframeBlock _ => w.walkChildren id mode
  | .assignment name value guarded => do
    w.assign id name value guarded
    pure .finished
  | .result value =>
    if mode = .function then do
      let result ← w.evaluate value
      pure (.returned result)
    else fail (.strayReturn value.text)
  | .declaration name value important => do
    let result ← w.evaluate value
    let name ← resolve name
    modifyTree (·.setNode id (.declaration name result important))
    pure .finished
  | .block selectors => w.traverseBlock id selectors mode
  | .comment _ | .plain _ | .vendor _ _ => pure .finished
  | .keyframes keyword name => do
    let name ← resolve name
    modifyTree (·.setNode id (.keyframes keyword name))
    w.walkChildren id mode
  | .media query => do
    let query ← resolve query
    modifyTree (·.setNode id (.media query))
    w.walkChildren id mode
  | .importing i => traverseImport services w id i mode
  | .extend targets => do
    recordExtension id targets
    pure .finished
  | .content => do
    modifyTree (·.detach id)
    pure .finished
  | .functionDefinition signature => do
    let t ← tree
    modifyContext (·.addFunction signature.name t id)
    modifyTree (·.detach id)
    pure .finished
  | .mixinDefinition signature => do
    let t ← tree
    modifyContext (·.addMixin signature.name t id)
    modifyTree (·.detach id)
    pure .finished
  | .functionCall c => do
    let args ← w.arguments c.arguments
    let _ ← w.call c.name args
    modifyTree (·.detach id)
    pure .finished
  | .mixinCall c => do
    w.includeMixin id c
    pure .finished
  | .nesting name => w.traverseNesting id name mode
  | .listDirective d => do
    w.traverseList id d
    pure .finished
  | .each _ _ | .counting _ | .whileLoop _ | .conditional => expandDirective services w id mode
  | .branch _ | .otherwise => fail (.looseBranch n.text)

end Walker

/-! ## Down to a depth -/

mutual

/-- Evaluate a value, going at most `depth` levels deep into calls and bodies. -/
def evaluate {σ : Type} (services : Services σ) : Nat → Value → Expansion σ Value
  | 0, _ => throw .tooDeep
  | depth + 1, value =>
    Walker.evaluateWith ⟨depth, evaluate services depth, traverse services depth⟩ value

/-- Expand a node, going at most `depth` levels deep into calls and bodies. -/
def traverse {σ : Type} (services : Services σ) : Nat → NodeId → Mode → Expansion σ Flow
  | 0, _, _ => throw .tooDeep
  | depth + 1, id, mode =>
    Walker.traverseWith services ⟨depth, evaluate services depth, traverse services depth⟩ id mode

end

/-- The walker of a depth. -/
def walker {σ : Type} (services : Services σ) (depth : Nat) : Walker σ :=
  ⟨depth, evaluate services depth, traverse services depth⟩

end Stylesheet
