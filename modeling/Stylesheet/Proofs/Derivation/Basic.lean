import Stylesheet.Proofs.Expansion.Steps
import Stylesheet.Proofs.Tree.Fill

/-! # Derivations

Expansion moves nodes about in a tree. What comes out of it can be said without any tree: a node with
what stands under it, taken as a value, **yields** the values that stand in its place in the end
(**`Yield`**), or a value that was returned. This module says so, construct by construct. A
**`Deriver`** does on values what a walker does in a tree, and **`Deriver.deriveWith`** does the work of
one node.

The steps run on worlds too, since variables, definitions and the loader are used alike. The tree of such
a world has no links; it is a register of the blocks that have been entered, and a derived block is marked
with its number in the register (**`Stem`**), which extensions refer to. The body of a function is derived
aside (**`Expansion.aside`**), and values are evaluated with neither register nor loader
(**`Deriver.evaluateAside`**), so they depend on the variables and definitions only. -/

namespace Stylesheet

/-- A context without extensions. -/
def Context.bare (c : Context) : Context :=
  ⟨c.scope, [], c.definitions, c.functions, c.mixins⟩

/-- Copy a definition and enter it under a name, as a function. -/
def Context.enterFunction (c : Context) (name : String) (r : Rose Node) : Context :=
  { c with
    definitions := (Tree.plant r c.definitions).2
    functions := (name, (Tree.plant r c.definitions).1) :: c.functions }

/-- Copy a definition and enter it under a name, as a mixin. -/
def Context.enterMixin (c : Context) (name : String) (r : Rose Node) : Context :=
  { c with
    definitions := (Tree.plant r c.definitions).2
    mixins := (name, (Tree.plant r c.definitions).1) :: c.mixins }

/-- A derived node. A block that has been entered has its number in the register. -/
structure Stem where
  node : Node
  mark : Option NodeId

/-- A node that is left as it is. -/
def Stem.still (n : Node) : Stem := ⟨n, none⟩

/-- What a derivation comes to: the trees that stand in the place of a node, or a value returned. -/
inductive Yield
  | finished (made : List (Rose Stem))
  | returned (value : Value)

/-- Run a step in a world without extensions and register, and forget that world. -/
def Expansion.aside {τ α : Type} (m : Expansion τ α) : Expansion τ α := fun v =>
  ((m.run ⟨⟨#[]⟩, v.context.bare, v.loader⟩).1, v)

/-- The means to go on one level deeper: to evaluate values, and to derive a tree that stands in
a block, if there is one around it. -/
structure Deriver (τ : Type) where
  steps : Nat
  evaluate : Value → Expansion τ Value
  derive : Option NodeId → Mode → Rose Node → Expansion τ Yield

namespace Deriver

open Expansion

variable {τ : Type}

/-! ## Sequences -/

/-- Change what is made in the end. -/
def wrapped (f : List (Rose Stem) → List (Rose Stem)) (derived : Expansion τ Yield) :
    Expansion τ Yield := do
  match ← derived with
  | .returned value => pure (.returned value)
  | .finished made => pure (.finished (f made))

/-- Derive one thing and then another one that stands behind it. -/
def followedBy (first rest : Expansion τ Yield) : Expansion τ Yield := do
  match ← first with
  | .returned value => pure (.returned value)
  | .finished made => wrapped (made ++ ·) rest

/-- Derive trees in order. -/
def deriveNodes (d : Deriver τ) (block : Option NodeId) (mode : Mode) :
    List (Rose Node) → Expansion τ Yield
  | [] => pure (.finished [])
  | r :: rs => followedBy (d.derive block mode r) (d.deriveNodes block mode rs)

/-- Derive trees in order, in a given number of steps. -/
def deriveFrom (d : Deriver τ) (block : Option NodeId) (mode : Mode) :
    Nat → List (Rose Node) → Expansion τ Yield
  | _, [] => pure (.finished [])
  | 0, _ :: _ => throw .tooDeep
  | steps + 1, r :: rs => followedBy (d.derive block mode r) (d.deriveFrom block mode steps rs)

/-- Derive the children of a node. -/
def deriveChildren (d : Deriver τ) (block : Option NodeId) (mode : Mode) (rs : List (Rose Node)) :
    Expansion τ Yield := d.deriveFrom block mode d.steps rs

/-- What is needed to evaluate arguments and to bind parameters. -/
def walker (d : Deriver τ) : Walker τ := ⟨d.steps, d.evaluate, fun _ _ => throw .tooDeep⟩

/-! ## Values and calls -/

/-- The trees under a definition. -/
def bodyOf (c : Context) (definition : NodeId) : List (Rose Node) :=
  (c.definitions.rose c.definitions.size definition).children

/-- Call a function that a stylesheet has defined. -/
def invoke (d : Deriver τ) (name : String) (arguments : List Value) : Expansion τ (Option Value) := do
  let c ← context
  let (definition, signature) ← ofExcept (c.function name)
  let collated ← ofExcept (Walker.matchCall name signature arguments)
  -- what the body makes is thrown away with the world it was made in
  let yield ← aside <| inFrame .call do
    d.walker.bindParameters collated
    let lookup ← Walker.innermostLookup
    d.deriveChildren none .function ((bodyOf c definition).map (Rose.interpolate lookup))
  match yield with
  | .returned value => pure (some value)
  | .finished _ => pure none

/-- Call a function, a built-in one first of all. -/
def call (d : Deriver τ) (name : String) (arguments : List Value) : Expansion τ (Option Value) := do
  match ← ofExcept (Builtin.call? name arguments) with
  | some value => pure (some value)
  | none => d.invoke name arguments

/-- Variables stand for their values, and calls of known functions for their results. -/
def live (d : Deriver τ) : Substitution (Expansion τ) where
  ofVar name := do pure ((← scope).get? name)
  ofCall name parameters := do
    if Builtin.isName name || (← context).hasFunction name then
      let args ← d.walker.arguments parameters
      let result ← d.call name args
      pure (some (result.getD []))
    else pure none

/-- Evaluate a value. -/
def evaluateWith (d : Deriver τ) (value : Value) : Expansion τ Value := do
  let substituted ← Value.substitute d.live false value
  if value.asksArithmetic then ofExcept (Value.evaluate substituted) else pure substituted

/-- Evaluate a value with neither register nor loader at hand. -/
def evaluateAside (d : Deriver Unit) (value : Value) : Expansion τ Value := fun v =>
  (((d.evaluateWith value).run ⟨⟨#[]⟩, v.context.bare, ()⟩).1, v)

/-! ## Loops and conditionals -/

/-- One pass of a loop. -/
def pass (d : Deriver τ) (block : Option NodeId) (mode : Mode) (body : List (Rose Node))
    (bound : Option (String × Value)) : Expansion τ Yield :=
  inFrame .loop do
    match bound with
    | some (name, value) => modifyScope (·.define name value)
    | none => pure ()
    let lookup ← Walker.innermostLookup
    d.deriveNodes block mode (body.map (Rose.interpolate lookup))

/-- Passes for integers that count up from `i`. -/
def passesFrom (d : Deriver τ) (block : Option NodeId) (mode : Mode) (body : List (Rose Node))
    (name : String) : Nat → Int → Expansion τ Yield
  | 0, _ => pure (.finished [])
  | count + 1, i =>
    followedBy (d.pass block mode body (some (name, [.ofFloat (Float.ofInt i)])))
      (d.passesFrom block mode body name count (i + 1))

/-- A counting loop. -/
def expandCounting (d : Deriver τ) (block : Option NodeId) (mode : Mode) (body : List (Rose Node))
    (loop : Counting) : Expansion τ Yield := do
  let low ← d.walker.bound "from" loop.low
  let high ← d.walker.bound "to" loop.high
  if high < low then fail (.reversedBounds low high)
  else
    let count := (high - low).toNat + (if loop.inclusive then 1 else 0)
    d.passesFrom block mode body loop.variableName count low

/-- A pass for each of some items. -/
def passesOver (d : Deriver τ) (block : Option NodeId) (mode : Mode) (body : List (Rose Node))
    (name : String) : List Value → Expansion τ Yield
  | [] => pure (.finished [])
  | item :: items =>
    followedBy (d.pass block mode body (some (name, item))) (d.passesOver block mode body name items)

/-- A loop over the items of a list. -/
def expandEach (d : Deriver τ) (block : Option NodeId) (mode : Mode) (body : List (Rose Node))
    (name : String) (list : Value) : Expansion τ Yield := do
  let value ← d.evaluate list
  d.passesOver block mode body name value.items

/-- Passes as long as a condition holds. -/
def passesWhile (services : Services τ) (d : Deriver τ) (block : Option NodeId) (mode : Mode)
    (body : List (Rose Node)) (condition : String) : Nat → Expansion τ Yield
  | 0 => throw .tooDeep
  | steps + 1 => do
    if ← Walker.holds services condition then
      followedBy (d.pass block mode body none)
        (passesWhile services d block mode body condition steps)
    else pure (.finished [])

/-- The first of some branches that is to be taken. -/
def choose (services : Services τ) : List (Rose Node) → Expansion τ (Option (Rose Node))
  | [] => pure none
  | r :: rs => do
    match r.label with
    | .branch condition =>
      if ← Walker.holds services condition then pure (some r) else choose services rs
    | .otherwise => pure (some r)
    | _ => choose services rs

/-- A conditional. -/
def expandConditional (services : Services τ) (d : Deriver τ) (block : Option NodeId) (mode : Mode)
    (branches : List (Rose Node)) : Expansion τ Yield := do
  let chosen ← choose services branches
  d.deriveNodes block mode ((chosen.map Rose.children).getD [])

/-! ## Nodes one by one -/

/-- Assign a variable, unless the assignment is guarded and the variable has a value. -/
def assign (d : Deriver τ) (name : String) (value : Value) (guarded : Bool) : Expansion τ Unit := do
  if guarded && (← scope).isBound name then pure ()
  else
    let result ← d.evaluate value
    modifyScope (·.set name result)

/-- What is made of a block: itself with what is no block, and behind it the blocks that were in it. -/
def flatten (selectors : List String) (mark : NodeId) (made : List (Rose Stem)) : List (Rose Stem) :=
  ⟨⟨.block selectors, some mark⟩, made.filter fun o => !o.label.node.isBlock⟩ ::
    (made.filter fun o => o.label.node.isBlock).map fun o =>
      ⟨⟨Tree.nestNode selectors o.label.node, o.label.mark⟩, o.children⟩

/-- Derive a block. -/
def deriveBlock (d : Deriver τ) (mode : Mode) (selectors : List String) (rs : List (Rose Node)) :
    Expansion τ Yield := do
  let s ← scope
  let selectors := selectors.map (interpolate s.get?)
  -- the number in the register is the mark that extensions inside refer to
  let mark ← changeTree (·.create (.block selectors))
  wrapped (flatten selectors mark) (d.deriveChildren (some mark) mode rs)

/-- Put a name in front of the names of declarations. -/
def lengthen (name : String) (made : List (Rose Stem)) : List (Rose Stem) :=
  made.map fun o => ⟨⟨Tree.lengthenNode name o.label.node, o.label.mark⟩, o.children⟩

/-- Derive declarations that share the beginning of their names. -/
def deriveNesting (d : Deriver τ) (block : Option NodeId) (mode : Mode) (name : String)
    (rs : List (Rose Node)) : Expansion τ Yield := do
  let name ← Walker.resolve name
  wrapped (lengthen name) (d.deriveChildren block mode rs)

/-- Note that a block extends targets. -/
def recordExtension (block : Option NodeId) (targets : List String) : Expansion τ Unit :=
  match block with
  | some block => modifyContext fun c => { c with extensions := c.extensions ++ [(block, targets)] }
  | none => pure ()

/-- Derive an import. -/
def deriveImport (services : Services τ) (d : Deriver τ) (block : Option NodeId) (mode : Mode)
    (i : Import) (rs : List (Rose Node)) : Expansion τ Yield := do
  let uri ← Walker.resolve i.uri
  let i := { i with uri := uri }
  if i.isPlain then
    pure (.finished [⟨.still (.plain i.text), rs.map (Rose.map .still)⟩])
  else
    let source ← Walker.load services uri
    d.deriveNodes block mode ((source.children Tree.root).map (source.rose source.size))

/-- Derive the body of a mixin in the place of an include. -/
def includeMixin (d : Deriver τ) (block : Option NodeId) (invocation : Invocation)
    (contents : List (Rose Node)) : Expansion τ Yield := do
  let c ← context
  let (definition, signature) ← ofExcept (c.mixin invocation.name)
  let args ← d.walker.arguments invocation.arguments
  let collated ← ofExcept (Walker.matchCall invocation.name signature args)
  let yield ← inFrame .call do
    d.walker.bindParameters collated
    let lookup ← Walker.innermostLookup
    d.deriveNodes block .mixin
      (((bodyOf c definition).flatMap (Rose.fill contents)).map (Rose.interpolate lookup))
  match yield with
  | .finished made => pure (.finished made)
  | .returned value => fail (.returnInMixin value.text invocation.name)

/-- Carry out a list directive. -/
def editList (d : Deriver τ) (directive : ListDirective) : Expansion τ Unit := do
  let list ← d.evaluate directive.list
  let items ← d.evaluate directive.items
  let comma :=
    Builtin.Separator.combinesByComma (directive.separator.bind Builtin.Separator.ofName?) list items
  modifyScope (·.set directive.variableName (Walker.editList directive.edit comma list items))

/-- A node with what its children come to. -/
def around (n : Node) (made : List (Rose Stem)) : List (Rose Stem) := [⟨.still n, made⟩]

/-- Derive one tree. -/
def deriveWith (services : Services τ) (d : Deriver τ) (block : Option NodeId) (mode : Mode)
    (r : Rose Node) : Expansion τ Yield := do
  ofExcept (mode.allows r.label)
  match r.label with
  | .root | .fontFace | .keyframeBlock _ =>
    wrapped (around r.label) (d.deriveChildren block mode r.children)
  | .assignment name value guarded => do
    d.assign name value guarded
    pure (.finished [])
  -- only the body of a function ends with a value
  | .result value =>
    if mode = .function then do
      let result ← d.evaluate value
      pure (.returned result)
    else fail (.strayReturn value.text)
  | .declaration name value important => do
    let result ← d.evaluate value
    let name ← Walker.resolve name
    pure (.finished
      (around (.declaration name result important) (r.children.map (Rose.map .still))))
  | .block selectors => d.deriveBlock mode selectors r.children
  | .comment _ | .plain _ | .vendor _ _ => pure (.finished [r.map .still])
  | .keyframes keyword name => do
    let name ← Walker.resolve name
    wrapped (around (.keyframes keyword name)) (d.deriveChildren block mode r.children)
  | .media query => do
    let query ← Walker.resolve query
    wrapped (around (.media query)) (d.deriveChildren block mode r.children)
  | .importing i => deriveImport services d block mode i r.children
  | .extend targets => do
    recordExtension block targets
    pure (.finished [])
  | .content => pure (.finished [])
  | .functionDefinition signature => do
    modifyContext (·.enterFunction signature.name r)
    pure (.finished [])
  | .mixinDefinition signature => do
    modifyContext (·.enterMixin signature.name r)
    pure (.finished [])
  | .functionCall c => do
    let args ← d.walker.arguments c.arguments
    let _ ← d.call c.name args
    pure (.finished [])
  | .mixinCall c => d.includeMixin block c r.children
  | .nesting name => d.deriveNesting block mode name r.children
  | .listDirective directive => do
    d.editList directive
    pure (.finished [])
  | .counting c => d.expandCounting block mode r.children c
  | .each name list => d.expandEach block mode r.children name list
  | .whileLoop condition => passesWhile services d block mode r.children condition d.steps
  | .conditional => expandConditional services d block mode r.children
  | .branch _ | .otherwise => fail (.looseBranch r.label.text)

end Deriver

/-! ## Down to a depth -/

/-- The deriver for the bodies of functions, of a depth. -/
def bodyDeriver (conditions : String → Except String Literal) : Nat → Deriver Unit
  | 0 => ⟨0, fun _ => throw .tooDeep, fun _ _ _ => throw .tooDeep⟩
  | depth + 1 =>
    ⟨depth + 1, (bodyDeriver conditions depth).evaluateAside,
      Deriver.deriveWith ⟨conditions, fun _ s => (.ok none, s)⟩ (bodyDeriver conditions depth)⟩

/-- The deriver of a depth. -/
def deriver {τ : Type} (services : Services τ) : Nat → Deriver τ
  | 0 => ⟨0, fun _ => throw .tooDeep, fun _ _ _ => throw .tooDeep⟩
  | depth + 1 =>
    ⟨depth + 1, (bodyDeriver services.conditions depth).evaluateAside,
      Deriver.deriveWith services (deriver services depth)⟩

/-- A deriver may take as many steps as it may go deep. -/
@[simp] theorem steps_deriver {τ : Type} (services : Services τ) (depth : Nat) :
    (deriver services depth).steps = depth := by
  cases depth <;> rfl

end Stylesheet
