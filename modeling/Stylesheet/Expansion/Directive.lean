import Stylesheet.Condition.Normal
import Stylesheet.Expansion.Call

/-! # Loops and conditionals

The directives that repeat or choose are expanded in place (**`Walker.expandDirective`**). Each pass of
a loop puts a copy of the body behind those of the passes before and expands it in a frame of its own,
with the loop variable bound there. Of a conditional the first branch whose condition holds takes its
place. The directive itself goes. -/

namespace Stylesheet

/-- The node to put the copies of the next pass behind: the one before `next`, the sibling that stood
behind the loop from the start, or the last child when there was none. -/
def Tree.passAnchor (t : Tree) (parent loop : NodeId) (next : Option NodeId) : NodeId :=
  let siblings := t.children parent
  match next.filter siblings.contains with
  | some id => (Tree.preceding? id siblings).getD loop
  | none => siblings.getLast?.getD loop

/-- A loop to be expanded: its parent, its own number, and the sibling behind it. -/
structure LoopPlace where
  parent : NodeId
  id : NodeId
  next : Option NodeId

namespace Walker

open Expansion

variable {σ : Type}

/-! ## Conditions -/

/-- Whether a condition holds for the variables as they are. Anything but a truth value is an error. -/
def holds (services : Services σ) (condition : String) : Expansion σ Bool := do
  let s ← scope
  match services.conditions (Condition.normalize (substituteVariables s.get? condition)) with
  | .ok (.bool b) => pure b
  | .ok other => fail (.conditionNotBool condition other.text)
  | .error message => fail (.conditionFailed condition message)

/-! ## Loops -/

/-- Make one pass of a loop, with a variable bound if there is one. -/
def pass (w : Walker σ) (place : LoopPlace) (mode : Mode) (bound : Option (String × Value)) :
    Expansion σ Flow :=
  inFrame .loop do
    match bound with
    | some (name, value) => modifyScope (·.define name value)
    | none => pure ()
    let lookup ← innermostLookup
    let copies ← changeTree fun t =>
      Tree.spliceAfter (Tree.copyInterpolated lookup) place.parent
        (t.passAnchor place.parent place.id place.next) (t.children place.id) t
    w.walkNodes mode copies

/-- Make passes for integers that count up from `i`, unless a value is returned. -/
def passesFrom (w : Walker σ) (place : LoopPlace) (mode : Mode) (name : String) :
    Nat → Int → Expansion σ Flow
  | 0, _ => pure .finished
  | count + 1, i => do
    match ← w.pass place mode (some (name, [.ofFloat (Float.ofInt i)])) with
    | .returned value => pure (.returned value)
    | .finished => w.passesFrom place mode name count (i + 1)

/-- The integer that a bound of a counting loop is. -/
def bound (w : Walker σ) (which : String) (value : Value) : Expansion σ Int := do
  let result ← w.evaluate value
  match result.integer? with
  | some n => pure n
  | none => fail (.fractionalBound which result.text)

/-- Expand a counting loop. -/
def expandCounting (w : Walker σ) (place : LoopPlace) (mode : Mode) (loop : Counting) :
    Expansion σ Flow := do
  let low ← w.bound "from" loop.low
  let high ← w.bound "to" loop.high
  if high < low then fail (.reversedBounds low high)
  else
    let count := (high - low).toNat + (if loop.inclusive then 1 else 0)
    w.passesFrom place mode loop.variableName count low

/-- Make a pass for each of some items, unless a value is returned. -/
def passesOver (w : Walker σ) (place : LoopPlace) (mode : Mode) (name : String) :
    List Value → Expansion σ Flow
  | [] => pure .finished
  | item :: items => do
    match ← w.pass place mode (some (name, item)) with
    | .returned value => pure (.returned value)
    | .finished => w.passesOver place mode name items

/-- Expand a loop over the items of a list. -/
def expandEach (w : Walker σ) (place : LoopPlace) (mode : Mode) (name : String) (list : Value) :
    Expansion σ Flow := do
  let value ← w.evaluate list
  w.passesOver place mode name value.items

/-- Make passes as long as a condition holds, unless a value is returned. -/
def passesWhile (services : Services σ) (w : Walker σ) (place : LoopPlace) (mode : Mode)
    (condition : String) : Nat → Expansion σ Flow
  | 0 => throw .tooDeep
  | steps + 1 => do
    if ← holds services condition then
      match ← w.pass place mode none with
      | .returned value => pure (.returned value)
      | .finished => passesWhile services w place mode condition steps
    else pure .finished

/-! ## Conditionals -/

/-- The first of some branches that is to be taken. -/
def choose (services : Services σ) : List NodeId → Expansion σ (Option NodeId)
  | [] => pure none
  | id :: ids => do
    match (← tree).node id with
    | .branch condition =>
      if ← holds services condition then pure (some id) else choose services ids
    | .otherwise => pure (some id)
    | _ => choose services ids

/-- Put the branch of a conditional that is to be taken in its place, and expand it there. -/
def expandConditional (services : Services σ) (w : Walker σ) (parent id : NodeId) (mode : Mode) :
    Expansion σ Flow := do
  let chosen ← choose services ((← tree).children id)
  let moved ← match chosen with
    | some branch => do pure ((← tree).children branch)
    | none => pure []
  modifyTree fun t => ((t.moveAfter parent id moved).setChildren id []).remove parent id
  w.walkNodes mode moved

/-! ## Directives -/

/-- Expand a loop or a conditional. -/
def expandDirective (services : Services σ) (w : Walker σ) (id : NodeId) (mode : Mode) :
    Expansion σ Flow := do
  let t ← tree
  let parent ← ofExcept (t.parentOf id)
  let place : LoopPlace := ⟨parent, id, t.nextSibling? id⟩
  -- a loop that fails keeps its place
  let loop (expanded : Expansion σ Flow) : Expansion σ Flow := do
    let flow ← expanded
    modifyTree fun t => (t.setChildren id []).remove parent id
    pure flow
  match t.node id with
  | .counting c => loop (w.expandCounting place mode c)
  | .each name list => loop (w.expandEach place mode name list)
  | .whileLoop condition => loop (passesWhile services w place mode condition w.steps)
  | .conditional => expandConditional services w parent id mode
  | n => fail (.notDirective n.text)

end Walker

end Stylesheet
