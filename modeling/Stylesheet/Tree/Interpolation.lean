import Stylesheet.Interpolation
import Stylesheet.Tree

/-! # Placeholders in trees

A body that is copied, for a call or for a pass of a loop, has the placeholders in its texts resolved
right away (**`Tree.interpolate`**): in selectors, property names, queries and the like, but not inside of
definitions, whose bodies wait for their own calls. -/

namespace Stylesheet

/-- A node with the placeholders in its texts resolved. -/
def Node.interpolate (lookup : Lookup) : Node → Node
  | .block selectors => .block (selectors.map (Stylesheet.interpolate lookup))
  | .declaration name value important =>
    .declaration (Stylesheet.interpolate lookup name) value important
  | .nesting name => .nesting (Stylesheet.interpolate lookup name)
  | .media query => .media (Stylesheet.interpolate lookup query)
  | .plain text => .plain (Stylesheet.interpolate lookup text)
  | .keyframeBlock selectors => .keyframeBlock (selectors.map (Stylesheet.interpolate lookup))
  | .extend targets => .extend (targets.map (Stylesheet.interpolate lookup))
  | .keyframes keyword name => .keyframes keyword (Stylesheet.interpolate lookup name)
  | .importing i => .importing { i with uri := Stylesheet.interpolate lookup i.uri }
  | n => n

/-- Whether a node is the definition of a function or a mixin. -/
def Node.isDefinition : Node → Bool
  | .functionDefinition _ | .mixinDefinition _ => true
  | _ => false

namespace Tree

/-- Resolve the placeholders in a node and under it, `depth` levels deep. -/
def interpolateTo (lookup : Lookup) : Nat → NodeId → Tree → Tree
  | 0, _, t => t
  | depth + 1, id, t =>
    if (t.node id).isDefinition then t
    else
      let t := t.setNode id ((t.node id).interpolate lookup)
      (t.children id).foldl (fun t c => interpolateTo lookup depth c t) t

/-- Resolve the placeholders in a node and in all nodes under it. -/
def interpolate (lookup : Lookup) (t : Tree) (id : NodeId) : Tree :=
  interpolateTo lookup t.size id t

/-- Resolve the placeholders in nodes and in all nodes under them. -/
def interpolateAll (lookup : Lookup) (t : Tree) (ids : List NodeId) : Tree :=
  ids.foldl (fun t id => t.interpolate lookup id) t

/-- Copy a subtree and resolve the placeholders in the copy. -/
def copyInterpolated (lookup : Lookup) (id : NodeId) (t : Tree) : NodeId × Tree :=
  let (copy, t) := t.copySubtree id
  (copy, t.interpolate lookup copy)

end Tree

end Stylesheet
