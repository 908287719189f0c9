import Stylesheet.Proofs.Expansion.Steps

/-! # Relations kept by walkers

What the parts of a walker keep, its walks and its evaluation of values keep too: a relation between worlds
that is reflexive and transitive is carried through lists of nodes (`Expansion.Keeps.walkNodes`,
`Expansion.Keeps.walkChildren`), through calls (`Expansion.Keeps.bindParameters`,
`Expansion.Keeps.evaluateWith`) and through the passes of loops (`Expansion.Keeps.passesWhile`). What a
pass, a call or a node on its own keeps depends on the relation. -/

namespace Stylesheet

namespace Expansion

namespace Keeps

variable {σ α : Type} {R : World σ → World σ → Prop} [IsPreorder (World σ) R] {w : Walker σ}
  {mode : Mode} {place : LoopPlace}

/-! ## Walks -/

/-- After a step that may end with a returned value, the rest is taken only if it does not. -/
theorem flow {m : Expansion σ Flow} {f : Flow → Expansion σ Flow} (hm : Keeps R m)
    (finished : Keeps R (f .finished))
    (returned : ∀ value, f (.returned value) = Pure.pure (.returned value)) : Keeps R (m >>= f) := by
  refine hm.bind fun flow => ?_
  cases flow with
  | finished => exact finished
  | returned value =>
    rw [returned]
    exact .pure _

/-- Nodes in a row are walked one after the other, up to one that returns a value. -/
theorem walkNodes (ht : ∀ id, Keeps R (w.traverse id mode)) (ids : List NodeId) :
    Keeps R (w.walkNodes mode ids) := by
  induction ids with
  | nil => exact .pure _
  | cons id ids ih =>
    unfold Walker.walkNodes
    refine Keeps.tree.bind fun t => ?_
    split
    · exact (ht id).flow ih fun _ => rfl
    · -- a node that has left its place is passed over
      exact ih

/-- The children from one of them on are walked one after the other. -/
theorem walkFrom (ht : ∀ id, Keeps R (w.traverse id mode)) (parent : NodeId) (steps : Nat)
    (child : Option NodeId) : Keeps R (w.walkFrom parent mode steps child) := by
  induction steps generalizing child with
  | zero =>
    cases child with
    | none => exact .pure _
    | some child => exact .throw _
  | succ steps ih =>
    cases child with
    | none => exact .pure _
    | some child =>
      unfold Walker.walkFrom
      exact Keeps.tree.bind fun t => (ht child).flow (Keeps.tree.bind fun t => ih _) fun _ => rfl

/-- The children of a node are walked one after the other. -/
theorem walkChildren (ht : ∀ id, Keeps R (w.traverse id mode)) (id : NodeId) :
    Keeps R (w.walkChildren id mode) :=
  Keeps.tree.bind fun _ => walkFrom ht _ _ _

/-! ## Values -/

/-- Parameters are bound one after the other, with their defaults evaluated on the way. -/
theorem bindParameters (he : ∀ value, Keeps R (w.evaluate value))
    (hd : ∀ name value, Keeps R (modifyScope (·.define name value) : Expansion σ Unit))
    (collated : List (String × Argument)) : Keeps R (w.bindParameters collated) := by
  induction collated with
  | nil => exact .pure _
  | cons bound rest ih =>
    obtain ⟨name, argument⟩ := bound
    unfold Walker.bindParameters
    cases argument with
    | given value => exact (Keeps.pure _).bind fun _ => (hd _ _).bind fun _ => ih
    | default value => exact (he value).bind fun _ => (hd _ _).bind fun _ => ih

/-- The innermost lookup is only read. -/
theorem innermostLookup : Keeps R (Walker.innermostLookup : Expansion σ Lookup) :=
  Keeps.scope.bind fun _ => .pure _

/-- A text is resolved by reading the scope. -/
theorem resolve (text : String) : Keeps R (Walker.resolve text : Expansion σ String) :=
  Keeps.scope.bind fun _ => .pure _

/-- The arguments of a call are evaluated one after the other. -/
theorem arguments (he : ∀ value, Keeps R (w.evaluate value)) (parameters : Value) :
    Keeps R (w.arguments parameters) :=
  Keeps.compositional.mapM w.evaluate w.evaluate he _

/-- A call keeps what invoking a function keeps. -/
theorem call (hi : ∀ name arguments, Keeps R (w.invoke name arguments)) (name : String)
    (arguments : List Value) : Keeps R (w.call name arguments) := by
  unfold Walker.call
  refine (Keeps.ofExcept _).bind fun result => ?_
  cases result with
  | some value => exact .pure _
  | none => exact hi name arguments

/-- A value is evaluated by evaluating the arguments of calls and by calling functions. -/
theorem evaluateWith (he : ∀ value, Keeps R (w.evaluate value))
    (hi : ∀ name arguments, Keeps R (w.invoke name arguments)) (value : Value) :
    Keeps R (w.evaluateWith value) := by
  have replaced : Keeps R (w.replaceVariables value) := by
    refine Keeps.compositional.value_substitute w.live w.live (fun name => Keeps.scope.bind fun _ => .pure _)
      (fun name ps => ?_) _ _
    refine Keeps.context.bind fun c => ?_
    split
    · exact (arguments he ps).bind fun args => (call hi name args).bind fun _ => .pure _
    · exact .pure _
  refine replaced.bind fun substituted => ?_
  split
  · exact .ofExcept _
  · exact .pure _

/-- What an include does in the frame of its call: once the parameters are bound, the nodes of the body take the
place of the include and are walked through. -/
theorem placeBody {parent id body : NodeId} {collated : List (String × Argument)}
    (bound : Keeps R (w.bindParameters collated))
    (placed : ∀ lookup moved, Keeps R (modifyTree (σ := σ) fun t =>
      (((t.interpolateAll lookup moved).moveAfter parent id moved).setChildren id []).remove parent id))
    (ht : ∀ id, Keeps R (w.traverse id .mixin)) :
    Keeps R (do
      w.bindParameters collated
      let lookup ← Walker.innermostLookup
      let moved := (← Expansion.tree).children body
      modifyTree fun t =>
        (((t.interpolateAll lookup moved).moveAfter parent id moved).setChildren id []).remove parent id
      w.walkNodes .mixin moved) :=
  bound.bind fun _ => innermostLookup.bind fun lookup => Keeps.tree.bind fun t =>
    (placed lookup (t.children body)).bind fun _ => .walkNodes ht _

/-! ## Loops and conditions -/

/-- A condition is decided by reading the scope. -/
theorem holds (services : Services σ) (condition : String) :
    Keeps R (Walker.holds services condition) := by
  unfold Walker.holds
  refine Keeps.scope.bind fun s => ?_
  split
  · exact .pure _
  · exact .fail _
  · exact .fail _

/-- The passes of a counting loop keep what each pass keeps. -/
theorem passesFrom {name : String} (hp : ∀ value, Keeps R (w.pass place mode (some (name, value))))
    (count : Nat) (i : Int) : Keeps R (w.passesFrom place mode name count i) := by
  induction count generalizing i with
  | zero => exact .pure _
  | succ count ih =>
    unfold Walker.passesFrom
    exact (hp _).flow (ih _) fun _ => rfl

/-- The passes of a loop over values keep what each pass keeps. -/
theorem passesOver {name : String} (hp : ∀ value, Keeps R (w.pass place mode (some (name, value))))
    (items : List Value) : Keeps R (w.passesOver place mode name items) := by
  induction items with
  | nil => exact .pure _
  | cons item items ih =>
    unfold Walker.passesOver
    exact (hp _).flow ih fun _ => rfl

/-- The passes of a loop with a condition keep what each pass keeps. -/
theorem passesWhile (services : Services σ) (hp : Keeps R (w.pass place mode none))
    (condition : String) (steps : Nat) :
    Keeps R (Walker.passesWhile services w place mode condition steps) := by
  induction steps with
  | zero => exact .throw _
  | succ steps ih =>
    unfold Walker.passesWhile
    refine (holds services condition).bind fun go => ?_
    split
    · exact hp.flow ih fun _ => rfl
    · exact .pure _

/-- A bound of a counting loop is evaluated. -/
theorem bound (he : ∀ value, Keeps R (w.evaluate value)) (which : String) (value : Value) :
    Keeps R (w.bound which value) := by
  refine (he value).bind fun result => ?_
  split
  · exact .pure _
  · exact .fail _

/-- A counting loop keeps what evaluation and each pass keep. -/
theorem expandCounting {loop : Counting} (he : ∀ value, Keeps R (w.evaluate value))
    (hp : ∀ value, Keeps R (w.pass place mode (some (loop.variableName, value)))) :
    Keeps R (w.expandCounting place mode loop) := by
  refine (bound he _ _).bind fun low => (bound he _ _).bind fun high => ?_
  split
  · exact .fail _
  · exact passesFrom hp _ _

/-- A loop over the items of a list keeps what evaluation and each pass keep. -/
theorem expandEach {name : String} (he : ∀ value, Keeps R (w.evaluate value))
    (hp : ∀ value, Keeps R (w.pass place mode (some (name, value)))) (list : Value) :
    Keeps R (w.expandEach place mode name list) :=
  (he list).bind fun _ => passesOver hp _

/-- A branch is chosen by deciding conditions. -/
theorem choose (services : Services σ) (ids : List NodeId) : Keeps R (Walker.choose services ids) := by
  induction ids with
  | nil => exact .pure _
  | cons id ids ih =>
    unfold Walker.choose
    refine Keeps.tree.bind fun t => ?_
    split
    · refine (holds services _).bind fun go => ?_
      split
      · exact .pure _
      · exact ih
    · exact .pure _
    · exact ih

end Keeps

end Expansion

end Stylesheet
