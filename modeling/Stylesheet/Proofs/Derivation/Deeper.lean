import Stylesheet.Proofs.Derivation.Covering

/-! # Going deeper

A step **deepens** to another one when it ends as that one does, unless it gives up for depth
(**`Expansion.Deepens`**). Sequences of steps that deepen deepen (`Expansion.Deepens.bind`). So a derivation
deepens to the same derivation at every greater depth (**`deriver_deepens`**): level by level, all that a
deriver does is done alike by one that deepens it (**`Deriver.Deepens`**).

Steps are counted only along the children of a node. With steps enough for all of them, children are derived as
nodes in a row are (`Deriver.deriveChildren_of_length_le`). -/

namespace Stylesheet

open Expansion

/-! ## Runs -/

/-- A run has given up for depth, or it ends as another one. -/
def Sooner {τ α : Type} (x x' : Except Stop α × World τ) : Prop := x.1 = .error .tooDeep ∨ x = x'

/-- One step ends as another one does, wherever it does not give up for depth. -/
def Expansion.Deepens {τ α : Type} (m m' : Expansion τ α) : Prop := ∀ v, Sooner (m.exec v) (m'.exec v)

section

variable {τ α β : Type}

namespace Sooner

variable {x y z : Except Stop α × World τ} {m m' : Expansion τ α} {f f' : α → Expansion τ β} {v : World τ}

/-- A run ends as itself. -/
theorem refl (x : Except Stop α × World τ) : Sooner x x := .inr rfl

/-- What ends sooner than something that ends sooner ends sooner. -/
theorem trans (h : Sooner x y) (h' : Sooner y z) : Sooner x z := by
  rcases h with deep | rfl
  · exact .inl deep
  · exact h'

/-- Runs that do not give up for depth are the same. -/
theorem eq (h : Sooner x y) (shallow : x.1 ≠ .error .tooDeep) : x = y := h.resolve_left shallow

/-- Sequences of two steps, the second ones in the world that the first ones leave. -/
theorem bind (hm : Sooner (m.exec v) (m'.exec v))
    (hf : ∀ a w, m.exec v = (.ok a, w) → Sooner ((f a).exec w) ((f' a).exec w)) :
    Sooner ((m >>= f).exec v) ((m' >>= f').exec v) := by
  rw [exec_bind, exec_bind]
  revert hm hf
  rcases m.exec v with ⟨e | a, w⟩
  · rintro (deep | same) -
    · cases deep
      exact .inl rfl
    · rw [← same]
      exact .refl _
  · rintro (deep | same) hf
    · cases deep
    · rw [← same]
      exact hf a w rfl

end Sooner

namespace Expansion.Deepens

variable {m m' : Expansion τ α} {f f' : α → Expansion τ β}

/-- A step deepens to itself. -/
theorem refl (m : Expansion τ α) : Deepens m m := fun _ => .refl _

/-- What gives up deepens to everything. -/
theorem throw : Deepens (throw .tooDeep) m := fun _ => .inl rfl

/-- Sequences of steps that deepen deepen. -/
theorem bind (hm : Deepens m m') (hf : ∀ a, Deepens (f a) (f' a)) : Deepens (m >>= f) (m' >>= f') :=
  fun v => (hm v).bind fun a w _ => hf a w

/-- What comes after the same step may deepen. -/
theorem after (m : Expansion τ α) (hf : ∀ a, Deepens (f a) (f' a)) : Deepens (m >>= f) (m >>= f') :=
  (refl m).bind hf

/-- A frame of its own is left alike, however deep it goes. -/
theorem inFrame {kind : FrameKind} (h : Deepens m m') : Deepens (inFrame kind m) (Expansion.inFrame kind m') := by
  intro v
  rw [exec_inFrame, exec_inFrame]
  rcases h (v.mapScope (·.enter kind)) with deep | same
  · exact .inl deep
  · rw [same]
    exact .refl _

/-- What runs aside deepens as what runs there. -/
theorem aside (h : Deepens m m') : Deepens (aside m) (Expansion.aside m') := by
  intro v
  rcases h ⟨⟨#[]⟩, v.context.bare, v.loader⟩ with deep | same
  · exact .inl deep
  · exact .inr (congrArg (fun x => (x.1, v)) same)

/-- What is put together from steps that deepen deepens. -/
theorem compositional : Compositional fun β (x x' : Expansion τ β) => Deepens x x' := ⟨fun _ => refl _, bind⟩

variable {first first' rest rest' : Expansion τ Yield}

/-- What is wrapped in the same way deepens. -/
theorem wrapped (φ : List (Rose Stem) → List (Rose Stem)) (h : Deepens first first') :
    Deepens (Deriver.wrapped φ first) (Deriver.wrapped φ first') := h.bind fun _ => refl _

/-- Two steps whose yields are joined deepen when both do. -/
theorem followedBy (h : Deepens first first') (h' : Deepens rest rest') :
    Deepens (Deriver.followedBy first rest) (Deriver.followedBy first' rest') := by
  refine h.bind fun yield => ?_
  cases yield with
  | finished made => exact h'.wrapped _
  | returned value => exact refl _

end Expansion.Deepens

namespace Deriver

/-! ## Sequences -/

/-- One deriver deepens to another one in all that it does. -/
structure Deepens (d d' : Deriver τ) : Prop where
  steps : d.steps ≤ d'.steps
  evaluate : ∀ value, Expansion.Deepens (d.evaluate value) (d'.evaluate value)
  derive : ∀ block mode r, Expansion.Deepens (d.derive block mode r) (d'.derive block mode r)

section

variable (d : Deriver τ) {block : Option NodeId} {mode : Mode}

/-- Deriving two lists of trees is deriving the one, then the other. -/
theorem deriveNodes_append (rs ss : List (Rose Node)) :
    d.deriveNodes block mode (rs ++ ss) = followedBy (d.deriveNodes block mode rs) (d.deriveNodes block mode ss) := by
  induction rs with
  | nil => rw [List.nil_append, deriveNodes, nil_followedBy]
  | cons r rs ih => rw [List.cons_append, deriveNodes, ih, deriveNodes, followedBy_assoc]

/-- Without steps for all of them, derivations in a row give up. -/
theorem deriveFrom_deepens (steps : Nat) (rs : List (Rose Node)) :
    Expansion.Deepens (d.deriveFrom block mode steps rs) (d.deriveNodes block mode rs) := by
  induction rs generalizing steps with
  | nil =>
    rw [deriveFrom.eq_1]
    exact .refl _
  | cons r rs ih =>
    cases steps with
    | zero => exact .throw
    | succ steps => exact (Expansion.Deepens.refl _).followedBy (ih steps)

/-- Steps for all of them are enough. -/
theorem deriveFrom_of_length_le {steps : Nat} {rs : List (Rose Node)} (enough : rs.length ≤ steps) :
    d.deriveFrom block mode steps rs = d.deriveNodes block mode rs := by
  induction rs generalizing steps with
  | nil => rw [deriveFrom.eq_1, deriveNodes]
  | cons r rs ih =>
    obtain ⟨steps, rfl⟩ := Nat.exists_eq_add_of_le' (Nat.one_le_of_lt enough)
    rw [deriveFrom, deriveNodes, ih (Nat.le_of_succ_le_succ enough)]

/-- Counting steps along the children only makes a derivation give up sooner. -/
theorem deriveChildren_deepens (rs : List (Rose Node)) :
    Expansion.Deepens (d.deriveChildren block mode rs) (d.deriveNodes block mode rs) :=
  d.deriveFrom_deepens d.steps rs

/-- With steps enough for all children, they are derived as nodes in a row are. -/
theorem deriveChildren_of_length_le {rs : List (Rose Node)} (enough : rs.length ≤ d.steps) :
    d.deriveChildren block mode rs = d.deriveNodes block mode rs := d.deriveFrom_of_length_le enough

end

namespace Deepens

variable {d d' : Deriver τ} (h : d.Deepens d') {block : Option NodeId} {mode : Mode} {rs : List (Rose Node)}

include h

/-- Deriving a list of trees deepens. -/
theorem deriveNodes (rs : List (Rose Node)) :
    Expansion.Deepens (d.deriveNodes block mode rs) (d'.deriveNodes block mode rs) := by
  induction rs with
  | nil => exact .refl _
  | cons r rs ih => exact (h.derive block mode r).followedBy ih

/-- Deriving a list of trees step by step deepens, and it does with more steps. -/
theorem deriveFrom {steps steps' : Nat} (enough : steps ≤ steps') (rs : List (Rose Node)) :
    Expansion.Deepens (d.deriveFrom block mode steps rs) (d'.deriveFrom block mode steps' rs) := by
  induction rs generalizing steps steps' with
  | nil =>
    rw [deriveFrom.eq_1, deriveFrom.eq_1]
    exact .refl _
  | cons r rs ih =>
    cases steps with
    -- without steps it gives up, and that deepens to everything
    | zero => exact .throw
    | succ steps =>
      obtain ⟨steps', rfl⟩ := Nat.exists_eq_add_of_le' (Nat.one_le_of_lt enough)
      exact (h.derive block mode r).followedBy (ih (Nat.le_of_succ_le_succ enough))

/-- Deriving the children of a node deepens. -/
theorem deriveChildren (rs : List (Rose Node)) :
    Expansion.Deepens (d.deriveChildren block mode rs) (d'.deriveChildren block mode rs) := h.deriveFrom h.steps rs

/-! ## Calls -/

/-- Evaluating the arguments of a call deepens. -/
theorem arguments (parameters : Value) :
    Expansion.Deepens (d.walker.arguments parameters) (d'.walker.arguments parameters) :=
  Expansion.Deepens.compositional.mapM d.evaluate d'.evaluate h.evaluate _

/-- Binding the parameters of a call deepens. -/
theorem bindParameters (collated : List (String × Argument)) :
    Expansion.Deepens (d.walker.bindParameters collated) (d'.walker.bindParameters collated) := by
  induction collated with
  | nil => exact .refl _
  | cons p rest ih =>
    obtain ⟨name, _ | value⟩ := p
    · exact .after _ fun _ => .after _ fun _ => ih
    · exact (h.evaluate value).bind fun _ => .after _ fun _ => ih

/-- Invoking a function that is defined deepens. -/
theorem invoke (name : String) (args : List Value) :
    Expansion.Deepens (d.invoke name args) (d'.invoke name args) :=
  .after _ fun _ => .after _ fun _ => .after _ fun collated =>
    (Expansion.Deepens.inFrame ((h.bindParameters collated).bind fun _ => .after _ fun _ =>
      h.deriveChildren _)).aside.bind fun _ => .refl _

/-- A call deepens, whether or not it is of a function that is defined. -/
theorem call (name : String) (args : List Value) : Expansion.Deepens (d.call name args) (d'.call name args) := by
  refine .after _ fun result => ?_
  cases result with
  | some value => exact .refl _
  | none => exact h.invoke name args

/-- Evaluating a value deepens as the calls in it do. -/
theorem evaluateWith (value : Value) : Expansion.Deepens (d.evaluateWith value) (d'.evaluateWith value) := by
  have ofCall (name : String) (parameters : Value) :
      Expansion.Deepens (d.live.ofCall name parameters) (d'.live.ofCall name parameters) := by
    refine .after _ fun c => ?_
    split
    · exact (h.arguments parameters).bind fun args => (h.call name args).bind fun _ => .refl _
    · exact .refl _
  have ofVar (name : String) : Expansion.Deepens (d.live.ofVar name) (d'.live.ofVar name) := .refl _
  have substituted := Expansion.Deepens.compositional.value_substitute d.live d'.live ofVar ofCall false value
  exact substituted.bind fun _ => .refl _

/-! ## Loops and conditionals -/

/-- One pass of a loop deepens. -/
theorem pass (body : List (Rose Node)) (bound : Option (String × Value)) :
    Expansion.Deepens (d.pass block mode body bound) (d'.pass block mode body bound) := by
  refine Expansion.Deepens.inFrame ?_
  cases bound with
  | none => exact .after _ fun _ => h.deriveNodes _
  | some bound => exact .after _ fun _ => .after _ fun _ => h.deriveNodes _

/-- The passes of a counting loop deepen. -/
theorem passesFrom (body : List (Rose Node)) (name : String) (count : Nat) (i : Int) :
    Expansion.Deepens (d.passesFrom block mode body name count i) (d'.passesFrom block mode body name count i) := by
  induction count generalizing i with
  | zero => exact .refl _
  | succ count ih => exact (h.pass body _).followedBy (ih (i + 1))

/-- The passes of a loop over values deepen. -/
theorem passesOver (body : List (Rose Node)) (name : String) (items : List Value) :
    Expansion.Deepens (d.passesOver block mode body name items) (d'.passesOver block mode body name items) := by
  induction items with
  | nil => exact .refl _
  | cons item items ih => exact (h.pass body _).followedBy ih

/-- The passes of a loop with a condition deepen, and they do with more steps. -/
theorem passesWhile (services : Services τ) (body : List (Rose Node)) (condition : String) {steps steps' : Nat}
    (enough : steps ≤ steps') : Expansion.Deepens (Deriver.passesWhile services d block mode body condition steps)
      (Deriver.passesWhile services d' block mode body condition steps') := by
  induction steps generalizing steps' with
  | zero => exact .throw
  | succ steps ih =>
    obtain ⟨steps', rfl⟩ := Nat.exists_eq_add_of_le' (Nat.one_le_of_lt enough)
    refine .after _ fun go => ?_
    split
    · exact (h.pass body none).followedBy (ih (Nat.le_of_succ_le_succ enough))
    · exact .refl _

/-- A counting loop deepens. -/
theorem expandCounting (body : List (Rose Node)) (loop : Counting) :
    Expansion.Deepens (d.expandCounting block mode body loop) (d'.expandCounting block mode body loop) := by
  have bound (which : String) (value : Value) :
      Expansion.Deepens (d.walker.bound which value) (d'.walker.bound which value) :=
    (h.evaluate value).bind fun _ => .refl _
  refine (bound "from" loop.low).bind fun low => (bound "to" loop.high).bind fun high => ?_
  split
  · exact .refl _
  · exact h.passesFrom body _ _ _

/-! ## Nodes -/

/-- An import deepens as what it brings in. -/
theorem deriveImport (services : Services τ) (i : Import) :
    Expansion.Deepens (Deriver.deriveImport services d block mode i rs)
      (Deriver.deriveImport services d' block mode i rs) := by
  refine .after _ fun uri => ?_
  dsimp only
  split
  · exact .refl _
  · exact .after _ fun _ => h.deriveNodes _

/-- Including a mixin deepens as its body and its block. -/
theorem includeMixin (invocation : Invocation) :
    Expansion.Deepens (d.includeMixin block invocation rs) (d'.includeMixin block invocation rs) :=
  .after _ fun _ => .after _ fun _ => (h.arguments invocation.arguments).bind fun _ => .after _ fun collated =>
    (Expansion.Deepens.inFrame ((h.bindParameters collated).bind fun _ => .after _ fun _ =>
      h.deriveNodes _)).bind fun _ => .refl _

/-- An assignment deepens as the evaluation of its value. -/
theorem assign (name : String) (value : Value) (guarded : Bool) :
    Expansion.Deepens (d.assign name value guarded) (d'.assign name value guarded) := by
  refine .after _ fun s => ?_
  split
  · exact .refl _
  · exact (h.evaluate value).bind fun _ => .refl _

/-- The work of one node, one level deeper. -/
theorem deriveWith (services : Services τ) (r : Rose Node) :
    Expansion.Deepens (Deriver.deriveWith services d block mode r) (Deriver.deriveWith services d' block mode r) := by
  unfold Deriver.deriveWith
  refine .after _ fun _ => ?_
  cases r.label with
  | root | fontFace | keyframeBlock _ => exact (h.deriveChildren _).wrapped _
  | assignment name value guarded => exact (h.assign name value guarded).bind fun _ => .refl _
  | result value =>
    dsimp only
    split
    · exact (h.evaluate value).bind fun _ => .refl _
    · exact .refl _
  | declaration name value important => exact (h.evaluate value).bind fun _ => .refl _
  | block selectors => exact .after _ fun _ => .after _ fun _ => (h.deriveChildren _).wrapped _
  | comment _ | plain _ | vendor _ _ | extend _ | content | functionDefinition _ | mixinDefinition _
  | branch _ | otherwise => exact .refl _
  | keyframes _ _ | media _ => exact .after _ fun _ => (h.deriveChildren _).wrapped _
  | importing i => exact h.deriveImport services i
  | functionCall c => exact (h.arguments c.arguments).bind fun args => (h.call c.name args).bind fun _ => .refl _
  | mixinCall c => exact h.includeMixin c
  | nesting name => exact .after _ fun _ => (h.deriveChildren _).wrapped _
  | listDirective directive =>
    exact ((h.evaluate _).bind fun _ => (h.evaluate _).bind fun _ => .refl _).bind fun _ => .refl _
  | counting c => exact h.expandCounting _ c
  | each name list => exact (h.evaluate list).bind fun _ => h.passesOver _ name _
  | whileLoop condition => exact h.passesWhile services _ condition h.steps
  | conditional => exact .after _ fun _ => h.deriveNodes _

end Deepens

end Deriver

/-! ## Down to a depth -/

/-- What is evaluated aside deepens to what is evaluated aside. -/
theorem Deriver.Deepens.evaluateAside {b b' : Deriver Unit} (h : b.Deepens b') (value : Value) :
    Expansion.Deepens (b.evaluateAside value : Expansion τ Value) (b'.evaluateAside value) := by
  intro v
  -- both run in the same world aside, whatever the world is that they are called in
  rcases h.evaluateWith value ⟨⟨#[]⟩, v.context.bare, ()⟩ with deep | same
  · exact .inl deep
  · exact .inr (congrArg (fun x => (x.1, v)) same)

/-- What gives up at once deepens to every deriver. -/
theorem deepens_zero {d : Deriver τ} :
    (⟨0, fun _ => throw .tooDeep, fun _ _ _ => throw .tooDeep⟩ : Deriver τ).Deepens d :=
  ⟨Nat.zero_le _, fun _ => .throw, fun _ _ _ => .throw⟩

/-- Deriving the bodies of functions deepens with depth. -/
theorem bodyDeriver_deepens (conditions : String → Except String Literal) {depth depth' : Nat}
    (le : depth ≤ depth') : (bodyDeriver conditions depth).Deepens (bodyDeriver conditions depth') := by
  induction depth generalizing depth' with
  | zero => exact deepens_zero
  | succ depth ih =>
    obtain ⟨depth', rfl⟩ := Nat.exists_eq_add_of_le' (Nat.one_le_of_lt le)
    have deeper := ih (Nat.le_of_succ_le_succ le)
    exact ⟨le, deeper.evaluateAside, fun _ _ r => deeper.deriveWith _ r⟩

/-- **Going deeper changes nothing** but that less is given up. -/
theorem deriver_deepens (services : Services τ) {depth depth' : Nat} (le : depth ≤ depth') :
    (deriver services depth).Deepens (deriver services depth') := by
  -- level by level, from the lesser depth up: nothing is derived at depth zero
  induction depth generalizing depth' with
  | zero => exact deepens_zero
  | succ depth ih =>
    obtain ⟨depth', rfl⟩ := Nat.exists_eq_add_of_le' (Nat.one_le_of_lt le)
    have deeper := Nat.le_of_succ_le_succ le
    exact ⟨le, (bodyDeriver_deepens services.conditions deeper).evaluateAside,
      fun _ _ r => (ih deeper).deriveWith services r⟩

end

end Stylesheet
