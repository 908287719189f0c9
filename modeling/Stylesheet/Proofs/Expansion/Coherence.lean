import Stylesheet.Proofs.Derivation.Covering
import Stylesheet.Proofs.Derivation.Upholding
import Stylesheet.Proofs.Expansion.Locality
import Stylesheet.Proofs.Tree.Edit

/-! # Expansion does not lose its way

The tables of a compiler are **coherent** when each name leads to a definition of its own kind and name
(**`Context.Coherent`**). They are so at first, and whatever is compiled they stay so
(**`Context.Compiled`**, `Context.Compiled.coherent`). So a compilation fails for what is wrong in the
stylesheet, or for an error that its loader has come up with: an internal error has no other way to
arise (`internal_errors_unreachable`).

Where no function is running, no node ends a walk with a value (**`Expansion.Unreturned`**): a value that is
returned there is an error at the node that returns it. -/

namespace Stylesheet

open Expansion

/-! ## Tables -/

/-- Each name in the tables leads to a definition of its kind and of this name. -/
structure Context.Coherent (c : Context) : Prop where
  functions : ∀ {name id}, c.functions.lookup name = some id →
    ∃ signature, c.definitions.node id = .functionDefinition signature ∧ signature.name = name
  mixins : ∀ {name id}, c.mixins.lookup name = some id →
    ∃ signature, c.definitions.node id = .mixinDefinition signature ∧ signature.name = name

namespace Context.Coherent

variable {c : Context} {r : Rose Node} {name : String} {signature : Signature}

/-- Empty tables are coherent. -/
theorem empty : Context.empty.Coherent := ⟨nofun, nofun⟩

/-- What is planted leaves the definitions as they are. -/
theorem node_plant {t : Tree} {id : NodeId} {n : Node} (h : t.node id = n) (hn : n ≠ .root) (r : Rose Node) :
    (Tree.plant r t).2.node id = n := by
  rw [(Tree.plant_planted r t).grown.node_eq (Tree.lt_size_of_node_ne (by rw [h]; exact hn)), h]

/-- A definition that is entered under its own name. -/
theorem enter (kind : Signature → Node) {table : List (String × NodeId)} {t : Tree}
    (ne : ∀ signature, kind signature ≠ .root) (hr : r.label = kind signature)
    (h : ∀ {name id}, table.lookup name = some id → ∃ s, t.node id = kind s ∧ s.name = name) {name : String}
    {id : NodeId} (found : ((signature.name, (Tree.plant r t).1) :: table).lookup name = some id) :
    ∃ s, (Tree.plant r t).2.node id = kind s ∧ s.name = name := by
  rw [List.lookup_cons] at found
  split at found
  next same =>
    cases found
    exact ⟨signature, (Tree.stores_plant r t).node_eq.trans hr, (beq_iff_eq.1 same).symm⟩
  · obtain ⟨s, node, own⟩ := h found
    exact ⟨s, node_plant node (ne s) r, own⟩

/-- Planting another tree leaves the definitions that a table leads to. -/
theorem keep (kind : Signature → Node) {table : List (String × NodeId)} {t : Tree}
    (ne : ∀ signature, kind signature ≠ .root)
    (h : ∀ {name id}, table.lookup name = some id → ∃ s, t.node id = kind s ∧ s.name = name) {name : String}
    {id : NodeId} (found : table.lookup name = some id) :
    ∃ s, (Tree.plant r t).2.node id = kind s ∧ s.name = name := by
  obtain ⟨s, node, own⟩ := h found
  exact ⟨s, node_plant node (ne s) r, own⟩

/-- Tables stay coherent when a function is entered under its own name. -/
theorem enterFunction (h : c.Coherent) (hr : r.label = .functionDefinition signature) :
    (c.enterFunction signature.name r).Coherent :=
  ⟨enter .functionDefinition (fun _ => nofun) hr h.functions, keep .mixinDefinition (fun _ => nofun) h.mixins⟩

/-- Tables stay coherent when a mixin is entered under its own name. -/
theorem enterMixin (h : c.Coherent) (hr : r.label = .mixinDefinition signature) :
    (c.enterMixin signature.name r).Coherent :=
  ⟨keep .functionDefinition (fun _ => nofun) h.functions, enter .mixinDefinition (fun _ => nofun) hr h.mixins⟩

/-- Nothing internal comes of a search that finds nothing for a reason of the stylesheet. -/
theorem searches_error {error : Error → Prop} (outward : ∀ {e}, e.isInternal = false → error e) {name : String}
    {e : Error} (he : e.isInternal = false) : Searches error name (.error e) where
  missing := by
    rintro _ ⟨⟩
    exact outward he
  matching := nofun

/-- Nor does it when what is found has the name that was searched. -/
theorem searches_ok {error : Error → Prop} (outward : ∀ {e}, e.isInternal = false → error e) {name : String}
    {id : NodeId} (own : signature.name = name) : Searches error name (.ok (id, signature)) where
  missing := nofun
  matching := by
    rintro _ ⟨⟩ _ _ failed
    exact outward (outward_matchCall own _ _ failed)

/-- A search in coherent tables finds a definition of the name, if it finds one. -/
theorem searches_function (h : c.Coherent) {error : Error → Prop} (outward : ∀ {e}, e.isInternal = false → error e)
    (name : String) : Searches error name (c.function name) := by
  unfold Context.function
  cases found : c.functions.lookup name with
  | none => exact searches_error outward rfl
  | some id =>
    obtain ⟨signature, node, own⟩ := h.functions found
    dsimp only
    rw [node]
    exact searches_ok outward own

/-- What is found among the mixins is a mixin of that name, so that searching for one fails for reasons of the
stylesheet. -/
theorem searches_mixin (h : c.Coherent) {error : Error → Prop} (outward : ∀ {e}, e.isInternal = false → error e)
    (name : String) : Searches error name (c.mixin name) := by
  unfold Context.mixin
  cases found : c.mixins.lookup name with
  | none => exact searches_error outward rfl
  | some id =>
    obtain ⟨signature, node, own⟩ := h.mixins found
    dsimp only
    rw [node]
    exact searches_ok outward own

end Context.Coherent

/-- The tables are coherent, and internal errors come from a loader only. -/
def Invariant.coherent {τ : Type} (services : Services τ) : Invariant where
  known := Context.Coherent
  source _ := True
  error e := e.isInternal = true → ∃ uri s, (services.load uri s).1 = .error e
  congr := by
    rintro _ ⟨_, _, _, _, _⟩ rfl rfl rfl h
    exact ⟨h.functions, h.mixins⟩
  children _ _ _ := trivial
  interpolate _ _ := trivial
  enterFunction hr _ h := h.enterFunction hr
  enterMixin hr _ h := h.enterMixin hr
  outward outward internal := by
    rw [outward] at internal
    cases internal
  function name h := h.searches_function (fun outward internal => by rw [outward] at internal; cases internal) name
  mixin name h := h.searches_mixin (fun outward internal => by rw [outward] at internal; cases internal) name

/-! ## Walks from the root -/

section

variable {σ : Type} {K : Invariant} {services : Services σ}

/-- From where an invariant holds, walking through the children of the root goes on to where it holds, and to
the end of the children. -/
theorem walkChildren_upholds (hl : K.Loads services) (depth : Nat) {w : World σ} (consistent : w.tree.Consistent)
    {d : Nat} (hd : w.tree.Depth Tree.root d) (sources : ∀ c, K.source (w.tree.rose w.tree.size c))
    (known : K.known w.context) :
    let run := ((walker services depth).walkChildren Tree.root .stylesheet).exec w
    K.known run.2.context ∧ (∀ flow, run.1 = .ok flow → flow = .finished) ∧
      ∀ e, run.1 = .error (.failed e) → K.error e := by
  dsimp only
  have linked := consistent.linked
  obtain ⟨ids, block, around⟩ := hd.exists_around
  obtain ⟨⟨_, rs⟩, rfl, shape⟩ := linked.exists_shape hd (Nat.zero_le _)
  have site : w.tree.Site 0 Tree.root [] rs [] :=
    ⟨linked, Nat.zero_le _, ⟨d, hd⟩, by simpa using shape.children, fun _ => shape.of_mem⟩
  have outside : Mode.stylesheet ≠ .function → True := fun _ => trivial
  have matching := (walker_realizes rfl services.loadsAlike_refl depth).walkChildren outside site around
    (mirrors_bare ids w)
  have derived : Expansion.Upholds K (Yield.Finishes .stylesheet) ((deriver services depth).deriveChildren block
      .stylesheet (rs.map (Rose.map w.tree.node))) := by
    refine (deriver_upholds services hl depth).deriveChildren fun _ r hr => ?_
    obtain ⟨s, hs, rfl⟩ := List.mem_map.1 hr
    rw [← site.rose_eq hs]
    exact sources _
  have upheld := derived ⟨⟨Array.replicate ids.length default⟩, w.context.bare, w.loader⟩
    (K.known_withExtensions known [])
  -- worlds that mirror each other know the same
  have carry {u v : World σ} {old ids} (mirrors : Mirrors (· = ·) old ids u v) (h : K.known v.context) :
      K.known u.context := by
    have bare : K.known u.context.bare := by
      rw [mirrors.bare]
      exact K.known_withExtensions h []
    exact K.known_withExtensions bare u.context.extensions
  revert matching upheld
  generalize ((walker services depth).walkChildren Tree.root .stylesheet).exec w = X
  generalize ((deriver services depth).deriveChildren block .stylesheet _).exec _ = Y
  intro matching upheld
  cases matching with
  | @error stop u v kept =>
    obtain ⟨_, -, mirrors⟩ := kept.mirrors
    exact ⟨carry mirrors upheld.1, nofun, fun e he => upheld.2.2 e (by cases he; rfl)⟩
  | @ok flow u yield v ended =>
    obtain ⟨made, rfl⟩ := upheld.2.1 yield rfl nofun
    match flow, ended with
    | .finished, ended =>
      obtain ⟨_, -, mirrors⟩ := ended.kept.mirrors
      refine ⟨carry mirrors upheld.1, ?_, nofun⟩
      rintro _ ⟨⟩
      rfl

/-- So does compiling. -/
theorem compile_upholds (hl : K.Loads services) (depth : Nat) {w : World σ} (consistent : w.tree.Consistent)
    {d : Nat} (hd : w.tree.Depth Tree.root d) (sources : ∀ c, K.source (w.tree.rose w.tree.size c))
    (known : K.known w.context) :
    K.known ((compile services depth).exec w).2.context ∧
      ∀ e, ((compile services depth).exec w).1 = .error (.failed e) → K.error e := by
  have walked := walkChildren_upholds hl depth (w := { w with context := { w.context with extensions := [] } })
    consistent hd sources (K.known_withExtensions known [])
  unfold compile
  rw [exec_modifyContext_bind, exec_bind]
  revert walked
  generalize ((walker services depth).walkChildren Tree.root .stylesheet).exec _ = X
  rcases X with ⟨stop | flow, u⟩
  · exact fun walked => ⟨walked.1, fun e he => walked.2.2 e (by cases he; rfl)⟩
  · intro walked
    obtain rfl := walked.2.1 flow rfl
    exact ⟨K.known_withExtensions walked.1 [], nofun⟩

end

/-! ## Compilations one after the other -/

/-- What is known after some stylesheets have been compiled, one after the other and each to any end. In
between, variables can be given any values. -/
inductive Context.Compiled {σ : Type} (services : Services σ) : Context → Prop
  | empty : Compiled services .empty
  | assign {c : Context} (s : Scope) : Compiled services c → Compiled services (c.withScope s)
  | compile {c : Context} (depth d : Nat) (t : Tree) (loader : σ) : Compiled services c → t.Consistent →
    t.Depth Tree.root d → Compiled services ((compile services depth).exec ⟨t, c, loader⟩).2.context

section

variable {σ α β : Type} {services : Services σ}

/-- The loader of a compilation finds trees, and its own errors are the ones excepted. -/
theorem Invariant.coherent_loads (services : Services σ) : (Invariant.coherent services).Loads services :=
  ⟨fun failed _ => ⟨_, _, failed⟩, fun _ _ => trivial⟩

/-- The tables are coherent whatever has been compiled. -/
theorem Context.Compiled.coherent {c : Context} (h : c.Compiled services) : c.Coherent := by
  induction h with
  | empty => exact .empty
  | assign s _ ih => exact (Invariant.coherent services).known_withScope ih s
  | compile depth d t loader _ consistent hd ih =>
    exact (compile_upholds (Invariant.coherent_loads services) depth (w := ⟨t, _, loader⟩) consistent hd
      (fun _ => trivial) ih).1

/-! ## Values that are returned -/

/-- A step that never ends with a value that was returned, whatever world it runs in. -/
def Expansion.Unreturned (m : Expansion σ Flow) : Prop := ∀ w value, (m.exec w).1 ≠ .ok (.returned value)

namespace Expansion.Unreturned

/-- Finishing returns no value. -/
theorem finished : Unreturned (pure .finished : Expansion σ Flow) := fun _ _ => nofun

/-- Stopping returns no value. -/
theorem throw (e : Stop) : Unreturned (throw e : Expansion σ Flow) := fun _ _ => nofun

/-- Failing returns no value. -/
theorem fail (e : Error) : Unreturned (fail e : Expansion σ Flow) := fun _ _ => nofun

/-- The last step decides. -/
theorem of_bind {m : Expansion σ α} {f : α → Expansion σ Flow} (hf : ∀ a, Unreturned (f a)) :
    Unreturned (m >>= f) := by
  intro w value
  rw [exec_bind]
  rcases m.exec w with ⟨_ | a, w'⟩
  · exact nofun
  · exact hf a w' value

/-- What comes behind a step matters only if that step has finished. -/
theorem flow {m : Expansion σ Flow} {f : Flow → Expansion σ Flow} (hm : Unreturned m)
    (hf : Unreturned (f .finished)) : Unreturned (m >>= f) := by
  intro w value
  have first := hm w
  rw [exec_bind]
  revert first
  rcases m.exec w with ⟨_ | _ | returned, w'⟩
  · exact fun _ => nofun
  · exact fun _ => hf w' value
  · exact fun first => absurd rfl (first returned)

/-- A frame of its own returns nothing. -/
theorem inFrame {kind : FrameKind} {m : Expansion σ Flow} (hm : Unreturned m) : Unreturned (inFrame kind m) :=
  fun _ _ => by
    rw [exec_inFrame]
    exact hm _ _

variable {w : Walker σ} {mode : Mode} (h : ∀ id, Unreturned (w.traverse id mode))

include h

/-- Walking nodes in a row returns no value when no node does. -/
theorem walkNodes (ids : List NodeId) : Unreturned (w.walkNodes mode ids) := by
  induction ids with
  | nil => exact finished
  | cons id ids ih =>
    unfold Walker.walkNodes
    refine of_bind fun t => ?_
    split
    · exact (h id).flow ih
    · exact ih

/-- Walking the children from one of them on returns no value. -/
theorem walkFrom (parent : NodeId) (steps : Nat) (child : Option NodeId) :
    Unreturned (w.walkFrom parent mode steps child) := by
  induction steps generalizing child with
  | zero =>
    cases child with
    | none => exact finished
    | some child => exact throw _
  | succ steps ih =>
    cases child with
    | none => exact finished
    | some child =>
      unfold Walker.walkFrom
      exact of_bind fun t => (h child).flow (of_bind fun t => ih _)

/-- Walking the children of a node returns no value. -/
theorem walkChildren (id : NodeId) : Unreturned (w.walkChildren id mode) := of_bind fun _ => walkFrom h _ _ _

/-- One pass of a loop returns no value. -/
theorem pass (place : LoopPlace) (bound : Option (String × Value)) : Unreturned (w.pass place mode bound) :=
  inFrame <| by
    cases bound with
    | none => exact of_bind fun _ => of_bind fun _ => walkNodes h _
    | some bound => exact of_bind fun _ => of_bind fun _ => of_bind fun _ => walkNodes h _

/-- The passes of a counting loop return no value. -/
theorem passesFrom (place : LoopPlace) (name : String) (count : Nat) (i : Int) :
    Unreturned (w.passesFrom place mode name count i) := by
  induction count generalizing i with
  | zero => exact finished
  | succ count ih => exact (pass h place _).flow (ih _)

/-- The passes of a loop over values return no value. -/
theorem passesOver (place : LoopPlace) (name : String) (items : List Value) :
    Unreturned (w.passesOver place mode name items) := by
  induction items with
  | nil => exact finished
  | cons item items ih => exact (pass h place _).flow ih

/-- The passes of a loop with a condition return no value. -/
theorem passesWhile (services : Services σ) (place : LoopPlace) (condition : String) (steps : Nat) :
    Unreturned (Walker.passesWhile services w place mode condition steps) := by
  induction steps with
  | zero => exact throw _
  | succ steps ih =>
    refine of_bind fun go => ?_
    split
    · exact (pass h place none).flow ih
    · exact finished

/-- No directive that is expanded in its place returns a value. -/
theorem expandDirective (services : Services σ) (id : NodeId) :
    Unreturned (Walker.expandDirective services w id mode) := by
  unfold Walker.expandDirective
  refine of_bind fun t => of_bind fun parent => ?_
  -- a loop ends as its passes do
  have dropped {m : Expansion σ Flow} (hm : Unreturned m) : Unreturned (do
      let flow ← m
      modifyTree fun t => (t.setChildren id []).remove parent id
      pure flow) :=
    hm.flow (of_bind fun _ => finished)
  dsimp only
  split
  · refine dropped (of_bind fun low => of_bind fun high => ?_)
    split
    · exact fail _
    · exact passesFrom h _ _ _ _
  · exact dropped (of_bind fun value => passesOver h _ _ _)
  · exact dropped (passesWhile h services _ _ _)
  · refine of_bind fun t => of_bind fun chosen => ?_
    cases chosen with
    | none => exact of_bind fun moved => of_bind fun _ => walkNodes h _
    | some branch => exact of_bind fun t => of_bind fun moved => of_bind fun _ => walkNodes h _
  · exact fail _

/-- Only in the body of a function a node ends with a value. -/
theorem traverseWith (services : Services σ) (outside : mode ≠ .function) (id : NodeId) :
    Unreturned (Walker.traverseWith services w id mode) := by
  refine of_bind fun t => of_bind fun _ => ?_
  cases t.node id with
  | root | fontFace | keyframeBlock => exact walkChildren h id
  | assignment | extend | content | functionDefinition | mixinDefinition | functionCall | mixinCall
  | listDirective | declaration => repeat first | exact finished | refine of_bind fun _ => ?_
  | result value =>
    dsimp only
    rw [if_neg outside]
    exact fail _
  | block selectors =>
    refine of_bind fun s => of_bind fun _ => (walkChildren h id).flow (of_bind fun t => ?_)
    dsimp only
    split
    · exact finished
    · exact of_bind fun _ => of_bind fun _ => finished
  | comment | plain | vendor => exact finished
  | keyframes | media => exact of_bind fun _ => of_bind fun _ => walkChildren h id
  | importing i =>
    refine of_bind fun uri => ?_
    dsimp only
    split
    · exact of_bind fun _ => finished
    · exact of_bind fun _ => of_bind fun _ => of_bind fun _ => of_bind fun _ => walkNodes h _
  | nesting name =>
    exact of_bind fun _ => (walkChildren h id).flow (of_bind fun t => of_bind fun _ => of_bind fun _ => finished)
  | each | counting | whileLoop | conditional => exact expandDirective h services id
  | branch | otherwise => exact fail _

end Expansion.Unreturned

/-- At every depth, no node outside of functions ends its walk with a value. -/
theorem traverse_unreturned (services : Services σ) (depth : Nat) {mode : Mode} (outside : mode ≠ .function)
    (id : NodeId) : Unreturned (traverse services depth id mode) := by
  induction depth generalizing id with
  | zero =>
    rw [traverse]
    exact .throw _
  | succ depth ih =>
    rw [traverse]
    exact Unreturned.traverseWith ih services outside id

end

/-- **Internal errors are unreachable.** Whatever stylesheets a compiler has compiled before, and however that
ended, the compilation of another tree reports no internal error, unless it is one that its loader has
reported: no node is found to have left its place or to be no directive, no name in a table leads to something
else than a definition of its kind and name, and no value comes back from a mixin. Outside of functions no
node ends with a value, whatever the state is; the error is reported at the node that returns it, before
anything has changed. -/
theorem internal_errors_unreachable {σ : Type} (services : Services σ) :
    (∀ (c : Context) (loader : σ) (t : Tree) (depth d : Nat) (e : Error), c.Compiled services → t.Consistent →
      t.Depth Tree.root d → ((compile services depth).exec ⟨t, c, loader⟩).1 = .error (.failed e) →
        e.isInternal = false ∨ ∃ uri s, (services.load uri s).1 = .error e) ∧
    (∀ (depth : Nat) (id : NodeId) (mode : Mode) (w : World σ) (value : Value), mode ≠ .function →
      ((traverse services depth id mode).exec w).1 ≠ .ok (.returned value)) ∧
    ∀ (depth : Nat) (id : NodeId) (mode : Mode) (w : World σ) (value : Value), mode ≠ .function →
      w.tree.node id = .result value →
        (traverse services (depth + 1) id mode).exec w = (.error (.failed (.strayReturn value.text)), w) := by
  refine ⟨fun c loader t depth d e compiled consistent hd failed => ?_, fun depth id mode w value outside => ?_,
    fun depth id mode w value outside node => ?_⟩
  · have reported := (compile_upholds (Invariant.coherent_loads services) depth (w := ⟨t, c, loader⟩) consistent
      hd (fun _ => trivial) compiled.coherent).2 e failed
    cases internal : e.isInternal with
    | false => exact .inl rfl
    | true => exact .inr (reported internal)
  · exact traverse_unreturned services depth outside id w value
  · rw [traverse, Walker.traverseWith, exec_tree_bind]
    dsimp only
    rw [node]
    cases mode with
    | function => exact absurd rfl outside
    | stylesheet | mixin => rfl

/-- A mixin that returns a value is defined by a stylesheet that fails, and included by the next one. That one
fails at the node in the mixin, not at the include. -/
theorem internal_errors_unreachable_mixin :
    let t := Tree.ofNodes [⟨.mixinDefinition ⟨"m", []⟩, [⟨.result [.ident "a"], []⟩]⟩, ⟨.otherwise, []⟩]
    let c := ((compile Services.plain 5).exec ⟨t, .empty, ()⟩).2.context
    let run := (compile Services.plain 5).exec ⟨Tree.ofNodes [⟨.mixinCall ⟨"m", []⟩, []⟩], c, ()⟩
    c.Compiled Services.plain ∧ run.1 = .error (.failed (.strayReturn "a")) ∧
      ((Error.strayReturn "a").isInternal = false ∨
        ∃ uri s, (Services.plain.load uri s).1 = .error (.strayReturn "a")) ∧
      ((traverse Services.plain 5 ⟨2⟩ .mixin).exec ⟨t, c, ()⟩).1 ≠ .ok (.returned [.ident "a"]) ∧
      (traverse Services.plain 5 ⟨2⟩ .mixin).exec ⟨t, c, ()⟩ =
        (.error (.failed (.strayReturn (Value.text [.ident "a"]))), ⟨t, c, ()⟩) := by
  obtain ⟨reported, unreturned, misplaced⟩ := internal_errors_unreachable Services.plain
  have compiled (rs : List (Rose Node)) :
      ((compile Services.plain 5).exec ⟨.ofNodes rs, .empty, ()⟩).2.context.Compiled Services.plain :=
    .compile 5 0 _ () .empty (Tree.ofNodes_intact rs).consistent (Tree.ofNodes_isStylesheet rs).depth
  exact ⟨compiled _, by decide +kernel,
    reported _ () _ 5 0 _ (compiled _) (Tree.ofNodes_intact _).consistent (Tree.ofNodes_isStylesheet _).depth
      (show ((compile Services.plain 5).exec ⟨Tree.ofNodes [⟨.mixinCall ⟨"m", []⟩, []⟩],
        ((compile Services.plain 5).exec ⟨.ofNodes [⟨.mixinDefinition ⟨"m", []⟩, [⟨.result [.ident "a"], []⟩]⟩,
          ⟨.otherwise, []⟩], .empty, ()⟩).2.context, ()⟩).1 = .error (.failed (.strayReturn "a")) by
        decide +kernel),
    unreturned 5 ⟨2⟩ .mixin _ _ (by decide), misplaced 4 ⟨2⟩ .mixin _ [.ident "a"] (by decide) rfl⟩

end Stylesheet
