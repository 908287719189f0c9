import Stylesheet.Proofs.Expansion.Walks

/-! # What expansion leaves of a scope

A call opens a frame that assignments do not get out of. **`Scope.ChangedInside`** relates two scopes with
frames of the same kinds that agree beyond the innermost call. Only the innermost frame has gained names, and
a name means what it did beyond the first frame that has it (**`Frame.Stops`**). A frame that is opened,
changed inside and closed again leaves no more than that, and one of a call leaves nothing
(`Scope.ChangedInside.leave_call`).

Every step of expansion changes the scope inside only, and in the body of a function it changes nothing
else of the context and does not turn to the loader (**`Isolated`**). Evaluating a value leaves both as
they were (**`Unmoved`**). This is shown for the steps of a walker from what holds of the walker, and then
for all depths (**`walker_isolates`**). -/

namespace Stylesheet

/-! ## Frames -/

namespace Frame

/-- An assignment of a name goes no further than a frame that has the name or that a call began with. -/
def Stops (f : Frame) (name : String) : Prop := f.binds name = true ∨ f.kind = .call

/-- What a name is bound to in each of some frames. -/
def values (name : String) (fs : List Frame) : List (Option Value) := fs.map (·.bindings.lookup name)

/-- Binding a name takes no other one away. -/
theorem binds_of_binds {f : Frame} {other : String} (h : f.binds other = true) (name : String) (value : Value) :
    (f.bind name value).binds other = true := by
  rw [binds_eq] at h ⊢
  by_cases e : other = name
  · rw [e, bind, Bindings.lookup_bind_self]
    rfl
  · rwa [bind, Bindings.lookup_bind_of_ne _ value e]

/-- Binding a name anew changes none of the names. -/
theorem binds_bind_of_binds {f : Frame} {name : String} (h : f.binds name = true) (value : Value) :
    (f.bind name value).binds = f.binds := by
  funext other
  by_cases e : other = name
  · rw [e, h]
    exact binds_of_binds h name value
  · rw [binds_eq, binds_eq, bind, Bindings.lookup_bind_of_ne _ value e]

/-- Binding a name anew in the nearest frame that has it changes none of the names. -/
theorem map_binds_of_rebind? {name : String} {value : Value} {fs gs : List Frame}
    (h : Scope.rebind? name value fs = some gs) : gs.map binds = fs.map binds := by
  fun_induction Scope.rebind? name value fs generalizing gs with
  | case1 => cases h
  | case2 f fs here =>
    cases h
    rw [List.map_cons, List.map_cons, binds_bind_of_binds here]
  | case3 => cases h
  | case4 f fs _ _ ih =>
    obtain ⟨rest, hr, rfl⟩ := Option.map_eq_some_iff.1 h
    rw [List.map_cons, List.map_cons, ih hr]

/-- Nor does it change another name, or the name itself beyond a frame that stops it. -/
theorem values_of_rebind? {name other : String} {value : Value} {fs gs : List Frame}
    (h : Scope.rebind? name value fs = some gs) :
    (other ≠ name → values other gs = values other fs) ∧
      ∀ {i f}, fs[i]? = some f → f.Stops name →
        values name (gs.drop (i + 1)) = values name (fs.drop (i + 1)) := by
  fun_induction Scope.rebind? name value fs generalizing gs with
  | case1 => cases h
  | case2 f fs here =>
    cases h
    refine ⟨fun ne => ?_, fun _ _ => rfl⟩
    rw [values, List.map_cons, bind, Bindings.lookup_bind_of_ne _ value ne]
    rfl
  | case3 => cases h
  | case4 f fs free inside ih =>
    obtain ⟨rest, hr, rfl⟩ := Option.map_eq_some_iff.1 h
    obtain ⟨others, behind⟩ := ih hr
    refine ⟨fun ne => ?_, fun {i g} at_i stops => ?_⟩
    · exact congrArg (_ :: ·) (others ne)
    · -- the first frame stops nothing, as it was passed
      cases i with
      | zero =>
        cases at_i
        exact absurd stops (not_or.2 ⟨free, inside⟩)
      | succ i => exact behind at_i stops

end Frame

/-! ## Scopes -/

namespace Scope

/-- The frames that lie beyond the innermost call. -/
def beyondCall : List Frame → List Frame
  | [] => []
  | f :: fs => if f.kind = .call then fs else beyondCall fs

/-- One scope came from the other by defining and assigning names in the innermost call. -/
structure ChangedInside (s s' : Scope) : Prop where
  kinds : s'.frames.map Frame.kind = s.frames.map Frame.kind
  beyond : beyondCall s'.frames = beyondCall s.frames
  inner : ∀ {name}, s.inner.binds name = true → s'.inner.binds name = true
  names : s'.outer.map Frame.binds = s.outer.map Frame.binds
  shielded : ∀ {name i f}, s.frames[i]? = some f → f.Stops name →
    Frame.values name (s'.frames.drop (i + 1)) = Frame.values name (s.frames.drop (i + 1))

namespace ChangedInside

/-- Nothing has changed. -/
theorem refl (s : Scope) : ChangedInside s s := ⟨rfl, rfl, id, rfl, fun _ _ => rfl⟩

/-- A frame that stops a name still does so. -/
theorem exists_stops {s s' : Scope} (h : ChangedInside s s') {name : String} {i : Nat} {f : Frame}
    (hf : s.frames[i]? = some f) (stops : f.Stops name) : ∃ f', s'.frames[i]? = some f' ∧ f'.Stops name := by
  have kind := congrArg (·[i]?) h.kinds
  simp only [List.getElem?_map, hf, Option.map_some, Option.map_eq_some_iff] at kind
  obtain ⟨f', hf', kind⟩ := kind
  refine ⟨f', hf', stops.imp (fun binds => ?_) kind.trans⟩
  cases i with
  | zero =>
    cases hf
    cases hf'
    exact h.inner binds
  | succ i =>
    have same := congrArg (·[i]?) h.names
    have hg : s.outer[i]? = some f := hf
    have hg' : s'.outer[i]? = some f' := hf'
    simp only [List.getElem?_map, hg, hg', Option.map_some, Option.some.injEq] at same
    rwa [same]

/-- Of two changes inside, both stop at the innermost call. -/
theorem trans {s s' s'' : Scope} (h : ChangedInside s s') (h' : ChangedInside s' s'') :
    ChangedInside s s'' where
  kinds := h'.kinds.trans h.kinds
  beyond := h'.beyond.trans h.beyond
  inner binds := h'.inner (h.inner binds)
  names := h'.names.trans h.names
  shielded hf stops := by
    obtain ⟨_, hf', stops'⟩ := h.exists_stops hf stops
    exact (h'.shielded hf' stops').trans (h.shielded hf stops)

/-- Defining a name changes the innermost frame. -/
theorem define (s : Scope) (name : String) (value : Value) : ChangedInside s (s.define name value) where
  kinds := rfl
  beyond := rfl
  inner binds := Frame.binds_of_binds binds name value
  names := rfl
  shielded _ _ := rfl

/-- A name that is bound anew is bound before the next call. -/
theorem beyondCall_of_rebind? {name : String} {value : Value} {fs gs : List Frame}
    (h : rebind? name value fs = some gs) : beyondCall gs = beyondCall fs := by
  fun_induction rebind? name value fs generalizing gs with
  | case1 => simp at h
  | case2 => cases h; rfl
  | case3 => simp at h
  | case4 f fs _ hc ih =>
    obtain ⟨rest, hr, rfl⟩ := Option.map_eq_some_iff.1 h
    simp [beyondCall, hc, ih hr]

/-- Assigning a name stays inside. -/
theorem set (s : Scope) (name : String) (value : Value) : ChangedInside s (s.set name value) := by
  have kinds := map_kind_set s name value
  unfold Scope.set at kinds ⊢
  -- at the top and right in a call the name is defined; elsewhere it is looked for up to the call
  split
  · exact define s name value
  next hi =>
    have hk : s.inner.kind ≠ .call := fun hk => hi (.inr hk)
    rw [if_neg hi] at kinds
    split
    next h =>
      rw [h] at kinds
      refine ⟨kinds, ?_, id, Frame.map_binds_of_rebind? h, fun {other i f} hf stops => ?_⟩
      · simp [frames, beyondCall, hk, beyondCall_of_rebind? h]
      · by_cases e : other = name
        · subst e
          cases i with
          | zero =>
            cases hf
            exact absurd stops hi
          | succ i =>
            obtain ⟨-, behind⟩ := @Frame.values_of_rebind? other other value _ _ h
            exact behind hf stops
        · simp only [frames, List.drop_succ_cons, Frame.values, List.map_drop]
          exact congrArg (List.drop i) ((Frame.values_of_rebind? h).1 e)
    · exact define s name value

/-- What happened in a call is gone when its frame is closed. -/
theorem leave_call {s s' : Scope} (h : ChangedInside (s.enter .call) s') : s'.leave = s := by
  obtain ⟨inner, outer⟩ := s'
  have hk : inner.kind = .call := by simpa [frames, enter] using congrArg List.head? h.kinds
  have hb := h.beyond
  -- the innermost frame is still the one of the call, and beyond it nothing changed
  simp only [frames, enter, beyondCall, hk, if_true] at hb
  subst hb
  rfl

/-- What happened in a frame that is none of a call, as in a pass of a loop, stays inside. -/
theorem leave_of_ne_call {s s' : Scope} {kind : FrameKind} (other : kind ≠ .call)
    (h : ChangedInside (s.enter kind) s') : ChangedInside s s'.leave := by
  obtain ⟨inner, outer⟩ := s'
  have hk := h.kinds
  have hb := h.beyond
  have hn := h.names
  simp only [frames, enter, List.map_cons, List.cons.injEq] at hk
  -- the frame is none of a call, so it does not count for what lies beyond
  simp only [frames, enter, beyondCall, hk.1, other, if_false] at hb
  cases outer with
  | nil => simp at hk
  | cons f fs =>
    simp only [enter, frames, List.map_cons, List.cons.injEq] at hn
    refine ⟨by simpa [frames, leave] using hk.2, by simpa [frames, leave, beyondCall] using hb,
      fun {name} binds => by rw [leave, hn.1]; exact binds, hn.2, fun {name i g} hg stops => ?_⟩
    -- every frame lies one further out while this one is open
    exact h.shielded (i := i + 1) hg stops

end ChangedInside

end Scope

/-! ## Worlds -/

/-- Neither the context nor the loader changed. -/
structure Unmoved {σ : Type} (w w' : World σ) : Prop where
  context : w'.context = w.context
  loader : w'.loader = w.loader

/-- The scope did not change. -/
structure SameScope {σ : Type} (w w' : World σ) : Prop where
  scope : w'.context.scope = w.context.scope

/-- The scope changed inside only. In the body of a function nothing else of the context changed, and
the loader was not asked. -/
structure Isolated {σ : Type} (mode : Mode) (w w' : World σ) : Prop where
  scope : Scope.ChangedInside w.context.scope w'.context.scope
  context : mode = .function → w'.context = w.context.withScope w'.context.scope
  loader : mode = .function → w'.loader = w.loader

section

open Expansion

variable {σ α : Type}

/-- Leaving context and loader alone is reflexive and transitive. -/
instance : IsPreorder (World σ) Unmoved where
  refl _ := ⟨rfl, rfl⟩
  trans _ _ _ h h' := ⟨h'.context.trans h.context, h'.loader.trans h.loader⟩

/-- Keeping the scope is reflexive and transitive. -/
instance : IsPreorder (World σ) SameScope where
  refl _ := ⟨rfl⟩
  trans _ _ _ h h' := ⟨h'.scope.trans h.scope⟩

/-- What is isolated step by step is isolated in the end. -/
instance (mode : Mode) : IsPreorder (World σ) (Isolated mode) where
  refl w := ⟨.refl _, fun _ => rfl, fun _ => rfl⟩
  trans _ _ _ h h' :=
    ⟨h.scope.trans h'.scope, fun hm => by rw [h'.context hm, h.context hm]; rfl,
      fun hm => (h'.loader hm).trans (h.loader hm)⟩

/-- A world that did not move is isolated. -/
theorem Unmoved.isolated {w w' : World σ} (h : Unmoved w w') (mode : Mode) : Isolated mode w w' where
  scope := by rw [h.context]; exact .refl _
  context _ := by rw [h.context]; rfl
  loader _ := h.loader

/-- A world that did not move has the same scope. -/
theorem Unmoved.sameScope {w w' : World σ} (h : Unmoved w w') : SameScope w w' := ⟨by rw [h.context]⟩

/-- Outside of functions the scope is all that matters. -/
theorem SameScope.isolated {w w' : World σ} (h : SameScope w w') {mode : Mode}
    (hm : mode ≠ .function) : Isolated mode w w' where
  scope := by rw [h.scope]; exact .refl _
  context hf := absurd hf hm
  loader hf := absurd hf hm

namespace Expansion

/-- The tree is no part of what is unmoved. -/
theorem unmoved_modifyTree (f : Tree → Tree) : Keeps Unmoved (modifyTree f : Expansion σ Unit) :=
  fun _ => ⟨rfl, rfl⟩

/-- The tree is no part of what is unmoved, nor is what is read from it. -/
theorem unmoved_changeTree (f : Tree → α × Tree) : Keeps Unmoved (changeTree f : Expansion σ α) :=
  fun _ => ⟨rfl, rfl⟩

/-- Defining a name binds it in the innermost frame. -/
theorem isolated_define (mode : Mode) (name : String) (value : Value) :
    Keeps (Isolated mode) (modifyScope (·.define name value) : Expansion σ Unit) :=
  fun _ => ⟨.define _ _ _, fun _ => rfl, fun _ => rfl⟩

/-- Assigning a name gets no further than the innermost call. -/
theorem isolated_set (mode : Mode) (name : String) (value : Value) :
    Keeps (Isolated mode) (modifyScope (·.set name value) : Expansion σ Unit) :=
  fun _ => ⟨.set _ _ _, fun _ => rfl, fun _ => rfl⟩

/-- Outside of functions the rest of the context may change, as long as the scope stays. -/
theorem isolated_modifyContext {mode : Mode} (hm : mode ≠ .function) {f : Context → Context}
    (hf : ∀ c, (f c).scope = c.scope) : Keeps (Isolated mode) (modifyContext f : Expansion σ Unit) :=
  fun w => ⟨by simp [hf, Scope.ChangedInside.refl], fun h => absurd h hm, fun h => absurd h hm⟩

/-- A step in the frame of a call leaves the scope as it was. -/
theorem sameScope_inFrame_call {mode : Mode} {body : Expansion σ α} (h : Keeps (Isolated mode) body) :
    Keeps SameScope (inFrame .call body) :=
  fun w => ⟨(h (w.mapScope (·.enter .call))).scope.leave_call⟩

/-- A step in the frame of a call inside of a function leaves no trace in the context. -/
theorem unmoved_inFrame_call {body : Expansion σ α} (h : Keeps (Isolated .function) body) :
    Keeps Unmoved (inFrame .call body) := fun w => by
  have inside := h (w.mapScope (·.enter .call))
  refine ⟨?_, inside.loader rfl⟩
  rw [exec_inFrame, World.context_mapScope, inside.scope.leave_call, inside.context rfl]
  rfl

/-- A step in the frame of a loop is as isolated as the step itself. -/
theorem isolated_inFrame_loop {mode : Mode} {body : Expansion σ α} (h : Keeps (Isolated mode) body) :
    Keeps (Isolated mode) (inFrame .loop body) := fun w => by
  have inside := h (w.mapScope (·.enter .loop))
  refine ⟨inside.scope.leave_of_ne_call (by decide), fun hm => ?_, inside.loader⟩
  rw [exec_inFrame, World.context_mapScope, inside.context hm]
  rfl

end Expansion

/-! ## Walkers -/

/-- A walker that evaluates values without moving the world and expands nodes in isolation. -/
structure Walker.Isolates (w : Walker σ) : Prop where
  evaluate : ∀ value, Keeps Unmoved (w.evaluate value)
  traverse : ∀ id mode, Keeps (Isolated mode) (w.traverse id mode)

namespace Walker.Isolates

variable {w : Walker σ}

/-- Values are evaluated in isolation too. -/
theorem isolated_evaluate (h : w.Isolates) (mode : Mode) (value : Value) :
    Keeps (Isolated mode) (w.evaluate value) :=
  (h.evaluate value).mono fun _ _ hw => hw.isolated mode

/-- The tree is no part of what is isolated. -/
theorem isolated_modifyTree (mode : Mode) (f : Tree → Tree) :
    Keeps (Isolated mode) (modifyTree f : Expansion σ Unit) :=
  (unmoved_modifyTree f).mono fun _ _ hw => hw.isolated mode

/-- The tree is no part of what is isolated, nor is what is read from it. -/
theorem isolated_changeTree (mode : Mode) (f : Tree → α × Tree) :
    Keeps (Isolated mode) (changeTree f : Expansion σ α) :=
  (unmoved_changeTree f).mono fun _ _ hw => hw.isolated mode

/-! ### Calls -/

/-- Parameters are bound in the innermost frame. -/
theorem bindParameters (h : w.Isolates) (mode : Mode) (collated : List (String × Argument)) :
    Keeps (Isolated mode) (w.bindParameters collated) :=
  .bindParameters (h.isolated_evaluate mode) (isolated_define mode) collated

/-- Calling a function leaves the context as it was. -/
theorem invoke (h : w.Isolates) (name : String) (arguments : List Value) :
    Keeps Unmoved (w.invoke name arguments) := by
  unfold Walker.invoke
  refine Keeps.context.bind fun c => (Keeps.ofExcept _).bind fun found => (Keeps.ofExcept _).bind
    fun collated => (unmoved_changeTree _).bind fun body => ?_
  refine Keeps.bind (unmoved_inFrame_call ?_) fun flow => (unmoved_modifyTree _).bind fun _ => ?_
  · exact (h.bindParameters _ collated).bind fun _ => Keeps.innermostLookup.bind fun _ =>
      (isolated_modifyTree _ _).bind fun _ => .walkChildren (h.traverse · .function) body
  · cases flow <;> exact .pure _

/-- Including a mixin leaves the scope as it was. -/
theorem includeMixin (h : w.Isolates) (id : NodeId) (invocation : Invocation) :
    Keeps SameScope (w.includeMixin id invocation) := by
  have still {β : Type} {m : Expansion σ β} (hm : Keeps Unmoved m) : Keeps SameScope m :=
    hm.mono fun _ _ hw => hw.sameScope
  unfold Walker.includeMixin
  refine Keeps.tree.bind fun t => (Keeps.ofExcept _).bind fun parent => Keeps.context.bind fun c => ?_
  refine (Keeps.ofExcept _).bind fun found => (still (.arguments h.evaluate _)).bind fun args => ?_
  refine (Keeps.ofExcept _).bind fun collated => (still (unmoved_changeTree _)).bind fun body => ?_
  refine (still (unmoved_modifyTree _)).bind fun _ => ?_
  -- only the body of the mixin changes the scope, in the frame of the call
  refine (sameScope_inFrame_call (.placeBody (h.bindParameters .mixin collated)
    (fun _ _ => isolated_modifyTree _ _) (h.traverse · .mixin))).bind fun flow => ?_
  cases flow with
  | finished => exact .pure _
  | returned value => exact .fail _

/-! ### Directives -/

/-- What a pass does in its frame, once the variable of the loop is bound. -/
theorem copied (h : w.Isolates) (place : LoopPlace) (mode : Mode) :
    Keeps (Isolated mode) (Walker.innermostLookup >>= fun lookup =>
      changeTree (fun t => Tree.spliceAfter (Tree.copyInterpolated lookup) place.parent
        (t.passAnchor place.parent place.id place.next) (t.children place.id) t) >>= fun copies =>
      w.walkNodes mode copies) :=
  Keeps.innermostLookup.bind fun _ => (isolated_changeTree mode _).bind fun _ =>
    .walkNodes (h.traverse · mode) _

/-- One pass of a loop has a frame of its own. -/
theorem pass (h : w.Isolates) (place : LoopPlace) (mode : Mode) (bound : Option (String × Value)) :
    Keeps (Isolated mode) (w.pass place mode bound) := by
  refine isolated_inFrame_loop ?_
  cases bound with
  | none => exact h.copied place mode
  | some b => exact (isolated_define _ _ _).bind fun _ => h.copied place mode

/-- The chosen branch of a conditional is expanded in the scope around it. -/
theorem expandConditional (services : Services σ) (h : w.Isolates) (parent id : NodeId) (mode : Mode) :
    Keeps (Isolated mode) (Walker.expandConditional services w parent id mode) := by
  refine Keeps.tree.bind fun t => (Keeps.choose services _).bind fun chosen => ?_
  have moved (ids : List NodeId) : Keeps (Isolated mode) (do
      modifyTree fun t => ((t.moveAfter parent id ids).setChildren id []).remove parent id
      w.walkNodes mode ids) :=
    (isolated_modifyTree mode _).bind fun _ => .walkNodes (h.traverse · mode) ids
  cases chosen with
  | none => exact (Keeps.pure _).bind moved
  | some branch => exact Keeps.tree.bind fun t => (Keeps.pure _).bind moved

/-- Every directive that is expanded in its place. -/
theorem expandDirective (services : Services σ) (h : w.Isolates) (id : NodeId) (mode : Mode) :
    Keeps (Isolated mode) (Walker.expandDirective services w id mode) := by
  refine Keeps.tree.bind fun t => (Keeps.ofExcept _).bind fun parent => ?_
  -- every loop is dropped in the end, whatever its passes have come to
  have loop {m : Expansion σ Flow} (hm : Keeps (Isolated mode) m) : Keeps (Isolated mode) (do
      let flow ← m
      modifyTree fun t => (t.setChildren id []).remove parent id
      pure flow) :=
    hm.bind fun flow => (isolated_modifyTree mode _).bind fun _ => .pure _
  dsimp only
  split
  · exact loop (.expandCounting (h.isolated_evaluate mode) fun _ => h.pass _ mode _)
  · exact loop (.expandEach (h.isolated_evaluate mode) (fun _ => h.pass _ mode _) _)
  · exact loop (.passesWhile services (h.pass _ mode none) _ _)
  · exact expandConditional services h _ _ _
  · exact .fail _

/-! ### Nodes -/

/-- An assignment changes the scope inside. -/
theorem assign (h : w.Isolates) (mode : Mode) (id : NodeId) (name : String) (value : Value)
    (guarded : Bool) : Keeps (Isolated mode) (w.assign id name value guarded) := by
  unfold Walker.assign
  refine Keeps.scope.bind fun s => ?_
  dsimp only
  split
  · exact isolated_modifyTree mode _
  · exact (h.isolated_evaluate mode value).bind fun _ => (isolated_set _ _ _).bind fun _ =>
      isolated_modifyTree mode _

/-- A block has no frame, so what it assigns stays. -/
theorem traverseBlock (h : w.Isolates) (id : NodeId) (selectors : List String) (mode : Mode) :
    Keeps (Isolated mode) (w.traverseBlock id selectors mode) := by
  refine Keeps.scope.bind fun s => (isolated_modifyTree mode _).bind fun _ =>
    (Keeps.walkChildren (h.traverse · mode) id).flow ?_ fun _ => rfl
  refine Keeps.tree.bind fun t => ?_
  dsimp only
  split
  · exact .pure _
  · exact (Keeps.ofExcept _).bind fun parent => (isolated_modifyTree mode _).bind fun _ => .pure _

/-- Nested declarations have no frame. -/
theorem traverseNesting (h : w.Isolates) (id : NodeId) (name : String) (mode : Mode) :
    Keeps (Isolated mode) (w.traverseNesting id name mode) := by
  refine (Keeps.resolve name).bind fun name =>
    (Keeps.walkChildren (h.traverse · mode) id).flow ?_ fun _ => rfl
  exact Keeps.tree.bind fun t => (Keeps.ofExcept _).bind fun parent =>
    (isolated_modifyTree mode _).bind fun _ => .pure _

/-- Extensions may be noted outside of functions. -/
theorem recordExtension {mode : Mode} (hm : mode ≠ .function) (id : NodeId) (targets : List String) :
    Keeps (Isolated mode) (Walker.recordExtension id targets : Expansion σ Unit) := by
  unfold Walker.recordExtension
  refine Keeps.tree.bind fun t => ?_
  dsimp only
  split
  · refine Keeps.bind (isolated_modifyContext hm ?_) fun _ => isolated_modifyTree mode _
    exact fun c => rfl
  · exact isolated_modifyTree mode _

/-- The loader may be turned to outside of functions. -/
theorem load (services : Services σ) {mode : Mode} (hm : mode ≠ .function) (uri : String) :
    Keeps (Isolated mode) (Walker.load services uri) := by
  unfold Walker.load
  refine Keeps.bind (fun w => ⟨.refl _, fun h => absurd h hm, fun h => absurd h hm⟩) fun loaded =>
    (Keeps.ofExcept _).bind fun source => ?_
  cases source with
  | none => exact .fail _
  | some source => exact .pure _

/-- An import is expanded in the scope around it. -/
theorem traverseImport (services : Services σ) (h : w.Isolates) {mode : Mode} (hm : mode ≠ .function)
    (id : NodeId) (i : Import) : Keeps (Isolated mode) (Walker.traverseImport services w id i mode) := by
  refine (Keeps.resolve _).bind fun uri => ?_
  dsimp only
  split
  · exact (isolated_modifyTree mode _).bind fun _ => .pure _
  · exact (load services hm uri).bind fun source => Keeps.tree.bind fun t =>
      (Keeps.ofExcept _).bind fun parent => (isolated_changeTree mode _).bind fun grafted =>
      .walkNodes (h.traverse · mode) grafted

/-- Editing a list assigns a variable. -/
theorem traverseList (h : w.Isolates) (mode : Mode) (id : NodeId) (d : ListDirective) :
    Keeps (Isolated mode) (w.traverseList id d) :=
  (h.isolated_evaluate mode _).bind fun _ => (h.isolated_evaluate mode _).bind fun _ =>
    (isolated_set _ _ _).bind fun _ => isolated_modifyTree mode _

/-- Expanding a node by its kind. -/
theorem traverseWith (services : Services σ) (h : w.Isolates) (id : NodeId) (mode : Mode) :
    Keeps (Isolated mode) (Walker.traverseWith services w id mode) := by
  refine Keeps.tree.bind fun t => Keeps.ofExcept_bind fun _ allowed => ?_
  have evaluated (value : Value) := h.isolated_evaluate mode value
  have changed (f : Tree → Tree) : Keeps (Isolated mode) (modifyTree f : Expansion σ Unit) :=
    isolated_modifyTree mode f
  -- what changes more than the scope is not allowed in functions
  have outside (hf : Mode.function.allows (t.node id) ≠ .ok ()) : mode ≠ .function := by
    rintro rfl
    exact hf allowed
  cases hn : t.node id with
  | root | fontFace | keyframeBlock => exact .walkChildren (h.traverse · mode) id
  | assignment name value guarded => exact (h.assign mode id _ _ _).bind fun _ => .pure _
  | result value =>
    dsimp only
    split
    · exact (evaluated _).bind fun _ => .pure _
    · exact .fail _
  | declaration name value important =>
    exact (evaluated _).bind fun _ => (Keeps.resolve _).bind fun _ => (changed _).bind fun _ => .pure _
  | block selectors => exact h.traverseBlock id _ mode
  | comment | plain | vendor => exact .pure _
  | keyframes keyword name =>
    exact (Keeps.resolve _).bind fun _ => (changed _).bind fun _ => .walkChildren (h.traverse · mode) id
  | media query =>
    exact (Keeps.resolve _).bind fun _ => (changed _).bind fun _ => .walkChildren (h.traverse · mode) id
  | importing i => exact traverseImport services h (outside (by simp [hn, Mode.allows])) id _
  | extend targets =>
    exact (recordExtension (outside (by simp [hn, Mode.allows])) id _).bind fun _ => .pure _
  | content => exact (changed _).bind fun _ => .pure _
  | functionDefinition signature =>
    refine Keeps.tree.bind fun _ => Keeps.bind
      (isolated_modifyContext (outside (by simp [hn, Mode.allows])) ?_) fun _ =>
      (changed _).bind fun _ => .pure _
    exact fun c => rfl
  | mixinDefinition signature =>
    refine Keeps.tree.bind fun _ => Keeps.bind
      (isolated_modifyContext (outside (by simp [hn, Mode.allows])) ?_) fun _ =>
      (changed _).bind fun _ => .pure _
    exact fun c => rfl
  | functionCall c =>
    refine Keeps.bind ((Keeps.arguments h.evaluate _).mono fun _ _ hw => hw.isolated mode) fun args => ?_
    exact ((Keeps.call h.invoke _ args).mono fun _ _ hw => hw.isolated mode).bind fun _ =>
      (changed _).bind fun _ => .pure _
  | mixinCall c =>
    have hm := outside (by simp [hn, Mode.allows])
    exact ((h.includeMixin id _).mono fun _ _ hw => hw.isolated hm).bind fun _ => .pure _
  | nesting name => exact h.traverseNesting id _ mode
  | listDirective d => exact (h.traverseList mode id _).bind fun _ => .pure _
  | each | counting | whileLoop | conditional => exact expandDirective services h id mode
  | branch | otherwise => exact .fail _

end Walker.Isolates

/-! ## All depths -/

/-- The walker of each depth evaluates and expands in isolation. -/
theorem walker_isolates (services : Services σ) (depth : Nat) : (walker services depth).Isolates := by
  induction depth with
  | zero => exact ⟨fun _ => .throw _, fun _ _ => .throw _⟩
  | succ depth ih => exact ⟨.evaluateWith ih.evaluate ih.invoke, ih.traverseWith services⟩

/-- Expanding a node, however it ends, opens and closes no frame and leaves the frames beyond the
innermost call as they were. A mixin that is included and a function that is called leave the whole
scope as it was. -/
theorem traverse_keeps_frames (services : Services σ) (depth : Nat) (w : World σ) :
    (∀ id mode,
      let s' := ((traverse services depth id mode).exec w).2.context.scope
      s'.frames.map Frame.kind = w.context.scope.frames.map Frame.kind ∧
        Scope.beyondCall s'.frames = Scope.beyondCall w.context.scope.frames) ∧
      (∀ id invocation,
        (((walker services depth).includeMixin id invocation).exec w).2.context.scope =
          w.context.scope) ∧
      ∀ name arguments,
        (((walker services depth).invoke name arguments).exec w).2.context.scope =
          w.context.scope := by
  have h := walker_isolates services depth
  refine ⟨fun id mode => ?_, fun id invocation => (h.includeMixin id invocation w).scope,
    fun name arguments => (h.invoke name arguments w).sameScope.scope⟩
  have changed := (h.traverse id mode w).scope
  exact ⟨changed.kinds, changed.beyond⟩

end

end Stylesheet
