import Stylesheet.Proofs.Expansion.Unrolling
import Stylesheet.Proofs.Tree.Reach

/-! # Rejected directives and calls

Before a counting loop makes a pass its bounds are evaluated, and before a body is copied for a call its
arguments are, which may run any function there is. When it turns out then that there is nothing to be
done, as a bound is no integer, or the bounds are the wrong way round, or the name is not defined, or the
arguments do not fit the parameters, the directive is **rejected** (**`Rejected`**). All that has happened
by then is that the world has grown (**`World.Grown`**): a step that is **refused** (**`Refused`**) fails in
a world that is as it was but for new nodes, which nothing refers to.

The causes are stated in the world that is found, although the second bound is evaluated in the one that
the first bound leaves: evaluation has the same result in every world that has grown. -/

namespace Stylesheet

open Expansion

section

variable {σ α β : Type} {w w' w'' : World σ} {e : Error}

/-! ## Worlds that grow -/

/-- Nothing that was there has changed, but there may be more nodes in the tree. -/
structure World.Grown (w w' : World σ) : Prop where
  unmoved : Unmoved w w'
  tree : w.tree.Grown w'.tree

/-- A world has grown out of itself. -/
theorem World.Grown.refl (w : World σ) : w.Grown w := ⟨⟨rfl, rfl⟩, .refl _⟩

/-- A world that has grown further has grown out of the first one. -/
theorem World.Grown.trans (h : w.Grown w') (h' : w'.Grown w'') : w.Grown w'' :=
  ⟨trans_of Unmoved h.unmoved h'.unmoved, h.tree.trans h'.tree⟩

namespace Expansion.Echoes

variable {τ : Type} {m : Expansion σ α} {f : Expansion τ α} {v : World τ}

/-- A step that echoes lets the world grow. -/
theorem world_grown {L : σ → τ → Prop} (h : Echoes L m f) (hv : Alike L w v) : w.Grown (m.exec w).2 :=
  ⟨h.unmoved hv, h.grown hv⟩

/-- In a world that has grown the result is the same. -/
theorem result_eq_of_grown {L : σ → τ → Prop} (h : Echoes L m f) (hv : Alike L w v) (hw : w.Grown w') :
    (m.exec w').1 = (m.exec w).1 :=
  (Prod.mk.inj ((h.result (hv.of_unmoved hw.unmoved)).symm.trans (h.result hv))).1

end Expansion.Echoes

/-! ## Steps that are refused -/

/-- The step fails with this error in a world that has grown at most. -/
structure Expansion.Refused (m : Expansion σ α) (e : Error) (w : World σ) : Prop where
  error : (m.exec w).1 = .error (.failed e)
  grown : w.Grown (m.exec w).2

namespace Expansion.Refused

variable {m : Expansion σ α} {f : α → Expansion σ β}

/-- A step that fails at once is refused. -/
theorem fail : Refused (fail e : Expansion σ α) e w := ⟨rfl, .refl w⟩

/-- Reading the tree comes before being refused. -/
theorem tree_bind {f : Tree → Expansion σ β} (h : Refused (f w.tree) e w) : Refused (tree >>= f) e w :=
  ⟨h.error, h.grown⟩

/-- Reading the context comes before being refused. -/
theorem context_bind {f : Context → Expansion σ β} (h : Refused (f w.context) e w) :
    Refused (context >>= f) e w := ⟨h.error, h.grown⟩

/-- What follows a result that there is. -/
theorem ofExcept_ok_bind {x : Except Error α} {a : α} (hx : x = .ok a) (h : Refused (f a) e w) :
    Refused (ofExcept x >>= f) e w := by
  subst hx
  exact ⟨h.error, h.grown⟩

/-- Nothing follows a result that is an error. -/
theorem ofExcept_error_bind {x : Except Error α} (hx : x = .error e) : Refused (ofExcept x >>= f) e w := by
  subst hx
  exact ⟨rfl, .refl w⟩

/-- Nothing follows a step that is refused. -/
theorem bind (h : Refused m e w) : Refused (m >>= f) e w := by
  obtain ⟨error, grown⟩ := h
  rcases run : m.exec w with ⟨x, w₁⟩
  rw [run] at error grown
  cases error
  refine ⟨?_, ?_⟩ <;> rw [exec_bind, run]
  exact grown

/-- A step that echoes is refused in every world that has grown, if it fails in the world before. -/
theorem of_echoes {τ : Type} {L : σ → τ → Prop} {k : Expansion τ α} {v : World τ} (echoes : Echoes L m k)
    (hv : Alike L w v) (error : (m.exec w).1 = .error (.failed e)) (hw : w.Grown w') : Refused m e w' :=
  ⟨(echoes.result_eq_of_grown hv hw).trans error, echoes.world_grown (hv.of_unmoved hw.unmoved)⟩

/-- What follows a step that echoes is refused when it is in every world that has grown. The result is
known from a world before. -/
theorem after {τ : Type} {L : σ → τ → Prop} {k : Expansion τ α} {v : World τ} (echoes : Echoes L m k)
    (hv : Alike L w v) {a : α} (result : (m.exec w).1 = .ok a) (hw : w.Grown w')
    (next : ∀ u, w.Grown u → Refused (f a) e u) : Refused (m >>= f) e w' := by
  have same := (echoes.result_eq_of_grown hv hw).trans result
  have grown := echoes.world_grown (hv.of_unmoved hw.unmoved)
  rcases run : m.exec w' with ⟨x, w₁⟩
  rw [run] at same grown
  cases same
  obtain ⟨error, grown'⟩ := next w₁ (hw.trans grown)
  refine ⟨?_, ?_⟩ <;> rw [exec_bind, run]
  · exact error
  · exact grown.trans grown'

end Expansion.Refused

/-! ## What is rejected -/

/-- A counting loop, an include or a call as a statement is rejected: this is the error for which nothing
comes of it. -/
inductive Rejected (services : Services σ) (depth : Nat) (w : World σ) : Node → Error → Prop
  /-- The lower bound is no integer. -/
  | lowerBound {loop : Counting} {low : Value} :
      ((evaluate services depth loop.low).exec w).1 = .ok low → low.integer? = none →
      Rejected services depth w (.counting loop) (.fractionalBound "from" low.text)
  /-- The upper bound is no integer. -/
  | upperBound {loop : Counting} {low high : Value} {a : Int} :
      ((evaluate services depth loop.low).exec w).1 = .ok low → low.integer? = some a →
      ((evaluate services depth loop.high).exec w).1 = .ok high → high.integer? = none →
      Rejected services depth w (.counting loop) (.fractionalBound "to" high.text)
  /-- The lower bound is the greater one. -/
  | reversedBounds {loop : Counting} {low high : Value} {a b : Int} :
      ((evaluate services depth loop.low).exec w).1 = .ok low → low.integer? = some a →
      ((evaluate services depth loop.high).exec w).1 = .ok high → high.integer? = some b → b < a →
      Rejected services depth w (.counting loop) (.reversedBounds a b)
  /-- There is no mixin of the name. -/
  | undefinedMixin {call : Invocation} {e : Error} :
      w.context.mixin call.name = .error e → Rejected services depth w (.mixinCall call) e
  /-- The arguments do not fit the parameters of the mixin. -/
  | mixinArguments {call : Invocation} {definition : NodeId} {signature : Signature} {args : List Value}
      {e : Error} :
      w.context.mixin call.name = .ok (definition, signature) →
      (((walker services depth).arguments call.arguments).exec w).1 = .ok args →
      Walker.matchCall call.name signature args = .error e → Rejected services depth w (.mixinCall call) e
  /-- There is no function of the name. -/
  | undefinedFunction {call : Invocation} {args : List Value} {e : Error} :
      (((walker services depth).arguments call.arguments).exec w).1 = .ok args →
      Builtin.call? call.name args = .ok none → w.context.function call.name = .error e →
      Rejected services depth w (.functionCall call) e
  /-- The arguments do not fit the parameters of the function. -/
  | functionArguments {call : Invocation} {definition : NodeId} {signature : Signature} {args : List Value}
      {e : Error} :
      (((walker services depth).arguments call.arguments).exec w).1 = .ok args →
      Builtin.call? call.name args = .ok none → w.context.function call.name = .ok (definition, signature) →
      Walker.matchCall call.name signature args = .error e → Rejected services depth w (.functionCall call) e

variable {services : Services σ} {depth : Nat} (mode : Mode) (id : NodeId)

/-- What a bound is evaluated to tells what comes of it. -/
theorem exec_bound_fst (which : String) {value result : Value}
    (evaluated : ((evaluate services depth value).exec w).1 = .ok result) :
    (((walker services depth).bound which value).exec w).1 =
      match result.integer? with
      | some n => .ok n
      | none => .error (.failed (.fractionalBound which result.text)) := by
  unfold Walker.bound
  rw [exec_bind]
  have step : ((walker services depth).evaluate value).exec w = (evaluate services depth value).exec w := rfl
  rw [step]
  revert evaluated
  rcases (evaluate services depth value).exec w with ⟨x, w₁⟩
  rintro rfl
  dsimp only
  cases result.integer? <;> rfl

/-- A counting loop that is rejected makes no pass. -/
theorem Rejected.expandCounting {loop : Counting} (rejected : Rejected services depth w (.counting loop) e)
    (place : LoopPlace) : Refused ((walker services depth).expandCounting place mode loop) e w := by
  have bound (which : String) (value : Value) := (walker_realizes_bodyDeriver services depth).bound which value
  have aside := Alike.aside w
  unfold Walker.expandCounting
  cases rejected with
  | lowerBound low fractional =>
    refine .bind (.of_echoes (bound _ _) aside ?_ (.refl w))
    rw [exec_bound_fst _ low, fractional]
  | upperBound low integer high fractional =>
    refine .after (bound _ _) aside (by rw [exec_bound_fst _ low, integer]) (.refl w) fun u hu => ?_
    refine .bind (.of_echoes (bound _ _) aside ?_ hu)
    rw [exec_bound_fst _ high, fractional]
  | reversedBounds low integer high integer' lt =>
    refine .after (bound _ _) aside (by rw [exec_bound_fst _ low, integer]) (.refl w) fun u hu => ?_
    refine .after (bound _ _) aside (by rw [exec_bound_fst _ high, integer']) hu fun u _ => ?_
    rw [if_pos lt]
    exact .fail

/-- What needs the parent of a node is refused when there is none. -/
theorem Expansion.Refused.of_parent {f : NodeId → Expansion σ β}
    (h : ∀ parent, w.tree.parentOf id = .ok parent → Refused (f parent) e w) :
    ∃ e', Refused (ofExcept (w.tree.parentOf id) >>= f) e' w ∧ (w.tree.isAttached id = true → e' = e) := by
  cases placed : w.tree.parentOf id with
  | ok parent => exact ⟨e, .ofExcept_ok_bind rfl (h parent placed), fun _ => rfl⟩
  | error e' =>
    refine ⟨e', .ofExcept_error_bind rfl, fun attached => ?_⟩
    unfold Tree.parentOf at placed
    unfold Tree.isAttached at attached
    split at placed
    · cases placed
    · rename_i alone
      rw [alone] at attached
      cases attached

/-- A directive that is rejected keeps its place. -/
theorem Rejected.expandDirective {loop : Counting} (hn : w.tree.node id = .counting loop)
    (rejected : Rejected services depth w (.counting loop) e) :
    ∃ e', Refused (Walker.expandDirective services (walker services depth) id mode) e' w ∧
      (w.tree.isAttached id = true → e' = e) := by
  obtain ⟨e', refused, same⟩ := Refused.of_parent (w := w) id fun parent _ =>
    (rejected.expandCounting mode ⟨parent, id, w.tree.nextSibling? id⟩).bind
      (f := fun flow => do
        modifyTree fun t => (t.setChildren id []).remove parent id
        pure flow)
  refine ⟨e', .tree_bind ?_, same⟩
  rw [hn]
  exact refused

/-- An include that is rejected copies nothing. -/
theorem Rejected.includeMixin {call : Invocation}
    (rejected : Rejected services depth w (.mixinCall call) e) :
    ∃ e', Refused ((walker services depth).includeMixin id call) e' w ∧
      (w.tree.isAttached id = true → e' = e) := by
  refine (Refused.of_parent id fun parent _ => .context_bind ?_).imp fun e' h => ⟨.tree_bind h.1, h.2⟩
  cases rejected with
  | undefinedMixin unknown => exact .ofExcept_error_bind unknown
  | mixinArguments known args unfit =>
    refine .ofExcept_ok_bind known ?_
    refine .after ((walker_realizes_bodyDeriver services depth).arguments _) (.aside w) args (.refl w)
      fun u _ => ?_
    exact .ofExcept_error_bind unfit

/-- A call as a statement that is rejected does not reach a body. -/
theorem Rejected.call {call : Invocation} (rejected : Rejected services depth w (.functionCall call) e)
    {f : Option Value → Expansion σ α} :
    Refused (do
      let args ← (walker services depth).arguments call.arguments
      let result ← (walker services depth).call call.name args
      f result) e w := by
  -- a function is looked for in the context, which is the same in every world that has grown
  have invoked {args : List Value} (builtin : Builtin.call? call.name args = .ok none)
      (arguments : (((walker services depth).arguments call.arguments).exec w).1 = .ok args)
      (unfit : ∀ u : World σ, w.Grown u → Refused ((walker services depth).invoke call.name args) e u) :
      Refused (do
        let args ← (walker services depth).arguments call.arguments
        let result ← (walker services depth).call call.name args
        f result) e w := by
    refine .after ((walker_realizes_bodyDeriver services depth).arguments _) (.aside w) arguments (.refl w)
      fun u hu => .bind ?_
    unfold Walker.call
    exact .ofExcept_ok_bind builtin (unfit u hu)
  cases rejected with
  | undefinedFunction arguments builtin unknown =>
    refine invoked builtin arguments fun u hu => ?_
    unfold Walker.invoke
    refine .context_bind (.ofExcept_error_bind ?_)
    rw [hu.unmoved.context]
    exact unknown
  | functionArguments arguments builtin known unfit =>
    refine invoked builtin arguments fun u hu => ?_
    unfold Walker.invoke
    refine .context_bind ?_
    rw [hu.unmoved.context, known]
    exact .ofExcept_ok_bind rfl (.ofExcept_error_bind unfit)

/-- Only loops that count, includes and calls are rejected. -/
theorem Rejected.kind {n : Node} (rejected : Rejected services depth w n e) :
    (∃ loop, n = .counting loop) ∨ (∃ call, n = .mixinCall call) ∨ ∃ call, n = .functionCall call := by
  cases rejected <;> simp

/-- A node that is rejected is refused. It may be refused for another reason before, as it may not stand in
this kind of body or, where it needs a parent, has none. -/
theorem Rejected.refused (rejected : Rejected services depth w (w.tree.node id) e) :
    ∃ e', Refused (traverse services (depth + 1) id mode) e' w ∧
      (mode.allows (w.tree.node id) = .ok () →
        (w.tree.isAttached id = true ∨ ∃ call, w.tree.node id = .functionCall call) → e' = e) := by
  rw [traverse]
  unfold Walker.traverseWith
  cases allowed : mode.allows (w.tree.node id) with
  | error e' => exact ⟨e', .tree_bind (.ofExcept_error_bind allowed), by rintro ⟨⟩⟩
  | ok =>
    obtain ⟨loop, hn⟩ | ⟨call, hn⟩ | ⟨call, hn⟩ := rejected.kind
    · obtain ⟨e', refused, same⟩ := Rejected.expandDirective mode id hn (hn ▸ rejected)
      refine ⟨e', .tree_bind (.ofExcept_ok_bind allowed ?_), fun _ placed =>
        same (placed.resolve_right (by simp [hn]))⟩
      rw [hn]
      exact refused
    · obtain ⟨e', refused, same⟩ := Rejected.includeMixin id (hn ▸ rejected)
      refine ⟨e', .tree_bind (.ofExcept_ok_bind allowed ?_), fun _ placed =>
        same (placed.resolve_right (by simp [hn]))⟩
      rw [hn]
      exact refused.bind
    · refine ⟨e, .tree_bind (.ofExcept_ok_bind allowed ?_), fun _ _ => rfl⟩
      rw [hn]
      exact Rejected.call (hn ▸ rejected)

end

/-- **Rejection is atomic.** A counting loop with bounds that do not count up between integers, or an include
or a call as a statement with a name that is not defined or with arguments that do not fit, is left where it
stands: the context and the loader are as they were, and so is every node there was, with its parent and its
children. The nodes that evaluation has added are not linked to them.

The error is the one for which the node is rejected, if it may stand in this kind of body at all and has the
parent that loops and includes need. -/
theorem traverse_rejected {σ : Type} (services : Services σ) (depth : Nat) (mode : Mode) (id : NodeId)
    (w : World σ) (e : Error) (rejected : Rejected services depth w (w.tree.node id) e) :
    let run := (traverse services (depth + 1) id mode).exec w
    run.2.context = w.context ∧ run.2.loader = w.loader ∧ w.tree.size ≤ run.2.tree.size ∧
      (∀ x : NodeId, x.index < w.tree.size → run.2.tree.slot x = w.tree.slot x) ∧
      (∀ x y : NodeId, run.2.tree.parent? x = some y → w.tree.size ≤ x.index → w.tree.size ≤ y.index) ∧
      (∃ e', run.1 = .error (.failed e')) ∧
      (mode.allows (w.tree.node id) = .ok () →
        (w.tree.isAttached id = true ∨ ∃ call, w.tree.node id = .functionCall call) →
        run.1 = .error (.failed e)) := by
  intro run
  obtain ⟨e', refused, same⟩ := rejected.refused mode id
  refine ⟨refused.grown.unmoved.context, refused.grown.unmoved.loader, refused.grown.tree.size_le,
    fun x hx => refused.grown.tree.slot_eq hx, ?_, ⟨e', refused.error⟩, fun allowed placed => ?_⟩
  · exact fun x y hp hx => (refused.grown.tree.linked.parent hx hp).1
  · rw [← same allowed placed]
    exact refused.error

/-- A loop from 3 to 1, an include of a mixin without parameters that calls a function for an argument, and
a call of that function with an argument: to evaluate the call its body has been in the tree, but in the end
all three are where they were. -/
theorem traverse_rejected_each :
    let c := (Context.empty.enterFunction "f"
      ⟨.functionDefinition ⟨"f", []⟩, [⟨.result [.ident "a"], []⟩]⟩).enterMixin "m"
        ⟨.mixinDefinition ⟨"m", []⟩, [⟨.comment "b", []⟩]⟩
    let w : World Unit := ⟨Tree.ofNodes [⟨.counting ⟨"i", Counting.valueOf 3, Counting.valueOf 1, true⟩, []⟩,
      ⟨.mixinCall ⟨"m", [.call "f" []]⟩, []⟩, ⟨.functionCall ⟨"f", [.ident "a"]⟩, []⟩], c, ()⟩
    let run (id : NodeId) := (traverse Services.plain 4 id .stylesheet).exec w
    (run ⟨1⟩).1 = .error (.failed (.reversedBounds 3 1)) ∧
      (run ⟨2⟩).1 = .error (.failed (.argumentCount "m" 0 1)) ∧ 4 < (run ⟨2⟩).2.tree.size ∧
      (run ⟨3⟩).1 = .error (.failed (.argumentCount "f" 0 1)) ∧
      ∀ id ∈ [(⟨1⟩ : NodeId), ⟨2⟩, ⟨3⟩], (run id).2.context = w.context ∧
        ∀ x : NodeId, x.index < w.tree.size → (run id).2.tree.slot x = w.tree.slot x := by
  intro c w run
  have three : Value.integer? (Counting.valueOf 3) = some 3 := Counting.integer?_valueOf (by decide) (by decide)
  have one : Value.integer? (Counting.valueOf 1) = some 1 := Counting.integer?_valueOf (by decide) (by decide)
  have loop : Rejected Services.plain 3 w (w.tree.node ⟨1⟩) (.reversedBounds 3 1) :=
    .reversedBounds rfl three rfl one (by decide)
  have called : (((walker Services.plain 3).arguments [.call "f" []]).exec w).1 = .ok [[.ident "a"]] := by
    subst run w c
    rfl
  have mixin : Rejected Services.plain 3 w (w.tree.node ⟨2⟩) (.argumentCount "m" 0 1) :=
    .mixinArguments rfl called rfl
  have function : Rejected Services.plain 3 w (w.tree.node ⟨3⟩) (.argumentCount "f" 0 1) :=
    .functionArguments rfl rfl rfl rfl
  have error (id : NodeId) (e : Error) (attached : w.tree.isAttached id = true)
      (rejected : Rejected Services.plain 3 w (w.tree.node id) e) : (run id).1 = .error (.failed e) := by
    obtain ⟨-, -, -, -, -, -, error⟩ := traverse_rejected Services.plain 3 .stylesheet id w e rejected
    exact error (Mode.allows_stylesheet _) (.inl attached)
  refine ⟨error _ _ (by decide +kernel) loop, error _ _ (by decide +kernel) mixin, by decide +kernel,
    error _ _ (by decide +kernel) function, fun id hid => ?_⟩
  obtain ⟨e, rejected⟩ : ∃ e, Rejected Services.plain 3 w (w.tree.node id) e := by
    simp only [List.mem_cons, List.not_mem_nil, or_false] at hid
    obtain rfl | rfl | rfl := hid
    exacts [⟨_, loop⟩, ⟨_, mixin⟩, ⟨_, function⟩]
  obtain ⟨context, -, -, slots, -, -, -⟩ := traverse_rejected Services.plain 3 .stylesheet id w e rejected
  exact ⟨context, slots⟩

end Stylesheet
