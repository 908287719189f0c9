import Stylesheet.Proofs.Derivation.Depth
import Stylesheet.Proofs.Value.Faults

/-! # What derivations uphold

An **`Invariant`** is a property of what is known, that is, of the definitions and of the tables that lead to
them. It comes with a property of the trees that are derived in a stylesheet, since only there can something
be defined, and with a property of the errors that can then arise. A step **upholds** an invariant when it goes
on from where it holds to where it holds, however it ends, and fails with such an error if at all
(**`Expansion.Upholds`**).

Derivations uphold all invariants that are kept by definitions of such trees (`deriver_upholds`). On the way it
is shown that a value is returned in the bodies of functions only (**`Yield.Finishes`**). -/

namespace Stylesheet

open Expansion

/-! ## Invariants -/

/-- What may come of a search for a definition of this name, and of matching its signature with arguments. -/
structure Searches (error : Error → Prop) (name : String) (found : Except Error (NodeId × Signature)) :
    Prop where
  missing : ∀ {e}, found = .error e → error e
  matching : ∀ {f}, found = .ok f → ∀ {args e}, Walker.matchCall name f.2 args = .error e → error e

/-- A property of what is known, of trees in a stylesheet, and of the errors that can arise. -/
structure Invariant where
  known : Context → Prop
  source : Rose Node → Prop
  error : Error → Prop
  congr : ∀ {c c' : Context}, c'.definitions = c.definitions → c'.functions = c.functions →
    c'.mixins = c.mixins → known c → known c'
  children : ∀ {r}, source r → ∀ s ∈ r.children, source s
  interpolate : ∀ {r} lookup, source r → source (r.interpolate lookup)
  enterFunction : ∀ {c r signature}, r.label = .functionDefinition signature → source r → known c →
    known (c.enterFunction signature.name r)
  enterMixin : ∀ {c r signature}, r.label = .mixinDefinition signature → source r → known c →
    known (c.enterMixin signature.name r)
  outward : ∀ {e}, e.isInternal = false → error e
  function : ∀ {c} name, known c → Searches error name (c.function name)
  mixin : ∀ {c} name, known c → Searches error name (c.mixin name)

namespace Invariant

variable {K : Invariant} {c : Context}

/-- Variables do not matter. -/
theorem known_withScope (hc : K.known c) (s : Scope) : K.known (c.withScope s) :=
  K.congr (c := c) rfl rfl rfl hc

/-- Nor do extensions. -/
theorem known_withExtensions (hc : K.known c) (extensions : List (NodeId × List String)) :
    K.known { c with extensions := extensions } := K.congr (c := c) rfl rfl rfl hc

end Invariant

/-- A loader whose errors can arise, and that finds such trees only. -/
structure Invariant.Loads {τ : Type} (K : Invariant) (services : Services τ) : Prop where
  error : ∀ {uri s e}, (services.load uri s).1 = .error e → K.error e
  source : ∀ {uri s t}, (services.load uri s).1 = .ok (some t) → ∀ c, K.source (t.rose t.size c)

/-- Outside of functions no value is returned. -/
def Yield.Finishes (mode : Mode) (yield : Yield) : Prop := mode ≠ .function → ∃ made, yield = .finished made

/-- What is finished is no value that is returned. -/
theorem Yield.finishes (mode : Mode) (made : List (Rose Stem)) : (Yield.finished made).Finishes mode :=
  fun _ => ⟨made, rfl⟩

section

variable {τ α β : Type} {K : Invariant}

/-! ## Steps -/

/-- From where the invariant holds the step goes on to where it holds. It has such a result, or fails with such
an error. -/
def Expansion.Upholds (K : Invariant) (Q : α → Prop) (m : Expansion τ α) : Prop :=
  ∀ v : World τ, K.known v.context → K.known (m.exec v).2.context ∧
    (∀ a, (m.exec v).1 = .ok a → Q a) ∧ ∀ e, (m.exec v).1 = .error (.failed e) → K.error e

namespace Expansion.Upholds

variable {Q : α → Prop} {Q' : β → Prop} {m : Expansion τ α} {f : α → Expansion τ β}

/-- A step that only has a result leaves what is known. -/
theorem pure {a : α} (h : Q a) : Upholds K Q (pure a : Expansion τ α) := fun _ hv =>
  ⟨hv, fun _ hb => by cases hb; exact h, nofun⟩

/-- Running out of depth is no error. -/
theorem deep : Upholds K Q (throw .tooDeep : Expansion τ α) := fun _ hv => ⟨hv, nofun, nofun⟩

/-- A step that fails has to fail with an error that can arise. -/
theorem fail {e : Error} (h : K.error e) : Upholds K Q (fail e : Expansion τ α) := fun _ hv =>
  ⟨hv, nofun, fun _ he => by cases he; exact h⟩

/-- Steps that uphold the invariant uphold it one after the other. -/
theorem bind (hm : Upholds K Q m) (hf : ∀ a, Q a → Upholds K Q' (f a)) : Upholds K Q' (m >>= f) := by
  intro v hv
  have first := hm v hv
  rw [exec_bind]
  revert first
  rcases m.exec v with ⟨e | a, v'⟩
  · exact fun first => ⟨first.1, nofun, fun e he => first.2.2 e (by cases he; rfl)⟩
  · exact fun first => hf a (first.2.1 a rfl) v' first.1

/-- The property of the result may be weakened. -/
theorem mono (hm : Upholds K Q m) {Q' : α → Prop} (h : ∀ a, Q a → Q' a) : Upholds K Q' m := fun v hv =>
  ⟨(hm v hv).1, fun a ha => h a ((hm v hv).2.1 a ha), (hm v hv).2.2⟩

/-- What is computed apart from the state fails with an error that can arise. -/
theorem ofExcept_bind {γ : Type} {x : Except Error γ} {f : γ → Expansion τ β} (hx : ∀ e, x = .error e → K.error e)
    (hf : ∀ a, x = .ok a → Upholds K Q' (f a)) : Upholds K Q' (Expansion.ofExcept x >>= f) := by
  cases x with
  | ok a => exact fun v => hf a rfl v
  | error e => exact fail (hx e rfl)

/-- What fails on its own fails for reasons of the stylesheet. -/
theorem outward_bind {γ : Type} {x : Except Error γ} {f : γ → Expansion τ β} (hx : Outward x)
    (hf : ∀ a, x = .ok a → Upholds K Q' (f a)) : Upholds K Q' (Expansion.ofExcept x >>= f) :=
  ofExcept_bind (fun e he => K.outward (hx e he)) hf

/-- Nothing is known of the scope that is read. -/
theorem scope_bind {f : Scope → Expansion τ β} (hf : ∀ s, Upholds K Q' (f s)) : Upholds K Q' (scope >>= f) :=
  fun v => hf v.context.scope v

/-- Nothing is known of the lookup that is read. -/
theorem lookup_bind {f : Lookup → Expansion τ β} (hf : ∀ lookup, Upholds K Q' (f lookup)) :
    Upholds K Q' (Walker.innermostLookup >>= f) := fun v => hf v.context.scope.innermost.lookup v

/-- Nothing is known of a text that is resolved. -/
theorem resolve_bind {text : String} {f : String → Expansion τ β} (hf : ∀ text, Upholds K Q' (f text)) :
    Upholds K Q' (Walker.resolve text >>= f) := fun v => hf (interpolate v.context.scope.get? text) v

/-- The invariant holds of the context that is read. -/
theorem context_bind {f : Context → Expansion τ β} (hf : ∀ c, K.known c → Upholds K Q' (f c)) :
    Upholds K Q' (context >>= f) := fun v hv => hf v.context hv v hv

/-- Variables and extensions do not matter. -/
theorem modifyContext {f : Context → Context} (hf : ∀ c, K.known c → K.known (f c)) :
    Upholds K (fun _ => True) (modifyContext f : Expansion τ Unit) := fun v hv =>
  ⟨hf v.context hv, fun _ _ => trivial, nofun⟩

/-- A change of the scope leaves what is known. -/
theorem modifyScope (f : Scope → Scope) : Upholds K (fun _ => True) (modifyScope f : Expansion τ Unit) :=
  modifyContext fun _ hc => K.known_withScope hc _

/-- A frame of its own does not matter to what is known. -/
theorem inFrame {kind : FrameKind} (h : Upholds K Q m) : Upholds K Q (inFrame kind m) := by
  intro v hv
  rw [exec_inFrame]
  have inside := h (v.mapScope (·.enter kind)) (K.known_withScope hv _)
  exact ⟨K.known_withScope inside.1 _, inside.2⟩

/-- What runs aside leaves the world alone. -/
theorem aside (h : Upholds K Q m) : Upholds K Q (aside m) := fun v hv =>
  ⟨hv, (h ⟨⟨#[]⟩, v.context.bare, v.loader⟩ (K.known_withExtensions hv [])).2⟩

/-- What is put together from steps that uphold the invariant upholds it. -/
theorem compositional : Compositional fun β (x _ : Expansion τ β) => Upholds K (fun _ => True) x :=
  ⟨fun _ => pure trivial, fun hx hf => hx.bind fun a _ => hf a⟩

/-! ## What is made -/

variable {mode : Mode} {derived first rest : Expansion τ Yield}

/-- Where nothing is made, no value is returned. -/
theorem nothing : Upholds K (Yield.Finishes mode) (Pure.pure (.finished []) : Expansion τ Yield) :=
  pure (Yield.finishes mode [])

/-- Putting what is made into something else returns no value. -/
theorem wrapped (φ : List (Rose Stem) → List (Rose Stem)) (h : Upholds K (Yield.Finishes mode) derived) :
    Upholds K (Yield.Finishes mode) (Deriver.wrapped φ derived) := by
  refine h.bind fun yield finishes => ?_
  cases yield with
  | finished made => exact pure (Yield.finishes mode _)
  | returned value => exact pure finishes

/-- Two steps that return no value outside of functions are such a step. -/
theorem followedBy (h : Upholds K (Yield.Finishes mode) first) (h' : Upholds K (Yield.Finishes mode) rest) :
    Upholds K (Yield.Finishes mode) (Deriver.followedBy first rest) := by
  refine h.bind fun yield finishes => ?_
  cases yield with
  | finished made => exact h'.wrapped _
  | returned value => exact pure finishes

end Expansion.Upholds

/-! ## Derivations -/

/-- A deriver that upholds an invariant in all that it does. -/
structure Deriver.Upholds (K : Invariant) (d : Deriver τ) : Prop where
  evaluate : ∀ value, Expansion.Upholds K (fun _ => True) (d.evaluate value)
  derive : ∀ block mode {r}, (mode = .stylesheet → K.source r) →
    Expansion.Upholds K (Yield.Finishes mode) (d.derive block mode r)

/-- Trees that can be derived in a mode: in a stylesheet those with the property. -/
def Invariant.Sources (K : Invariant) (mode : Mode) (rs : List (Rose Node)) : Prop :=
  mode = .stylesheet → ∀ r ∈ rs, K.source r

/-- Interpolation keeps the property of trees, and no text makes a tree return. -/
theorem Invariant.Sources.interpolate {mode : Mode} {rs : List (Rose Node)} (h : K.Sources mode rs)
    (lookup : Lookup) : K.Sources mode (rs.map (Rose.interpolate lookup)) := by
  intro hm r hr
  obtain ⟨s, hs, rfl⟩ := List.mem_map.1 hr
  exact K.interpolate lookup (h hm s hs)

namespace Deriver.Upholds

variable {d : Deriver τ} (h : d.Upholds K) {block : Option NodeId} {mode : Mode} {rs : List (Rose Node)}

include h

/-- Deriving a list of trees upholds the invariant. -/
theorem deriveNodes (hrs : K.Sources mode rs) :
    Expansion.Upholds K (Yield.Finishes mode) (d.deriveNodes block mode rs) := by
  induction rs with
  | nil => exact .nothing
  | cons r rs ih =>
    have first := h.derive block mode fun hm => hrs hm r (.head _)
    exact first.followedBy (ih fun hm r hr => hrs hm r (.tail _ hr))

/-- Deriving a list of trees step by step upholds the invariant. -/
theorem deriveFrom (steps : Nat) (hrs : K.Sources mode rs) :
    Expansion.Upholds K (Yield.Finishes mode) (d.deriveFrom block mode steps rs) := by
  induction rs generalizing steps with
  | nil =>
    rw [Deriver.deriveFrom.eq_1]
    exact .nothing
  | cons r rs ih =>
    cases steps with
    | zero => exact .deep
    | succ steps =>
      have first := h.derive block mode fun hm => hrs hm r (.head _)
      exact first.followedBy (ih steps fun hm r hr => hrs hm r (.tail _ hr))

/-- Deriving the children of a node upholds the invariant. -/
theorem deriveChildren (hrs : K.Sources mode rs) :
    Expansion.Upholds K (Yield.Finishes mode) (d.deriveChildren block mode rs) :=
  h.deriveFrom d.steps hrs

/-! ### Calls -/

/-- Evaluating the arguments of a call upholds the invariant. -/
theorem arguments (parameters : Value) : Expansion.Upholds K (fun _ => True) (d.walker.arguments parameters) :=
  Upholds.compositional.mapM d.evaluate d.evaluate h.evaluate _

/-- Binding the parameters of a call, to arguments or to defaults, upholds the invariant. -/
theorem bindParameters (collated : List (String × Argument)) :
    Expansion.Upholds K (fun _ => True) (d.walker.bindParameters collated) := by
  induction collated with
  | nil => exact .pure trivial
  | cons parameter rest ih =>
    obtain ⟨name, argument⟩ := parameter
    have bound (value : Value) : Expansion.Upholds K (fun _ => True)
        (Expansion.modifyScope (·.define name value) >>= fun _ => d.walker.bindParameters rest) :=
      (Upholds.modifyScope _).bind fun _ _ => ih
    unfold Walker.bindParameters
    cases argument with
    | given value => exact bound value
    | default value => exact (h.evaluate value).bind fun value _ => bound value

/-- What a function is found to be can be entered, so that a call of it upholds the invariant. -/
theorem invoke (name : String) (args : List Value) :
    Expansion.Upholds K (fun _ => True) (d.invoke name args) := by
  refine .context_bind fun c hc => ?_
  have searches := K.function name hc
  refine .ofExcept_bind (fun _ => searches.missing) fun found hfound =>
    .ofExcept_bind (fun _ => searches.matching hfound) fun collated _ => ?_
  refine Expansion.Upholds.bind (.aside (.inFrame ?_)) fun yield (_ : yield.Finishes .function) => ?_
  · exact (h.bindParameters collated).bind fun _ _ => .lookup_bind fun lookup => h.deriveChildren nofun
  · cases yield <;> exact .pure trivial

/-- A call upholds the invariant, whether or not it is of a function that is defined. -/
theorem call (name : String) (args : List Value) : Expansion.Upholds K (fun _ => True) (d.call name args) := by
  refine .outward_bind (Builtin.outward_call? name args) fun result _ => ?_
  cases result with
  | some value => exact .pure trivial
  | none => exact h.invoke name args

/-- Evaluating a value upholds the invariant. -/
theorem evaluateWith (value : Value) : Expansion.Upholds K (fun _ => True) (d.evaluateWith value) := by
  have ofVar (name : String) : Expansion.Upholds K (fun _ => True) (d.live.ofVar name) :=
    .scope_bind fun _ => .pure trivial
  have ofCall (name : String) (parameters : Value) :
      Expansion.Upholds K (fun _ => True) (d.live.ofCall name parameters) := by
    refine .context_bind fun c _ => ?_
    split
    · exact (h.arguments parameters).bind fun args _ => (h.call name args).bind fun _ _ => .pure trivial
    · exact .pure trivial
  have substituted : Expansion.Upholds K (fun _ => True) (Value.substitute d.live false value) :=
    Upholds.compositional.value_substitute d.live d.live ofVar ofCall false value
  refine substituted.bind fun substituted _ => ?_
  split
  · rw [← bind_pure (Expansion.ofExcept _)]
    exact .outward_bind (outward_evaluate substituted) fun _ _ => .pure trivial
  · exact .pure trivial

/-! ### Loops and conditionals -/

/-- One pass of a loop upholds the invariant. -/
theorem pass (hrs : K.Sources mode rs) (bound : Option (String × Value)) :
    Expansion.Upholds K (Yield.Finishes mode) (d.pass block mode rs bound) := by
  have copies : Expansion.Upholds K (Yield.Finishes mode) (Walker.innermostLookup >>= fun lookup =>
      d.deriveNodes block mode (rs.map (Rose.interpolate lookup))) :=
    .lookup_bind fun lookup => h.deriveNodes (hrs.interpolate lookup)
  refine Expansion.Upholds.inFrame ?_
  cases bound with
  | none => exact copies
  | some bound => exact (Upholds.modifyScope _).bind fun _ _ => copies

/-- The passes of a counting loop uphold the invariant. -/
theorem passesFrom (hrs : K.Sources mode rs) (name : String) (count : Nat) (i : Int) :
    Expansion.Upholds K (Yield.Finishes mode) (d.passesFrom block mode rs name count i) := by
  induction count generalizing i with
  | zero => exact .nothing
  | succ count ih => exact (h.pass hrs _).followedBy (ih (i + 1))

/-- The passes of a loop over values uphold the invariant. -/
theorem passesOver (hrs : K.Sources mode rs) (name : String) (items : List Value) :
    Expansion.Upholds K (Yield.Finishes mode) (d.passesOver block mode rs name items) := by
  induction items with
  | nil => exact .nothing
  | cons item items ih => exact (h.pass hrs _).followedBy ih

omit h in
/-- A condition leaves what is known, and its faults are errors of the stylesheet. -/
theorem holds (services : Services τ) (condition : String) :
    Expansion.Upholds K (fun _ => True) (Walker.holds services condition) := by
  refine .scope_bind fun s => ?_
  split
  · exact .pure trivial
  · exact .fail (K.outward rfl)
  · exact .fail (K.outward rfl)

/-- The passes of a loop with a condition uphold the invariant. -/
theorem passesWhile (services : Services τ) (hrs : K.Sources mode rs) (condition : String) (steps : Nat) :
    Expansion.Upholds K (Yield.Finishes mode)
      (Deriver.passesWhile services d block mode rs condition steps) := by
  induction steps with
  | zero => exact .deep
  | succ steps ih =>
    refine (holds services condition).bind fun b _ => ?_
    cases b with
    | true => exact (h.pass hrs none).followedBy ih
    | false => exact .nothing

/-- A counting loop upholds the invariant. -/
theorem expandCounting (hrs : K.Sources mode rs) (loop : Counting) :
    Expansion.Upholds K (Yield.Finishes mode) (d.expandCounting block mode rs loop) := by
  have bound (which : String) (value : Value) :
      Expansion.Upholds K (fun _ => True) (d.walker.bound which value) := by
    refine (h.evaluate value).bind fun result _ => ?_
    split
    · exact .pure trivial
    · exact .fail (K.outward rfl)
  refine (bound "from" loop.low).bind fun low _ => (bound "to" loop.high).bind fun high _ => ?_
  split
  · exact .fail (K.outward rfl)
  · exact h.passesFrom hrs _ _ _

/-- A loop over the items of a list upholds the invariant. -/
theorem expandEach (hrs : K.Sources mode rs) (name : String) (list : Value) :
    Expansion.Upholds K (Yield.Finishes mode) (d.expandEach block mode rs name list) :=
  (h.evaluate list).bind fun _ _ => h.passesOver hrs name _

omit h in
/-- Choosing a branch upholds the invariant, and the branch is one of those that are there. -/
theorem choose (services : Services τ) :
    Expansion.Upholds K (fun chosen => ∀ r, chosen = some r → r ∈ rs) (Deriver.choose services rs) := by
  induction rs with
  | nil => exact .pure nofun
  | cons r rs ih =>
    have rest : Expansion.Upholds K (fun chosen => ∀ s, chosen = some s → s ∈ r :: rs)
        (Deriver.choose services rs) := ih.mono fun _ ha s hs => List.mem_cons_of_mem r (ha s hs)
    have taken : ∀ s, some r = some s → s ∈ r :: rs := by
      rintro _ ⟨⟩
      exact List.mem_cons_self
    rw [Deriver.choose]
    split
    · refine (holds services _).bind fun b _ => ?_
      cases b with
      | true => exact .pure taken
      | false => exact rest
    · exact .pure taken
    · exact rest

/-- A conditional upholds the invariant. -/
theorem expandConditional (services : Services τ) (hrs : K.Sources mode rs) :
    Expansion.Upholds K (Yield.Finishes mode) (Deriver.expandConditional services d block mode rs) := by
  refine (choose services).bind fun chosen hchosen => h.deriveNodes fun hm r hr => ?_
  cases chosen with
  | none => simp at hr
  | some branch => exact K.children (hrs hm branch (hchosen branch rfl)) r hr

/-! ### Nodes -/

omit h in
/-- A stylesheet that is loaded consists of such trees. -/
theorem load {services : Services τ} (hl : K.Loads services) (uri : String) :
    Expansion.Upholds K (fun source : Tree => ∀ c, K.source (source.rose source.size c))
      (Walker.load services uri) := by
  intro v hv
  have failed {e : Error} : (services.load uri v.loader).1 = .error e → K.error e := hl.error
  have found {t : Tree} : (services.load uri v.loader).1 = .ok (some t) → ∀ c, K.source (t.rose t.size c) :=
    hl.source
  rw [Walker.exec_load]
  refine ⟨hv, ?_⟩
  revert failed found
  match (services.load uri v.loader).1 with
  | .ok (some source) => exact fun _ found => ⟨fun _ h => by cases h; exact found rfl, nofun⟩
  | .ok none => exact fun _ _ => ⟨nofun, fun _ h => by cases h; exact K.outward rfl⟩
  | .error e => exact fun failed _ => ⟨nofun, fun _ h => by cases h; exact failed rfl⟩

/-- An import upholds the invariant when its loader finds such trees only. -/
theorem deriveImport (services : Services τ) (hl : K.Loads services) (i : Import) :
    Expansion.Upholds K (Yield.Finishes mode) (Deriver.deriveImport services d block mode i rs) := by
  refine .resolve_bind fun uri => ?_
  dsimp only
  split
  · exact .pure (Yield.finishes mode _)
  · refine (load hl uri).bind fun source hsource => h.deriveNodes fun _ r hr => ?_
    obtain ⟨c, -, rfl⟩ := List.mem_map.1 hr
    exact hsource c

/-- The body of a mixin returns no value. -/
theorem includeMixin (invocation : Invocation) :
    Expansion.Upholds K (Yield.Finishes mode) (d.includeMixin block invocation rs) := by
  refine .context_bind fun c hc => ?_
  have searches := K.mixin invocation.name hc
  refine .ofExcept_bind (fun _ => searches.missing) fun found hfound => ?_
  refine (h.arguments invocation.arguments).bind fun args _ =>
    .ofExcept_bind (fun _ => searches.matching hfound) fun collated _ => ?_
  refine Expansion.Upholds.bind (.inFrame ?_) fun yield (finishes : yield.Finishes .mixin) => ?_
  · exact (h.bindParameters collated).bind fun _ _ => .lookup_bind fun lookup => h.deriveNodes nofun
  · obtain ⟨made, rfl⟩ := finishes nofun
    exact .pure (Yield.finishes mode made)

/-- An assignment upholds the invariant. -/
theorem assign (name : String) (value : Value) (guarded : Bool) :
    Expansion.Upholds K (fun _ => True) (d.assign name value guarded) := by
  refine .scope_bind fun s => ?_
  split
  · exact .pure trivial
  · exact (h.evaluate value).bind fun _ _ => .modifyScope _

/-- Editing a list upholds the invariant. -/
theorem editList (directive : ListDirective) :
    Expansion.Upholds K (fun _ => True) (d.editList directive) :=
  (h.evaluate directive.list).bind fun _ _ => (h.evaluate directive.items).bind fun _ _ => .modifyScope _

/-- What is derived from a tree, one level deeper. -/
theorem deriveWith (services : Services τ) (hl : K.Loads services) {r : Rose Node}
    (hr : mode = .stylesheet → K.source r) :
    Expansion.Upholds K (Yield.Finishes mode) (Deriver.deriveWith services d block mode r) := by
  have below : K.Sources mode r.children := fun hm => K.children (hr hm)
  have around (n : Node) : Expansion.Upholds K (Yield.Finishes mode)
      (Deriver.wrapped (Deriver.around n) (d.deriveChildren block mode r.children)) :=
    (h.deriveChildren below).wrapped _
  unfold Deriver.deriveWith
  refine .outward_bind (outward_allows mode _) fun _ allowed => ?_
  -- definitions stand in stylesheets only
  have defines (hm : Mode.mixin.allows r.label ≠ .ok ()) (hf : Mode.function.allows r.label ≠ .ok ()) :
      K.source r := by
    refine hr ?_
    cases mode with
    | stylesheet => rfl
    | mixin => exact absurd allowed hm
    | function => exact absurd allowed hf
  cases hn : r.label with
  | root | fontFace | keyframeBlock _ => exact around _
  | assignment name value guarded => exact (h.assign name value guarded).bind fun _ _ => .nothing
  | result value =>
    by_cases hf : mode = .function
    · simp only [if_pos hf]
      exact (h.evaluate value).bind fun _ _ => .pure fun outside => absurd hf outside
    · simp only [if_neg hf]
      exact .fail (K.outward rfl)
  | declaration name value important =>
    exact (h.evaluate value).bind fun _ _ => .resolve_bind fun _ => .pure (Yield.finishes mode _)
  | block selectors =>
    -- entering a block in the register leaves the context as it is
    refine .scope_bind fun s => fun v hv => ?_
    exact ((h.deriveChildren below).wrapped _) _ hv
  | comment _ | plain _ | vendor _ _ => exact .pure (Yield.finishes mode _)
  | keyframes keyword name => exact .resolve_bind fun _ => around _
  | media query => exact .resolve_bind fun _ => around _
  | importing i => exact h.deriveImport services hl i
  | extend targets =>
    refine Expansion.Upholds.bind (Q := fun _ => True) ?_ fun _ _ => .nothing
    cases block with
    | none => exact .pure trivial
    | some mark => exact .modifyContext fun _ hc => K.known_withExtensions hc _
  | content => exact .nothing
  | functionDefinition signature =>
    have source := defines (by rw [hn]; nofun) (by rw [hn]; nofun)
    exact (Upholds.modifyContext fun _ => K.enterFunction hn source).bind fun _ _ => .nothing
  | mixinDefinition signature =>
    have source := defines (by rw [hn]; nofun) (by rw [hn]; nofun)
    exact (Upholds.modifyContext fun _ => K.enterMixin hn source).bind fun _ _ => .nothing
  | functionCall c =>
    exact (h.arguments c.arguments).bind fun args _ => (h.call c.name args).bind fun _ _ => .nothing
  | mixinCall c => exact h.includeMixin c
  | nesting name => exact .resolve_bind fun _ => (h.deriveChildren below).wrapped _
  | listDirective directive => exact (h.editList directive).bind fun _ _ => .nothing
  | counting c => exact h.expandCounting below c
  | each name list => exact h.expandEach below name list
  | whileLoop condition => exact h.passesWhile services below condition d.steps
  | conditional => exact h.expandConditional services below
  | branch _ | otherwise => exact .fail (K.outward rfl)

end Deriver.Upholds

/-! ## Down to a depth -/

/-- What is evaluated aside leaves the world alone. -/
theorem Deriver.Upholds.evaluateAside {d : Deriver Unit} (h : d.Upholds K) (value : Value) :
    Expansion.Upholds K (fun _ => True) (d.evaluateAside value : Expansion τ Value) := fun v hv =>
  ⟨hv, (h.evaluateWith value ⟨⟨#[]⟩, v.context.bare, ()⟩ (K.known_withExtensions hv [])).2⟩

/-- Deriving the bodies of functions upholds every invariant, at every depth. -/
theorem bodyDeriver_upholds (K : Invariant) (conditions : String → Except String Literal) (depth : Nat) :
    (bodyDeriver conditions depth).Upholds K := by
  induction depth with
  | zero => exact ⟨fun _ => .deep, fun _ _ _ _ => .deep⟩
  | succ depth ih =>
    have unloaded : K.Loads (⟨conditions, fun _ s => (.ok none, s)⟩ : Services Unit) :=
      ⟨by rintro _ _ _ ⟨⟩, by rintro _ _ _ ⟨⟩⟩
    exact ⟨ih.evaluateAside, fun _ _ _ hr => ih.deriveWith _ unloaded hr⟩

/-- **Down to every depth**, derivations uphold what is kept when something is defined. -/
theorem deriver_upholds (services : Services τ) (hl : K.Loads services) (depth : Nat) :
    (deriver services depth).Upholds K := by
  induction depth with
  | zero => exact ⟨fun _ => .deep, fun _ _ _ _ => .deep⟩
  | succ depth ih =>
    exact ⟨(bodyDeriver_upholds K services.conditions depth).evaluateAside,
      fun _ _ _ hr => ih.deriveWith services hl hr⟩

end

end Stylesheet
