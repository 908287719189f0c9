import Stylesheet.Proofs.Binding.Agreement
import Stylesheet.Proofs.Derivation.Gaps
import Stylesheet.Proofs.Interpolation.Copies

/-! # Bodies in the place of includes

The body of a mixin is derived in a frame of its own. In a mixin without parameters nothing is bound there, and what
consists of blocks, declarations, comments, conditionals and of loops that name a variable assigns nothing either
(**`Rose.Inline`**). So the frame makes no difference (**`Shielded`**), and neither does the mode: what is derived
in it is derived without it (`deriver_inlines`). An include of such a mixin gives way to the body, filled with what
stands under the include (**`givesWay_include`**). -/

namespace Stylesheet

open Expansion

/-! ## What assigns nothing -/

/-- Blocks, declarations, comments, conditionals, and loops over a list or from a number to another. -/
def Node.isInline : Node → Bool
  | declaration _ _ _ | block _ | comment _ | nesting _ | counting _ | each _ _ | conditional | branch _
  | otherwise => true
  | _ => false

/-- Nodes of these kinds only. -/
def Rose.Inline (r : Rose Node) : Prop := ∀ n ∈ r.labels, n.isInline = true

namespace Rose.Inline

variable {r : Rose Node} {contents : List (Rose Node)}

/-- What stands under such nodes are such nodes. -/
theorem child (h : r.Inline) {c : Rose Node} (hc : c ∈ r.children) : c.Inline := fun _ hn =>
  h _ (Rose.mem_labels_of_mem_children hc hn)

/-- Interpolation changes no kinds. -/
theorem interpolate (h : r.Inline) (lookup : Lookup) : (r.interpolate lookup).Inline := by
  intro m hm
  obtain ⟨n, hn, rfl | rfl⟩ := Rose.exists_of_mem_interpolate hm
  · exact h m hn
  · have kept : (n.interpolate lookup).isInline = n.isInline := by cases n <;> rfl
    rw [kept]
    exact h n hn

/-- What is filled with such nodes, and else consists of them. -/
theorem fill (hc : ∀ c ∈ contents, c.Inline) (h : ∀ n ∈ r.labels, n.isInline = true ∨ n.isContent = true) :
    ∀ f ∈ r.fill contents, f.Inline := by
  induction r with
  | mk n rs ih =>
    rw [Rose.fill]
    split
    · exact hc
    · -- a node that is no place for content stays, with what is under it filled
      rename_i plain
      intro f hf m hm
      rw [List.mem_singleton] at hf
      subst hf
      rw [Rose.labels_mk, List.mem_cons, List.mem_flatMap] at hm
      rcases hm with rfl | ⟨g, hg, hm⟩
      · exact (h m (Rose.label_mem_labels _)).resolve_right plain
      · obtain ⟨c, hc', hg⟩ := List.mem_flatMap.1 hg
        exact ih c hc' (fun x hx => h x (Rose.mem_labels_of_mem_children (r := ⟨n, rs⟩) hc' hx)) g hg m hm

end Rose.Inline

/-- Without values placeholders stay as they are. -/
theorem interpolate_none (text : String) : Stylesheet.interpolate (fun _ => none) text = text := by
  unfold Stylesheet.interpolate
  rw [Text.replaceMatches_of_forall_none fun c cs => ?_, String.ofList_toList]
  unfold Interpolation.writing
  split <;> rfl

/-- Where nothing is bound, every placeholder stays. -/
theorem Rose.interpolate_none (r : Rose Node) : r.interpolate (fun _ => none) = r := by
  induction r with
  | mk n rs ih =>
    rw [Rose.interpolate]
    split
    · rfl
    · have same : n.mapTexts (Stylesheet.interpolate fun _ => none) = n.mapTexts id :=
        Node.mapTexts_congr fun text _ => Stylesheet.interpolate_none text
      rw [List.map_congr_left ih, List.map_id', Node.interpolate_eq_mapTexts, same]
      congr 1
      cases n <;> simp [Node.mapTexts]

section

variable {τ α β : Type}

/-! ## A frame with nothing in it -/

/-- Two worlds are the same, but that in the first one a frame of a call with nothing bound lies under those on
top. -/
structure Shielded (top : List Frame) (v v' : World τ) : Prop where
  tree : v.tree = v'.tree
  loader : v.loader = v'.loader
  context : v.context.withScope v'.context.scope = v'.context
  frames : ∃ f low, v.context.scope.frames = top ++ ⟨.call, []⟩ :: f :: low ∧
    v'.context.scope.frames = top ++ f :: low

namespace Shielded

variable {top : List Frame} {v v' : World τ}

/-- All variables have the same values with the frame and without it. -/
theorem get?_eq (h : Shielded top v v') : v.context.scope.get? = v'.context.scope.get? := by
  obtain ⟨f, low, eq, eq'⟩ := h.frames
  funext name
  show Frame.find? v.context.scope.frames name = Frame.find? v'.context.scope.frames name
  rw [eq, eq', Frame.find?_append, Frame.find?_append]
  rfl

/-- Functions have the same results. -/
theorem sharing (h : Shielded top v v') {A : List String} (covers : ∀ x ∈ v.context.reads, x ∈ A) :
    Sharing A [] v.context v'.context where
  functions := by rw [← h.context]; rfl
  definitions := by rw [← h.context]; rfl
  covers := covers
  frames := ⟨_, _, rfl, rfl, fun x _ => congrFun h.get?_eq x⟩

/-- The scopes are changed, and so are the frames on top. -/
theorem mapScope (h : Shielded top v v') {top' : List Frame} {g : Scope → Scope}
    (hg : ∀ s low, s.frames = top ++ low → low ≠ [] → (g s).frames = top' ++ low) :
    Shielded top' (v.mapScope g) (v'.mapScope g) := by
  obtain ⟨f, low, eq, eq'⟩ := h.frames
  refine ⟨h.tree, h.loader, ?_, f, low, hg _ _ eq (by simp), hg _ _ eq' (by simp)⟩
  rw [World.context_mapScope, World.context_mapScope, ← h.context]
  rfl

/-- The frame on top is closed. -/
theorem leave {f : Frame} (h : Shielded (f :: top) v v') :
    Shielded top (v.mapScope Scope.leave) (v'.mapScope Scope.leave) := by
  refine h.mapScope fun s low eq more => ?_
  obtain ⟨-, outer⟩ := List.cons.inj eq
  obtain ⟨g, gs, eq⟩ := List.exists_cons_of_ne_nil (List.append_ne_nil_of_right_ne_nil top more)
  rw [Scope.leave, outer, List.append_eq, eq]
  rfl

/-- The frame of the call itself is closed. -/
theorem leave_nil (h : Shielded [] v v') : v.mapScope Scope.leave = v' := by
  obtain ⟨f, low, eq, eq'⟩ := h.frames
  have scope : v.context.scope.leave = v'.context.scope := by
    obtain ⟨-, outer⟩ := List.cons.inj eq
    obtain ⟨inner, outer'⟩ := List.cons.inj eq'
    rw [Scope.leave, outer, ← inner, ← outer']
  obtain ⟨t, c, s⟩ := v
  obtain ⟨t', c', s'⟩ := v'
  obtain rfl : t = t' := h.tree
  obtain rfl : s = s' := h.loader
  show (⟨t, c.withScope c.scope.leave, s⟩ : World τ) = ⟨t, c', s⟩
  rw [show c.scope.leave = c'.scope from scope, show c.withScope c'.scope = c' from h.context]

end Shielded

/-- Two steps end alike, with results of which `P` tells, from worlds one of which has the frame. -/
def Aligned (P : α → Prop) (top : List Frame) (m m' : Expansion τ α) : Prop :=
  ∀ ⦃v v'⦄, Shielded top v v' →
    Matches (fun a w b w' => a = b ∧ P a ∧ Shielded top w w') (Shielded top) (m.exec v) (m'.exec v')

/-- A derivation that has come to its end. -/
def Yield.Finished (yield : Yield) : Prop := ∃ made, yield = .finished made

namespace Aligned

variable {top : List Frame} {P : α → Prop} {P' : β → Prop} {m m' : Expansion τ α} {f f' : α → Expansion τ β}

/-- A result alone is reached with the frame and without it. -/
theorem pure {a : α} (h : P a) : Aligned P top (pure a : Expansion τ α) (pure a) := fun _ _ hv => .ok ⟨rfl, h, hv⟩

/-- A failure comes with the frame and without it. -/
theorem fail (e : Error) : Aligned P top (fail e : Expansion τ α) (fail e) := fun _ _ hv => .error hv

/-- A stop comes with the frame and without it. -/
theorem throw (e : Stop) : Aligned P top (throw e : Expansion τ α) (throw e) := fun _ _ hv => .error hv

/-- Sequences of aligned steps are aligned. -/
theorem bind (hm : Aligned P top m m') (hf : ∀ a, P a → Aligned P' top (f a) (f' a)) :
    Aligned P' top (m >>= f) (m' >>= f') := fun _ _ hv =>
  (hm hv).bind (fun a _ b _ h => by obtain ⟨rfl, ha, hw⟩ := h; exact hf a ha hw) fun _ _ h => h

/-- The scopes that are read give the same values to all variables. -/
theorem scope_bind {f f' : Scope → Expansion τ β} (hf : ∀ s s', s.get? = s'.get? → Aligned P' top (f s) (f' s')) :
    Aligned P' top (scope >>= f) (scope >>= f') := fun _ _ hv => hf _ _ hv.get?_eq hv

/-- Both resolve a text alike. -/
theorem resolve_bind {text : String} {f f' : String → Expansion τ β} (hf : ∀ text, Aligned P' top (f text) (f' text)) :
    Aligned P' top (Walker.resolve text >>= f) (Walker.resolve text >>= f') := by
  unfold Walker.resolve
  rw [bind_assoc, bind_assoc]
  refine scope_bind fun s s' same => ?_
  rw [same]
  exact hf _

/-- Aligned derivations are aligned when they are wrapped in the same way. -/
theorem wrapped (φ : List (Rose Stem) → List (Rose Stem)) {derived derived' : Expansion τ Yield}
    (h : Aligned Yield.Finished top derived derived') :
    Aligned Yield.Finished top (Deriver.wrapped φ derived) (Deriver.wrapped φ derived') := by
  refine h.bind fun yield hy => ?_
  obtain ⟨made, rfl⟩ := hy
  exact pure ⟨_, rfl⟩

/-- Aligned derivations, one after the other, make the same. -/
theorem followedBy {first first' rest rest' : Expansion τ Yield} (h : Aligned Yield.Finished top first first')
    (h' : Aligned Yield.Finished top rest rest') :
    Aligned Yield.Finished top (Deriver.followedBy first rest) (Deriver.followedBy first' rest') := by
  refine h.bind fun yield hy => ?_
  obtain ⟨made, rfl⟩ := hy
  exact h'.wrapped _

/-- In the frame of a call the first step ends as the second one does, with a result of which `P` tells. -/
theorem exec_inFrame (h : Aligned P [] m m') (v : World τ) :
    (inFrame .call m).exec v = m'.exec v ∧ ∀ a, (m'.exec v).1 = .ok a → P a := by
  have ends := h (⟨rfl, rfl, rfl, v.context.scope.inner, v.context.scope.outer, rfl, rfl⟩ :
    Shielded [] (v.mapScope (·.enter .call)) v)
  rw [Expansion.exec_inFrame]
  revert ends
  rcases m.exec _ with ⟨x, w⟩
  rcases m'.exec v with ⟨x', w'⟩
  intro ends
  cases ends with
  | ok h =>
    obtain ⟨rfl, ha, shielded⟩ := h
    exact ⟨Prod.ext rfl shielded.leave_nil, fun b hb => by cases hb; exact ha⟩
  | error h => exact ⟨Prod.ext rfl h.leave_nil, nofun⟩

end Aligned

/-! ## Derivations -/

namespace Deriver

/-- What assigns nothing is derived alike in the body of a mixin with nothing bound and outside of it. -/
structure Inlines (d : Deriver τ) : Prop where
  evaluate : ∀ top value, Aligned (fun _ => True) top (d.evaluate value) (d.evaluate value)
  derive : ∀ top block (r : Rose Node), r.Inline →
    Aligned Yield.Finished top (d.derive block .mixin r) (d.derive block .stylesheet r)

namespace Inlines

variable {d : Deriver τ} (h : d.Inlines) {top : List Frame} {block : Option NodeId} {rs : List (Rose Node)}
  (hr : ∀ r ∈ rs, r.Inline)

include h hr

/-- A list of trees is derived alike with the frame and without it. -/
theorem deriveNodes :
    Aligned Yield.Finished top (d.deriveNodes block .mixin rs) (d.deriveNodes block .stylesheet rs) := by
  induction rs with
  | nil => exact .pure ⟨_, rfl⟩
  | cons r rs ih =>
    exact (h.derive top block r (hr r (.head _))).followedBy (ih fun r hm => hr r (.tail _ hm))

/-- The children of a node are derived alike with the frame and without it. -/
theorem deriveChildren :
    Aligned Yield.Finished top (d.deriveChildren block .mixin rs) (d.deriveChildren block .stylesheet rs) := by
  unfold Deriver.deriveChildren
  generalize d.steps = steps
  induction rs generalizing steps with
  | nil =>
    rw [deriveFrom.eq_1, deriveFrom.eq_1]
    exact .pure ⟨_, rfl⟩
  | cons r rs ih =>
    cases steps with
    | zero => exact .throw _
    | succ steps =>
      exact (h.derive top block r (hr r (.head _))).followedBy (ih (fun r hm => hr r (.tail _ hm)) steps)

/-! ### Loops and conditionals -/

/-- One pass of a loop that names a variable binds it in a frame of its own, so that the frame beneath does not
matter. -/
theorem pass (name : String) (value : Value) :
    Aligned Yield.Finished top (d.pass block .mixin rs (some (name, value)))
      (d.pass block .stylesheet rs (some (name, value))) := by
  intro v v' hv
  have entered : Shielded (⟨.loop, [⟨name, value⟩]⟩ :: top) (v.mapScope fun s => (s.enter .loop).define name value)
      (v'.mapScope fun s => (s.enter .loop).define name value) :=
    hv.mapScope fun s low eq _ => by rw [List.cons_append, ← eq]; rfl
  have copies : ∀ r ∈ rs.map (Rose.interpolate (Bindings.lookup [⟨name, value⟩])), r.Inline := by
    intro r hm
    obtain ⟨s, hs, rfl⟩ := List.mem_map.1 hm
    exact (hr s hs).interpolate _
  have derived : Aligned Yield.Finished (⟨.loop, [⟨name, value⟩]⟩ :: top)
      (d.deriveNodes block .mixin (rs.map (Rose.interpolate (Bindings.lookup [⟨name, value⟩]))))
      (d.deriveNodes block .stylesheet (rs.map (Rose.interpolate (Bindings.lookup [⟨name, value⟩])))) :=
    h.deriveNodes copies
  exact Matches.inFrame (m := modifyScope (·.define name value) >>= fun _ => Walker.innermostLookup >>= fun lookup =>
    d.deriveNodes block .mixin (rs.map (Rose.interpolate lookup))) (derived entered)
    (fun _ _ _ _ ended => ⟨ended.1, ended.2.1, ended.2.2.leave⟩) fun _ _ h => h.leave

/-- The passes of a counting loop are made alike with the frame and without it. -/
theorem passesFrom (name : String) (count : Nat) (i : Int) :
    Aligned Yield.Finished top (d.passesFrom block .mixin rs name count i)
      (d.passesFrom block .stylesheet rs name count i) := by
  induction count generalizing i with
  | zero => exact .pure ⟨_, rfl⟩
  | succ count ih => exact (h.pass hr _ _).followedBy (ih _)

/-- The passes of a loop over values are made alike with the frame and without it. -/
theorem passesOver (name : String) (items : List Value) :
    Aligned Yield.Finished top (d.passesOver block .mixin rs name items)
      (d.passesOver block .stylesheet rs name items) := by
  induction items with
  | nil => exact .pure ⟨_, rfl⟩
  | cons item items ih => exact (h.pass hr _ _).followedBy ih

/-- A counting loop is expanded alike with the frame and without it. -/
theorem expandCounting (loop : Counting) :
    Aligned Yield.Finished top (d.expandCounting block .mixin rs loop)
      (d.expandCounting block .stylesheet rs loop) := by
  have bound (which : String) (value : Value) :
      Aligned (fun _ => True) top (d.walker.bound which value) (d.walker.bound which value) := by
    refine (h.evaluate top value).bind fun result _ => ?_
    split
    · exact .pure trivial
    · exact .fail _
  refine (bound "from" loop.low).bind fun low _ => (bound "to" loop.high).bind fun high _ => ?_
  split
  · exact .fail _
  · exact h.passesFrom hr _ _ _

/-- A loop over the items of a list is expanded alike with the frame and without it. -/
theorem expandEach (name : String) (list : Value) :
    Aligned Yield.Finished top (d.expandEach block .mixin rs name list)
      (d.expandEach block .stylesheet rs name list) :=
  (h.evaluate top list).bind fun _ _ => h.passesOver hr _ _

omit h in
/-- The branch chosen assigns nothing. -/
theorem choose (services : Services τ) :
    Aligned (fun chosen => ∀ r ∈ (chosen.map Rose.children).getD [], r.Inline) top (Deriver.choose services rs)
      (Deriver.choose services rs) := by
  induction rs with
  | nil => exact .pure fun r hm => by simp at hm
  | cons r rs ih =>
    have here : ∀ c ∈ r.children, c.Inline := fun c hc => (hr r (.head _)).child hc
    have rest := ih fun r hm => hr r (.tail _ hm)
    unfold Deriver.choose
    split
    · have holds (condition : String) :
          Aligned (fun _ => True) top (Walker.holds services condition) (Walker.holds services condition) := by
        refine .scope_bind fun s s' same => ?_
        rw [same]
        split
        · exact .pure trivial
        · exact .fail _
        · exact .fail _
      refine (holds _).bind fun go _ => ?_
      split
      · exact .pure here
      · exact rest
    · exact .pure here
    · exact rest

/-! ### Nodes -/

omit hr in
/-- The work of one node, one level deeper. -/
theorem deriveWith (services : Services τ) {r : Rose Node} (inline : r.Inline) :
    Aligned Yield.Finished top (Deriver.deriveWith services d block .mixin r)
      (Deriver.deriveWith services d block .stylesheet r) := by
  have under : ∀ c ∈ r.children, c.Inline := fun c hc => inline.child hc
  have kind := inline r.label (Rose.label_mem_labels r)
  have allowed : Mode.mixin.allows r.label = .ok () := by
    revert kind
    cases r.label <;> intro kind <;> first | rfl | cases kind
  -- the body of a mixin may hold all of these nodes
  unfold Deriver.deriveWith
  rw [allowed, Mode.allows_stylesheet]
  refine Aligned.bind (Aligned.pure (P := fun _ => True) trivial) fun _ _ => ?_
  revert kind
  cases r.label with
  | declaration name value important =>
    exact fun _ => (h.evaluate top value).bind fun result _ => .resolve_bind fun name => .pure ⟨_, rfl⟩
  | block selectors =>
    refine fun _ => .scope_bind fun s s' same => ?_
    rw [same]
    intro v v' hv
    rw [exec_changeTree_bind, exec_changeTree_bind, hv.tree]
    exact (h.deriveChildren under).wrapped _ ⟨rfl, hv.loader, hv.context, hv.frames⟩
  | comment _ => exact fun _ => .pure ⟨_, rfl⟩
  | nesting name => exact fun _ => .resolve_bind fun name => (h.deriveChildren under).wrapped _
  | counting c => exact fun _ => h.expandCounting under c
  | each name list => exact fun _ => h.expandEach under name list
  | conditional => exact fun _ => (choose under services).bind fun chosen hc => h.deriveNodes hc
  | branch _ | otherwise => exact fun _ => .fail _
  | _ => nofun

end Inlines

end Deriver

/-- Values are evaluated alike, since the functions that they call find the same variables. -/
theorem aligned_evaluate (services : Services τ) (depth : Nat) (top : List Frame) (value : Value) :
    Aligned (fun _ => True) top ((deriver services depth).evaluate value)
      ((deriver services depth).evaluate value) := by
  intro v v' hv
  cases depth with
  | zero => exact .throw hv
  | succ depth =>
    -- values are evaluated aside, where only variables could tell the two worlds apart
    have steady : Steady (Value.names value ++ v.context.reads) []
        ((bodyDeriver services.conditions depth).evaluateWith value) :=
      (bodyDeriver_uniform services.conditions depth).evaluateWith fun x hx => .inr (List.mem_append_left _ hx)
    have sharing := hv.sharing (A := Value.names value ++ v.context.reads) fun x hx => List.mem_append_right _ hx
    have same : (((bodyDeriver services.conditions depth).evaluateWith value).exec ⟨⟨#[]⟩, v.context.bare, ()⟩).1 =
        (((bodyDeriver services.conditions depth).evaluateWith value).exec ⟨⟨#[]⟩, v'.context.bare, ()⟩).1 :=
      steady.same sharing.bare
    show Matches _ _ ((((bodyDeriver services.conditions depth).evaluateWith value).exec _).1, v)
      ((((bodyDeriver services.conditions depth).evaluateWith value).exec _).1, v')
    rw [← same]
    generalize (((bodyDeriver services.conditions depth).evaluateWith value).exec _).1 = x
    cases x with
    | ok a => exact .ok ⟨rfl, trivial, hv⟩
    | error e => exact .error hv

/-- Down to every depth. -/
theorem deriver_inlines (services : Services τ) (depth : Nat) : (deriver services depth).Inlines := by
  induction depth with
  | zero => exact ⟨aligned_evaluate services 0, fun _ _ _ _ => .throw _⟩
  | succ depth ih =>
    exact ⟨aligned_evaluate services (depth + 1), fun top block r inline => ih.deriveWith services inline⟩

/-! ## Includes -/

/-- A mixin without parameters is known under a name, and this is its body. -/
def Context.KnowsMixin (c : Context) (name : String) (body : List (Rose Node)) : Prop :=
  ∃ id, c.mixin name = .ok (id, ⟨name, []⟩) ∧ Deriver.bodyOf c id = body

/-- A mixin that has just been entered is known. -/
theorem Context.knowsMixin_enterMixin (c : Context) (name : String) (body : List (Rose Node)) :
    (c.enterMixin name ⟨.mixinDefinition ⟨name, []⟩, body⟩).KnowsMixin name body := by
  have stored := Tree.stores_plant (⟨.mixinDefinition ⟨name, []⟩, body⟩ : Rose Node) c.definitions
  refine ⟨(Tree.plant ⟨.mixinDefinition ⟨name, []⟩, body⟩ c.definitions).1, ?_, ?_⟩
  · unfold Context.mixin Context.enterMixin
    simp only [List.lookup_cons, beq_self_eq_true, stored.node_eq, Rose.label_mk]
  · unfold Deriver.bodyOf Context.enterMixin
    dsimp only
    rw [stored.rose_eq, Rose.children_mk]

/-- What is known of mixins does not depend on extensions. -/
theorem Context.KnowsMixin.of_bare {c c' : Context} {name : String} {body : List (Rose Node)}
    (h : c.KnowsMixin name body) (bare : c.bare = c'.bare) : c'.KnowsMixin name body := by
  obtain ⟨id, known, rfl⟩ := h
  refine ⟨id, by rw [← mixin_eq_of_bare bare, known], ?_⟩
  rw [Deriver.bodyOf, Deriver.bodyOf, definitions_eq_of_bare bare]

/-- An include without arguments gives way to the body of the mixin, filled with what stands under the include. -/
theorem givesWay_include (services : Services τ) {call : Invocation} (bare : call.arguments.arguments = [])
    {body contents : List (Rose Node)} (inline : ∀ r ∈ body.flatMap (Rose.fill contents), r.Inline) :
    GivesWay services (fun v => v.context.KnowsMixin call.name body) ⟨.mixinCall call, contents⟩
      (body.flatMap (Rose.fill contents)) := by
  rintro v ⟨id, known, rfl⟩ depth block
  show (Deriver.deriveWith services (deriver services depth) block .stylesheet _).exec v = _
  unfold Deriver.deriveWith
  rw [Rose.label_mk, Mode.allows_stylesheet, exec_ofExcept_ok_bind, Rose.children_mk]
  dsimp only
  have collated : Walker.matchCall call.name ⟨call.name, []⟩ [] = .ok [] := if_pos rfl
  have nothing : (deriver services depth).walker.arguments call.arguments = pure [] := by
    rw [Walker.arguments, bare]
    rfl
  generalize hf : (Deriver.bodyOf v.context id).flatMap (Rose.fill contents) = filled at inline
  have aligned : Aligned Yield.Finished [] ((deriver services depth).deriveNodes block .mixin filled)
      ((deriver services depth).deriveNodes block .stylesheet filled) :=
    (deriver_inlines services depth).deriveNodes inline
  obtain ⟨same, finished⟩ := aligned.exec_inFrame v
  -- nothing is bound, so the copies are the nodes themselves
  have framed : (inFrame .call do
        (deriver services depth).walker.bindParameters []
        let lookup ← Walker.innermostLookup
        (deriver services depth).deriveNodes block .mixin (filled.map (Rose.interpolate lookup))).exec v =
      ((deriver services depth).deriveNodes block .stylesheet filled).exec v := by
    have unbound : (v.mapScope (·.enter .call)).context.scope.innermost.lookup = fun _ => none := rfl
    rw [← same, exec_inFrame, exec_inFrame]
    dsimp only [Walker.bindParameters]
    rw [exec_pure_bind, exec_innermostLookup_bind, unbound, List.map_congr_left fun r _ => Rose.interpolate_none r,
      List.map_id']
  unfold Deriver.includeMixin
  rw [exec_context_bind, known, exec_ofExcept_ok_bind, nothing, exec_pure_bind, collated, exec_ofExcept_ok_bind,
    exec_bind, hf, framed]
  revert finished
  rcases ((deriver services depth).deriveNodes block .stylesheet filled).exec v with ⟨_ | yield, w⟩
  · exact fun _ => rfl
  · intro finished
    obtain ⟨made, rfl⟩ := finished yield rfl
    rfl

end

end Stylesheet
