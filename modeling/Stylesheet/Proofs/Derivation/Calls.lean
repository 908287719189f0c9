import Stylesheet.Proofs.Derivation.Sequence

/-! # Calls that match

A function that is called puts a copy of its body into the tree, which has no parent and is emptied in
the end; so all that happens to the tree is that it grows. The body is expanded there as it is derived
aside, with the same parameters bound, and the value it returns is the same
(`Walker.Realizes.invoke`). It follows that evaluation echoes evaluation
(`Walker.Realizes.evaluateWith`). -/

namespace Stylesheet

open Expansion

section

variable {σ τ : Type} {L : σ → τ → Prop} {old : List (NodeId × List String)} {ids : List NodeId}
  {W : World σ} {V : World τ}

/-! ## Worlds with other scopes -/

/-- A place is kept whatever is done to the scopes of both worlds alike. -/
theorem Kept.mapScope {s : Spot} (h : Kept L old ids s W V) (f : Scope → Scope) :
    Kept L old ids s (W.mapScope f) (V.mapScope f) where
  contained := h.contained
  mirrors := by
    obtain ⟨ids', hi, hm⟩ := h.mirrors
    exact ⟨ids', hi, hm.mapScope f⟩

/-- A step has ended whatever is done to the scopes of both worlds alike. -/
theorem Ended.mapScope {s : Spot} {flow : Flow} {yield : Yield} (h : Ended L old ids s flow W yield V)
    (f : Scope → Scope) : Ended L old ids s flow (W.mapScope f) yield (V.mapScope f) := by
  match flow, yield, h with
  | .finished, .finished made, h =>
    obtain ⟨ids', rs, hi, hm, hr, hs⟩ := h.shapes
    exact ⟨ids', rs, hi, hm.mapScope f, hr, hs⟩
  | .returned value, .returned _, ⟨rfl, h⟩ => exact ⟨rfl, h.mapScope f⟩

/-- What runs aside runs in an empty tree and without extensions, and leaves nothing but its result. -/
theorem Expansion.exec_aside {α : Type} (m : Expansion τ α) (V : World τ) :
    (aside m).exec V = ((m.exec ⟨⟨#[]⟩, V.context.bare, V.loader⟩).1, V) := rfl

/-- The innermost lookup is that of the scope. -/
theorem Expansion.exec_innermostLookup_bind {α : Type} (f : Lookup → Expansion σ α) (W : World σ) :
    (Walker.innermostLookup >>= f).exec W = (f W.context.scope.innermost.lookup).exec W := rfl

/-- A node reads off with itself at the top. -/
theorem Tree.label_rose (t : Tree) (depth : Nat) (id : NodeId) : (t.rose depth id).label = t.node id := by
  cases depth <;> rfl

/-- A function that is known is the definition of one. -/
theorem Context.node_of_function {c : Context} {name : String} {id : NodeId} {signature : Signature}
    (h : c.function name = .ok (id, signature)) :
    c.definitions.node id = .functionDefinition signature := by
  unfold Context.function at h
  split at h
  · simp at h
  · split at h
    next hn =>
      simp only [Except.ok.injEq, Prod.mk.injEq] at h
      rw [← h.1, ← h.2, hn]
    · simp at h

/-- A mixin that is known is the definition of one. -/
theorem Context.node_of_mixin {c : Context} {name : String} {id : NodeId} {signature : Signature}
    (h : c.mixin name = .ok (id, signature)) : c.definitions.node id = .mixinDefinition signature := by
  unfold Context.mixin at h
  split at h
  · simp at h
  · split at h
    next hn =>
      simp only [Except.ok.injEq, Prod.mk.injEq] at h
      rw [← h.1, ← h.2, hn]
    · simp at h

namespace Walker.Realizes

variable {outside : Prop} {w : Walker σ} {d : Deriver τ} (h : w.Realizes L outside d)

include h

/-- Arguments are evaluated alike. -/
theorem arguments (parameters : Value) :
    Echoes L (w.arguments parameters) (d.walker.arguments parameters) :=
  Echoes.compositional.mapM w.evaluate d.evaluate h.evaluate _

/-- Parameters are bound alike. -/
theorem bindParameters {t : Tree} (parameters : List (String × Argument)) :
    ∀ {W V}, Advanced L old ids t W V →
      Matches (fun _ W' _ V' => Advanced L old ids t W' V') (Advanced L old ids t)
        ((w.bindParameters parameters).exec W) ((d.walker.bindParameters parameters).exec V) := by
  induction parameters with
  | nil => exact fun hw => .pure hw
  | cons parameter rest ih =>
    intro W V hw
    obtain ⟨name, argument⟩ := parameter
    -- whether it is given or evaluated, the value is the same on both sides
    have value {m : Expansion σ Value} {f : Expansion τ Value} (hm : Echoes L m f) :
        Matches (fun _ W' _ V' => Advanced L old ids t W' V') (Advanced L old ids t)
          ((m >>= fun value => do
            modifyScope (·.define name value)
            w.bindParameters rest).exec W)
          ((f >>= fun value => do
            modifyScope (·.define name value)
            d.walker.bindParameters rest).exec V) := by
      refine (hm.advanced hw).bind ?_ fun _ _ he => he
      rintro value W₁ _ V₁ ⟨rfl, hw₁⟩
      exact (hw₁.modifyScope _).bind (fun _ _ _ _ hw₂ => ih hw₂) fun _ _ he => he
    unfold Walker.bindParameters
    cases argument with
    | given v => exact value (.pure v)
    | default v => exact value (h.evaluate v)

/-- The body of a function is expanded where its copy stands as it is derived. -/
theorem functionBody {floor : Nat} {body : NodeId} {ms : List (Rose NodeId)}
    (parameters : List (String × Argument)) (hs : W.tree.Site floor body [] ms [])
    (hb : W.tree.Around ids body none) (hw : Mirrors L old ids W V) :
    Matches (Ended L old ids ⟨floor, W.tree, body, [], ms.flatMap Rose.labels, []⟩)
      (Kept L old ids ⟨floor, W.tree, body, [], ms.flatMap Rose.labels, []⟩)
      ((inFrame .call do
        w.bindParameters parameters
        let lookup ← innermostLookup
        modifyTree fun t => t.interpolateAll lookup (t.children body)
        w.walkChildren body .function).exec W)
      ((inFrame .call do
        d.walker.bindParameters parameters
        let lookup ← innermostLookup
        d.deriveChildren none .function
          ((ms.map (Rose.map W.tree.node)).map (Rose.interpolate lookup))).exec V) := by
  refine Matches.inFrame (Q := Ended L old ids ⟨floor, W.tree, body, [], ms.flatMap Rose.labels, []⟩)
    (E := Kept L old ids ⟨floor, W.tree, body, [], ms.flatMap Rose.labels, []⟩) ?_
    (fun _ _ _ _ hq => hq.mapScope _) fun _ _ hq => hq.mapScope _
  have entered : Advanced L old ids W.tree (W.mapScope (·.enter .call)) (V.mapScope (·.enter .call)) :=
    ⟨.refl _, hw.mapScope _⟩
  refine (h.bindParameters parameters entered).bind (fun _ W₁ _ V₁ hq => ?_) fun _ _ hq => hq.kept hs
  obtain ⟨grown, hw₁⟩ := hq
  have hs₁ : W₁.tree.Site floor body [] ms [] := hs.of_grown grown
  have hc : W₁.tree.children body = ms.map Rose.label := by simpa using hs₁.children
  obtain ⟨relabeled, views⟩ := hs.interpolateAll_of_grown W₁.context.scope.innermost.lookup grown
  rw [exec_innermostLookup_bind, exec_innermostLookup_bind, exec_modifyTree_bind,
    ← Context.scope_eq_of_bare hw₁.bare, hc]
  -- the placeholders are resolved in the copy, so its shape is the same
  generalize hT : W₁.tree.interpolateAll W₁.context.scope.innermost.lookup (ms.map Rose.label) = T at *
  have reworked := relabeled.reworked (hs.reworked_of_grown grown) fun x hx => hx
  rw [← views]
  have walked := h.walkChildren (W := { W₁ with tree := T }) (fun hne => absurd rfl hne) reworked.site
    (hb.of_rewrites hs reworked.rewrites) (hw₁.of_unmoved ⟨rfl, rfl⟩)
  exact walked.rebase (W := { W₁ with tree := T }) reworked (List.prefix_refl ids)

/-- Calling a function that a stylesheet has defined has the result that its body derives. -/
theorem invoke (hi : w.Isolates) (name : String) (arguments : List Value) :
    Echoes L (w.invoke name arguments) (d.invoke name arguments) := by
  have both {W : World σ} {V : World τ} (hw : Alike L W V) :
      (d.invoke name arguments).exec V = (((w.invoke name arguments).exec W).1, V) ∧
        Tree.Grown W.tree ((w.invoke name arguments).exec W).2.tree := by
    unfold Walker.invoke Deriver.invoke
    rw [exec_context_bind, exec_context_bind, Context.function_eq_of_bare hw.bare]
    cases hf : V.context.function name with
    | error e => exact ⟨rfl, .refl _⟩
    | ok found =>
      obtain ⟨definition, signature⟩ := found
      rw [exec_ofExcept_ok_bind, exec_ofExcept_ok_bind]
      dsimp only
      cases Walker.matchCall name signature arguments with
      | error e => exact ⟨rfl, .refl _⟩
      | ok collated =>
        rw [exec_ofExcept_ok_bind, exec_ofExcept_ok_bind, exec_changeTree_bind]
        have planted := Tree.graft_planted W.tree W.context.definitions definition
        generalize W.tree.graft W.context.definitions definition = copied at planted ⊢
        obtain ⟨body, T⟩ := copied
        obtain ⟨ms, hs, hbody, hfresh, hnode, hnodes⟩ := planted.site
        have notBlock : (T.node body).isBlock = false := by
          rw [hnode, Tree.label_rose]
          have := Context.node_of_function hf
          rw [Context.definitions_eq_of_bare hw.bare, this]
          rfl
        -- the body is walked under its own copy, outside of every block, and derived in an empty tree
        have mirrors : Mirrors L W.context.extensions [] { W with tree := T }
            ⟨⟨#[]⟩, V.context.bare, V.loader⟩ :=
          ⟨⟨by rw [Context.bare_bare]; exact hw.bare, hw.loader⟩, ⟨[], by simp, .nil⟩, rfl⟩
        have matching := h.functionBody collated hs (.top notBlock planted.alone) mirrors
        rw [hnodes, Context.definitions_eq_of_bare hw.bare] at matching
        -- however the body ends, nothing but its copy has changed, and the copy is new
        have grown {W' : World σ} {V' : World τ} (hk : Kept L W.context.extensions []
            ⟨W.tree.size, T, body, [], ms.flatMap Rose.labels, []⟩ W' V') : W.tree.Grown W'.tree :=
          planted.grown.of_rewrites hk.contained.rewrites hbody hfresh
        rw [exec_bind, exec_bind, exec_aside]
        unfold Deriver.bodyOf
        revert matching
        generalize (inFrame FrameKind.call (w.bindParameters collated >>= _) : Expansion σ Flow).exec
          { W with tree := T } = x
        generalize (inFrame FrameKind.call (d.walker.bindParameters collated >>= _) :
          Expansion τ Yield).exec _ = y
        intro matching
        cases matching with
        | error hk => exact ⟨rfl, grown hk⟩
        | @ok flow W' yield V' hend =>
          match flow, yield, hend with
          | .finished, .finished made, hend => exact ⟨rfl, (grown hend.kept).setChildren_nil hbody⟩
          | .returned value, .returned _, ⟨rfl, hk⟩ => exact ⟨rfl, (grown hk).setChildren_nil hbody⟩
  exact ⟨fun hw => (both hw).1, fun hw => (both hw).2, fun _ => hi.invoke name arguments _⟩

/-- Calling a function, a built-in one or not. -/
theorem call (hi : w.Isolates) (name : String) (arguments : List Value) :
    Echoes L (w.call name arguments) (d.call name arguments) := by
  refine (Echoes.ofExcept _).bind fun result => ?_
  cases result with
  | some value => exact .pure _
  | none => exact h.invoke hi name arguments

/-- Looking up variables and calling functions. -/
theorem live (hi : w.Isolates) (name : String) (parameters : Value) :
    Echoes L (w.live.ofVar name) (d.live.ofVar name) ∧
      Echoes L (w.live.ofCall name parameters) (d.live.ofCall name parameters) := by
  refine ⟨Echoes.scope.bind fun s => .pure _, Echoes.context_bind fun c c' hc => ?_⟩
  rw [Context.hasFunction_eq_of_bare hc]
  split
  · exact (h.arguments _).bind fun args => (h.call hi name args).bind fun result => .pure _
  · exact .pure _

/-- Evaluating a value has the same result in a tree and aside of it. -/
theorem evaluateWith (hi : w.Isolates) (value : Value) :
    Echoes L (w.evaluateWith value) (d.evaluateWith value) := by
  refine Echoes.bind (Echoes.compositional.value_substitute w.live d.live (fun name => (h.live hi name []).1)
    (fun name ps => (h.live hi name ps).2) false value) fun substituted => ?_
  split
  · exact .ofExcept _
  · exact .pure _

end Walker.Realizes

end

end Stylesheet
