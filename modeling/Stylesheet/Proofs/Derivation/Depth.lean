import Stylesheet.Proofs.Derivation.Inclusion

/-! # Expansion realizes derivation

All nodes taken together: a walker that goes one level deeper realizes a deriver that does
(`Walker.Realizes.tracks`). By induction on the depth, the walker of a depth realizes the deriver of
that depth (**`walker_realizes`**), whatever stands elsewhere in the tree and however the loader works
inside. -/

namespace Stylesheet

open Expansion

section

variable {σ τ : Type} {L : σ → τ → Prop} {old : List (NodeId × List String)}
  {floor : Nat} {p id : NodeId} {before after : List NodeId}
  {cs : List (Rose NodeId)} {block : Option NodeId} {mode : Mode} {ids : List NodeId}
  {W : World σ} {V : World τ} {services : Services σ} {services' : Services τ}

namespace Walker.Realizes

variable {outside : Prop} {w : Walker σ} {d : Deriver τ} (h : w.Realizes L outside d)

include h

/-- Expanding a node matches deriving it, one level deeper. -/
theorem tracks (hi : w.Isolates) (hc : services.conditions = services'.conditions)
    (hl : outside → services.LoadsAlike services' L) (hm : mode ≠ .function → outside)
    (hs : W.tree.Site floor p before [⟨id, cs⟩] after) (hb : W.tree.Around ids p block)
    (hw : Mirrors L old ids W V) :
    Matches (Ended L old ids (nodeSpot floor W.tree p id before after cs))
      (Kept L old ids (nodeSpot floor W.tree p id before after cs))
      ((Walker.traverseWith services w id mode).exec W)
      ((Deriver.deriveWith services' d block mode ((Rose.mk id cs).map W.tree.node)).exec V) := by
  unfold Walker.traverseWith Deriver.deriveWith
  rw [exec_tree_bind, Rose.map_mk, Rose.label_mk, Rose.children_mk]
  dsimp only
  refine Matches.ofExcept_bind (fun _ allowed => ?_) (.still hs hw)
  -- what functions may not hold is expanded outside of them only
  have outer (n : Node) (hn : W.tree.node id = n) (hf : Mode.function.allows n ≠ .ok ()) : outside := by
    refine hm ?_
    rintro rfl
    rw [hn] at allowed
    exact hf allowed
  have alone := Made.still hs hw
  rw [List.map_singleton, Rose.map_mk] at alone
  have parentOf := hs.parentOf
  have next := hs.head?_after
  -- what a definition is read off as is what is derived
  have place := hs.rose_eq (List.mem_singleton.2 rfl)
  rw [Rose.label_mk, Rose.map_mk] at place
  have start : LoopState L old floor p id before after cs block (cs.map (Rose.map W.tree.node)) [] ids W V :=
    ⟨hs, hb, hw, rfl⟩
  cases hn : W.tree.node id with
  | root | fontFace | keyframeBlock _ =>
    have walked := h.walkNode hm hs hb hw (by rw [hn]; rfl)
    rw [hn] at walked
    exact walked
  | assignment name value guarded => exact h.assign hs hw name value guarded
  | result value =>
    by_cases hf : mode = .function
    · simp only [if_pos hf]
      exact h.result hs hb hw value
    · simp only [if_neg hf]
      exact .fail (.still hs hw)
  | declaration name value important => exact h.declaration hs hb hw name value important
  | block selectors => exact h.traverseBlock hm hs hw selectors
  | comment _ | plain _ | vendor _ _ =>
    rw [hn] at alone
    exact .pure alone
  | keyframes keyword name =>
    refine Matches.echo_bind_node (echoes_resolve name) hs hb hw fun name W₁ hs₁ hb₁ hw₁ same => ?_
    rw [← same]
    exact h.walkRenamed hm hs₁ hb₁ hw₁ rfl
  | media query =>
    refine Matches.echo_bind_node (echoes_resolve query) hs hb hw fun query W₁ hs₁ hb₁ hw₁ same => ?_
    rw [← same]
    exact h.walkRenamed hm hs₁ hb₁ hw₁ rfl
  | importing i => exact h.traverseImport (hl (outer _ hn nofun)) hm hs hb hw i
  | extend targets => exact Matches.recordExtension hs hb hw targets
  | content => exact Matches.detached (m := pure ()) (f := pure ()) hs (.ok ⟨.refl _, hw⟩)
  | functionDefinition signature =>
    rw [hn] at place
    exact Matches.definition (f := fun c t => c.addFunction signature.name t id) hs hw
      (fun c => c.addFunction_eq signature.name place) (fun _ => rfl) fun _ => rfl
  | mixinDefinition signature =>
    rw [hn] at place
    exact Matches.definition (f := fun c t => c.addMixin signature.name t id) hs hw
      (fun c => c.addMixin_eq signature.name place) (fun _ => rfl) fun _ => rfl
  | functionCall c => exact h.functionCall hi hs hw c
  | mixinCall c => exact h.includeMixin (outer _ hn nofun) hs hb hw c
  | nesting name => exact h.traverseNesting hm hs hb hw (by rw [hn]; rfl) name
  | listDirective directive => exact h.traverseList hs hw directive
  | counting c =>
    unfold Walker.expandDirective
    rw [exec_tree_bind, parentOf, exec_ofExcept_ok_bind, hn, next]
    exact start.dropped (h.expandCounting hm c start)
  | each name list =>
    unfold Walker.expandDirective
    rw [exec_tree_bind, parentOf, exec_ofExcept_ok_bind, hn, next]
    exact start.dropped (h.expandEach hm name list start)
  | whileLoop condition =>
    unfold Walker.expandDirective
    rw [exec_tree_bind, parentOf, exec_ofExcept_ok_bind, hn, next, h.steps]
    exact start.dropped (h.passesWhile hc hm condition d.steps _ _ _ _ start)
  | conditional =>
    unfold Walker.expandDirective
    rw [exec_tree_bind, parentOf, exec_ofExcept_ok_bind, hn]
    exact h.expandConditional hc hm hs hb hw
  | branch _ | otherwise => exact .fail (.still hs hw)

end Walker.Realizes

/-! ## Down to a depth -/

/-- What is evaluated aside of everything is echoed wherever the variables and definitions are the same. -/
theorem Deriver.echoes_evaluateAside {d : Deriver Unit} {value : Value} {m : Expansion σ Value}
    (h : Echoes (fun _ _ => True) m (d.evaluateWith value)) :
    Echoes L m (d.evaluateAside value : Expansion τ Value) := by
  -- nothing is asked of the loaders while a value is evaluated
  have aside {W : World σ} {V : World τ} (hw : Alike L W V) :
      Alike (fun _ _ => True) W (⟨⟨#[]⟩, V.context.bare, ()⟩ : World Unit) :=
    ⟨by rw [Context.bare_bare]; exact hw.bare, trivial⟩
  refine ⟨fun {W V} hw => ?_, fun hw => h.grown (aside hw), fun hw => h.unmoved (aside hw)⟩
  show (((d.evaluateWith value).exec ⟨⟨#[]⟩, V.context.bare, ()⟩).1, V) = _
  rw [h.result (aside hw)]

/-- Nothing is realized at depth zero, since nothing is done. -/
theorem walker_realizes_zero (services : Services σ) (outside : Prop) :
    (walker services 0).Realizes L outside
      (⟨0, fun _ => throw .tooDeep, fun _ _ _ => throw .tooDeep⟩ : Deriver τ) where
  steps := rfl
  evaluate _ := .throw _
  traverse _ _ := fun hs _ hw => .throw (.still hs hw)

/-- One level deeper. -/
theorem Walker.Realizes.succ {depth : Nat} {outside : Prop} {d : Deriver τ}
    (hc : services.conditions = services'.conditions) (hl : outside → services.LoadsAlike services' L)
    (body : (walker services depth).Realizes (fun _ _ => True) False
      (bodyDeriver services.conditions depth))
    (h : (walker services depth).Realizes L outside d) :
    (walker services (depth + 1)).Realizes L outside
      ⟨depth + 1, (bodyDeriver services.conditions depth).evaluateAside,
        Deriver.deriveWith services' d⟩ where
  steps := rfl
  evaluate value := Deriver.echoes_evaluateAside (body.evaluateWith (walker_isolates services depth) value)
  traverse mode hm := by
    intro old floor p before after r ids block W V hs hb hw
    obtain ⟨id, cs⟩ := r
    exact h.tracks (walker_isolates services depth) hc hl hm hs hb hw

/-- Down to every depth, the bodies of functions are expanded as they are derived aside. -/
theorem walker_realizes_bodyDeriver (services : Services σ) (depth : Nat) :
    (walker services depth).Realizes (fun _ _ => True) False (bodyDeriver services.conditions depth) := by
  induction depth with
  | zero => exact walker_realizes_zero services False
  | succ depth ih => exact ih.succ rfl (fun hf => hf.elim) ih

/-- Down to every depth, expansion in a tree does what derivation does on values. -/
theorem walker_realizes (hc : services.conditions = services'.conditions)
    (hl : services.LoadsAlike services' L) (depth : Nat) :
    (walker services depth).Realizes L True (deriver services' depth) := by
  induction depth with
  | zero => exact walker_realizes_zero services True
  | succ depth ih =>
    have deeper := (walker_realizes_bodyDeriver services depth).succ hc (fun _ => hl) ih
    rw [hc] at deeper
    exact deeper

/-! ## Where to start -/

/-- A loader finds what it finds. -/
theorem Services.loadsAlike_refl (services : Services σ) : services.LoadsAlike services (· = ·) := by
  rintro uri s _ rfl
  exact ⟨rfl, rfl⟩

/-- A world in which nothing has been entered yet mirrors every one. -/
theorem mirrors_bare (ids : List NodeId) (w : World σ) :
    Mirrors (· = ·) w.context.extensions ids w
      (⟨⟨Array.replicate ids.length default⟩, w.context.bare, w.loader⟩ : World σ) where
  bare := (Context.bare_bare _).symm
  loader := rfl
  extensions := ⟨[], by simp, .nil⟩
  size := by simp [Tree.size]

end

end Stylesheet
