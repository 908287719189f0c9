import Stylesheet.Proofs.Expansion.Locality
import Stylesheet.Proofs.Tree.Upkeep

/-! # Expansion keeps trees intact

Two trees change while a stylesheet is expanded: the one at hand, and the one that definitions are copied
into. A step **tends** them when, wherever the tree at hand is intact, both change by proper edits only
(**`Tended`**). All steps of expansion do (`walker_tends`), and so does compiling, however it ends.

Two kinds of steps place nodes under a parent that has been looked up before. What a loop or the import of
a stylesheet places are new copies, so it is enough that the parent has been created. For the body of a
mixin, defaults may have been evaluated since; but evaluating values only makes the tree grow
(**`Grows`**), so the copy of the body still leads to new nodes only, and not to the parent
(`Walker.Tends.placeBody`). -/

namespace Stylesheet

open Expansion

section

variable {σ α β : Type} {n : Nat} {w : World σ}

/-! ## Steps that tend trees -/

/-- Both trees changed by proper edits only. -/
structure Upkept (w w' : World σ) : Prop where
  tree : w.tree.Edited Edit.Proper w'.tree
  definitions : w.context.definitions.Edited Edit.Proper w'.context.definitions

/-- Where the tree is intact and `n` nodes have been created, both trees changed by proper edits only. -/
structure Tended (n : Nat) (w w' : World σ) : Prop where
  upkept : w.tree.Intact → n ≤ w.tree.size → Upkept w w'

/-- The tree grew at most. -/
structure Grows (w w' : World σ) : Prop where
  grown : w.tree.Grown w'.tree

/-- Keeping both trees up is reflexive and transitive. -/
instance : IsPreorder (World σ) Upkept where
  refl _ := ⟨.refl _, .refl _⟩
  trans _ _ _ h h' := ⟨h.tree.trans h'.tree, h.definitions.trans h'.definitions⟩

/-- What is tended step by step is tended in the end. -/
instance (n : Nat) : IsPreorder (World σ) (Tended n) where
  refl w := ⟨fun _ _ => refl_of Upkept w⟩
  trans _ _ _ h h' := ⟨fun hi hn =>
    have first := h.upkept hi hn
    trans_of Upkept first (h'.upkept (first.tree.intact hi) (hn.trans first.tree.size_le))⟩

/-- Growth of the tree is reflexive and transitive. -/
instance : IsPreorder (World σ) Grows where
  refl w := ⟨.refl w.tree⟩
  trans _ _ _ h h' := ⟨h.grown.trans h'.grown⟩

namespace Expansion

/-- What is tended is so wherever more nodes have been created. -/
theorem Keeps.tended {m : Expansion σ α} (h : Keeps (Tended 0) m) : Keeps (Tended n) m :=
  h.mono fun _ _ hw => ⟨fun hi _ => hw.upkept hi (Nat.zero_le _)⟩

/-- What a step that tends trees leaves where the tree is intact. -/
theorem Keeps.upkept {m : Expansion σ α} (h : Keeps (Tended 0) m) (hi : w.tree.Intact) :
    Upkept w (m.exec w).2 := (h w).upkept hi (Nat.zero_le _)

/-- A change of the tree by proper edits, and what follows it. -/
theorem upkept_modifyTree_bind {f : Tree → Tree} {k : Unit → Expansion σ α}
    (hf : w.tree.Edited Edit.Proper (f w.tree))
    (hk : Upkept { w with tree := f w.tree } ((k ()).exec { w with tree := f w.tree }).2) :
    Upkept w ((modifyTree f >>= k).exec w).2 :=
  trans_of Upkept (show Upkept w { w with tree := f w.tree } from ⟨hf, .refl _⟩) hk

/-- The same with a result. -/
theorem upkept_changeTree_bind {f : Tree → β × Tree} {k : β → Expansion σ α}
    (hf : w.tree.Edited Edit.Proper (f w.tree).2)
    (hk : Upkept { w with tree := (f w.tree).2 }
      ((k (f w.tree).1).exec { w with tree := (f w.tree).2 }).2) :
    Upkept w ((changeTree f >>= k).exec w).2 :=
  trans_of Upkept (show Upkept w { w with tree := (f w.tree).2 } from ⟨hf, .refl _⟩) hk

/-- A change of the tree tends it when it is made of proper edits wherever the tree is intact and has grown so far. -/
theorem tended_modifyTree {f : Tree → Tree}
    (h : ∀ t : Tree, t.Intact → n ≤ t.size → t.Edited Edit.Proper (f t)) :
    Keeps (Tended n) (modifyTree f : Expansion σ Unit) :=
  fun w => ⟨fun hi hn => ⟨h w.tree hi hn, .refl _⟩⟩

/-- So does a change of the tree that has a result. -/
theorem tended_changeTree {f : Tree → α × Tree}
    (h : ∀ t : Tree, t.Intact → n ≤ t.size → t.Edited Edit.Proper (f t).2) :
    Keeps (Tended n) (changeTree f : Expansion σ α) :=
  fun w => ⟨fun hi hn => ⟨h w.tree hi hn, .refl _⟩⟩

/-- A change of the context tends the definitions when it changes them by proper edits. -/
theorem tended_modifyContext {f : Context → Context}
    (h : ∀ c : Context, c.definitions.Edited Edit.Proper (f c).definitions) :
    Keeps (Tended n) (modifyContext f : Expansion σ Unit) :=
  fun w => ⟨fun _ _ => ⟨.refl _, h w.context⟩⟩

/-- A change of the scope concerns neither tree. -/
theorem tended_modifyScope (f : Scope → Scope) : Keeps (Tended n) (modifyScope f : Expansion σ Unit) :=
  tended_modifyContext fun _ => .refl _

/-- Detaching a node is a proper edit. -/
theorem tended_detach (id : NodeId) :
    Keeps (Tended n) (modifyTree (·.detach id) : Expansion σ Unit) :=
  tended_modifyTree fun t _ _ => Tree.edited_detach t id

/-- Another node in a place is a proper edit. -/
theorem tended_setNode (id : NodeId) (node : Node) :
    Keeps (Tended n) (modifyTree (·.setNode id node) : Expansion σ Unit) :=
  tended_modifyTree fun t _ _ => (Tree.edited_setNode t id node).proper

/-- A frame has no part in the trees. -/
theorem tended_inFrame {kind : FrameKind} {body : Expansion σ α} (h : Keeps (Tended n) body) :
    Keeps (Tended n) (inFrame kind body) := fun w =>
  ⟨fun hi hn =>
    have inside := (h (w.mapScope (·.enter kind))).upkept hi hn
    ⟨inside.tree, inside.definitions⟩⟩

/-- The choice of a branch leaves the world as it was, and takes one of the nodes to choose from. -/
theorem exec_choose (services : Services σ) (ids : List NodeId) (w : World σ) :
    ((Walker.choose services ids).exec w).2 = w ∧
      ∀ b, ((Walker.choose services ids).exec w).1 = .ok (some b) → b ∈ ids := by
  have still : Keeps Eq (Walker.choose services ids) := .choose services ids
  refine ⟨(still w).symm, ?_⟩
  induction ids with
  | nil => exact fun b h => by cases h
  | cons id ids ih =>
    intro b h
    -- a branch that is not taken leaves the choice to the others
    have later (h : ((Walker.choose services ids).exec w).1 = .ok (some b)) : b ∈ id :: ids :=
      List.mem_cons_of_mem id (ih (.choose services ids) b h)
    rw [Walker.choose, exec_tree_bind] at h
    split at h
    · next condition _ =>
      rw [exec_bind] at h
      obtain ⟨taken, held⟩ | ⟨e, failed⟩ := exec_holds_cases services condition w
      · rw [held] at h
        cases taken with
        | true =>
          cases h
          exact List.mem_cons_self
        | false => exact later h
      · rw [failed] at h
        cases h
    · cases h
      exact List.mem_cons_self
    · exact later h

end Expansion

/-- A node with a parent has been found one. -/
theorem Tree.parent?_of_parentOf {t : Tree} {id p : NodeId} (h : t.parentOf id = .ok p) :
    t.parent? id = some p := by
  unfold Tree.parentOf at h
  split at h
  next q hq =>
    cases h
    exact hq
  · cases h

/-! ## Walkers -/

/-- A walker that tends trees, and that makes the tree grow when it evaluates values. -/
structure Walker.Tends (w : Walker σ) : Prop where
  evaluate : ∀ value, Keeps (Tended 0) (w.evaluate value)
  grows : ∀ value, Keeps Grows (w.evaluate value)
  traverse : ∀ id mode, Keeps (Tended 0) (w.traverse id mode)

namespace Walker.Tends

variable {w : Walker σ}

/-- Walking nodes in a row tends both trees when walking each of them does. -/
theorem walkNodes (h : w.Tends) (mode : Mode) (ids : List NodeId) :
    Keeps (Tended 0) (w.walkNodes mode ids) := .walkNodes (h.traverse · mode) ids

/-- Walking the children of a node tends both trees when walking each of them does. -/
theorem walkChildren (h : w.Tends) (id : NodeId) (mode : Mode) :
    Keeps (Tended 0) (w.walkChildren id mode) := .walkChildren (h.traverse · mode) id

/-- Binding the parameters of a call tends both trees. -/
theorem bindParameters (h : w.Tends) (collated : List (String × Argument)) :
    Keeps (Tended 0) (w.bindParameters collated) :=
  .bindParameters h.evaluate (fun _ _ => tended_modifyScope _) collated

/-! ### Calls -/

/-- The body of a function is copied, walked through and let go. -/
theorem invoke (h : w.Tends) (name : String) (arguments : List Value) :
    Keeps (Tended 0) (w.invoke name arguments) := by
  unfold Walker.invoke
  refine Keeps.context.bind fun c => (Keeps.ofExcept _).bind fun found => (Keeps.ofExcept _).bind
    fun collated => Keeps.bind (tended_changeTree fun t _ _ => Tree.edited_graft t _ _) fun body => ?_
  have inside : Keeps (Tended 0) (do
      w.bindParameters collated
      let lookup ← Walker.innermostLookup
      modifyTree fun t => t.interpolateAll lookup (t.children body)
      w.walkChildren body .function) :=
    (h.bindParameters collated).bind fun _ => Keeps.innermostLookup.bind fun lookup =>
      (tended_modifyTree fun t _ _ => (Tree.edited_interpolateAll lookup t _).proper).bind fun _ =>
        h.walkChildren body .function
  refine (tended_inFrame inside).bind fun flow =>
    (tended_modifyTree fun t _ _ => Tree.edited_setChildren_nil t body).bind fun _ => ?_
  cases flow <;> exact .pure _

/-- The body of a mixin, filled and linked to nodes from `floor` on only, is put in the place of an
include, whose parent was there before. -/
theorem placeBody (h : w.Tends) {floor : Nat} {W : World σ} {parent body : NodeId}
    (id : NodeId) (collated : List (String × Argument)) (hi : W.tree.Intact) (hs : floor ≤ W.tree.size)
    (hl : W.tree.LinkedFrom floor) (hp : parent.index < floor) (hb : floor ≤ body.index) :
    Upkept W ((do
      w.bindParameters collated
      let lookup ← Walker.innermostLookup
      let moved := (← tree).children body
      modifyTree fun t =>
        (((t.interpolateAll lookup moved).moveAfter parent id moved).setChildren id []).remove parent id
      w.walkNodes .mixin moved : Expansion σ Flow).exec W).2 := by
  refine related_bind ((h.bindParameters collated).upkept hi) fun _ W₁ bound => ?_
  have bindings : Keeps Grows (w.bindParameters collated) :=
    .bindParameters h.grows (fun _ _ W => ⟨.refl W.tree⟩) collated
  have grown := (bindings W).grown
  have tended := (h.bindParameters collated).upkept hi
  rw [bound] at grown tended
  have hi₁ := tended.tree.intact hi
  -- the body has not come to lead to what was there before it
  have hl₁ := grown.linkedFrom hl hs
  rw [exec_innermostLookup_bind, exec_tree_bind]
  generalize W₁.context.scope.innermost.lookup = lookup
  have relabeled := Tree.edited_interpolateAll lookup W₁.tree (W₁.tree.children body)
  have hi₂ := relabeled.proper.intact hi₁
  have moved : (W₁.tree.interpolateAll lookup (W₁.tree.children body)).Edited Edit.Proper
      ((W₁.tree.interpolateAll lookup (W₁.tree.children body)).moveAfter parent id
        (W₁.tree.children body)) := by
    refine hi₂.move Tree.renodes_id (fun _ t => .refl t) id ?_ fun c hc => ⟨?_, fun back => ?_⟩
    · exact (hp.trans_le hs).trans_le (grown.size_le.trans relabeled.size_le)
    · exact (hi₁.consistent.linked.lt_size_of_mem (Nat.zero_le _) hc).trans_le relabeled.size_le
    · have below := (relabeled.linkedFrom hl₁).floor_le_of_reaches (hl₁.child hb hc).1 back
      omega
  have placed := relabeled.proper.trans (moved.trans (Tree.edited_drop _ parent id))
  exact upkept_modifyTree_bind placed ((h.walkNodes .mixin _).upkept (placed.intact hi₁))

/-- A mixin is included under the parent that the include had at first. -/
theorem includeMixin (h : w.Tends) (id : NodeId) (invocation : Invocation) :
    Keeps (Tended 0) (w.includeMixin id invocation) := by
  unfold Walker.includeMixin
  refine Keeps.tree_bind fun W => ⟨fun hi _ => related_ofExcept_bind fun parent found => ?_⟩
  have hp := Tree.parent?_of_parentOf found
  rw [exec_context_bind]
  refine related_ofExcept_bind fun known mixin => ?_
  obtain ⟨definition, signature⟩ := known
  have arguments : Keeps (Tended 0) (w.arguments invocation.arguments) := .arguments h.evaluate _
  refine related_bind (arguments.upkept hi) fun args W₁ evaluated =>
    related_ofExcept_bind fun collated _ => ?_
  have evaluating : Keeps Grows (w.arguments invocation.arguments) := .arguments h.grows _
  have grown₁ := (evaluating W).grown
  have tended₁ := arguments.upkept hi
  rw [evaluated] at grown₁ tended₁
  have hi₁ := tended₁.tree.intact hi
  -- the include is still where it was when its parent was looked up
  have parent₁ : W₁.tree.parent? id = some parent := by
    rw [grown₁.parent?_eq (Tree.lt_size_of_parent? hp), hp]
  obtain ⟨_, cs, _, site⟩ := hi₁.exists_site parent₁
  have planted := Tree.graft_planted W₁.tree W.context.definitions definition
  obtain ⟨ms, place, above, fresh, node, -⟩ := planted.site
  have notContent : ((W₁.tree.graft W.context.definitions definition).2.node
      (W₁.tree.graft W.context.definitions definition).1).isContent = false := by
    rw [node, Tree.label_rose, Context.node_of_mixin mixin]
    rfl
  have apart := site.offers.disjoint_of_new (List.forall_mem_cons.2 ⟨above, fresh⟩)
  obtain ⟨_, reworked, -⟩ :=
    (place.fillContent (site.offers.of_grown planted.grown) apart notContent).reworked
  have copied := Tree.edited_graft W₁.tree W.context.definitions definition
  have hi₂ := copied.intact hi₁
  have filled := hi₂.edited_fillContent (W₁.tree.graft W.context.definitions definition).1 id
  refine upkept_changeTree_bind copied (upkept_modifyTree_bind filled ?_)
  refine related_bind ?_ fun flow W₂ _ => ?_
  · have placed := h.placeBody id (W := World.mapScope (·.enter .call)
      ⟨_, W₁.context, W₁.loader⟩) collated (filled.intact hi₂)
      (planted.grown.size_le.trans filled.size_le) reworked.rewrites.linked site.lt_size above
    exact ⟨placed.tree, placed.definitions⟩
  · cases flow with
    | finished => exact refl_of Upkept W₂
    | returned value => exact refl_of Upkept W₂

/-! ### Directives -/

/-- The copies that a pass makes are new. -/
theorem pass (h : w.Tends) (place : LoopPlace) (mode : Mode) (bound : Option (String × Value)) :
    Keeps (Tended (place.parent.index + 1)) (w.pass place mode bound) := by
  refine tended_inFrame ?_
  have copied : Keeps (Tended (place.parent.index + 1)) (Walker.innermostLookup >>= fun lookup =>
      changeTree (fun t => Tree.spliceAfter (Tree.copyInterpolated lookup) place.parent
        (t.passAnchor place.parent place.id place.next) (t.children place.id) t) >>= fun copies =>
      w.walkNodes mode copies) := by
    refine Keeps.innermostLookup.bind fun lookup => Keeps.bind (tended_changeTree fun t hi hn => ?_)
      fun _ => (h.walkNodes mode _).tended
    exact hi.splice (fun t c => ⟨(Tree.edited_graft t t c).trans
      (Tree.edited_interpolateTo lookup _ _ _).proper, _, Tree.copyInterpolated_planted lookup rfl⟩) _ _ hn
  cases bound with
  | none => exact copied
  | some b => exact (tended_modifyScope _).bind fun _ => copied

/-- The branch of a conditional that is taken stood under it. -/
theorem expandConditional (services : Services σ) (h : w.Tends) {W : World σ} {parent id : NodeId}
    (mode : Mode) (hi : W.tree.Intact) (hp : W.tree.parent? id = some parent) :
    Upkept W ((Walker.expandConditional services w parent id mode).exec W).2 := by
  have moved (ids : List NodeId)
      (apart : ∀ c ∈ ids, c.index < W.tree.size ∧ ¬ W.tree.Reaches c parent) : Upkept W ((do
        modifyTree fun t => ((t.moveAfter parent id ids).setChildren id []).remove parent id
        w.walkNodes mode ids : Expansion σ Flow).exec W).2 := by
    have placed := (hi.move Tree.renodes_id (fun _ t => .refl t) id (hi.reaches_child hp).1 apart).trans
      (Tree.edited_drop _ parent id)
    exact upkept_modifyTree_bind placed ((h.walkNodes mode ids).upkept (placed.intact hi))
  unfold Walker.expandConditional
  rw [exec_tree_bind]
  obtain ⟨same, member⟩ := exec_choose services (W.tree.children id) W
  refine related_bind (by rw [same]; exact refl_of Upkept W) fun chosen W₁ chose => ?_
  rw [chose] at same member
  cases same
  cases chosen with
  | none => exact moved [] (by simp)
  | some branch =>
    have below := (hi.reaches_child hp).2.child (member branch rfl)
    exact moved _ fun c hc => hi.apart below hc

/-- Every directive that is expanded in its place tends both trees. -/
theorem expandDirective (services : Services σ) (h : w.Tends) (id : NodeId) (mode : Mode) :
    Keeps (Tended 0) (Walker.expandDirective services w id mode) := by
  refine Keeps.tree_bind fun W => ⟨fun hi _ => related_ofExcept_bind fun parent found => ?_⟩
  have hp := Tree.parent?_of_parentOf found
  -- a loop makes copies under the parent, which has been created
  have loop {m : Expansion σ Flow} (hm : Keeps (Tended (parent.index + 1)) m) : Upkept W ((do
      let flow ← m
      modifyTree fun t => (t.setChildren id []).remove parent id
      pure flow : Expansion σ Flow).exec W).2 := by
    refine (hm.bind (fun flow => Keeps.bind (tended_modifyTree fun t _ _ => Tree.edited_drop t parent id)
      fun _ => Keeps.pure flow) W).upkept hi (hi.reaches_child hp).1
  have evaluated (value : Value) : Keeps (Tended (parent.index + 1)) (w.evaluate value) :=
    (h.evaluate value).tended
  dsimp only
  split
  · exact loop (.expandCounting evaluated fun _ => h.pass ⟨parent, id, _⟩ mode _)
  · exact loop (.expandEach evaluated (fun _ => h.pass ⟨parent, id, _⟩ mode _) _)
  · exact loop (.passesWhile services (h.pass ⟨parent, id, _⟩ mode none) _ _)
  · exact expandConditional services h mode hi hp
  · exact refl_of Upkept W

/-! ### Nodes -/

/-- An assignment tends both trees. -/
theorem assign (h : w.Tends) (id : NodeId) (name : String) (value : Value) (guarded : Bool) :
    Keeps (Tended 0) (w.assign id name value guarded) := by
  unfold Walker.assign
  refine Keeps.scope.bind fun s => ?_
  dsimp only
  split
  · exact tended_detach id
  · exact (h.evaluate value).bind fun _ => (tended_modifyScope _).bind fun _ => tended_detach id

/-- Blocks move out of the block that they stand in. -/
theorem traverseBlock (h : w.Tends) (id : NodeId) (selectors : List String) (mode : Mode) :
    Keeps (Tended 0) (w.traverseBlock id selectors mode) := by
  refine Keeps.scope.bind fun s => (tended_setNode id _).bind fun _ =>
    (h.walkChildren id mode).flow ?_ fun _ => rfl
  refine Keeps.tree_bind fun W => ⟨fun hi _ => ?_⟩
  dsimp only
  split
  · exact refl_of Upkept W
  · refine related_ofExcept_bind fun parent found => upkept_modifyTree_bind ?_ (refl_of Upkept _)
    have hp := hi.reaches_child (Tree.parent?_of_parentOf found)
    exact hi.move (Tree.renodes_nestBlock _) (Tree.edited_nestBlock _) id hp.1 fun c hc =>
      hi.apart hp.2 (List.mem_filter.1 hc).1

/-- Declarations move out of the node that they share the beginning of their names with. -/
theorem traverseNesting (h : w.Tends) (id : NodeId) (name : String) (mode : Mode) :
    Keeps (Tended 0) (w.traverseNesting id name mode) := by
  refine (Keeps.resolve name).bind fun name => (h.walkChildren id mode).flow ?_ fun _ => rfl
  refine Keeps.tree_bind fun W => ⟨fun hi _ => related_ofExcept_bind fun parent found =>
    upkept_modifyTree_bind ?_ (refl_of Upkept _)⟩
  have hp := hi.reaches_child (Tree.parent?_of_parentOf found)
  have moved := hi.move (Tree.renodes_lengthenName name) (Tree.edited_lengthenName name) id hp.1
    fun c hc => hi.apart hp.2 hc
  exact moved.trans (Tree.edited_detach _ id)

/-- Noting an extension tends both trees. -/
theorem recordExtension (id : NodeId) (targets : List String) :
    Keeps (Tended 0) (Walker.recordExtension id targets : Expansion σ Unit) := by
  unfold Walker.recordExtension
  refine Keeps.tree.bind fun t => ?_
  dsimp only
  split
  · refine Keeps.bind (tended_modifyContext ?_) fun _ => tended_detach id
    exact fun c => .refl c.definitions
  · exact tended_detach id

/-- Loading concerns neither tree. -/
theorem load (services : Services σ) (uri : String) : Keeps (Tended 0) (Walker.load services uri) := by
  unfold Walker.load
  refine Keeps.bind (fun w => ⟨fun _ _ => ⟨.refl w.tree, .refl w.context.definitions⟩⟩) fun loaded =>
    (Keeps.ofExcept _).bind fun source => ?_
  cases source with
  | none => exact .fail _
  | some source => exact .pure _

/-- The nodes of an import are new. -/
theorem traverseImport (services : Services σ) (h : w.Tends) (id : NodeId) (i : Import) (mode : Mode) :
    Keeps (Tended 0) (Walker.traverseImport services w id i mode) := by
  refine (Keeps.resolve _).bind fun uri => ?_
  dsimp only
  split
  · exact (tended_setNode id _).bind fun _ => .pure _
  · refine (load services uri).bind fun source => Keeps.tree_bind fun W => ⟨fun hi _ =>
      related_ofExcept_bind fun parent found => ?_⟩
    have hp := hi.reaches_child (Tree.parent?_of_parentOf found)
    have copied := hi.splice (fun t c => ⟨Tree.edited_graft t source c, _, Tree.graft_planted t source c⟩)
      id (source.children Tree.root) hp.1
    have placed := copied.trans (Tree.edited_detach _ id)
    exact upkept_changeTree_bind placed ((h.walkNodes mode _).upkept (placed.intact hi))

/-- Editing a list tends both trees. -/
theorem traverseList (h : w.Tends) (id : NodeId) (d : ListDirective) :
    Keeps (Tended 0) (w.traverseList id d) :=
  (h.evaluate _).bind fun _ => (h.evaluate _).bind fun _ => (tended_modifyScope _).bind fun _ =>
    tended_detach id

/-- One node is expanded by proper edits. -/
theorem traverseWith (services : Services σ) (h : w.Tends) (id : NodeId) (mode : Mode) :
    Keeps (Tended 0) (Walker.traverseWith services w id mode) := by
  refine Keeps.tree.bind fun t => (Keeps.ofExcept _).bind fun _ => ?_
  cases t.node id with
  | root | fontFace | keyframeBlock => exact h.walkChildren id mode
  | assignment name value guarded => exact (h.assign id _ _ _).bind fun _ => .pure _
  | result value =>
    dsimp only
    split
    · exact (h.evaluate _).bind fun _ => .pure _
    · exact .fail _
  | declaration name value important =>
    exact (h.evaluate _).bind fun _ => (Keeps.resolve _).bind fun _ => (tended_setNode id _).bind fun _ =>
      .pure _
  | block selectors => exact h.traverseBlock id _ mode
  | comment | plain | vendor => exact .pure _
  | keyframes keyword name =>
    exact (Keeps.resolve _).bind fun _ => (tended_setNode id _).bind fun _ => h.walkChildren id mode
  | media query =>
    exact (Keeps.resolve _).bind fun _ => (tended_setNode id _).bind fun _ => h.walkChildren id mode
  | importing i => exact traverseImport services h id _ mode
  | extend targets => exact (recordExtension id _).bind fun _ => .pure _
  | content => exact (tended_detach id).bind fun _ => .pure _
  | functionDefinition signature | mixinDefinition signature =>
    -- a definition is copied before it goes
    exact Keeps.tree.bind fun t => Keeps.bind
      (tended_modifyContext fun c => Tree.edited_graft c.definitions t id) fun _ =>
      (tended_detach id).bind fun _ => .pure _
  | functionCall c =>
    exact (Keeps.arguments h.evaluate _).bind fun args => (Keeps.call h.invoke _ args).bind fun _ =>
      (tended_detach id).bind fun _ => .pure _
  | mixinCall c => exact (h.includeMixin id _).bind fun _ => .pure _
  | nesting name => exact h.traverseNesting id _ mode
  | listDirective d => exact (h.traverseList id _).bind fun _ => .pure _
  | each | counting | whileLoop | conditional => exact expandDirective services h id mode
  | branch | otherwise => exact .fail _

end Walker.Tends

/-! ## All depths -/

/-- Evaluating a value makes the tree grow. -/
theorem walker_grows (services : Services σ) (depth : Nat) (value : Value) :
    Keeps Grows ((walker services depth).evaluate value) := fun W =>
  -- a value is evaluated as it is where there is no tree
  ⟨((walker_realizes_bodyDeriver services depth).evaluate value).grown
    (v := (⟨⟨#[]⟩, W.context.bare, ()⟩ : World Unit)) ⟨(Context.bare_bare _).symm, trivial⟩⟩

/-- The walker of each depth tends the trees. -/
theorem walker_tends (services : Services σ) (depth : Nat) : (walker services depth).Tends := by
  induction depth with
  | zero => exact ⟨fun _ => .throw _, walker_grows services 0, fun _ _ => .throw _⟩
  | succ depth ih =>
    exact ⟨.evaluateWith ih.evaluate ih.invoke, walker_grows services (depth + 1), ih.traverseWith services⟩

/-- So does compiling a stylesheet, however it ends. -/
theorem compile_tends (services : Services σ) (depth : Nat) :
    Keeps (Tended 0) (compile services depth) := by
  refine Keeps.bind (tended_modifyContext fun c => .refl c.definitions) fun _ =>
    ((walker_tends services depth).walkChildren _ _).bind fun flow => ?_
  cases flow with
  | returned value => exact .fail _
  | finished =>
    exact Keeps.context.bind fun c => Keeps.bind
      (tended_modifyTree fun t _ _ => (Tree.edited_applyExtensions t c.extensions).proper) fun _ =>
      tended_modifyContext fun c => .refl c.definitions

/-- **Tree integrity.** Whatever edits a tree has come from, its parents and children agree, and no node is a
child twice. If none of them has placed a node under itself or under one of its descendants, no link leads
back up either, and all that goes down the tree ends. Compiling a stylesheet makes no other edits than
these, neither in the tree at hand nor in that of the definitions; so however it ends, the tree that it
leaves is still intact. -/
theorem tree_integrity :
    (∀ t, Tree.Edited (fun _ _ => True) .empty t → t.Consistent) ∧
      (∀ t, Tree.Edited Edit.Proper .empty t → t.Consistent ∧ t.Acyclic ∧ t.Ends) ∧
      ∀ {σ : Type} (services : Services σ) (depth : Nat) (w : World σ),
        w.tree.Consistent → w.tree.Acyclic →
        let w' := ((compile services depth).exec w).2
        (w.tree.Edited Edit.Proper w'.tree ∧
          w.context.definitions.Edited Edit.Proper w'.context.definitions) ∧
          w'.tree.Consistent ∧ w'.tree.Acyclic ∧ w'.tree.Ends := by
  refine ⟨fun t edited => ?_, fun t edited => ?_, fun services depth w consistent acyclic => ?_⟩
  · exact (edited.linked Tree.empty_intact.consistent.linked).consistent
  · have intact := edited.intact Tree.empty_intact
    exact ⟨intact.consistent, intact.acyclic, intact.ends⟩
  · have start : w.tree.Intact := ⟨consistent, acyclic⟩
    have upkept := (compile_tends services depth).upkept start
    have intact := upkept.tree.intact start
    exact ⟨⟨upkept.tree, upkept.definitions⟩, intact.consistent, intact.acyclic, intact.ends⟩

/-- Children are given twice and stood under the node already; then one of them is placed under itself, and
the links still agree. A conditional gives way to its branch, and when the value behind it is returned
outside of any function, the tree of the run that fails is intact. -/
theorem tree_integrity_stray_return :
    let t := Edit.apply (.setChildren Tree.root [⟨2⟩, ⟨1⟩, ⟨2⟩])
      ((Edit.appendChild Tree.root (.comment "b")).apply
        ((Edit.appendChild Tree.root (.comment "a")).apply .empty))
    let circle := (Edit.append ⟨1⟩ ⟨1⟩).apply t
    let stylesheet := Tree.ofNodes
      [⟨.conditional, [⟨.otherwise, [⟨.comment "c", []⟩]⟩]⟩, ⟨.result [.ident "d"], []⟩]
    let w : World Unit := ⟨stylesheet, .empty, ()⟩
    let w' := ((compile Services.plain 9).exec w).2
    (t.children Tree.root = [⟨1⟩, ⟨2⟩] ∧ t.Consistent ∧ t.Acyclic ∧ t.Ends) ∧
      (circle.children ⟨1⟩ = [⟨1⟩] ∧ circle.Consistent) ∧
      (((compile Services.plain 9).exec w).1 = .error (.failed (.strayReturn "d")) ∧
        w'.tree.outline = "c\n@return d") ∧
      stylesheet.Edited Edit.Proper w'.tree ∧ w'.tree.Consistent ∧ w'.tree.Acyclic := by
  intro t circle stylesheet w w'
  obtain ⟨agree, proper, compiled⟩ := tree_integrity
  have edited : Tree.empty.Edited Edit.Proper t := by
    have first : Tree.empty.Edited Edit.Proper _ :=
      .single (.appendChild Tree.root (.comment "a")) (by decide) trivial
    refine (first.trans (.single (.appendChild Tree.root (.comment "b")) (by decide) trivial)).trans
      (.single (.setChildren Tree.root [⟨2⟩, ⟨1⟩, ⟨2⟩]) (by decide) fun c hc back => ?_)
    -- the comments have nothing under them, so they do not lead to the root
    have leaves : ∀ c ∈ ([⟨2⟩, ⟨1⟩, ⟨2⟩] : List NodeId), Tree.root ≠ c ∧
        ((Edit.appendChild Tree.root (.comment "b")).apply
          ((Edit.appendChild Tree.root (.comment "a")).apply .empty)).children c = [] := by decide
    rcases back.eq_or_exists_child with e | ⟨d, hd, -⟩
    · exact (leaves c hc).1 e
    · rw [(leaves c hc).2] at hd
      cases hd
  have circled : Tree.empty.Edited (fun _ _ => True) circle :=
    (edited.mono fun _ _ _ => trivial).trans (.single (.append ⟨1⟩ ⟨1⟩) (by decide) trivial)
  have intact := Tree.ofNodes_intact
    [⟨.conditional, [⟨.otherwise, [⟨.comment "c", []⟩]⟩]⟩, ⟨.result [.ident "d"], []⟩]
  obtain ⟨⟨upkept, -⟩, consistent, acyclic, -⟩ :=
    compiled Services.plain 9 w intact.consistent intact.acyclic
  exact ⟨⟨by decide, proper t edited⟩, ⟨by decide, agree circle circled⟩,
    ⟨by decide +kernel, by decide +kernel⟩, upkept, consistent, acyclic⟩

end

end Stylesheet
