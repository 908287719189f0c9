import Stylesheet.Proofs.Expansion.Integrity

/-! # Extensions stay in their compilation

The numbers of blocks mean something in one tree only, and the extensions that wait to be carried out name
blocks by their numbers. So they have to be carried out in the tree that they were noted in. Two facts see to
that, and every step of expansion keeps both (**`Records`**): a node that has been created is a block as long
as the tree lasts or never (**`Tree.SameBlocks`**), and what is added to the extensions that wait names blocks
of the tree at hand.

As a compilation begins without any, whatever an earlier one has left behind, the extensions that it carries
out are its own (`extensions_of_own_tree`). -/

namespace Stylesheet

open Expansion

/-! ## Blocks -/

namespace Tree

/-- The nodes of the first tree are there in the second, and the same of them are blocks. -/
structure SameBlocks (t t' : Tree) : Prop where
  size_le : t.size ≤ t'.size
  isBlock_eq : ∀ {id : NodeId}, id.index < t.size → (t'.node id).isBlock = (t.node id).isBlock

section

variable {t t' t'' : Tree}

namespace SameBlocks

/-- Every tree has the same blocks as itself. -/
theorem refl (t : Tree) : SameBlocks t t := ⟨Nat.le_refl _, fun _ => rfl⟩

/-- Nodes that stay blocks from one tree to the next stay blocks throughout. -/
theorem trans (h : SameBlocks t t') (h' : SameBlocks t' t'') : SameBlocks t t'' where
  size_le := h.size_le.trans h'.size_le
  isBlock_eq hid := (h'.isBlock_eq (hid.trans_le h.size_le)).trans (h.isBlock_eq hid)

/-- New nodes come behind those that are there. -/
theorem of_grown (h : Grown t t') : SameBlocks t t' :=
  ⟨h.size_le, fun hid => congrArg Node.isBlock (h.node_eq hid)⟩

/-- Links are of no account. -/
theorem of_node_eq (size : t'.size = t.size) (node : ∀ id, t'.node id = t.node id) : SameBlocks t t' :=
  ⟨size.ge, fun {id} _ => congrArg Node.isBlock (node id)⟩

/-- Going through a list, one tree after the other. -/
theorem foldl {α : Type} {f : Tree → α → Tree} (h : ∀ (t : Tree) a, SameBlocks t (f t a)) (as : List α)
    (t : Tree) : SameBlocks t (as.foldl f t) :=
  List.foldlRecOn as f (refl t) fun t' before a _ => before.trans (h t' a)

end SameBlocks

/-- Taking a node out of its parent changes links only. -/
theorem sameBlocks_detach (t : Tree) (id : NodeId) : SameBlocks t (t.detach id) :=
  .of_node_eq (size_detach t id) (node_detach t id)

/-- Removing a child changes links only. -/
theorem sameBlocks_remove (t : Tree) (p id : NodeId) : SameBlocks t (t.remove p id) := by
  rcases remove_eq t p id with eq | eq <;> rw [eq]
  · exact sameBlocks_detach t id
  · exact .refl t

/-- Taking all children away changes links only. -/
theorem sameBlocks_setChildren_nil (t : Tree) (id : NodeId) : SameBlocks t (t.setChildren id []) :=
  .of_node_eq (size_setChildren_nil t id) (node_setChildren_nil t id)

/-- A graft brings new nodes. -/
theorem sameBlocks_graft (t source : Tree) (id : NodeId) : SameBlocks t (t.graft source id).2 :=
  .of_grown (graft_planted t source id).grown

/-- A node gives way to one that is a block if it was one. -/
theorem sameBlocks_setNode {id : NodeId} {n : Node} (h : n.isBlock = (t.node id).isBlock) :
    SameBlocks t (t.setNode id n) := by
  refine ⟨(size_setNode t id n).ge, fun {other} hid => ?_⟩
  by_cases e : other = id
  · subst e
    rw [node_setNode_self t other n hid, h]
  · rw [node_setNode_of_ne t n e]

/-- Placing nodes in a row goes by what makes them. -/
theorem sameBlocks_spliceAfter {produce : NodeId → Tree → NodeId × Tree}
    (h : ∀ c (t : Tree), SameBlocks t (produce c t).2) (p a : NodeId) (ids : List NodeId) (t : Tree) :
    SameBlocks t (spliceAfter produce p a ids t).2 := by
  induction ids generalizing t a with
  | nil => exact .refl t
  | cons c ids ih =>
    have placed : SameBlocks (produce c t).2 ((produce c t).2.insertAfter p a (produce c t).1) :=
      .of_node_eq (size_insertAfter _ _ _ _) (node_insertAfter _ _ _ _)
    rw [spliceAfter_cons]
    exact ((h c t).trans placed).trans (ih _ _)

/-- Moving nodes behind another one changes links only. -/
theorem sameBlocks_moveAfter (t : Tree) (p a : NodeId) (ids : List NodeId) :
    SameBlocks t (t.moveAfter p a ids) :=
  sameBlocks_spliceAfter (fun _ t => .refl t) p a ids t

/-- Resolving the placeholders in a block leaves a block. -/
theorem isBlock_interpolate (lookup : Lookup) (n : Node) : (n.interpolate lookup).isBlock = n.isBlock := by
  cases n <;> rfl

/-- Interpolation turns no node into a block, and no block into anything else. -/
theorem sameBlocks_interpolateTo (lookup : Lookup) (depth : Nat) (id : NodeId) (t : Tree) :
    SameBlocks t (interpolateTo lookup depth id t) :=
  related_interpolateTo .refl .trans lookup (fun _ _ => sameBlocks_setNode (isBlock_interpolate lookup _))
    depth id t

/-- Interpolating below several nodes keeps the blocks. -/
theorem sameBlocks_interpolateAll (lookup : Lookup) (t : Tree) (ids : List NodeId) :
    SameBlocks t (t.interpolateAll lookup ids) :=
  .foldl (fun t id => sameBlocks_interpolateTo lookup t.size id t) ids t

/-- Filling the slots of a body brings new nodes and changes links. -/
theorem sameBlocks_fillContent (t : Tree) (body source : NodeId) :
    SameBlocks t (t.fillContent body source) := by
  refine .foldl (fun t slot => ?_) _ _
  unfold fillSlot
  split
  · exact .refl t
  · exact (sameBlocks_spliceAfter (fun id t => sameBlocks_graft t t id) _ _ _ _).trans (sameBlocks_remove _ _ _)

/-- A block that other selectors are put in front of is a block. -/
theorem sameBlocks_nestBlock (outer : List String) (id : NodeId) (t : Tree) :
    SameBlocks t (nestBlock outer id t).2 := by
  unfold nestBlock
  split
  next own node => exact sameBlocks_setNode (by rw [node]; rfl)
  · exact .refl t

/-- A declaration with a longer name still is no block. -/
theorem sameBlocks_lengthenName (name : String) (id : NodeId) (t : Tree) :
    SameBlocks t (lengthenName name id t).2 := by
  unfold lengthenName
  split
  next own value important node => exact sameBlocks_setNode (by rw [node]; rfl)
  · exact .refl t

/-- Carrying out extensions changes the selectors of blocks. -/
theorem sameBlocks_applyExtensions (t : Tree) (extensions : List (NodeId × List String)) :
    SameBlocks t (t.applyExtensions extensions) := by
  refine related_applyExtensions .refl .trans (fun targets extenders t id => ?_) t extensions
  unfold extendBlock
  split
  next selectors node => exact sameBlocks_setNode (by rw [node]; rfl)
  · exact .refl t

/-- The node that encloses another as a block is a block. -/
theorem isBlock_of_enclosingBlock? {height : Nat} {id block : NodeId}
    (h : t.enclosingBlock? height id = some block) : (t.node block).isBlock = true := by
  induction height generalizing id with
  | zero => cases h
  | succ height ih =>
    unfold enclosingBlock? at h
    split at h
    · cases h
    · split at h
      next found =>
        cases h
        exact found
      · exact ih h

/-- A block has been created. -/
theorem lt_size_of_isBlock {id : NodeId} (h : (t.node id).isBlock = true) : id.index < t.size :=
  lt_size_of_node_ne fun root => by
    rw [root] at h
    cases h

end

end Tree

/-! ## Steps that record -/

section

variable {σ α β : Type} {w w' : World σ}

/-- An extension was noted in a tree between two others, for the block around a node that asks for it. -/
def Tree.NotedBetween (t t' : Tree) (e : NodeId × List String) : Prop :=
  ∃ (here : Tree) (id : NodeId), t.SameBlocks here ∧ here.SameBlocks t' ∧ here.node id = .extend e.2 ∧
    here.enclosingBlock? here.size id = some e.1

/-- What an extension was noted for still is a block. -/
theorem Tree.NotedBetween.isBlock {t t' : Tree} {e : NodeId × List String} (h : t.NotedBetween t' e) :
    (t'.node e.1).isBlock = true := by
  obtain ⟨here, id, -, after, -, found⟩ := h
  have block := isBlock_of_enclosingBlock? found
  rw [after.isBlock_eq (lt_size_of_isBlock block), block]

/-- The same nodes are blocks, and each extension that has been added was noted in between. -/
structure Records (w w' : World σ) : Prop where
  blocks : w.tree.SameBlocks w'.tree
  added : ∃ noted, w'.context.extensions = w.context.extensions ++ noted ∧
    ∀ e ∈ noted, w.tree.NotedBetween w'.tree e

/-- Where no extension is added, it is enough that the same nodes are blocks. -/
theorem Records.of_extensions_eq (blocks : w.tree.SameBlocks w'.tree)
    (same : w'.context.extensions = w.context.extensions) : Records w w' :=
  ⟨blocks, [], by rw [same, List.append_nil], by simp⟩

/-- What has been recorded step by step has been recorded in the end. -/
instance : IsPreorder (World σ) Records where
  refl w := .of_extensions_eq (.refl w.tree) rfl
  trans _ _ _ h h' := by
    refine ⟨h.blocks.trans h'.blocks, ?_⟩
    obtain ⟨first, eq, inFirst⟩ := h.added
    obtain ⟨second, eq', inSecond⟩ := h'.added
    refine ⟨first ++ second, by rw [eq', eq, List.append_assoc], fun e he => ?_⟩
    rcases List.mem_append.1 he with he | he
    · obtain ⟨here, id, before, after, noted⟩ := inFirst e he
      exact ⟨here, id, before, after.trans h'.blocks, noted⟩
    · obtain ⟨here, id, before, after, noted⟩ := inSecond e he
      exact ⟨here, id, h.blocks.trans before, after, noted⟩

namespace Expansion

/-- A change of the tree has to keep the blocks. -/
theorem records_modifyTree {f : Tree → Tree} (h : ∀ t : Tree, t.SameBlocks (f t)) :
    Keeps Records (modifyTree f : Expansion σ Unit) :=
  fun w => .of_extensions_eq (h w.tree) rfl

/-- A change of the tree that has a result has to keep the blocks. -/
theorem records_changeTree {f : Tree → α × Tree} (h : ∀ t : Tree, t.SameBlocks (f t).2) :
    Keeps Records (changeTree f : Expansion σ α) :=
  fun w => .of_extensions_eq (h w.tree) rfl

/-- A change of the context has to leave the extensions that wait. -/
theorem records_modifyContext {f : Context → Context} (h : ∀ c : Context, (f c).extensions = c.extensions) :
    Keeps Records (modifyContext f : Expansion σ Unit) :=
  fun w => .of_extensions_eq (.refl w.tree) (h w.context)

/-- A change of the scope leaves tree and extensions. -/
theorem records_modifyScope (f : Scope → Scope) : Keeps Records (modifyScope f : Expansion σ Unit) :=
  records_modifyContext fun _ => rfl

/-- Detaching a node records nothing. -/
theorem records_detach (id : NodeId) : Keeps Records (modifyTree (·.detach id) : Expansion σ Unit) :=
  records_modifyTree (Tree.sameBlocks_detach · id)

/-- A frame has no part in it. -/
theorem records_inFrame {kind : FrameKind} {body : Expansion σ α} (h : Keeps Records body) :
    Keeps Records (inFrame kind body) := fun w =>
  have inside := h (w.mapScope (·.enter kind))
  ⟨inside.blocks, inside.added⟩

/-- Another node in a place, and what follows it. -/
theorem records_setNode_bind {id : NodeId} {n : Node} {f : Unit → Expansion σ α}
    (same : n.isBlock = (w.tree.node id).isBlock) (hf : Keeps Records (f ())) :
    Records w ((modifyTree (·.setNode id n) >>= f).exec w).2 :=
  have set : Records w { w with tree := w.tree.setNode id n } :=
    .of_extensions_eq (Tree.sameBlocks_setNode same) rfl
  trans_of Records set (hf _)

end Expansion

/-! ## Walkers -/

/-- A walker that notes extensions for blocks only. -/
structure Walker.Notes (w : Walker σ) : Prop where
  evaluate : ∀ value, Keeps Records (w.evaluate value)
  traverse : ∀ id mode, Keeps Records (w.traverse id mode)

namespace Walker.Notes

variable {w : Walker σ}

/-- What a call puts in the tree is a copy. -/
theorem invoke (h : w.Notes) (name : String) (arguments : List Value) :
    Keeps Records (w.invoke name arguments) := by
  unfold Walker.invoke
  refine Keeps.context.bind fun c => (Keeps.ofExcept _).bind fun found => (Keeps.ofExcept _).bind
    fun collated => (records_changeTree fun t => Tree.sameBlocks_graft t _ _).bind fun body => ?_
  have inside : Keeps Records (do
      w.bindParameters collated
      let lookup ← Walker.innermostLookup
      modifyTree fun t => t.interpolateAll lookup (t.children body)
      w.walkChildren body .function) :=
    (Keeps.bindParameters h.evaluate (fun _ _ => records_modifyScope _) collated).bind fun _ =>
      Keeps.innermostLookup.bind fun lookup =>
      (records_modifyTree fun t => Tree.sameBlocks_interpolateAll lookup t _).bind fun _ =>
      .walkChildren (h.traverse · .function) body
  refine (records_inFrame inside).bind fun flow =>
    (records_modifyTree fun t => Tree.sameBlocks_setChildren_nil t body).bind fun _ => ?_
  cases flow <;> exact .pure _

/-- The nodes that are copied or moved into a place are walked through there. -/
theorem includeMixin (h : w.Notes) (id : NodeId) (invocation : Invocation) :
    Keeps Records (w.includeMixin id invocation) := by
  unfold Walker.includeMixin
  refine Keeps.tree.bind fun t => (Keeps.ofExcept _).bind fun parent => Keeps.context.bind fun c =>
    (Keeps.ofExcept _).bind fun found => (Keeps.arguments h.evaluate _).bind fun args =>
    (Keeps.ofExcept _).bind fun collated =>
    (records_changeTree fun t => Tree.sameBlocks_graft t _ _).bind fun body =>
    (records_modifyTree fun t => Tree.sameBlocks_fillContent t body id).bind fun _ => ?_
  have bound := Keeps.bindParameters h.evaluate (fun _ _ => records_modifyScope _) collated
  have placed (lookup : Lookup) (moved : List NodeId) : Keeps Records (modifyTree (σ := σ) fun t =>
      (((t.interpolateAll lookup moved).moveAfter parent id moved).setChildren id []).remove parent id) :=
    records_modifyTree fun t => ((Tree.sameBlocks_interpolateAll lookup t _).trans
      (Tree.sameBlocks_moveAfter _ _ _ _)).trans
      ((Tree.sameBlocks_setChildren_nil _ _).trans (Tree.sameBlocks_remove _ _ _))
  refine (records_inFrame (.placeBody bound placed (h.traverse · .mixin))).bind fun flow => ?_
  cases flow with
  | finished => exact .pure _
  | returned value => exact .fail _

/-- One pass of a loop works on copies. -/
theorem pass (h : w.Notes) (place : LoopPlace) (mode : Mode) (bound : Option (String × Value)) :
    Keeps Records (w.pass place mode bound) := by
  have copied : Keeps Records (Walker.innermostLookup >>= fun lookup =>
      changeTree (fun t => Tree.spliceAfter (Tree.copyInterpolated lookup) place.parent
        (t.passAnchor place.parent place.id place.next) (t.children place.id) t) >>= fun copies =>
      w.walkNodes mode copies) :=
    Keeps.innermostLookup.bind fun lookup => (records_changeTree fun t => Tree.sameBlocks_spliceAfter
      (fun id t => (Tree.sameBlocks_graft t t id).trans (Tree.sameBlocks_interpolateTo lookup _ _ _))
      _ _ _ _).bind fun _ => .walkNodes (h.traverse · mode) _
  refine records_inFrame ?_
  cases bound with
  | none => exact copied
  | some b => exact (records_modifyScope _).bind fun _ => copied

/-- Of a conditional, the nodes of the chosen branch are moved to where it stood. -/
theorem expandConditional (services : Services σ) (h : w.Notes) (parent id : NodeId) (mode : Mode) :
    Keeps Records (Walker.expandConditional services w parent id mode) := by
  refine Keeps.tree.bind fun t => (Keeps.choose services _).bind fun chosen => ?_
  have moved (ids : List NodeId) : Keeps Records (do
      modifyTree fun t => ((t.moveAfter parent id ids).setChildren id []).remove parent id
      w.walkNodes mode ids) :=
    (records_modifyTree fun t => (Tree.sameBlocks_moveAfter t _ _ _).trans
      ((Tree.sameBlocks_setChildren_nil _ _).trans (Tree.sameBlocks_remove _ _ _))).bind fun _ =>
      .walkNodes (h.traverse · mode) ids
  cases chosen with
  | none => exact (Keeps.pure _).bind moved
  | some branch => exact Keeps.tree.bind fun t => (Keeps.pure _).bind moved

/-- Every directive that is expanded in its place. -/
theorem expandDirective (services : Services σ) (h : w.Notes) (id : NodeId) (mode : Mode) :
    Keeps Records (Walker.expandDirective services w id mode) := by
  refine Keeps.tree.bind fun t => (Keeps.ofExcept _).bind fun parent => ?_
  have loop {m : Expansion σ Flow} (hm : Keeps Records m) : Keeps Records (do
      let flow ← m
      modifyTree fun t => (t.setChildren id []).remove parent id
      pure flow) :=
    hm.bind fun flow => (records_modifyTree fun t =>
      (Tree.sameBlocks_setChildren_nil t id).trans (Tree.sameBlocks_remove _ _ _)).bind fun _ => .pure _
  dsimp only
  split
  · exact loop (.expandCounting h.evaluate fun _ => h.pass _ mode _)
  · exact loop (.expandEach h.evaluate (fun _ => h.pass _ mode _) _)
  · exact loop (.passesWhile services (h.pass _ mode none) _ _)
  · exact expandConditional services h _ _ _
  · exact .fail _

/-! ### Nodes -/

/-- An assignment takes its own node out of the tree. -/
theorem assign (h : w.Notes) (id : NodeId) (name : String) (value : Value) (guarded : Bool) :
    Keeps Records (w.assign id name value guarded) := by
  unfold Walker.assign
  refine Keeps.scope.bind fun s => ?_
  dsimp only
  split
  · exact records_detach id
  · exact (h.evaluate value).bind fun _ => (records_modifyScope _).bind fun _ => records_detach id

/-- A declaration is still no block when its value has been evaluated. -/
theorem declaration (h : w.Notes) {W : World σ} {id : NodeId} {name : String} {value : Value}
    {important : Bool} (node : W.tree.node id = .declaration name value important) :
    Records W ((do
      let result ← w.evaluate value
      let name ← Walker.resolve name
      modifyTree (·.setNode id (.declaration name result important))
      pure .finished : Expansion σ Flow).exec W).2 := by
  refine related_bind (h.evaluate value W) fun result W₁ evaluated => ?_
  have blocks := (h.evaluate value W).blocks
  rw [evaluated] at blocks
  have created : id.index < W.tree.size := Tree.lt_size_of_node_ne (by rw [node]; nofun)
  exact records_setNode_bind (by rw [blocks.isBlock_eq created, node]; rfl) (.pure _)

/-- A block is replaced by a block, and those within it are given its selectors. -/
theorem traverseBlock (h : w.Notes) {W : World σ} {id : NodeId} {selectors : List String} (mode : Mode)
    (node : W.tree.node id = .block selectors) : Records W ((w.traverseBlock id selectors mode).exec W).2 := by
  unfold Walker.traverseBlock
  rw [exec_scope_bind]
  refine records_setNode_bind (by rw [node]; rfl) ((Keeps.walkChildren (h.traverse · mode) id).flow ?_
    fun _ => rfl)
  refine Keeps.tree.bind fun t => ?_
  dsimp only
  split
  · exact .pure _
  · exact (Keeps.ofExcept _).bind fun parent => (records_modifyTree fun t =>
      Tree.sameBlocks_spliceAfter (Tree.sameBlocks_nestBlock _) _ _ _ t).bind fun _ => .pure _

/-- A nested declaration is taken out, and those within it are given its name. -/
theorem traverseNesting (h : w.Notes) (id : NodeId) (name : String) (mode : Mode) :
    Keeps Records (w.traverseNesting id name mode) := by
  refine (Keeps.resolve name).bind fun name => (Keeps.walkChildren (h.traverse · mode) id).flow ?_ fun _ => rfl
  exact Keeps.tree.bind fun t => (Keeps.ofExcept _).bind fun parent => (records_modifyTree fun t =>
    (Tree.sameBlocks_spliceAfter (Tree.sameBlocks_lengthenName name) _ _ _ t).trans
      (Tree.sameBlocks_detach _ id)).bind fun _ => .pure _

/-- An extension is noted for the block around it. -/
theorem recordExtension {W : World σ} {id : NodeId} {targets : List String}
    (node : W.tree.node id = .extend targets) :
    Records W ((Walker.recordExtension id targets : Expansion σ Unit).exec W).2 := by
  unfold Walker.recordExtension
  rw [exec_tree_bind]
  dsimp only
  split
  next block found =>
    have noted : Records W { W with
        context := { W.context with extensions := W.context.extensions ++ [(block, targets)] } } :=
      ⟨.refl W.tree, [(block, targets)], rfl, List.forall_mem_singleton.2
        ⟨W.tree, id, .refl W.tree, .refl W.tree, node, found⟩⟩
    exact trans_of Records noted (records_detach id _)
  · exact records_detach id W

/-- Loading reaches neither the tree nor the extensions. -/
theorem load (services : Services σ) (uri : String) : Keeps Records (Walker.load services uri) := by
  unfold Walker.load
  refine Keeps.bind (fun w => .of_extensions_eq (.refl w.tree) rfl) fun loaded =>
    (Keeps.ofExcept _).bind fun source => ?_
  cases source with
  | none => exact .fail _
  | some source => exact .pure _

/-- An import grafts what is loaded, and what is grafted is walked through. -/
theorem traverseImport (services : Services σ) (h : w.Notes) {W : World σ} {id : NodeId} {i : Import}
    (mode : Mode) (node : W.tree.node id = .importing i) :
    Records W ((Walker.traverseImport services w id i mode).exec W).2 := by
  unfold Walker.traverseImport Walker.resolve
  rw [bind_assoc, exec_scope_bind, exec_pure_bind]
  dsimp only
  split
  · exact records_setNode_bind (by rw [node]; rfl) (.pure _)
  · exact (load services _).bind (fun source => Keeps.tree.bind fun t => (Keeps.ofExcept _).bind fun parent =>
      (records_changeTree fun t => (Tree.sameBlocks_spliceAfter
        (fun c t => Tree.sameBlocks_graft t source c) _ _ _ t).trans (Tree.sameBlocks_detach _ id)).bind
      fun _ => .walkNodes (h.traverse · mode) _) W

/-- Editing a list changes a variable only. -/
theorem traverseList (h : w.Notes) (id : NodeId) (d : ListDirective) : Keeps Records (w.traverseList id d) :=
  (h.evaluate _).bind fun _ => (h.evaluate _).bind fun _ => (records_modifyScope _).bind fun _ =>
    records_detach id

/-- One node is expanded. -/
theorem traverseWith (services : Services σ) (h : w.Notes) (id : NodeId) (mode : Mode) :
    Keeps Records (Walker.traverseWith services w id mode) := by
  refine Keeps.tree_bind fun W => related_ofExcept_bind fun _ _ => ?_
  -- the names of keyframes and queries are resolved before they are put in the place of the node
  have renamed (text : String) {make : String → Node}
      (same : ∀ name, (make name).isBlock = (W.tree.node id).isBlock) :
      Records W ((Walker.resolve text >>= fun name =>
        modifyTree (·.setNode id (make name)) >>= fun _ => w.walkChildren id mode).exec W).2 := by
    unfold Walker.resolve
    rw [bind_assoc, exec_scope_bind, exec_pure_bind]
    exact records_setNode_bind (same _) (.walkChildren (h.traverse · mode) id)
  cases node : W.tree.node id with
  | root | fontFace | keyframeBlock => exact Keeps.walkChildren (h.traverse · mode) id W
  | assignment name value guarded => exact ((h.assign id _ _ _).bind fun _ => .pure _) W
  | result value =>
    dsimp only
    split
    · exact ((h.evaluate _).bind fun _ => .pure _) W
    · exact refl_of Records W
  | declaration name value important => exact h.declaration node
  | block selectors => exact h.traverseBlock mode node
  | comment | plain | vendor => exact refl_of Records W
  | keyframes keyword name => exact renamed name fun _ => by rw [node]; rfl
  | media query => exact renamed query fun _ => by rw [node]; rfl
  | importing i => exact h.traverseImport services mode node
  | extend targets => exact related_bind (recordExtension node) fun _ _ _ => refl_of Records _
  | content => exact ((records_detach id).bind fun _ => .pure _) W
  | functionDefinition signature | mixinDefinition signature =>
    refine (Keeps.tree.bind fun t => Keeps.bind (records_modifyContext ?_) fun _ =>
      (records_detach id).bind fun _ => .pure _) W
    exact fun c => rfl
  | functionCall c =>
    exact ((Keeps.arguments h.evaluate _).bind fun args => (Keeps.call h.invoke _ args).bind fun _ =>
      (records_detach id).bind fun _ => .pure _) W
  | mixinCall c => exact ((h.includeMixin id _).bind fun _ => .pure _) W
  | nesting name => exact h.traverseNesting id _ mode W
  | listDirective d => exact ((h.traverseList id _).bind fun _ => .pure _) W
  | each | counting | whileLoop | conditional => exact expandDirective services h id mode W
  | branch | otherwise => exact refl_of Records W

end Walker.Notes

/-- The walker of each depth notes extensions for blocks only. -/
theorem walker_notes (services : Services σ) (depth : Nat) : (walker services depth).Notes := by
  induction depth with
  | zero => exact ⟨fun _ => .throw _, fun _ _ => .throw _⟩
  | succ depth ih => exact ⟨.evaluateWith ih.evaluate ih.invoke, ih.traverseWith services⟩

/-! ## Compilations one after the other -/

/-- A compilation: how deep it goes, and the world that it begins in. -/
structure Compilation (σ : Type) where
  depth : Nat
  before : World σ

namespace Compilation

/-- What a compilation ends with, and the world that it leaves. -/
def outcome (services : Services σ) (run : Compilation σ) : Except Stop Unit × World σ :=
  (compile services run.depth).exec run.before

/-- A compilation that began with these extensions waiting. -/
def withPending (run : Compilation σ) (extensions : List (NodeId × List String)) : Compilation σ :=
  { run with before := { run.before with context := { run.before.context with extensions := extensions } } }

/-- What the walk through the tree comes to, and the world in which extensions are carried out if it gets to
the end. -/
def walk (services : Services σ) (run : Compilation σ) : Except Stop Flow × World σ :=
  ((walker services run.depth).walkChildren Tree.root .stylesheet).exec (run.withPending []).before

/-- The compilations of some trees, one after the other, each to any end. What is known at the end of one is
known in the next. -/
def sequence (services : Services σ) (c : Context) (loader : σ) : List (Nat × Tree) → List (Compilation σ)
  | [] => []
  | (depth, t) :: calls =>
    let run : Compilation σ := ⟨depth, t, c, loader⟩
    let after := (run.outcome services).2
    run :: sequence services after.context after.loader calls

variable (services : Services σ) (run : Compilation σ)

/-- What was waiting before is of no account. -/
theorem outcome_withPending (extensions : List (NodeId × List String)) :
    (run.withPending extensions).outcome services = run.outcome services := rfl

/-- After the walk, the extensions that it noted are carried out, and none is left waiting. -/
theorem outcome_eq : run.outcome services =
    match run.walk services with
    | (.ok .finished, w) =>
      (.ok (), ⟨w.tree.applyExtensions w.context.extensions, { w.context with extensions := [] }, w.loader⟩)
    | (.ok (.returned value), w) => (.error (.failed (.strayReturn value.text)), w)
    | (.error e, w) => (.error e, w) := by
  unfold outcome compile walk withPending
  rw [exec_modifyContext_bind, exec_bind]
  rcases ((walker services run.depth).walkChildren Tree.root .stylesheet).exec _ with ⟨e | flow, w⟩
  · rfl
  · cases flow <;> rfl

/-- The walk notes extensions of its own. -/
theorem walk_noted : ∀ e ∈ (run.walk services).2.context.extensions,
    run.before.tree.NotedBetween (run.walk services).2.tree e := by
  have kept := Keeps.walkChildren ((walker_notes services run.depth).traverse · .stylesheet) Tree.root
    (run.withPending []).before
  obtain ⟨noted, eq, inBetween⟩ := kept.added
  -- none was there when the walk began
  have all : (run.walk services).2.context.extensions = noted := eq
  rw [all]
  exact inBetween

end Compilation

/-- **Extensions stay in their compilation.** Let trees be compiled one after the other, each to any end.
Whatever extensions are waiting when one of the compilations begins, it comes to the same. When it carries
extensions out, each of them was noted in this compilation, for a block around a node that asks for it, and at
its turn that is still a block of the tree. When it succeeds, no extension is left waiting. -/
theorem extensions_of_own_tree (services : Services σ) (c : Context) (loader : σ) (calls : List (Nat × Tree)) :
    ∀ run ∈ Compilation.sequence services c loader calls,
      (∀ pending, (run.withPending pending).outcome services = run.outcome services) ∧
      (∀ w, run.walk services = (.ok .finished, w) →
        (∀ done e rest, w.context.extensions = done ++ e :: rest →
          run.before.tree.NotedBetween w.tree e ∧ e.1.index < w.tree.size ∧
            ((w.tree.applyExtensions done).node e.1).isBlock = true) ∧
        run.outcome services = (.ok (), ⟨w.tree.applyExtensions w.context.extensions,
          { w.context with extensions := [] }, w.loader⟩)) ∧
      ∀ w, run.outcome services = (.ok (), w) →
        w.context.extensions = [] ∧ ∃ u, run.walk services = (.ok .finished, u) := by
  intro run _
  refine ⟨run.outcome_withPending services, fun w walk => ⟨fun done e rest split => ?_, ?_⟩, fun w ok => ?_⟩
  · have noted := run.walk_noted services e (by rw [walk, split]; simp)
    rw [walk] at noted
    have block := noted.isBlock
    have created := Tree.lt_size_of_isBlock block
    refine ⟨noted, created, ?_⟩
    rw [(Tree.sameBlocks_applyExtensions w.tree done).isBlock_eq created, block]
  · rw [run.outcome_eq services, walk]
  · rw [run.outcome_eq services] at ok
    rcases walk : run.walk services with ⟨e | value | flow, u⟩ <;> rw [walk] at ok
    · cases ok
    · cases ok
      exact ⟨rfl, u, rfl⟩
    · cases ok

/-- A compilation fails when an extension is already waiting for the third node of its tree. That node is a
block of the next tree too, but nothing is added to the selectors there. In the last tree an extension is
carried out that the compilation itself has noted. -/
theorem extensions_of_own_tree_after_failure :
    let failing := Tree.ofNodes [⟨.block [".z"], []⟩, ⟨.block [".a"], [⟨.extend [".b"], []⟩]⟩,
      ⟨.result [.ident "d"], []⟩]
    let plain := Tree.ofNodes [⟨.block [".b"], []⟩, ⟨.block [".c"], []⟩]
    let extending := Tree.ofNodes [⟨.block [".b"], []⟩, ⟨.block [".c"], [⟨.extend [".b"], []⟩]⟩]
    let first : Compilation Unit := ⟨9, failing, .empty, ()⟩
    let second : Compilation Unit := ⟨9, { (first.outcome Services.plain).2 with tree := plain }⟩
    let third : Compilation Unit := ⟨9, { (second.outcome Services.plain).2 with tree := extending }⟩
    let w := (third.walk Services.plain).2
    Compilation.sequence Services.plain .empty () [(9, failing), (9, plain), (9, extending)] =
        [first, second, third] ∧
      (first.outcome Services.plain).1 = .error (.failed (.strayReturn "d")) ∧
      second.before.context.extensions = [(⟨2⟩, [".b"])] ∧
      (second.outcome Services.plain).2.tree.outline = ".b\n.c" ∧
      (∀ pending, (second.withPending pending).outcome Services.plain = second.outcome Services.plain) ∧
      w.context.extensions = [(⟨2⟩, [".b"])] ∧ (w.tree.node ⟨2⟩).isBlock = true ∧
      (third.outcome Services.plain).2.tree.outline = ".b, .c\n.c" ∧
      (third.outcome Services.plain).2.context.extensions = [] := by
  intro failing plain extending first second third w
  have runs : Compilation.sequence Services.plain .empty () [(9, failing), (9, plain), (9, extending)] =
      [first, second, third] := by
    simp only [Compilation.sequence, first, second, third]
  have own := extensions_of_own_tree Services.plain .empty () [(9, failing), (9, plain), (9, extending)]
  rw [runs] at own
  obtain ⟨same, -⟩ := own second (.tail _ (.head _))
  obtain ⟨-, carried, ended⟩ := own third (.tail _ (.tail _ (.head _)))
  obtain ⟨clear, u, walk⟩ := ended _ (Prod.fst_eq_iff.1 (by decide +kernel))
  have waiting : w.context.extensions = [(⟨2⟩, [".b"])] := by decide +kernel
  obtain ⟨noted, -⟩ := carried w (Prod.fst_eq_iff.1 (congrArg Prod.fst walk))
  obtain ⟨-, -, block⟩ := noted [] (⟨2⟩, [".b"]) [] waiting
  exact ⟨runs, by decide +kernel, by decide +kernel, by decide +kernel, same, waiting, block,
    by decide +kernel, clear⟩

end

end Stylesheet
