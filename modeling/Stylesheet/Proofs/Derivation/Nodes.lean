import Stylesheet.Proofs.Derivation.Directives

/-! # Nodes that match

Each kind of node is expanded in its place as it is derived. A node may go (`Made.detached`), change
where it stands (`Made.renamed`), or be walked through (`Walker.Realizes.walkNode`); a block sends the
blocks in it behind itself, and an include or an import gives way to copies; those are in modules of
their own. -/

namespace Stylesheet

open Expansion

/-- The place of a single node. -/
abbrev nodeSpot (floor : Nat) (t : Tree) (p id : NodeId) (before after : List NodeId)
    (cs : List (Rose NodeId)) : Spot :=
  ⟨floor, t, p, before, [Rose.mk id cs].flatMap Rose.labels, after⟩

section

variable {σ τ : Type} {L : σ → τ → Prop} {old : List (NodeId × List String)}
  {floor : Nat} {t : Tree} {p id : NodeId} {before inside after : List NodeId}
  {cs rs : List (Rose NodeId)} {block : Option NodeId} {mode : Mode} {ids ids' : List NodeId}
  {W : World σ} {V : World τ}

/-! ## Single nodes -/

/-- A text is resolved alike. -/
theorem echoes_resolve (text : String) :
    Echoes L (Walker.resolve text : Expansion σ String) (Walker.resolve text) :=
  Echoes.scope.bind fun s => .pure (interpolate s.get? text)

/-- Nodes that are left as they are. -/
theorem Made.still (hs : W.tree.Site floor p before rs after) (hw : Mirrors L old ids W V) :
    Made L old ids ⟨floor, W.tree, p, before, rs.flatMap Rose.labels, after⟩
      (rs.map fun r => (r.map W.tree.node).map Stem.still) W V :=
  ⟨ids, rs, List.prefix_refl _, hw, hs.reworked, .still ids W.tree rs⟩

/-- A node that goes. -/
theorem Made.detached (hs : W.tree.Site floor p before [⟨id, cs⟩] after) {W' : World σ}
    (ht : W'.tree = W.tree.detach id) (hw : Mirrors L old ids W' V) :
    Made L old ids (nodeSpot floor W.tree p id before after cs) [] W' V := by
  obtain ⟨hsite, hrew⟩ := Tree.Site.detach [] [] hs
  rw [Rose.label_mk] at hsite hrew
  refine ⟨ids, [], List.prefix_refl _, hw, ?_, .nil⟩
  rw [ht]
  exact hs.reworked.trans hrew (by simp) hsite (by simp)

/-- Another node in the place of one reads off with what stands under it. -/
theorem Tree.Site.setNode (hs : W.tree.Site floor p before [⟨id, cs⟩] after) (n : Node) :
    W.tree.Reworked floor p before ([Rose.mk id cs].flatMap Rose.labels) after [⟨id, cs⟩]
        (W.tree.setNode id n) ∧
      (W.tree.setNode id n).node id = n ∧
      cs.map (Rose.map (W.tree.setNode id n).node) = cs.map (Rose.map W.tree.node) := by
  have set := Tree.Relabeled.setNode W.tree id n
  refine ⟨set.reworked hs.reworked (by simp), Tree.node_setNode_self _ _ _ hs.under.lt_size, ?_⟩
  refine List.map_congr_left fun c hc => Rose.map_congr fun x hx => set.node_eq ?_
  rw [List.mem_singleton]
  rintro rfl
  exact hs.under.parent_not_mem (List.mem_flatMap.2 ⟨c, hc, hx⟩)

/-- A node that is changed where it stands. -/
theorem Made.renamed (hs : W.tree.Site floor p before [⟨id, cs⟩] after) (n : Node)
    (hw : Mirrors L old ids W V) :
    Made L old ids (nodeSpot floor W.tree p id before after cs)
      (Deriver.around n ((cs.map (Rose.map W.tree.node)).map (Rose.map Stem.still)))
      { W with tree := W.tree.setNode id n } V := by
  obtain ⟨reworked, hn, hcs⟩ := hs.setNode n
  refine ⟨ids, [⟨id, cs⟩], List.prefix_refl _, hw.of_unmoved ⟨rfl, rfl⟩, reworked, ?_⟩
  have under := Tree.Shows.still ids (W.tree.setNode id n) cs
  have views : (cs.map fun r => (r.map (W.tree.setNode id n).node).map Stem.still) =
      (cs.map (Rose.map W.tree.node)).map (Rose.map Stem.still) := by
    rw [← hcs, List.map_map]
    rfl
  rw [views] at under
  exact under.wrap hn (by simp [Stem.still])

/-- After an echo the node stands where it was. -/
theorem Expansion.Matches.echo_bind_node {α : Type} {m : Expansion σ α} {f : Expansion τ α}
    {g : α → Expansion σ Flow} {k : α → Expansion τ Yield} (hm : Echoes L m f)
    (hs : W.tree.Site floor p before [⟨id, cs⟩] after) (hb : W.tree.Around ids p block)
    (hw : Mirrors L old ids W V)
    (hok : ∀ a (W' : World σ), W'.tree.Site floor p before [⟨id, cs⟩] after →
      W'.tree.Around ids p block → Mirrors L old ids W' V →
      cs.map (Rose.map W'.tree.node) = cs.map (Rose.map W.tree.node) →
      Matches (Ended L old ids (nodeSpot floor W'.tree p id before after cs))
        (Kept L old ids (nodeSpot floor W'.tree p id before after cs)) ((g a).exec W') ((k a).exec V)) :
    Matches (Ended L old ids (nodeSpot floor W.tree p id before after cs))
      (Kept L old ids (nodeSpot floor W.tree p id before after cs))
      ((m >>= g).exec W) ((f >>= k).exec V) := by
  refine Matches.echo_bind hm hw (fun a W' hq => ?_) fun W' hq => hq.kept hs
  have reworked := hs.reworked_of_grown hq.grown
  refine (hok a W' reworked.site (hb.of_rewrites hs reworked.rewrites) hq.mirrors ?_).rebase reworked
    (List.prefix_refl ids)
  refine List.map_congr_left fun c hc => Rose.map_congr fun x hx => hq.grown.node_eq ?_
  exact hs.under.index_lt (List.mem_flatMap.2 ⟨c, hc, hx⟩)

namespace Walker.Realizes

variable {outside : Prop} {w : Walker σ} {d : Deriver τ} (h : w.Realizes L outside d)

include h

/-- Walking through a node that is no block. -/
theorem walkNode (hm : mode ≠ .function → outside)
    (hs : W.tree.Site floor p before [⟨id, cs⟩] after) (hb : W.tree.Around ids p block)
    (hw : Mirrors L old ids W V) (hn : (W.tree.node id).isBlock = false) :
    Matches (Ended L old ids (nodeSpot floor W.tree p id before after cs))
      (Kept L old ids (nodeSpot floor W.tree p id before after cs))
      ((w.walkChildren id mode).exec W)
      ((Deriver.wrapped (Deriver.around (W.tree.node id))
        (d.deriveChildren block mode (cs.map (Rose.map W.tree.node)))).exec V) := by
  have link := hs.parent?_label (List.mem_singleton.2 rfl)
  refine (h.walkChildren hm hs.under (.above hn link.2 hb) hw).wrapped (fun _ _ hk => .under hs hk)
    fun made W' V' hmade => ?_
  obtain ⟨ids', new, hi, hw', hr, shows, same⟩ := Made.under hs hmade
  exact ⟨ids', [⟨id, new⟩], hi, hw', hr, shows.wrap same (by simp [Stem.still])⟩

/-- Walking through a node that is changed first. -/
theorem walkRenamed (hm : mode ≠ .function → outside)
    (hs : W.tree.Site floor p before [⟨id, cs⟩] after) (hb : W.tree.Around ids p block)
    (hw : Mirrors L old ids W V) {n : Node} (hn : n.isBlock = false) :
    Matches (Ended L old ids (nodeSpot floor W.tree p id before after cs))
      (Kept L old ids (nodeSpot floor W.tree p id before after cs))
      ((modifyTree (·.setNode id n) >>= fun _ => w.walkChildren id mode).exec W)
      ((Deriver.wrapped (Deriver.around n)
        (d.deriveChildren block mode (cs.map (Rose.map W.tree.node)))).exec V) := by
  obtain ⟨reworked, hself, hcs⟩ := hs.setNode n
  rw [exec_modifyTree_bind]
  have walked := h.walkNode (W := { W with tree := W.tree.setNode id n }) hm reworked.site
    (hb.of_rewrites hs reworked.rewrites) (hw.of_unmoved ⟨rfl, rfl⟩)
    (by
      dsimp only
      rw [hself, hn])
  dsimp only at walked
  rw [hself, hcs] at walked
  exact walked.rebase (W := { W with tree := W.tree.setNode id n }) reworked (List.prefix_refl ids)

end Walker.Realizes

/-! ## Nodes that go -/

/-- A node whose work is done goes. -/
theorem Expansion.Matches.detached {m : Expansion σ Unit} {f : Expansion τ Unit}
    (hs : W.tree.Site floor p before [⟨id, cs⟩] after)
    (h : Matches (fun _ W' _ V' => Advanced L old ids W.tree W' V') (Advanced L old ids W.tree)
      (m.exec W) (f.exec V)) :
    Matches (Ended L old ids (nodeSpot floor W.tree p id before after cs))
      (Kept L old ids (nodeSpot floor W.tree p id before after cs))
      (((m >>= fun _ => modifyTree (·.detach id)) >>= fun _ => Pure.pure Flow.finished).exec W)
      ((f >>= fun _ => Pure.pure (Yield.finished [])).exec V) := by
  rw [bind_assoc]
  refine h.bind (fun _ W' _ V' hq => ?_) fun W' V' hq => hq.kept hs
  rw [exec_modifyTree_bind]
  have reworked := hs.reworked_of_grown hq.grown
  have gone : Made L old ids (nodeSpot floor W'.tree p id before after cs) []
      { W' with tree := W'.tree.detach id } V' :=
    Made.detached reworked.site rfl (hq.mirrors.of_unmoved ⟨rfl, rfl⟩)
  exact .pure (gone.rebase reworked (List.prefix_refl ids))

namespace Walker.Realizes

variable {outside : Prop} {w : Walker σ} {d : Deriver τ} (h : w.Realizes L outside d)

include h

/-- An assignment. -/
theorem assign (hs : W.tree.Site floor p before [⟨id, cs⟩] after) (hw : Mirrors L old ids W V)
    (name : String) (value : Value) (guarded : Bool) :
    Matches (Ended L old ids (nodeSpot floor W.tree p id before after cs))
      (Kept L old ids (nodeSpot floor W.tree p id before after cs))
      ((w.assign id name value guarded >>= fun _ => pure .finished).exec W)
      ((d.assign name value guarded >>= fun _ => pure (.finished [])).exec V) := by
  have start : Advanced L old ids W.tree W V := ⟨.refl _, hw⟩
  unfold Walker.assign Deriver.assign
  rw [bind_assoc, bind_assoc, exec_scope_bind, exec_scope_bind, Context.scope_eq_of_bare hw.bare]
  by_cases hg : (guarded && V.context.scope.isBound name) = true
  · -- nothing is evaluated for a variable that is bound already
    rw [if_pos hg, if_pos hg]
    exact Matches.detached (m := pure ()) (f := pure ()) hs (.ok start)
  · rw [if_neg hg, if_neg hg]
    have set : Matches (fun _ W' _ V' => Advanced L old ids W.tree W' V') (Advanced L old ids W.tree)
        ((w.evaluate value >>= fun result => modifyScope (·.set name result)).exec W)
        ((d.evaluate value >>= fun result => modifyScope (·.set name result)).exec V) := by
      refine ((h.evaluate value).advanced start).bind ?_ fun _ _ he => he
      rintro result W' _ V' ⟨rfl, hq⟩
      exact hq.modifyScope _
    simpa only [bind_assoc] using Matches.detached hs set

/-- A list directive. -/
theorem traverseList (hs : W.tree.Site floor p before [⟨id, cs⟩] after) (hw : Mirrors L old ids W V)
    (directive : ListDirective) :
    Matches (Ended L old ids (nodeSpot floor W.tree p id before after cs))
      (Kept L old ids (nodeSpot floor W.tree p id before after cs))
      ((w.traverseList id directive >>= fun _ => pure .finished).exec W)
      ((d.editList directive >>= fun _ => pure (.finished [])).exec V) := by
  have edit : Matches (fun _ W' _ V' => Advanced L old ids W.tree W' V') (Advanced L old ids W.tree)
      ((do
        let list ← w.evaluate directive.list
        let items ← w.evaluate directive.items
        modifyScope (·.set directive.variableName (Walker.editList directive.edit
          (Builtin.Separator.combinesByComma (directive.separator.bind Builtin.Separator.ofName?) list
            items) list items))).exec W)
      ((d.editList directive).exec V) := by
    refine ((h.evaluate _).advanced ⟨.refl _, hw⟩).bind ?_ fun _ _ he => he
    rintro list W₁ _ V₁ ⟨rfl, hq₁⟩
    refine ((h.evaluate _).advanced hq₁).bind ?_ fun _ _ he => he
    rintro items W₂ _ V₂ ⟨rfl, hq₂⟩
    exact hq₂.modifyScope _
  simpa only [Walker.traverseList, bind_assoc] using Matches.detached hs edit

/-- A call of a function as a statement. -/
theorem functionCall (hi : w.Isolates) (hs : W.tree.Site floor p before [⟨id, cs⟩] after)
    (hw : Mirrors L old ids W V) (c : Invocation) :
    Matches (Ended L old ids (nodeSpot floor W.tree p id before after cs))
      (Kept L old ids (nodeSpot floor W.tree p id before after cs))
      ((do
        let args ← w.arguments c.arguments
        let _ ← w.call c.name args
        modifyTree (·.detach id)
        pure Flow.finished).exec W)
      ((do
        let args ← d.walker.arguments c.arguments
        let _ ← d.call c.name args
        pure (Yield.finished [])).exec V) := by
  -- the result is dropped on both sides, and what the call leaves in the tree is new
  have called : Matches (fun _ W' _ V' => Advanced L old ids W.tree W' V') (Advanced L old ids W.tree)
      ((do
        let args ← w.arguments c.arguments
        let _ ← w.call c.name args).exec W)
      ((do
        let args ← d.walker.arguments c.arguments
        let _ ← d.call c.name args).exec V) := by
    refine ((h.arguments _).advanced ⟨.refl _, hw⟩).bind ?_ fun _ _ he => he
    rintro args W₁ _ V₁ ⟨rfl, hq⟩
    refine ((h.call hi c.name args).advanced hq).bind ?_ fun _ _ he => he
    rintro result W₂ _ V₂ ⟨-, hq⟩
    exact .pure hq
  simpa only [bind_assoc, pure_bind] using Matches.detached hs called

/-- A value that is returned. -/
theorem result (hs : W.tree.Site floor p before [⟨id, cs⟩] after) (hb : W.tree.Around ids p block)
    (hw : Mirrors L old ids W V) (value : Value) :
    Matches (Ended L old ids (nodeSpot floor W.tree p id before after cs))
      (Kept L old ids (nodeSpot floor W.tree p id before after cs))
      ((w.evaluate value >>= fun result => pure (Flow.returned result)).exec W)
      ((d.evaluate value >>= fun result => pure (Yield.returned result)).exec V) := by
  refine Matches.echo_bind_node (h.evaluate value) hs hb hw fun result W' hs' _ hw' _ => ?_
  exact .pure ⟨rfl, .still hs' hw'⟩

/-- A declaration. -/
theorem declaration (hs : W.tree.Site floor p before [⟨id, cs⟩] after) (hb : W.tree.Around ids p block)
    (hw : Mirrors L old ids W V) (name : String) (value : Value) (important : Bool) :
    Matches (Ended L old ids (nodeSpot floor W.tree p id before after cs))
      (Kept L old ids (nodeSpot floor W.tree p id before after cs))
      ((do
        let result ← w.evaluate value
        let name ← Walker.resolve name
        modifyTree (·.setNode id (.declaration name result important))
        pure Flow.finished).exec W)
      ((do
        let result ← d.evaluate value
        let name ← Walker.resolve name
        pure (Yield.finished (Deriver.around (.declaration name result important)
          ((cs.map (Rose.map W.tree.node)).map (Rose.map .still))))).exec V) := by
  refine Matches.echo_bind_node (h.evaluate value) hs hb hw fun result W₁ hs₁ hb₁ hw₁ same₁ => ?_
  refine Matches.echo_bind_node (echoes_resolve name) hs₁ hb₁ hw₁ fun name W₂ hs₂ _ hw₂ same₂ => ?_
  rw [exec_modifyTree_bind, ← same₁, ← same₂]
  exact .pure (Made.renamed hs₂ _ hw₂)

end Walker.Realizes

/-! ## Extensions and definitions -/

/-- The innermost block around a node is the one around its place. -/
theorem Tree.Around.enclosingBlock? {t : Tree} (hb : t.Around ids p block) :
    ∀ {id : NodeId} {height e : Nat}, t.parent? id = some p → t.Depth p e → e < height →
      (block = none ∧ t.enclosingBlock? height id = none) ∨
        ∃ k b, block = some k ∧ ids[k.index]? = some b ∧ t.enclosingBlock? height id = some b := by
  -- the induction is on the way up, which is shorter than the height that is searched
  induction hb with
  | @here p k isBlock hk =>
    intro id height e hp _ he
    obtain ⟨height, rfl⟩ : ∃ m, height = m + 1 := ⟨height - 1, by omega⟩
    refine .inr ⟨k, p, rfl, hk, ?_⟩
    rw [Tree.enclosingBlock?, hp]
    exact if_pos isBlock
  | @top p isBlock hroot =>
    intro id height e hp _ he
    obtain ⟨height, rfl⟩ : ∃ m, height = m + 1 := ⟨height - 1, by omega⟩
    refine .inl ⟨rfl, ?_⟩
    rw [Tree.enclosingBlock?, hp]
    dsimp only
    rw [isBlock, if_neg Bool.false_ne_true]
    cases height with
    | zero => rfl
    | succ height => rw [Tree.enclosingBlock?, hroot]
  | @above p q block isBlock hq _ ih =>
    intro id height e hp hd he
    obtain ⟨height, rfl⟩ : ∃ m, height = m + 1 := ⟨height - 1, by omega⟩
    obtain ⟨e', rfl, hd'⟩ := hd.of_parent hq
    rw [Tree.enclosingBlock?, hp]
    dsimp only
    rw [isBlock, if_neg Bool.false_ne_true]
    exact ih hq hd' (by omega)

/-- An extension that is noted. -/
theorem Mirrors.note {k b : NodeId} (hw : Mirrors L old ids W V) (hk : ids[k.index]? = some b)
    (targets : List String) :
    Mirrors L old ids
      { W with context := { W.context with extensions := W.context.extensions ++ [(b, targets)] } }
      { V with context := { V.context with extensions := V.context.extensions ++ [(k, targets)] } } where
  bare := hw.bare
  loader := hw.loader
  extensions := by
    obtain ⟨noted, eq, hnoted⟩ := hw.extensions
    refine ⟨noted ++ [(b, targets)], ?_, ?_⟩
    · dsimp only
      rw [eq, List.append_assoc]
    · exact List.rel_append hnoted (.cons ⟨hk, rfl⟩ .nil)
  size := hw.size

/-- An extension. -/
theorem Expansion.Matches.recordExtension (hs : W.tree.Site floor p before [⟨id, cs⟩] after)
    (hb : W.tree.Around ids p block) (hw : Mirrors L old ids W V) (targets : List String) :
    Matches (Ended L old ids (nodeSpot floor W.tree p id before after cs))
      (Kept L old ids (nodeSpot floor W.tree p id before after cs))
      ((Walker.recordExtension id targets >>= fun _ => Pure.pure Flow.finished).exec W)
      ((Deriver.recordExtension block targets >>= fun _ => Pure.pure (Yield.finished [])).exec V) := by
  have link := hs.parent?_label (List.mem_singleton.2 rfl)
  obtain ⟨e, hd⟩ := hs.depth
  unfold Walker.recordExtension Deriver.recordExtension
  rw [bind_assoc, exec_tree_bind]
  rcases hb.enclosingBlock? link.2 hd hd.lt_size with ⟨rfl, found⟩ | ⟨k, b, rfl, hk, found⟩
  · rw [Rose.label_mk] at found
    rw [found]
    exact Matches.detached (m := Pure.pure ()) (f := Pure.pure ()) hs (.ok ⟨.refl _, hw⟩)
  · rw [Rose.label_mk] at found
    rw [found]
    exact Matches.detached (m := modifyContext _) (f := modifyContext _) hs
      (.ok ⟨.refl _, hw.note hk targets⟩)

/-- Functions are defined alike. -/
theorem Context.addFunction_eq (c : Context) (name : String) {t : Tree} {r : Rose Node}
    (h : t.rose t.size id = r) : c.addFunction name t id = c.enterFunction name r := by
  unfold Context.addFunction Context.enterFunction
  rw [Tree.graft_eq_plant, h]

/-- Mixins are defined alike. -/
theorem Context.addMixin_eq (c : Context) (name : String) {t : Tree} {r : Rose Node}
    (h : t.rose t.size id = r) : c.addMixin name t id = c.enterMixin name r := by
  unfold Context.addMixin Context.enterMixin
  rw [Tree.graft_eq_plant, h]

/-- A definition that both contexts take in. -/
theorem Expansion.Matches.definition {f : Context → Tree → Context} {g : Context → Context}
    (hs : W.tree.Site floor p before [⟨id, cs⟩] after) (hw : Mirrors L old ids W V)
    (added : ∀ c, f c W.tree = g c) (bare : ∀ c, (g c).bare = g c.bare)
    (extensions : ∀ c, (g c).extensions = c.extensions) :
    Matches (Ended L old ids (nodeSpot floor W.tree p id before after cs))
      (Kept L old ids (nodeSpot floor W.tree p id before after cs))
      ((do
        let t ← tree
        modifyContext fun c => f c t
        modifyTree (·.detach id)
        Pure.pure Flow.finished).exec W)
      ((do
        modifyContext g
        Pure.pure (Yield.finished [])).exec V) := by
  rw [exec_tree_bind, ← bind_assoc]
  refine Matches.detached hs (.ok ⟨.refl _, ?_⟩)
  dsimp only
  rw [added]
  refine ⟨⟨?_, hw.loader⟩, ?_, hw.size⟩
  · rw [bare, bare, hw.bare]
  · dsimp only
    rw [extensions, extensions]
    exact hw.extensions

end

end Stylesheet
