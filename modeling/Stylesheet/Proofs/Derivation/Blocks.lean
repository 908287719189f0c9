import Stylesheet.Proofs.Derivation.Nodes

/-! # Blocks that match

What a block or a nesting makes of its children moves out behind it (`Tree.Shows.moveOut`): the
blocks in a block, under its selectors, and all that stands in a nesting, with its name in front. A block
stays in its place over what is left, and it is entered in the register, so that extensions inside of it
can refer to it. -/

namespace Stylesheet

open Expansion

section

variable {σ τ : Type} {L : σ → τ → Prop} {old : List (NodeId × List String)}
  {floor : Nat} {t : Tree} {p id : NodeId} {before inside after : List NodeId}
  {cs rs us new : List (Rose NodeId)} {made : List (Rose Stem)} {block : Option NodeId} {mode : Mode}
  {ids : List NodeId} {W : World σ} {V : World τ}

namespace Tree

/-- A node of a place has the parent of the place. -/
theorem Site.parentOf (h : t.Site floor p before [⟨id, cs⟩] after) : t.parentOf id = .ok p := by
  have link := h.parent?_label (List.mem_singleton.2 rfl)
  unfold Tree.parentOf
  rw [← Rose.label_mk id cs, link.2]

/-- Some of what stands under a node moves out behind it, with other nodes at the top. -/
theorem Shows.moveOut {produce : NodeId → Tree → NodeId × Tree} {f : Node → Node}
    (hr : Renodes produce f) (b : Node → Bool) (hs : t.Site floor p before [⟨id, new⟩] after)
    (shows : t.Shows ids new made) :
    let t' := (spliceAfter produce p id ((t.children id).filter fun c => b (t.node c)) t).2
    let rest := new.filter fun r => !b (t.node r.label)
    let ms := new.filter fun r => b (t.node r.label)
    t.Reworked floor p before ([Rose.mk id new].flatMap Rose.labels) after (⟨id, rest⟩ :: ms) t' ∧
      t'.Shows ids rest (made.filter fun o => !b o.label.node) ∧
      t'.Shows ids ms ((made.filter fun o => b o.label.node).map fun o =>
        ⟨⟨f o.label.node, o.label.mark⟩, o.children⟩) ∧
      t'.node id = t.node id := by
  intro t' rest ms
  obtain ⟨reworked, hnode⟩ := hs.reworked_moveOut (fun c => b (t.node c)) hr
  -- only the nodes at the top of what moves are others
  have kept {x : NodeId} (hx : x ∉ ms.map Rose.label) : t'.node x = t.node x := by
    rw [hnode, if_neg hx]
  have below {r c : Rose NodeId} (hm : r ∈ new) (hc : c ∈ r.children) {x : NodeId} (hx : x ∈ c.labels) :
      x ∉ ms.map Rose.label := by
    intro hm'
    obtain ⟨m, hmem, rfl⟩ := List.mem_map.1 hm'
    exact hs.under.below_ne_label hm (List.mem_filter.1 hmem).1 hc hx rfl
  have aside {r : Rose NodeId} (hm : r ∈ rest) : r.label ∉ ms.map Rose.label := by
    intro hm'
    obtain ⟨m, hmem, e⟩ := List.mem_map.1 hm'
    have moves := (List.mem_filter.1 hmem).2
    have stays := (List.mem_filter.1 hm).2
    rw [e] at moves
    rw [moves] at stays
    exact Bool.false_ne_true stays
  refine ⟨reworked, ?_, ?_, ?_⟩
  · refine (shows.filter fun n => !b n).mono (List.prefix_refl ids) fun r hm x hx => kept ?_
    rcases Rose.mem_labels.1 hx with rfl | ⟨c, hc, hx⟩
    · exact aside hm
    · exact below (List.mem_filter.1 hm).1 hc hx
  · refine (shows.filter b).retop (fun r hm => ?_) fun r hm c hc x hx => ?_
    · rw [hnode, if_pos (List.mem_map_of_mem hm)]
    · exact kept (below (List.mem_filter.1 hm).1 hc hx)
  · refine kept fun hm' => hs.under.parent_not_mem ?_
    obtain ⟨m, hmem, e⟩ := List.mem_map.1 hm'
    exact List.mem_flatMap.2 ⟨m, (List.mem_filter.1 hmem).1, e ▸ m.label_mem_labels⟩

end Tree

/-- A block is entered in the register. -/
theorem Mirrors.enter (hw : Mirrors L old ids W V) (id : NodeId) (t : Tree) (n : Node) :
    Mirrors L old (ids ++ [id]) { W with tree := t } { V with tree := (V.tree.create n).2 } where
  bare := hw.bare
  loader := hw.loader
  extensions := by
    obtain ⟨noted, eq, hnoted⟩ := hw.extensions
    refine ⟨noted, eq, hnoted.imp fun a b hab => ⟨?_, hab.targets⟩⟩
    exact Tree.getElem?_mono (List.prefix_append ids [id]) hab.block
  size := by
    rw [Tree.size_create, hw.size, List.length_append, List.length_singleton]

namespace Walker.Realizes

variable {outside : Prop} {w : Walker σ} {d : Deriver τ} (h : w.Realizes L outside d)

include h

/-- A block matches. -/
theorem traverseBlock (hm : mode ≠ .function → outside)
    (hs : W.tree.Site floor p before [⟨id, cs⟩] after) (hw : Mirrors L old ids W V)
    (selectors : List String) :
    Matches (Ended L old ids (nodeSpot floor W.tree p id before after cs))
      (Kept L old ids (nodeSpot floor W.tree p id before after cs))
      ((w.traverseBlock id selectors mode).exec W)
      ((d.deriveBlock mode selectors (cs.map (Rose.map W.tree.node))).exec V) := by
  unfold Walker.traverseBlock Deriver.deriveBlock Deriver.wrapped
  rw [exec_scope_bind, exec_scope_bind, Context.scope_eq_of_bare hw.bare]
  generalize selectors.map (interpolate V.context.scope.get?) = selectors
  dsimp only
  rw [exec_modifyTree_bind, exec_changeTree_bind]
  obtain ⟨reworked, hself, hcs⟩ := hs.setNode (.block selectors)
  -- the next number in the register stands for this block from now on
  have number : (V.tree.create (.block selectors)).1.index = ids.length := hw.size
  generalize (V.tree.create (.block selectors)).1 = mark at number ⊢
  have entered : (ids ++ [id])[mark.index]? = some id := by simp [number]
  generalize hT : W.tree.setNode id (.block selectors) = T at *
  have walked := h.walkChildren (W := { W with tree := T }) hm reworked.site.under
    (.here (by dsimp only; rw [hself, Node.isBlock_block]) entered) (hw.enter id T (.block selectors))
  dsimp only at walked
  rw [hcs] at walked
  refine Matches.rebase (W := { W with tree := T }) ?_ reworked (List.prefix_append ids [id])
  refine walked.bind_ended (fun _ => rfl) (fun _ => rfl) (fun _ _ hk => hk.under reworked.site)
    fun made W₁ V₁ hmade => ?_
  obtain ⟨ids₁, new, hi, hw₁, hr, shows, same⟩ :=
    Made.under (w := { W with tree := T }) reworked.site hmade
  obtain ⟨moved, rest, nested, same'⟩ :=
    shows.moveOut (Tree.renodes_nestBlock selectors) Node.isBlock hr.site
  have parentOf := hr.site.parentOf
  have mark_eq : (ids₁)[mark.index]? = some id := Tree.getElem?_mono hi entered
  generalize hT' : (Tree.spliceAfter (Tree.nestBlock selectors) p id
    ((W₁.tree.children id).filter fun c => (W₁.tree.node c).isBlock) W₁.tree).2 = T' at *
  -- the block is left with what is no block, and behind it stand those that were in it
  have all : Made L old (ids ++ [id]) (nodeSpot floor T p id before after cs)
      (Deriver.flatten selectors mark made) { W₁ with tree := T' } V₁ := by
    have top : T'.Shows ids₁ [⟨id, _⟩] [⟨⟨.block selectors, some mark⟩, _⟩] :=
      rest.wrap (by rw [same', same, hself]) (by simpa using mark_eq)
    exact ⟨ids₁, _, hi, hw₁.of_unmoved ⟨rfl, rfl⟩, hr.next moved, top.append nested⟩
  rw [exec_tree_bind]
  by_cases none : ((W₁.tree.children id).filter fun c => (W₁.tree.node c).isBlock).isEmpty
  · -- there are no blocks in the block, so none are moved
    rw [if_pos none]
    have : T' = W₁.tree := by
      rw [← hT', List.isEmpty_iff.1 none]
      rfl
    rw [this] at all
    exact .pure all
  · rw [if_neg none, parentOf]
    rw [← hT'] at all
    exact .pure all

/-- A nesting matches. -/
theorem traverseNesting (hm : mode ≠ .function → outside)
    (hs : W.tree.Site floor p before [⟨id, cs⟩] after) (hb : W.tree.Around ids p block)
    (hw : Mirrors L old ids W V) (hn : (W.tree.node id).isBlock = false) (name : String) :
    Matches (Ended L old ids (nodeSpot floor W.tree p id before after cs))
      (Kept L old ids (nodeSpot floor W.tree p id before after cs))
      ((w.traverseNesting id name mode).exec W)
      ((d.deriveNesting block mode name (cs.map (Rose.map W.tree.node))).exec V) := by
  have link := hs.parent?_label (List.mem_singleton.2 rfl)
  unfold Walker.traverseNesting Deriver.deriveNesting Walker.resolve
  rw [bind_assoc, bind_assoc, exec_scope_bind, exec_scope_bind, Context.scope_eq_of_bare hw.bare,
    exec_pure_bind, exec_pure_bind]
  generalize interpolate V.context.scope.get? name = name
  have walked := h.walkChildren hm hs.under (.above hn link.2 hb) hw
  unfold Deriver.wrapped
  refine walked.bind_ended (fun _ => rfl) (fun _ => rfl) (fun _ _ hk => hk.under hs)
    fun made W₁ V₁ hmade => ?_
  obtain ⟨ids₁, new, hi, hw₁, hr, shows, -⟩ := hmade.under hs
  -- all children move out with longer names, and the node that is left empty goes
  obtain ⟨moved, -, lengthened, -⟩ :=
    shows.moveOut (Tree.renodes_lengthenName name) (fun _ => true) hr.site
  have parentOf := hr.site.parentOf
  simp only [List.filter_true, Bool.not_true, List.filter_false] at moved lengthened
  obtain ⟨hsite, hrew⟩ := Tree.Site.detach [] _ moved.site
  rw [Rose.label_mk] at hsite hrew
  rw [exec_tree_bind, parentOf]
  refine .pure ⟨ids₁, new, hi, hw₁.of_unmoved ⟨rfl, rfl⟩, (hr.next moved).trans hrew ?_ hsite ?_,
    lengthened.mono (List.prefix_refl ids₁) fun r _ x _ => Tree.node_detach _ id x⟩
  · simp
  · intro x hx
    rw [List.flatMap_cons, List.mem_append]
    exact .inl (.inr hx)

end Walker.Realizes

end

end Stylesheet
