import Stylesheet.Proofs.Expansion.Outline

/-! # Flattening keeps the order of the document

A block that has been expanded keeps its declarations and comments, and the blocks that were in it, at any
depth, stand behind it. On shapes this is **`Rose.flatten`**: what the trees under a label are flattened to
is parted into what stays under it and what moves out behind it. The nodes that are left at the top are the
node itself and all blocks under it, parents first (`Rose.map_label_flatten`).

Expansion does to the nodes of a tree what flattening does to their shapes (**`Tree.Flattened`**): for a
block by the induction on shapes, since its children are visited before any of them moves out, and for
children next to each other since each is expanded in its own place (`visit_flattened`). -/

namespace Stylesheet

open Expansion

/-! ## Flattening shapes -/

namespace Rose

variable {α : Type} (b : α → Bool)

/-- What comes of a tree when, from the inside out, the labels that satisfy `b` move out behind the one they
are under. -/
def flatten : Rose α → List (Rose α)
  | ⟨a, rs⟩ =>
    ⟨a, (rs.flatMap fun r => flatten r).filter fun r => !b r.label⟩ ::
      (rs.flatMap fun r => flatten r).filter fun r => b r.label

/-- A tree is flattened into its label, with what is no block under it, and the blocks behind it. -/
@[simp] theorem flatten_mk (a : α) (rs : List (Rose α)) :
    flatten b ⟨a, rs⟩ = ⟨a, (rs.flatMap (flatten b)).filter fun r => !b r.label⟩ ::
      (rs.flatMap (flatten b)).filter fun r => b r.label := by
  rw [flatten]

variable {b}

/-- No label is lost, and none is added. -/
theorem mem_labels_flatten {x : α} {r : Rose α} : x ∈ (flatten b r).flatMap labels ↔ x ∈ r.labels := by
  induction r with
  | mk a rs ih =>
    -- what stays and what moves out is all there is
    have parted : (∃ r ∈ (rs.flatMap (flatten b)).filter (fun r => !b r.label), x ∈ r.labels) ∨
        (∃ r ∈ (rs.flatMap (flatten b)).filter (fun r => b r.label), x ∈ r.labels) ↔
        ∃ r ∈ rs, x ∈ (flatten b r).flatMap labels := by
      simp only [List.mem_filter, List.mem_flatMap]
      constructor
      · rintro (⟨s, ⟨⟨r, hr, hs⟩, -⟩, hx⟩ | ⟨s, ⟨⟨r, hr, hs⟩, -⟩, hx⟩) <;> exact ⟨r, hr, s, hs, hx⟩
      · rintro ⟨r, hr, s, hs, hx⟩
        cases hb : b s.label
        · exact .inl ⟨s, ⟨⟨r, hr, hs⟩, by simp [hb]⟩, hx⟩
        · exact .inr ⟨s, ⟨⟨r, hr, hs⟩, hb⟩, hx⟩
    rw [flatten_mk, List.flatMap_cons, List.mem_append, labels_mk, List.mem_cons, List.mem_flatMap,
      List.mem_flatMap, or_assoc, parted, labels_mk, List.mem_cons, List.mem_flatMap]
    exact or_congr_right (exists_congr fun r => and_congr_right fun hr => ih r hr)

/-- At the top there are the label at the top and, parents first, all labels under it that satisfy `b`. -/
theorem map_label_flatten (r : Rose α) :
    (flatten b r).map label = r.label :: (r.children.flatMap labels).filter b := by
  induction r with
  | mk a rs ih =>
    rw [flatten_mk, List.map_cons, label_mk, label_mk, children_mk]
    congr 1
    have tops : ((rs.flatMap (flatten b)).filter fun r => b r.label).map label =
        (rs.flatMap fun r => (flatten b r).map label).filter b := by
      rw [← List.map_flatMap, List.filter_map]
      rfl
    rw [tops, List.filter_flatMap, List.filter_flatMap]
    simp only [List.flatMap_def]
    congr 1
    refine List.map_congr_left fun r hr => ?_
    -- what was picked before is picked again
    obtain ⟨c, cs⟩ := r
    rw [ih _ hr, label_mk, children_mk, labels_mk, List.filter_cons, List.filter_cons, List.filter_filter]
    simp only [Bool.and_self]

/-- Under a label there are those labels right under it that do not satisfy `b`. -/
theorem map_label_filter_flatten (rs : List (Rose α)) :
    ((rs.flatMap (flatten b)).filter fun r => !b r.label).map label = (rs.map label).filter fun a => !b a := by
  induction rs with
  | nil => rfl
  | cons r rs ih =>
    have tops : ((flatten b r).filter fun r => !b r.label).map label =
        ((flatten b r).map label).filter fun a => !b a := by
      rw [List.filter_map]
      rfl
    -- of what moves out nothing stays
    have gone : ((r.children.flatMap labels).filter b).filter (fun a => !b a) = [] := by
      simp [List.filter_filter]
    rw [List.flatMap_cons, List.filter_append, List.map_append, ih, tops, map_label_flatten, List.map_cons,
      List.filter_cons, List.filter_cons, gone]
    split <;> rfl

end Rose

/-! ## Elements -/

/-- The second node is the first one with other texts: a block with other selectors, or a declaration with
another name and value. -/
inductive Node.Reworded : Node → Node → Prop
  | block {own own' : List String} : Reworded (.block own) (.block own')
  | declaration {name name' : String} {value value' : Value} {important : Bool} :
      Reworded (.declaration name value important) (.declaration name' value' important)
  | refl (n : Node) : Reworded n n

namespace Node.Reworded

variable {m n o : Node}

/-- What is reworded twice is reworded. -/
theorem trans (h : Reworded m n) (h' : Reworded n o) : Reworded m o := by
  cases h with
  | refl => exact h'
  | block =>
    cases h' with
    | block | refl => exact .block
  | declaration =>
    cases h' with
    | declaration | refl => exact .declaration

/-- Rewording makes neither a block of what was none nor the other way around. -/
theorem isBlock_eq (h : Reworded m n) : n.isBlock = m.isBlock := by
  cases h <;> rfl

/-- Putting selectors in front of those of a block rewords it. -/
theorem nestNode (outer : List String) (n : Node) : Reworded n (Tree.nestNode outer n) := by
  cases n with
  | block => exact .block
  | _ => exact .refl _

end Node.Reworded

namespace Tree

variable {t t' t'' : Tree} {b : NodeId → Bool} {p x : NodeId} {before after : List NodeId}
  {r : Rose NodeId} {rs us : List (Rose NodeId)}

/-- A block, or a declaration or a comment with nothing under it. -/
def isElement (t : Tree) (id : NodeId) : Bool :=
  match t.node id with
  | .block _ => true
  | .declaration _ _ _ | .comment _ => (t.children id).isEmpty
  | _ => false

/-- A node is an element by what its own slot holds. -/
theorem isElement_congr (h : t'.slot x = t.slot x) : t'.isElement x = t.isElement x := by
  unfold isElement
  rw [node_eq, children_eq, h, ← node_eq, ← children_eq]

/-- These shapes are made of elements, of which `b` tells the blocks. -/
structure Elements (b : NodeId → Bool) (rs : List (Rose NodeId)) (t : Tree) : Prop where
  isElement : ∀ x ∈ rs.flatMap Rose.labels, t.isElement x = true
  isBlock_eq : ∀ x ∈ rs.flatMap Rose.labels, (t.node x).isBlock = b x

/-- What consists of elements does so in every part. -/
theorem Elements.mono (h : t.Elements b rs) (sub : ∀ x ∈ us.flatMap Rose.labels, x ∈ rs.flatMap Rose.labels) :
    t.Elements b us :=
  ⟨fun x hx => h.isElement x (sub x hx), fun x hx => h.isBlock_eq x (sub x hx)⟩

/-- Elements are elements in every tree that has the same slots for them. -/
theorem Elements.congr (h : t.Elements b rs) (same : ∀ x ∈ rs.flatMap Rose.labels, t'.slot x = t.slot x) :
    t'.Elements b rs where
  isElement x hx := by rw [isElement_congr (same x hx), h.isElement x hx]
  isBlock_eq x hx := by rw [node_eq, same x hx, ← node_eq, h.isBlock_eq x hx]

/-- Between the children before and after stands what these shapes are flattened to, and no node in it has
become another one. -/
structure Flattened (b : NodeId → Bool) (p : NodeId) (before : List NodeId) (rs : List (Rose NodeId))
    (after : List NodeId) (t t' : Tree) : Prop where
  reworked : t.Reworked 0 p before (rs.flatMap Rose.labels) after (rs.flatMap (Rose.flatten b)) t'
  reworded : ∀ x ∈ rs.flatMap Rose.labels, (t.node x).Reworded (t'.node x)

section

variable (hs : t.Site 0 p before (rs ++ us) after)
  (h : t.Flattened b p before rs (us.map Rose.label ++ after) t')

include hs h

/-- The place behind one that has been flattened is as it was. -/
theorem Flattened.slot_eq (hx : x ∈ us.flatMap Rose.labels) : t'.slot x = t.slot x := by
  have whole : t.Site 0 p before ([] ++ rs ++ us) after := hs
  obtain ⟨hlt, hp, apart⟩ := whole.around (by simpa using hx)
  exact h.reworked.rewrites.slot_eq hlt hp apart

/-- Flattening two parts of a row, one after the other, flattens the row. -/
theorem Flattened.reworked_append : t.Reworked 0 p before ((rs ++ us).flatMap Rose.labels) after
    (rs.flatMap (Rose.flatten b) ++ us) t' := by
  have whole : t.Site 0 p before ([] ++ rs ++ us) after := hs
  have part : t.Reworked 0 p (before ++ ([] : List (Rose NodeId)).map Rose.label) (rs.flatMap Rose.labels)
      (us.map Rose.label ++ after) (rs.flatMap (Rose.flatten b)) t' := by simpa using h.reworked
  exact whole.reworked.middle part

/-- One place is flattened after the one in front of it. -/
theorem Flattened.append
    (h' : t'.Flattened b p (before ++ (rs.flatMap (Rose.flatten b)).map Rose.label) us after t'') :
    t.Flattened b p before (rs ++ us) after t'' := by
  have first : t.Reworked 0 p before ((rs ++ us).flatMap Rose.labels) after
      (rs.flatMap (Rose.flatten b) ++ us ++ []) t' := by simpa using h.reworked_append hs
  have both : t.Reworked 0 p before ((rs ++ us).flatMap Rose.labels) after
      ((rs ++ us).flatMap (Rose.flatten b)) t'' := by
    simpa using first.middle (by simpa using h'.reworked)
  refine ⟨both, fun x hx => ?_⟩
  rw [List.flatMap_append, List.mem_append] at hx
  rcases hx with hx | hx
  · -- what the first place has become lies outside of the second one
    have outside : x ∈ (rs.flatMap (Rose.flatten b)).flatMap Rose.labels := by
      rw [List.flatMap_assoc, List.mem_flatMap]
      obtain ⟨r, hr, hx⟩ := List.mem_flatMap.1 hx
      exact ⟨r, hr, Rose.mem_labels_flatten.2 hx⟩
    obtain ⟨hlt, hp, apart⟩ := first.site.around (by simpa using outside)
    rw [node_eq t'', h'.reworked.rewrites.slot_eq hlt hp apart, ← node_eq]
    exact h.reworded x hx
  · have same : t'.node x = t.node x := by rw [node_eq, h.slot_eq hs hx, ← node_eq]
    rw [← same]
    exact h'.reworded x hx

end

/-- When all under a node has been flattened, the blocks right under it move out behind it. -/
theorem Flattened.moveOut {id : NodeId} {cs : List (Rose NodeId)} (hs : t.Site 0 p before [⟨id, cs⟩] after)
    (elements : t.Elements b cs) (h : t.Flattened b id [] cs [] t') (outer : List String) :
    t.Flattened b p before [⟨id, cs⟩] after
      (spliceAfter (nestBlock outer) p id ((t'.children id).filter fun c => (t'.node c).isBlock) t').2 := by
  have under := h.reworked.under hs
  obtain ⟨moved, node⟩ := under.site.reworked_moveOut (fun c => (t'.node c).isBlock) (renodes_nestBlock outer)
  have tops : ∀ r ∈ cs.flatMap (Rose.flatten b), (t'.node r.label).isBlock = b r.label := by
    intro r hr
    obtain ⟨c, hc, hr⟩ := List.mem_flatMap.1 hr
    have member : r.label ∈ cs.flatMap Rose.labels := List.mem_flatMap.2
      ⟨c, hc, Rose.mem_labels_flatten.1 (List.mem_flatMap.2 ⟨r, hr, r.label_mem_labels⟩)⟩
    rw [(h.reworded _ member).isBlock_eq, elements.isBlock_eq _ member]
  have stays : (cs.flatMap (Rose.flatten b)).filter (fun r => !(t'.node r.label).isBlock) =
      (cs.flatMap (Rose.flatten b)).filter fun r => !b r.label :=
    List.filter_congr fun r hr => by rw [tops r hr]
  have moves : (cs.flatMap (Rose.flatten b)).filter (fun r => (t'.node r.label).isBlock) =
      (cs.flatMap (Rose.flatten b)).filter fun r => b r.label := List.filter_congr tops
  rw [stays, moves] at moved
  refine ⟨?_, fun x hx => ?_⟩
  · have whole := under.next moved
    rw [← Rose.flatten_mk] at whole
    simpa only [List.flatMap_singleton] using whole
  · -- the node itself stays, and of the others those that move are blocks
    rw [List.flatMap_singleton, Rose.labels_mk, List.mem_cons] at hx
    have kept : (t.node x).Reworded (t'.node x) := by
      rcases hx with rfl | hx
      · rw [h.reworked.rewrites.node_eq]
        exact .refl _
      · exact h.reworded x hx
    rw [node]
    split
    · exact kept.trans (.nestNode outer _)
    · exact kept

end Tree

/-! ## Flattening trees -/

section

variable {σ : Type} {services : Services σ} {b : NodeId → Bool} {p : NodeId} {before after : List NodeId}

/-- Whenever expanding a node of this shape finishes, it has been flattened. -/
def Rose.Flattens (services : Services σ) (b : NodeId → Bool) (r : Rose NodeId) : Prop :=
  ∀ {depth : Nat} {mode : Mode} {w w' : World σ} {p : NodeId} {before after : List NodeId},
    w.tree.Site 0 p before [r] after → w.tree.Elements b [r] →
      (traverse services depth r.label mode).exec w = (.ok .finished, w') →
        w.tree.Flattened b p before [r] after w'.tree

/-- Visiting nodes next to each other flattens them one after the other. -/
theorem visit_flattened {rs : List (Rose NodeId)} (each : ∀ r ∈ rs, r.Flattens services b) {depth : Nat}
    {mode : Mode} {steps : Nat} {w w' : World σ} (hs : w.tree.Site 0 p before rs after)
    (elements : w.tree.Elements b rs)
    (run : ((walker services depth).visit mode steps (rs.map Rose.label)).exec w = (.ok .finished, w')) :
    w.tree.Flattened b p before rs after w'.tree := by
  induction rs generalizing w before steps with
  | nil =>
    rw [List.map_nil, Walker.visit.eq_1] at run
    cases run
    exact ⟨hs.reworked, by simp⟩
  | cons r rs ih =>
    rw [List.map_cons] at run
    obtain ⟨w₁, steps', run₁, run₂⟩ := visit_cons services depth mode steps run
    have parts : w.tree.Site 0 p before ([r] ++ rs) after := hs
    have first := each r (.head _) parts.front (elements.mono (by simp +contextual)) run₁
    have site : w₁.tree.Site 0 p before ([r].flatMap (Rose.flatten b) ++ rs ++ []) after := by
      simpa using (first.reworked_append parts).site
    refine first.append parts (ih (fun s hs => each s (.tail _ hs)) site.middle ?_ run₂)
    exact (elements.mono (by simp +contextual)).congr fun x hx => first.slot_eq parts hx

/-- A node with nothing under it that stays where it is has been flattened. -/
theorem Tree.Flattened.leaf {t t' : Tree} {id : NodeId}
    (h : t.Reworked 0 p before ([Rose.mk id []].flatMap Rose.labels) after [⟨id, []⟩] t')
    (reworded : (t.node id).Reworded (t'.node id)) : t.Flattened b p before [⟨id, []⟩] after t' := by
  refine ⟨by simpa using h, fun x hx => ?_⟩
  obtain rfl : x = id := by simpa using hx
  exact reworded

/-- A declaration is evaluated where it stands. -/
theorem traverse_declaration {depth : Nat} {mode : Mode} {w w' : World σ} {id : NodeId} {name : String}
    {value : Value} {important : Bool} (node : w.tree.node id = .declaration name value important)
    (run : (traverse services depth id mode).exec w = (.ok .finished, w')) :
    ∃ t name' value', w.tree.Grown t ∧ w'.tree = t.setNode id (.declaration name' value' important) := by
  obtain ⟨depth', allowed, run⟩ := exec_traverse_ok run
  rw [Walker.traverseWith, exec_tree_bind] at run
  dsimp only at run
  rw [allowed, exec_ofExcept_ok_bind, node] at run
  obtain ⟨value', w₁, evaluated, run⟩ := exec_bind_ok run
  obtain ⟨name', w₂, resolved, run⟩ := exec_bind_ok run
  cases resolved
  rw [exec_modifyTree_bind] at run
  cases run
  have grown := ((walker_realizes_bodyDeriver services depth').evaluate value).grown (.aside w)
  have same : ((walker services depth').evaluate value).exec w = (.ok value', w₁) := evaluated
  rw [same] at grown
  exact ⟨w₁.tree, _, value', grown, rfl⟩

/-- A comment stays as it is. -/
theorem traverse_comment {depth : Nat} {mode : Mode} {w w' : World σ} {id : NodeId} {text : String}
    (node : w.tree.node id = .comment text)
    (run : (traverse services depth id mode).exec w = (.ok .finished, w')) : w' = w := by
  obtain ⟨depth', allowed, run⟩ := exec_traverse_ok run
  rw [Walker.traverseWith, exec_tree_bind] at run
  dsimp only at run
  rw [allowed, exec_ofExcept_ok_bind, node] at run
  cases run
  rfl

/-- A block is flattened when the nodes under it are. -/
theorem traverse_block_flattened {id : NodeId} {cs : List (Rose NodeId)}
    (each : ∀ c ∈ cs, c.Flattens services b) {depth : Nat} {mode : Mode} {w w' : World σ} {own : List String}
    (hs : w.tree.Site 0 p before [⟨id, cs⟩] after) (elements : w.tree.Elements b cs)
    (block : w.tree.node id = .block own)
    (run : (traverse services depth id mode).exec w = (.ok .finished, w')) :
    w.tree.Flattened b p before [⟨id, cs⟩] after w'.tree := by
  obtain ⟨depth', w₁, walk, out⟩ := traverse_block services depth mode block run
  generalize own.map (interpolate w.context.scope.get?) = selectors at walk out
  obtain ⟨relabeled, entered, -⟩ := hs.setNode (.block selectors)
  -- only the block itself is another node yet
  have aside : ∀ x, x ≠ id → (w.tree.setNode id (.block selectors)).slot x = w.tree.slot x := fun x hx =>
    (Tree.Relabeled.setNode w.tree id (.block selectors)).slot_eq (by simpa using hx)
  generalize w.tree.setNode id (.block selectors) = t at *
  have under : t.Elements b cs := elements.congr fun x hx => aside x <| by
    rintro rfl
    exact hs.under.parent_not_mem hx
  obtain ⟨d, hd⟩ := relabeled.site.under.depth
  have top : t.children id = cs.map Rose.label := by simpa using relabeled.site.under.children
  rw [walkChildren_eq_visit services depth' mode (w := { w with tree := t }) relabeled.site.linked hd] at walk
  dsimp only at walk
  rw [top] at walk
  have visited : t.Flattened b id [] cs [] w₁.tree :=
    visit_flattened each (w := { w with tree := t }) relabeled.site.under under walk
  have moved := visited.moveOut relabeled.site under selectors
  have parent : w₁.tree.parent? id = some p :=
    ((visited.reworked.under relabeled.site).site.parent?_label (List.mem_singleton.2 rfl)).2
  rw [← out p parent] at moved
  refine ⟨relabeled.next moved.reworked, fun x hx => .trans ?_ (moved.reworded x hx)⟩
  by_cases hx : x = id
  · rw [hx, entered, block]
    exact .block
  · rw [Tree.node_eq t, aside x hx, ← Tree.node_eq]
    exact .refl _

/-- **Expanding a node flattens it**, whatever it is made of. -/
theorem traverse_flattened (services : Services σ) (b : NodeId → Bool) (r : Rose NodeId) :
    r.Flattens services b := by
  induction r with
  | mk id cs ih =>
    intro depth mode w w' p before after hs elements run
    have element := elements.isElement id (by simp)
    have children : w.tree.children id = cs.map Rose.label :=
      (hs.shapes _ (List.mem_singleton.2 rfl)).children
    -- an element is a block, or a declaration or comment with nothing under it
    unfold Tree.isElement at element
    split at element
    · rename_i own block
      exact traverse_block_flattened ih hs (elements.mono (by simp +contextual)) block run
    · rename_i name value important declaration
      rw [children, List.isEmpty_iff, List.map_eq_nil_iff] at element
      subst element
      obtain ⟨t, name', value', grown, eq⟩ := traverse_declaration declaration run
      have still := hs.reworked_of_grown grown
      have set := Tree.Relabeled.setNode t id (.declaration name' value' important)
      rw [eq]
      refine .leaf (set.reworked still (by simp)) ?_
      rw [declaration, Tree.node_setNode_self _ _ _ still.site.under.lt_size]
      exact .declaration
    · rename_i text comment
      rw [children, List.isEmpty_iff, List.map_eq_nil_iff] at element
      subst element
      rw [traverse_comment comment run]
      exact .leaf hs.reworked (.refl _)
    · cases element

/-! ## Stylesheets of elements -/

namespace Tree

variable {t t' : Tree} {r : Rose NodeId} {x : NodeId}

/-- Under an element that is no block there is nothing. -/
theorem children_of_isElement (h : t.isElement x = true) (other : (t.node x).isBlock = false) :
    t.children x = [] := by
  unfold isElement at h
  split at h
  · rename_i block
    rw [block] at other
    cases other
  · exact List.isEmpty_iff.1 h
  · exact List.isEmpty_iff.1 h
  · cases h

/-- Other selectors are other texts. -/
theorem Restyled.reworded (h : Restyled t t') (x : NodeId) : (t.node x).Reworded (t'.node x) := by
  rcases h.node_eq x with same | ⟨block, selectors, other⟩
  · rw [same]
    exact .refl _
  · rw [other]
    revert block
    cases t.node x with
    | block own => exact fun _ => .block
    | _ => nofun

/-- A stylesheet of elements. -/
structure OfElements (t : Tree) : Prop extends t.IsStylesheet where
  isElement : ∀ x ∈ t.descendants root, x ≠ root → t.isElement x = true

/-- At the top there are, in the place of a block, the block and all blocks under it, and in the place of
another element the element. -/
theorem Elements.map_label_flatten (elements : t.Elements b [r]) (shape : t.Shape r) :
    (Rose.flatten b r).map Rose.label = if b r.label then r.labels.filter b else [r.label] := by
  obtain ⟨id, cs⟩ := r
  rw [Rose.map_label_flatten, Rose.label_mk, Rose.children_mk, Rose.labels_mk]
  split
  · rename_i block
    rw [List.filter_cons_of_pos block]
  · rename_i other
    have member : id ∈ [Rose.mk id cs].flatMap Rose.labels := by simp
    have leaf : t.children id = [] := children_of_isElement (elements.isElement id member) (by
      rw [elements.isBlock_eq id member]
      simpa using other)
    obtain rfl : cs = [] := List.map_eq_nil_iff.1 (shape.children.symm.trans leaf)
    rfl

/-- Where shapes that have been flattened stand, every node has kept the children that are no blocks. -/
theorem Shape.children_flatten (h : t.Shape r) (flat : ∀ s ∈ Rose.flatten b r, t'.Shape s)
    (hx : x ∈ r.labels) : t'.children x = (t.children x).filter fun c => !b c := by
  induction r with
  | mk id cs ih =>
    rw [Rose.flatten_mk, List.forall_mem_cons] at flat
    obtain ⟨stays, moves⟩ := flat
    rcases Rose.mem_labels.1 hx with rfl | ⟨c, hc, hx⟩
    · have before := h.children
      have after := stays.children
      rw [Rose.label_mk, Rose.children_mk] at before after
      rw [after, Rose.map_label_filter_flatten, before]
    · refine ih c hc (h.of_mem hc) (fun s hs => ?_) hx
      have inner : s ∈ cs.flatMap (Rose.flatten b) := List.mem_flatMap.2 ⟨c, hc, hs⟩
      cases block : b s.label
      · exact stays.of_mem (List.mem_filter.2 ⟨inner, by rw [block]; rfl⟩)
      · exact moves s (List.mem_filter.2 ⟨inner, block⟩)

end Tree

/-- **Flattening keeps the order of the document.** When a stylesheet of elements has been compiled, there stand
under the root, in the order of the document, the declarations and comments that stood there, and in the place
of each block the block itself with all blocks that stood under it, parents first. Every node has kept its
children other than blocks, in their order, and no node has become another one. -/
theorem compile_flattens (services : Services σ) (depth : Nat) {w w' : World σ}
    (elements : w.tree.OfElements) (run : (compile services depth).exec w = (.ok (), w')) :
    let isBlock (x : NodeId) : Bool := (w.tree.node x).isBlock
    w'.tree.children Tree.root = (w.tree.children Tree.root).flatMap (fun c =>
      if isBlock c then (w.tree.descendants c).filter isBlock else [c]) ∧
    ∀ x ∈ w.tree.descendants Tree.root, x ≠ Tree.root →
      w'.tree.children x = (w.tree.children x).filter (fun c => !isBlock c) ∧
      (w.tree.node x).Reworded (w'.tree.node x) := by
  intro isBlock
  have stylesheet := elements.toIsStylesheet
  obtain ⟨rs, hs⟩ := stylesheet.exists_site
  have listed := stylesheet.descendants_eq hs
  have top : w.tree.children Tree.root = rs.map Rose.label := by simpa using hs.children
  have shapes : w.tree.Elements isBlock rs :=
    ⟨fun x hx => elements.isElement x (by rw [listed]; exact .tail _ hx) fun e => hs.parent_not_mem (e ▸ hx),
      fun _ _ => rfl⟩
  obtain ⟨c, w₁, visit, eq⟩ := compile_finished services depth stylesheet run
  rw [top] at visit
  have flat : w.tree.Flattened isBlock Tree.root [] rs [] w₁.tree :=
    visit_flattened (fun r _ => traverse_flattened services isBlock r) (w := { w with context := c }) hs shapes
      visit
  -- carrying out the extensions changes selectors only
  have restyled := Tree.restyled_applyExtensions w₁.tree (notedExtensions services depth w)
  rw [← eq] at restyled
  refine ⟨?_, fun x hx ne => ?_⟩
  · have tops : w₁.tree.children Tree.root = (rs.flatMap (Rose.flatten isBlock)).map Rose.label := by
      simpa using flat.reworked.site.children
    rw [restyled.children_eq, tops, List.map_flatMap, top, List.flatMap_map, List.flatMap_def, List.flatMap_def]
    congr 1
    refine List.map_congr_left fun r hr => ?_
    have under : w.tree.descendants r.label = r.labels := (hs.shapes r hr).descendantsTo_eq hs.linked
      (.under (hs.parent?_label hr).2 stylesheet.depth) (Nat.zero_le _) (by omega)
    have element : w.tree.Elements isBlock [r] := shapes.mono fun x hx =>
      List.mem_flatMap.2 ⟨r, hr, by simpa using hx⟩
    rw [element.map_label_flatten (hs.shapes r hr), under]
  · rw [listed, List.mem_cons] at hx
    have member := hx.resolve_left ne
    obtain ⟨r, hr, hx⟩ := List.mem_flatMap.1 member
    refine ⟨?_, (flat.reworded x member).trans (restyled.reworded x)⟩
    rw [restyled.children_eq]
    exact (hs.shapes r hr).children_flatten
      (fun s hs' => flat.reworked.site.shapes s (List.mem_flatMap.2 ⟨r, hr, hs'⟩)) hx

end

/-- A comment, a block with a declaration and two blocks in it, of which the first holds a block and a comment,
and another block. -/
theorem compile_flattens_mixed :
    let w : World Unit := ⟨Tree.ofNodes [⟨.comment "x", []⟩,
      ⟨.block ["a"], [⟨.declaration "w" [.ident "y"] false, []⟩,
        ⟨.block ["b"], [⟨.block ["c"], []⟩, ⟨.comment "z", []⟩]⟩, ⟨.block ["d"], []⟩]⟩,
      ⟨.block ["e"], []⟩], .empty, ()⟩
    let run := (compile Services.plain 9).exec w
    run.1 = .ok () ∧ run.2.tree.children Tree.root = [⟨1⟩, ⟨2⟩, ⟨4⟩, ⟨5⟩, ⟨7⟩, ⟨8⟩] ∧
      run.2.tree.children ⟨2⟩ = [⟨3⟩] ∧ run.2.tree.children ⟨4⟩ = [⟨6⟩] := by
  intro w run
  have elements : w.tree.OfElements := ⟨Tree.ofNodes_isStylesheet _, by decide +kernel⟩
  have finished : run.1 = .ok () := by decide +kernel
  have whole : run = (.ok (), run.2) := by rw [← finished]
  obtain ⟨top, kept⟩ := compile_flattens Services.plain 9 elements whole
  refine ⟨finished, ?_, ?_, ?_⟩
  · rw [top]
    decide +kernel
  · rw [(kept ⟨2⟩ (by decide +kernel) (by decide)).1]
    decide +kernel
  · rw [(kept ⟨4⟩ (by decide +kernel) (by decide)).1]
    decide +kernel

end Stylesheet
