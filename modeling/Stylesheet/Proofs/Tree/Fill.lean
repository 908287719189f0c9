import Stylesheet.Proofs.Tree.Move

/-! # Filling in contents

Each place for content in the body of a mixin is replaced by copies of the children of the include,
at any depth. On values that is **`Rose.fill`**; in the tree the places are looked up first and then
replaced one after the other (`Tree.Site.fill`), those under a place that has been replaced included,
but they stand aside by then. Meanwhile the include goes on to offer its children (**`Tree.Offers`**), because
none of its own nodes is touched. -/

namespace Stylesheet

/-- Whether a node is a place for content. -/
def Node.isContent : Node → Bool
  | .content => true
  | _ => false

/-- A node is a slot for content if it is such a node. -/
theorem Tree.isContent_eq (t : Tree) (id : NodeId) : t.isContent id = (t.node id).isContent := by
  unfold Tree.isContent Node.isContent
  cases t.node id <;> rfl

/-- A tree with its places for content filled in: the trees that stand in its place. -/
def Rose.fill (contents : List (Rose Node)) : Rose Node → List (Rose Node)
  | ⟨n, rs⟩ =>
    if n.isContent then contents else [⟨n, rs.flatMap fun r => Rose.fill contents r⟩]

/-- What stays so at a node when contents are filled in under it holds throughout all that is filled, if it does
in the contents. -/
theorem Rose.All.fill {P : Node → List (Rose Node) → Prop} {r : Rose Node} (h : r.All P)
    {contents : List (Rose Node)} (filled : ∀ c ∈ contents, c.All P)
    (stays : ∀ n rs, P n rs → P n (rs.flatMap (Rose.fill contents))) : ∀ c ∈ r.fill contents, c.All P := by
  induction h with
  | @mk n rs top _ ih =>
    rw [Rose.fill]
    split
    · exact filled
    · intro c hc
      rw [List.mem_singleton.1 hc]
      refine .mk (stays n rs top) fun c hc => ?_
      obtain ⟨s, hs, hc⟩ := List.mem_flatMap.1 hc
      exact ih s hs c hc

namespace Tree

section

variable {floor : Nat} {t t' : Tree} {source p q : NodeId} {before after own inside : List NodeId}
  {rs us : List (Rose NodeId)} {contents : List (Rose Node)}

/-! ## Contents -/

/-- Unless one of its `own` nodes changes, the children of `source` can be copied. -/
structure Offers (t : Tree) (source : NodeId) (own : List NodeId) (contents : List (Rose Node)) : Prop where
  mem : source ∈ own
  created : ∀ x ∈ own, x.index < t.size
  planted : ∀ t' : Tree, t.size ≤ t'.size → (∀ x ∈ own, t'.slot x = t.slot x) → List.Forall₂
    (fun c r => Planted t' r (t'.copySubtree c).1 (t'.copySubtree c).2) (t.children source) contents

/-- As many levels are enough as a shape has nodes. -/
theorem Shape.rose_eq_of_length {r : Rose NodeId} (h : t.Shape r) {depth : Nat}
    (length : r.labels.length ≤ depth + 1) : t.rose depth r.label = r.map t.node := by
  refine h.rose_eq_of_enough (fun depth r => r.labels.length ≤ depth + 1) ?_ ?_ length
  · rintro ⟨id, cs⟩ - length
    -- a child would be one node more
    refine List.eq_nil_iff_forall_not_mem.2 fun c hc => ?_
    have more := Rose.length_labels_lt (r := ⟨id, cs⟩) hc
    have := List.length_pos_of_mem c.label_mem_labels
    omega
  · rintro depth ⟨id, cs⟩ - length c hc
    have more := Rose.length_labels_lt (r := ⟨id, cs⟩) hc
    omega

/-- The nodes of a shape offer what stands under its top. -/
theorem Shape.offers {id : NodeId} {cs : List (Rose NodeId)} (h : t.Shape ⟨id, cs⟩)
    (nodup : (Rose.mk id cs).labels.Nodup) (created : ∀ x ∈ (Rose.mk id cs).labels, x.index < t.size) :
    Offers t id (Rose.mk id cs).labels (cs.map (Rose.map t.node)) where
  mem := by simp
  created := created
  planted := by
    intro t' size same
    have length := length_le_size nodup created
    rw [show t.children id = cs.map Rose.label from h.children, List.forall₂_map_left_iff,
      List.forall₂_map_right_iff, List.forall₂_same]
    intro r hr
    have own {x : NodeId} (hx : x ∈ r.labels) : t'.slot x = t.slot x :=
      same x (Rose.mem_labels_of_mem_children (r := ⟨id, cs⟩) hr hx)
    have shape : t'.Shape r := (h.of_mem hr).congr fun x hx => by rw [children_eq, own hx, ← children_eq]
    have more := Rose.length_labels_lt (r := ⟨id, cs⟩) hr
    refine copySubtree_planted ((shape.rose_eq_of_length (by omega)).trans (Rose.map_congr fun x hx => ?_))
    rw [node_eq, own hx, ← node_eq]

/-- A node of a place offers what stands under it. -/
theorem Site.offers {id : NodeId} {cs : List (Rose NodeId)} (h : t.Site floor p before [⟨id, cs⟩] after) :
    Offers t id (Rose.mk id cs).labels (cs.map (Rose.map t.node)) := by
  have shape := h.shapes _ (List.mem_singleton.2 rfl)
  obtain ⟨d, hd⟩ := h.under.depth
  refine shape.offers (shape.nodup_labels h.linked h.under.floor_le hd) fun x hx => ?_
  exact shape.index_lt h.linked h.under.floor_le h.under.lt_size hx

namespace Offers

variable (h : Offers t source own contents)

include h

/-- What is offered is offered in every tree that has the same slots for it. -/
theorem of_slot_eq (size : t.size ≤ t'.size) (same : ∀ x ∈ own, t'.slot x = t.slot x) :
    Offers t' source own contents where
  mem := h.mem
  created x hx := Nat.lt_of_lt_of_le (h.created x hx) size
  planted := by
    intro t'' size' same'
    rw [children_eq, same source h.mem, ← children_eq]
    exact h.planted t'' (size.trans size') fun x hx => (same' x hx).trans (same x hx)

/-- Growth does not touch what is offered. -/
theorem of_grown (g : Grown t t') : Offers t' source own contents :=
  h.of_slot_eq g.size_le fun x hx => g.slot_eq (h.created x hx)

/-- Neither do changes of a place with other nodes. -/
theorem of_rewrites (hr : Rewrites floor inside q t t') (apart : own.Disjoint (q :: inside)) :
    Offers t' source own contents := by
  rw [List.disjoint_cons_right] at apart
  exact h.of_slot_eq hr.size_le fun x hx =>
    hr.slot_eq (h.created x hx) (fun e => apart.1 (e ▸ hx)) (apart.2 hx)

/-- New nodes are none of those that offer something. -/
theorem disjoint_of_new (new : ∀ x ∈ inside, t.size ≤ x.index) : own.Disjoint inside := fun x hx hm =>
  Nat.lt_irrefl _ (Nat.lt_of_lt_of_le (h.created x hx) (new x hm))

end Offers

/-! ## Filling in -/

/-- One place for content is replaced by copies. -/
theorem Site.fillSlot (rs us : List (Rose NodeId)) (hoff : Offers t source own contents) (hq : q ∉ own)
    {s : Rose NodeId} (h : t.Site floor q before (rs ++ s :: us) after) :
    ∃ copies : List (Rose NodeId),
      (t.fillSlot source s.label).Site floor q before (rs ++ copies ++ us) after ∧
        Rewrites floor [s.label] q t (t.fillSlot source s.label) ∧
        copies.map (Rose.map (t.fillSlot source s.label).node) = contents ∧
        (∀ x ∈ copies.flatMap Rose.labels, t.size ≤ x.index) ∧
        (t.fillSlot source s.label).parent? s.label = none ∧
        (t.fillSlot source s.label).children s.label = t.children s.label := by
  have link := h.parent?_label (r := s) (by simp)
  have hsq : s.label ≠ q := by
    intro e
    have : s.label ∈ (rs ++ s :: us).flatMap Rose.labels := by simp [s.label_mem_labels]
    exact h.parent_not_mem (e ▸ this)
  -- a change among the children of `q` does not touch what is offered
  have hprod : List.Forall₂ (Produces floor t q fun id t => t.copySubtree id)
      (t.children source) contents := by
    rw [List.forall₂_iff_get]
    refine ⟨(hoff.planted t (Nat.le_refl _) fun _ _ => rfl).length_eq, fun i hi hi' t' hr => ?_⟩
    have untouched (x : NodeId) (hx : x ∈ own) : t'.slot x = t.slot x :=
      hr.slot_eq (hoff.created x hx) (fun e => hq (e ▸ hx)) (by simp)
    exact (List.forall₂_iff_get.1 (hoff.planted t' hr.size_le untouched)).2 i hi hi'
  obtain ⟨copies, -, spliced⟩ := h.splice hprod
  have hsite := spliced.site
  rw [List.append_assoc, List.append_assoc, List.singleton_append] at hsite
  obtain ⟨hsite', hrew⟩ := hsite.detach rs (copies ++ us)
  have eq : t.fillSlot source s.label =
      (spliceAfter (fun id t => t.copySubtree id) q s.label (t.children source) t).2.detach s.label := by
    rw [← hsite.remove]
    unfold Tree.fillSlot
    rw [link.2]
  have hslot := spliced.rewrites.slot_eq (lt_size_of_parent? link.2) hsq (by simp)
  rw [eq]
  refine ⟨copies, by simpa using hsite', ?_, ?_, spliced.fresh, parent?_detach_self _ _, ?_⟩
  · exact (spliced.rewrites.mono (by simp)).trans hrew (by simp)
  · rw [← spliced.nodes]
    exact List.map_congr_left fun r _ => Rose.map_congr fun x _ => node_detach _ s.label x
  · rw [Tree.children_detach, if_neg, children_eq, hslot, ← children_eq]
    rw [parent?_eq, hslot, ← parent?_eq, link.2, Option.some.injEq]
    exact fun e => hsq e.symm

/-- Replace places for content one after the other. -/
def fillSlots (source : NodeId) (slots : List NodeId) (t : Tree) : Tree :=
  slots.foldl (fun t slot => t.fillSlot source slot) t

/-- A place with its contents filled in. -/
structure Filled (floor : Nat) (t : Tree) (q : NodeId) (before : List NodeId) (rs : List (Rose NodeId))
    (after : List NodeId) (contents : List (Rose Node)) (t' : Tree) : Prop where
  intro ::
  reworked : ∃ filled, Reworked floor t q before (rs.flatMap Rose.labels) after filled t' ∧
    filled.map (Rose.map t'.node) = (rs.map (Rose.map t.node)).flatMap (Rose.fill contents)

/-- What is filled in one after the other is filled in as a whole. -/
theorem Filled.all {g : NodeId → Bool} (ih : ∀ r ∈ rs, ∀ {t q before after}, Offers t source own contents →
      own.Disjoint (q :: r.labels) → t.Site floor q before [r] after →
      (∀ x ∈ r.labels, g x = (t.node x).isContent) →
        Filled floor t q before [r] after contents (fillSlots source (r.labels.filter g) t))
    (hoff : Offers t source own contents) (apart : own.Disjoint (q :: rs.flatMap Rose.labels))
    (h : t.Site floor q before rs after) (same : ∀ x ∈ rs.flatMap Rose.labels, g x = (t.node x).isContent) :
    Filled floor t q before rs after contents
      (fillSlots source ((rs.flatMap Rose.labels).filter g) t) := by
  induction rs generalizing t before with
  | nil => exact ⟨⟨[], h.reworked, rfl⟩⟩
  | cons r rs ihr =>
    have whole : t.Site floor q before ([] ++ [r] ++ rs) after := h
    have inFirst : ∀ x ∈ r.labels, g x = (t.node x).isContent := fun x hx => same x (by simp [hx])
    have apart' := apart
    rw [List.flatMap_cons, List.disjoint_cons_right, List.disjoint_append_right] at apart'
    obtain ⟨hq, apartFirst, apartRest⟩ := apart'
    obtain ⟨first, hfirst, nodes⟩ := (ih r (by simp) hoff (List.disjoint_cons_right.2 ⟨hq, apartFirst⟩)
      (by simpa using whole.middle) inFirst).reworked
    rw [List.flatMap_cons, List.filter_append, fillSlots, List.foldl_append]
    change Filled floor t q before (r :: rs) after contents
      (fillSlots source _ (fillSlots source (r.labels.filter g) t))
    generalize fillSlots source (r.labels.filter g) t = t₁ at hfirst nodes ⊢
    have start : Reworked floor t q before ((r :: rs).flatMap Rose.labels) after ([] ++ [r] ++ rs) t :=
      h.reworked
    have done : Reworked floor t q before ((r :: rs).flatMap Rose.labels) after (first ++ rs ++ []) t₁ := by
      simpa using start.middle (by simpa using hfirst)
    -- the others have not been touched yet
    have kept := whole.map_node_around hfirst.rewrites
    have hoff' : Offers t₁ source own contents :=
      hoff.of_rewrites hfirst.rewrites (List.disjoint_cons_right.2 ⟨hq, by simpa using apartFirst⟩)
    have inRest : ∀ x ∈ rs.flatMap Rose.labels, g x = (t₁.node x).isContent := by
      intro x hx
      obtain ⟨hlt, hq, hr⟩ := whole.around (x := x) (by simpa using hx)
      have old : x ∈ (r :: rs).flatMap Rose.labels := by
        rw [List.flatMap_cons]
        exact List.mem_append_right _ hx
      rw [same x old, node_eq t₁, hfirst.rewrites.slot_eq hlt hq hr, ← node_eq]
    obtain ⟨others, hothers, nodes'⟩ := (ihr (fun s hs => ih s (by simp [hs])) hoff'
      (List.disjoint_cons_right.2 ⟨hq, apartRest⟩) (by simpa using done.site.middle) inRest).reworked
    refine ⟨first ++ others, ?_, ?_⟩
    · simpa using done.middle (by simpa using hothers)
    · have keptFirst := done.site.map_node_around hothers.rewrites
      rw [List.map_append, nodes', List.map_cons, List.flatMap_cons]
      congr 1
      · rw [List.map_congr_left fun s hs => keptFirst s (by simp [hs]), nodes]
        simp
      · rw [List.map_congr_left fun s hs => kept s (by simp [hs])]

/-- What stood under a node that has been taken out stands aside. -/
theorem Site.aside {id : NodeId} {cs : List (Rose NodeId)} (h : t.Site floor q before [⟨id, cs⟩] after)
    (hr : Rewrites floor [id] q t t') (alone : t'.parent? id = none) (children : t'.children id = t.children id) :
    t'.Site floor id [] cs [] ∧ ∀ x ∈ cs.flatMap Rose.labels, t'.slot x = t.slot x := by
  have slot_eq {x : NodeId} (hx : x ∈ cs.flatMap Rose.labels) : t'.slot x = t.slot x := by
    have hx' := Rose.mem_labels_of_under id hx
    refine hr.slot_eq (h.index_lt hx') (fun e => h.parent_not_mem (e ▸ hx')) ?_
    rw [List.mem_singleton]
    rintro rfl
    exact h.under.parent_not_mem hx
  refine ⟨⟨hr.linked, h.under.floor_le, ⟨0, .top (Nat.lt_of_lt_of_le h.under.lt_size hr.size_le) alone⟩,
    children.trans h.under.children, fun c hm => (h.under.shapes c hm).congr fun x hx => ?_⟩, fun x => slot_eq⟩
  rw [children_eq, slot_eq (List.mem_flatMap.2 ⟨c, hm, hx⟩), ← children_eq]

section

variable {g : NodeId → Bool} {id : NodeId} {cs : List (Rose NodeId)}
  (h : t.Site floor q before [⟨id, cs⟩] after)
  (same : ∀ x ∈ (Rose.mk id cs).labels, g x = (t.node x).isContent)

include h same

/-- A place for content gives way to copies. What stood under it stands aside, and is filled in there. -/
theorem Filled.here (hoff : Offers t source own contents) (apart : own.Disjoint (q :: (Rose.mk id cs).labels))
    (hid : g id = true)
    (ih : ∀ {t}, Offers t source own contents → own.Disjoint (id :: cs.flatMap Rose.labels) →
      t.Site floor id [] cs [] → (∀ x ∈ cs.flatMap Rose.labels, g x = (t.node x).isContent) →
        Filled floor t id [] cs [] contents (fillSlots source ((cs.flatMap Rose.labels).filter g) t)) :
    Filled floor t q before [⟨id, cs⟩] after contents
      (fillSlots source ((Rose.mk id cs).labels.filter g) t) := by
  have hn : (t.node id).isContent = true := by rw [← same id (by simp), hid]
  rw [List.disjoint_cons_right, Rose.labels_mk] at apart
  obtain ⟨apart_q, apart_id⟩ := apart
  obtain ⟨copies, hsite, hrew, nodes, fresh, alone, hc⟩ := Site.fillSlot [] [] hoff apart_q h
  rw [Rose.labels_mk, List.filter_cons_of_pos hid, fillSlots, List.foldl_cons]
  change Filled floor t q before _ after contents
    (fillSlots source _ (t.fillSlot source (Rose.mk id cs).label))
  rw [List.nil_append, List.append_nil] at hsite
  rw [Rose.label_mk] at *
  generalize t.fillSlot source id = t₁ at *
  have hq : q ∉ [Rose.mk id cs].flatMap Rose.labels := h.parent_not_mem
  obtain ⟨aside, slot_eq⟩ := h.aside hrew alone hc
  have inside : ∀ x ∈ cs.flatMap Rose.labels, g x = (t₁.node x).isContent := by
    intro x hx
    have hx' : x ∈ (Rose.mk id cs).labels := by
      rw [Rose.labels_mk]
      exact List.mem_cons_of_mem id hx
    rw [same x hx', node_eq t₁, slot_eq x hx, ← node_eq]
  have hoff' : Offers t₁ source own contents := hoff.of_rewrites hrew
    (List.disjoint_cons_right.2 ⟨apart_q, List.disjoint_singleton.2 (List.disjoint_cons_right.1 apart_id).1⟩)
  obtain ⟨left, hleft, -⟩ := (ih hoff' apart_id aside inside).reworked
  -- the copies are new, so filling in aside does not reach them
  have others : ∀ x, x = q ∨ x ∈ copies.flatMap Rose.labels → x ≠ id ∧ x ∉ cs.flatMap Rose.labels := by
    intro x hx
    have hm : x ∉ [Rose.mk id cs].flatMap Rose.labels := by
      rcases hx with rfl | hx
      · exact hq
      · intro hm
        have := h.index_lt hm
        have := fresh x hx
        omega
    simpa using hm
  have inner : Rewrites floor ([Rose.mk id cs].flatMap Rose.labels) q t₁ _ :=
    hleft.rewrites.nest (by simp) (fun x => Rose.mem_labels_of_under id) hq
      (Nat.lt_of_lt_of_le h.lt_size hrew.size_le)
  refine ⟨copies, ⟨hsite.unaffected hleft.rewrites aside.closed others, ?_, fun x hx => .inr (fresh x hx)⟩, ?_⟩
  · refine (hrew.mono fun x hx => ?_).trans inner fun x hx => .inl hx
    rw [List.mem_singleton.1 hx]
    simp
  · rw [List.map_singleton, List.flatMap_singleton, Rose.map_mk, Rose.fill, if_pos hn, ← nodes]
    refine List.map_congr_left fun r hr => Rose.map_congr fun x hx => ?_
    have hx' : x ∈ copies.flatMap Rose.labels := List.mem_flatMap.2 ⟨r, hr, hx⟩
    have hm := others x (.inr hx')
    rw [node_eq, hleft.rewrites.slot_eq (hsite.index_lt hx') hm.1 hm.2, ← node_eq]

/-- Any other node stays over what is filled in under it. -/
theorem Filled.under (hid : ¬ g id = true)
    (hfill : Filled floor t id [] cs [] contents (fillSlots source ((cs.flatMap Rose.labels).filter g) t)) :
    Filled floor t q before [⟨id, cs⟩] after contents
      (fillSlots source ((Rose.mk id cs).labels.filter g) t) := by
  obtain ⟨filled, hfilled, nodes⟩ := hfill.reworked
  have hn : (t.node id).isContent = false := by
    rw [← same id (by simp)]
    simpa using hid
  rw [Rose.labels_mk, List.filter_cons_of_neg hid]
  refine ⟨[⟨id, filled⟩], Reworked.under h hfilled, ?_⟩
  rw [List.map_singleton, List.map_singleton, List.flatMap_singleton, Rose.map_mk, Rose.map_mk,
    Rose.fill, hn, hfilled.rewrites.node_eq, nodes]
  simp

end

/-- The places for content at a node and under it are replaced by copies. -/
theorem Site.fill {g : NodeId → Bool} (r : Rose NodeId) (hoff : Offers t source own contents)
    (apart : own.Disjoint (q :: r.labels)) (h : t.Site floor q before [r] after)
    (same : ∀ x ∈ r.labels, g x = (t.node x).isContent) :
    Filled floor t q before [r] after contents (fillSlots source (r.labels.filter g) t) := by
  induction r generalizing t q before after with
  | mk id cs ih =>
    by_cases hid : g id = true
    · exact Filled.here h same hoff apart hid fun hoff' apart' h' same' => Filled.all ih hoff' apart' h' same'
    · rw [List.disjoint_cons_right, Rose.labels_mk] at apart
      refine Filled.under h same hid (Filled.all ih hoff apart.2 h.under fun x hx => same x ?_)
      rw [Rose.labels_mk]
      exact List.mem_cons_of_mem id hx

/-- The places for content under a node are replaced by copies. -/
theorem Site.fillUnder {body : NodeId} {ms : List (Rose NodeId)} {g : NodeId → Bool}
    (hoff : Offers t source own contents) (apart : own.Disjoint (body :: ms.flatMap Rose.labels))
    (h : t.Site floor body [] ms []) (same : ∀ x ∈ ms.flatMap Rose.labels, g x = (t.node x).isContent) :
    Filled floor t body [] ms [] contents (fillSlots source ((ms.flatMap Rose.labels).filter g) t) :=
  Filled.all (fun r _ _ _ _ _ hoff' apart' => Site.fill r hoff' apart') hoff apart h same

/-- Contents are filled in at a node, if it is a place for content, and then under it. -/
theorem Site.fillContent_eq (source : NodeId) {body : NodeId} {ms : List (Rose NodeId)}
    (h : t.Site floor body [] ms []) :
    t.fillContent body source = fillSlots source ((ms.flatMap Rose.labels).filter t.isContent)
      (if t.isContent body then t.fillSlot source body else t) := by
  have hshape : t.Shape ⟨body, ms⟩ := .mk body ms (by simpa using h.children) h.shapes
  obtain ⟨d, hd⟩ := h.depth
  have hdesc : t.descendants body = (Rose.mk body ms).labels :=
    hshape.descendantsTo_eq h.linked hd h.floor_le (by omega)
  unfold Tree.fillContent
  rw [hdesc, Rose.labels_mk, List.filter_cons]
  split <;> rfl

/-- Contents are filled in under a node that is no place for content itself. -/
theorem Site.fillContent {body : NodeId} {ms : List (Rose NodeId)} (hoff : Offers t source own contents)
    (apart : own.Disjoint (body :: ms.flatMap Rose.labels)) (h : t.Site floor body [] ms [])
    (hn : (t.node body).isContent = false) :
    Filled floor t body [] ms [] contents (t.fillContent body source) := by
  rw [h.fillContent_eq, isContent_eq, hn]
  exact h.fillUnder hoff apart fun x _ => isContent_eq t x

end

end Tree

end Stylesheet
