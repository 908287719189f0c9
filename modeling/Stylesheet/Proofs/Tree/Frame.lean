import Stylesheet.Proofs.Tree.Shape

/-! # What a change leaves alone

A tree has **grown** when all it had is as it was and the new nodes are linked among themselves only
(**`Tree.Grown`**). A change **rewrites** what stands inside a place under a parent when nothing else
changed but for the children of the parent (**`Tree.Rewrites`**).

The place itself is a **`Tree.Site`**: a parent, the shapes of some children of it that stand next to
each other, and the other children before and after. When such a place is **reworked**
(**`Tree.Reworked`**), other shapes stand there, made of what stood inside and of new nodes, between the
same children as before; when a change was given up halfway, all that is known is that it was
**contained** (**`Tree.Contained`**). Places are reworked child by child and from the inside out
(`Tree.Reworked.middle`, `Tree.Reworked.under`). -/

namespace Stylesheet

namespace Tree

section

variable {floor : Nat} {t t' t'' : Tree}

/-! ## Depths -/

/-- From the node numbered `floor` on, every node has a depth. -/
def Rooted (floor : Nat) (t : Tree) : Prop :=
  ∀ x : NodeId, floor ≤ x.index → x.index < t.size → ∃ d, t.Depth x d

/-- Nodes keep their depths when each of them keeps its parent, has none any more, or gets one that has
a depth. -/
theorem Rooted.of_parent? (h : t.Rooted floor) (hl : t.LinkedFrom floor) (hs : t.size ≤ t'.size)
    (step : ∀ x : NodeId, floor ≤ x.index → x.index < t'.size → t'.parent? x = none ∨
      (x.index < t.size ∧ t'.parent? x = t.parent? x) ∨ ∃ p d, t'.parent? x = some p ∧ t'.Depth p d) :
    t'.Rooted floor := by
  have climb (x : NodeId) (hf : floor ≤ x.index) (hlt : x.index < t'.size)
      (kept : x.index < t.size → t'.parent? x = t.parent? x → ∃ e, t'.Depth x e) : ∃ e, t'.Depth x e := by
    rcases step x hf hlt with alone | ⟨hx, same⟩ | ⟨p, e, hp, he⟩
    · exact ⟨0, .top hlt alone⟩
    · exact kept hx same
    · exact ⟨e + 1, .under hp he⟩
  -- the way up is followed in the old tree, until a node has none or another parent now
  have kept {x : NodeId} {d : Nat} (hd : t.Depth x d) (hf : floor ≤ x.index) : ∃ e, t'.Depth x e := by
    induction hd with
    | @top x hlt alone =>
      have hlt' : x.index < t'.size := Nat.lt_of_lt_of_le hlt hs
      exact climb x hf hlt' fun _ same => ⟨0, .top hlt' (same.trans alone)⟩
    | @under x p d hp _ ih =>
      refine climb x hf (Nat.lt_of_lt_of_le (lt_size_of_parent? hp) hs) fun _ same => ?_
      obtain ⟨e, he⟩ := ih (hl.parent hf hp).1
      exact ⟨e + 1, .under (same.trans hp) he⟩
  intro x hf hlt
  refine climb x hf hlt fun hx _ => ?_
  obtain ⟨d, hd⟩ := h x hf hx
  exact kept hd hf

/-- So they do where nodes are only let go. -/
theorem Rooted.of_loosened (h : t.Rooted floor) (hl : t.LinkedFrom floor) (hs : t'.size = t.size)
    (loose : ∀ x, t'.parent? x = none ∨ t'.parent? x = t.parent? x) : t'.Rooted floor :=
  h.of_parent? hl (Nat.le_of_eq hs.symm) fun x _ hx => (loose x).imp_right fun same => .inl ⟨hs ▸ hx, same⟩

/-- A node that is taken out of its parent has a depth still, and so have all others. -/
theorem Rooted.detach (h : t.Rooted floor) (hl : t.LinkedFrom floor) (id : NodeId) :
    (t.detach id).Rooted floor := by
  refine h.of_loosened hl (size_detach t id) fun x => ?_
  rw [parent?_detach]
  split
  · exact .inl rfl
  · exact .inr rfl

/-- With the children of a node taken away, all nodes still have depths. -/
theorem Rooted.setChildren_nil (h : t.Rooted floor) (hl : t.LinkedFrom floor) (id : NodeId) :
    (t.setChildren id []).Rooted floor := by
  refine h.of_loosened hl (size_setChildren_nil t id) fun x => ?_
  rw [parent?_setChildren_nil]
  split
  · exact .inl rfl
  · exact .inr rfl

/-- And where nodes get a parent that has a depth. -/
theorem Rooted.of_joined (h : t.Rooted floor) (hl : t.LinkedFrom floor) (hs : t'.size = t.size) {p : NodeId}
    (hd : ∃ d, t'.Depth p d) (joined : ∀ x, t'.parent? x = some p ∨ t'.parent? x = t.parent? x) :
    t'.Rooted floor := by
  obtain ⟨d, hd⟩ := hd
  refine h.of_parent? hl (Nat.le_of_eq hs.symm) fun x _ hx => .inr ?_
  exact (joined x).symm.imp (fun same => ⟨hs ▸ hx, same⟩) fun joins => ⟨p, d, joins, hd⟩

/-- A depth depends on the parents on the way up. They lie outside of what is closed downwards as soon
as the node does. -/
theorem Depth.of_outside (hl : t.LinkedFrom floor) {q : NodeId} {d : Nat} (hd : t.Depth q d)
    (hf : floor ≤ q.index) (hs : t.size ≤ t'.size) (inside : NodeId → Prop)
    (closed : ∀ x, inside x → ∀ c ∈ t.children x, inside c) (hq : ¬ inside q)
    (same : ∀ x : NodeId, floor ≤ x.index → x.index < t.size → ¬ inside x →
      t'.parent? x = t.parent? x) : t'.Depth q d := by
  induction hd with
  | top hlt hn => exact .top (Nat.lt_of_lt_of_le hlt hs) ((same _ hf hlt hq).trans hn)
  | @under x p d hp hd ih =>
    have link := hl.parent hf hp
    refine .under ((same x hf (lt_size_of_parent? hp) hq).trans hp) (ih link.1 fun hi => hq ?_)
    exact closed p hi x link.2

/-! ## Growth -/

/-- All that was there is as it was, and what is new is linked to new nodes only. -/
structure Grown (t t' : Tree) : Prop where
  size_le : t.size ≤ t'.size
  slot_eq : ∀ {x : NodeId}, x.index < t.size → t'.slot x = t.slot x
  linked : t'.LinkedFrom t.size
  rooted : t'.Rooted t.size

/-- Slots that have the same contents are the same. -/
theorem slot_ext {x : NodeId} (hn : t'.node x = t.node x) (hp : t'.parent? x = t.parent? x)
    (hc : t'.children x = t.children x) : t'.slot x = t.slot x := by
  rw [node_eq, node_eq] at hn
  rw [parent?_eq, parent?_eq] at hp
  rw [children_eq, children_eq] at hc
  rcases h : t.slot x with ⟨n, p, cs⟩
  rcases h' : t'.slot x with ⟨n', p', cs'⟩
  simp_all

/-- Beyond the nodes that were created nothing is linked. -/
theorem linkedFrom_size (t : Tree) : t.LinkedFrom t.size where
  child := by
    intro p c hf hm
    rw [children_of_size_le hf] at hm
    simp at hm
  parent := by
    intro c p hf hp
    have := lt_size_of_parent? hp
    omega
  nodup := by
    intro p hf
    rw [children_of_size_le hf]
    exact List.nodup_nil

/-- Links that agree go on to agree among more nodes that are linked to each other. -/
theorem LinkedFrom.of_slot_eq (h : t.LinkedFrom floor) (hf : floor ≤ t.size)
    (same : ∀ {x : NodeId}, x.index < t.size → t'.slot x = t.slot x) (hn : t'.LinkedFrom t.size) :
    t'.LinkedFrom floor where
  child := by
    intro p c hp hm
    -- what was there is linked as it was, and what is new among itself
    by_cases hlt : p.index < t.size
    · rw [children_eq, same hlt] at hm
      have link := h.child hp hm
      refine ⟨link.1, ?_⟩
      rw [parent?_eq, same (lt_size_of_parent? link.2)]
      exact link.2
    · have link := hn.child (Nat.not_lt.1 hlt) hm
      exact ⟨hf.trans link.1, link.2⟩
  parent := by
    intro c p hc hp
    by_cases hlt : c.index < t.size
    · rw [parent?_eq, same hlt] at hp
      have link := h.parent hc hp
      refine ⟨link.1, ?_⟩
      rw [children_eq, same (lt_size_of_mem_children link.2)]
      exact link.2
    · have link := hn.parent (Nat.not_lt.1 hlt) hp
      exact ⟨hf.trans link.1, link.2⟩
  nodup := by
    intro p hp
    by_cases hlt : p.index < t.size
    · rw [children_eq, same hlt]
      exact h.nodup hp
    · exact hn.nodup (Nat.not_lt.1 hlt)

namespace Grown

/-- A tree has grown out of itself. -/
theorem refl (t : Tree) : Grown t t where
  size_le := Nat.le_refl _
  slot_eq _ := rfl
  linked := linkedFrom_size t
  rooted := by
    intro x hf hlt
    omega

variable (h : Grown t t')

include h

/-- What has grown keeps the nodes that were there. -/
theorem node_eq {x : NodeId} (hx : x.index < t.size) : t'.node x = t.node x := by
  rw [Tree.node_eq, h.slot_eq hx]
  rfl

/-- What has grown keeps the parents that were there. -/
theorem parent?_eq {x : NodeId} (hx : x.index < t.size) : t'.parent? x = t.parent? x := by
  rw [Tree.parent?_eq, h.slot_eq hx]
  rfl

/-- What has grown keeps the children that were there. -/
theorem children_eq {x : NodeId} (hx : x.index < t.size) : t'.children x = t.children x := by
  rw [Tree.children_eq, h.slot_eq hx]
  rfl

/-- Growth keeps links in agreement. -/
theorem linkedFrom (hl : t.LinkedFrom floor) (hf : floor ≤ t.size) : t'.LinkedFrom floor :=
  hl.of_slot_eq hf (fun hx => h.slot_eq hx) h.linked

/-- Growth keeps depths. -/
theorem depth {x : NodeId} {d : Nat} (hd : t.Depth x d) : t'.Depth x d := by
  induction hd with
  | top hlt hn => exact .top (Nat.lt_of_lt_of_le hlt h.size_le) ((h.parent?_eq hlt).trans hn)
  | under hp _ ih => exact .under ((h.parent?_eq (lt_size_of_parent? hp)).trans hp) ih

/-- If all nodes had depths, all nodes have depths in what has grown. -/
theorem rootedFrom (hr : t.Rooted floor) : t'.Rooted floor := by
  intro x hf hlt
  by_cases hx : x.index < t.size
  · obtain ⟨d, hd⟩ := hr x hf hx
    exact ⟨d, h.depth hd⟩
  · exact h.rooted x (Nat.not_lt.1 hx) hlt

/-- A tree that has grown further has grown out of the first one. -/
theorem trans (h' : Grown t' t'') : Grown t t'' where
  size_le := h.size_le.trans h'.size_le
  slot_eq hx := (h'.slot_eq (Nat.lt_of_lt_of_le hx h.size_le)).trans (h.slot_eq hx)
  linked := h'.linkedFrom h.linked h.size_le
  rooted := h'.rootedFrom h.rooted

end Grown

/-! ## Changes inside a place -/

/-- Nothing has changed but what stands inside, and the children of `p`. -/
structure Rewrites (floor : Nat) (inside : List NodeId) (p : NodeId) (t t' : Tree) : Prop where
  size_le : t.size ≤ t'.size
  slot_eq : ∀ {x : NodeId}, x.index < t.size → x ≠ p → x ∉ inside → t'.slot x = t.slot x
  node_eq : t'.node p = t.node p
  parent?_eq : t'.parent? p = t.parent? p
  linked : t'.LinkedFrom floor
  rooted : t.Rooted floor → t'.Rooted floor

namespace Rewrites

variable {inside inner : List NodeId} {p q : NodeId}

/-- Where nothing changes, everything may be said to be rewritten. -/
theorem refl (hl : t.LinkedFrom floor) (inside : List NodeId) (p : NodeId) :
    Rewrites floor inside p t t := ⟨Nat.le_refl _, fun _ _ _ => rfl, rfl, rfl, hl, id⟩

/-- What is rewritten in a part is rewritten in the whole. -/
theorem mono (h : Rewrites floor inner p t t') (sub : ∀ x ∈ inner, x ∈ inside) :
    Rewrites floor inside p t t' :=
  ⟨h.size_le, fun hx hp hi => h.slot_eq hx hp fun hm => hi (sub _ hm), h.node_eq, h.parent?_eq,
    h.linked, h.rooted⟩

/-- Growth changes nothing inside of any place. -/
theorem of_grown (h : Grown t t') (hl : t.LinkedFrom floor) (hp : p.index < t.size)
    (hf : floor ≤ p.index) (inside : List NodeId) : Rewrites floor inside p t t' where
  size_le := h.size_le
  slot_eq hx _ _ := h.slot_eq hx
  node_eq := h.node_eq hp
  parent?_eq := h.parent?_eq hp
  linked := h.linkedFrom hl (hf.trans (Nat.le_of_lt hp))
  rooted := h.rootedFrom

/-- Changes inside of what has been changed before are changes of the same place. -/
theorem trans (h : Rewrites floor inside p t t') (h' : Rewrites floor inner p t' t'')
    (sub : ∀ x ∈ inner, x ∈ inside ∨ t.size ≤ x.index) : Rewrites floor inside p t t'' where
  size_le := h.size_le.trans h'.size_le
  slot_eq := by
    intro x hx hp hi
    rw [h'.slot_eq (Nat.lt_of_lt_of_le hx h.size_le) hp, h.slot_eq hx hp hi]
    intro hm
    -- what the second change reaches was inside already, or is new
    rcases sub x hm with hm | hle
    · exact hi hm
    · omega
  node_eq := h'.node_eq.trans h.node_eq
  parent?_eq := h'.parent?_eq.trans h.parent?_eq
  linked := h'.linked
  rooted hr := h'.rooted (h.rooted hr)

/-- Changes under a node inside are changes of the place. -/
theorem nest (h : Rewrites floor inner q t t') (hq : q ∈ inside) (sub : ∀ x ∈ inner, x ∈ inside)
    (hp : p ∉ inside) (hlt : p.index < t.size) : Rewrites floor inside p t t' := by
  have slot_eq {x : NodeId} (hx : x.index < t.size) (hi : x ∉ inside) : t'.slot x = t.slot x :=
    h.slot_eq hx (fun e => hi (e ▸ hq)) fun hm => hi (sub x hm)
  constructor
  case size_le => exact h.size_le
  case slot_eq =>
    intro x hx _ hi
    exact slot_eq hx hi
  case node_eq => rw [Tree.node_eq, slot_eq hlt hp, ← Tree.node_eq]
  case parent?_eq => rw [Tree.parent?_eq, slot_eq hlt hp, ← Tree.parent?_eq]
  case linked => exact h.linked
  case rooted => exact h.rooted

/-- Depths outside of the place stay. -/
theorem depth (h : Rewrites floor inside p t t') (hl : t.LinkedFrom floor)
    (closed : ∀ x ∈ inside, ∀ c ∈ t.children x, c ∈ inside) {d : Nat} (hd : t.Depth q d)
    (hf : floor ≤ q.index) (hq : q ∉ inside) : t'.Depth q d := by
  refine hd.of_outside hl hf h.size_le (· ∈ inside) closed hq fun x _ hx hi => ?_
  by_cases e : x = p
  · rw [e]
    exact h.parent?_eq
  · rw [Tree.parent?_eq, h.slot_eq hx e hi, ← Tree.parent?_eq]

end Rewrites

/-! ## Places -/

/-- Shapes of children of `p`, next to each other, with the children before and after them. -/
structure Site (floor : Nat) (t : Tree) (p : NodeId) (before : List NodeId) (rs : List (Rose NodeId))
    (after : List NodeId) : Prop where
  linked : t.LinkedFrom floor
  floor_le : floor ≤ p.index
  depth : ∃ d, t.Depth p d
  children : t.children p = before ++ rs.map Rose.label ++ after
  shapes : ∀ r ∈ rs, t.Shape r

namespace Site

variable {p : NodeId} {before after : List NodeId} {rs ss us : List (Rose NodeId)}

/-- The parent of a place has been created. -/
theorem lt_size (h : t.Site floor p before rs after) : p.index < t.size := by
  obtain ⟨d, hd⟩ := h.depth
  exact hd.index_lt

/-- The shapes are those of children. -/
theorem label_mem (h : t.Site floor p before rs after) {r : Rose NodeId} (hr : r ∈ rs) :
    r.label ∈ t.children p := by
  rw [h.children]
  simp only [List.mem_append, List.mem_map]
  exact .inl (.inr ⟨r, hr, rfl⟩)

/-- What stands at the top of a place has the parent of the place. -/
theorem parent?_label (h : t.Site floor p before rs after) {r : Rose NodeId} (hr : r ∈ rs) :
    floor ≤ r.label.index ∧ t.parent? r.label = some p := h.linked.child h.floor_le (h.label_mem hr)

/-- All nodes of the shapes have been created. -/
theorem index_lt (h : t.Site floor p before rs after) {x : NodeId} (hx : x ∈ rs.flatMap Rose.labels) :
    x.index < t.size := by
  obtain ⟨r, hr, hx⟩ := List.mem_flatMap.1 hx
  have link := h.parent?_label hr
  exact (h.shapes r hr).index_lt h.linked link.1 (lt_size_of_parent? link.2) hx

/-- All that stands in a place has numbers from the floor on. -/
theorem floor_le_index (h : t.Site floor p before rs after) {x : NodeId}
    (hx : x ∈ rs.flatMap Rose.labels) : floor ≤ x.index := by
  obtain ⟨r, hr, hx⟩ := List.mem_flatMap.1 hx
  exact (h.shapes r hr).floor_le h.linked (h.parent?_label hr).1 hx

/-- With a node its children are in the shapes. -/
theorem closed (h : t.Site floor p before rs after) :
    ∀ x ∈ rs.flatMap Rose.labels, ∀ c ∈ t.children x, c ∈ rs.flatMap Rose.labels := by
  intro x hx c hc
  obtain ⟨r, hr, hx⟩ := List.mem_flatMap.1 hx
  exact List.mem_flatMap.2 ⟨r, hr, (h.shapes r hr).mem_of_child hx hc⟩

/-- The parent of a place does not stand inside it. -/
theorem parent_not_mem (h : t.Site floor p before rs after) : p ∉ rs.flatMap Rose.labels := by
  intro hp
  obtain ⟨r, hr, hx⟩ := List.mem_flatMap.1 hp
  obtain ⟨d, hd⟩ := h.depth
  have link := h.parent?_label hr
  exact (h.shapes r hr).parent_not_mem h.linked link.1 link.2 hd hx

/-- The nodes of the shapes are not among the other children. -/
theorem not_mem_before (h : t.Site floor p before (rs ++ ss) after) {r : Rose NodeId} (hr : r ∈ ss) :
    r.label ∉ before ++ rs.map Rose.label := by
  have hn := h.linked.nodup h.floor_le
  rw [h.children, List.map_append, ← List.append_assoc, List.append_assoc] at hn
  intro hm
  have := (List.nodup_append.1 hn).2.2 _ hm r.label
    (List.mem_append_left _ (List.mem_map_of_mem hr))
  exact this rfl

/-- Shapes of different children have nothing in common. -/
theorem disjoint (h : t.Site floor p before (rs ++ ss) after) {x : NodeId}
    (hx : x ∈ rs.flatMap Rose.labels) : x ∉ ss.flatMap Rose.labels := by
  intro hx'
  obtain ⟨r, hr, hxr⟩ := List.mem_flatMap.1 hx
  obtain ⟨s, hs, hxs⟩ := List.mem_flatMap.1 hx'
  have linkr := h.parent?_label (List.mem_append_left ss hr)
  have links := h.parent?_label (List.mem_append_right rs hs)
  obtain ⟨d, hd⟩ := h.depth
  have ne : r.label ≠ s.label := by
    intro e
    apply h.not_mem_before hs
    rw [← e]
    exact List.mem_append_right _ (List.mem_map_of_mem hr)
  exact (h.shapes r (List.mem_append_left _ hr)).disjoint_of_siblings h.linked
    (h.shapes s (List.mem_append_right _ hs)) linkr.1 links.1 hd linkr.2 links.2 ne hxr hxs

/-- What stands deeper is not at the top. -/
theorem below_ne_label (h : t.Site floor p before rs after) {r s c : Rose NodeId} (hr : r ∈ rs)
    (hs : s ∈ rs) (hc : c ∈ r.children) {x : NodeId} (hx : x ∈ c.labels) : x ≠ s.label := by
  rintro rfl
  have linkr := h.parent?_label hr
  have links := h.parent?_label hs
  have member : c.label ∈ t.children r.label := by
    rw [(h.shapes r hr).children]
    exact List.mem_map_of_mem hc
  have link := h.linked.child linkr.1 member
  have hall {y : NodeId} (hy : y ∈ r.labels) : y ∈ rs.flatMap Rose.labels :=
    List.mem_flatMap.2 ⟨r, hr, hy⟩
  -- otherwise the parent of the place would be `r` or under it
  rcases ((h.shapes r hr).of_mem hc).parent_mem h.linked link.1 hx links.2 with e | hp
  · rw [e, link.2, Option.some.injEq] at links
    exact h.parent_not_mem (links.2 ▸ hall r.label_mem_labels)
  · exact h.parent_not_mem (hall (Rose.mem_labels_of_mem_children hc hp))

/-- A part of a place is a place. -/
theorem middle (h : t.Site floor p before (rs ++ ss ++ us) after) :
    t.Site floor p (before ++ rs.map Rose.label) ss (us.map Rose.label ++ after) where
  linked := h.linked
  floor_le := h.floor_le
  depth := h.depth
  children := by simp [h.children]
  shapes := by
    intro r hr
    exact h.shapes r (by simp [hr])

/-- The first part of a place is a place. -/
theorem front (h : t.Site floor p before (rs ++ us) after) :
    t.Site floor p before rs (us.map Rose.label ++ after) := by
  have whole : t.Site floor p before ([] ++ rs ++ us) after := h
  simpa using whole.middle

/-- The parts of a place around a part of it are disjoint from it and from the parent. -/
theorem around (h : t.Site floor p before (rs ++ ss ++ us) after) {x : NodeId}
    (hx : x ∈ (rs ++ us).flatMap Rose.labels) :
    x.index < t.size ∧ x ≠ p ∧ x ∉ ss.flatMap Rose.labels := by
  have hall : x ∈ (rs ++ ss ++ us).flatMap Rose.labels := by
    rw [List.flatMap_append, List.mem_append] at hx
    simp only [List.flatMap_append, List.mem_append]
    exact hx.imp_left .inl
  refine ⟨h.index_lt hall, fun e => h.parent_not_mem (e ▸ hall), fun hs => ?_⟩
  rw [List.flatMap_append, List.mem_append] at hx
  rcases hx with hx | hx
  · rw [List.append_assoc] at h
    refine h.disjoint hx ?_
    rw [List.flatMap_append]
    exact List.mem_append_left _ hs
  · refine h.disjoint ?_ hx
    rw [List.flatMap_append]
    exact List.mem_append_right _ hs

/-- The parts around a part that is rewritten keep their nodes. -/
theorem map_node_around (h : t.Site floor p before (rs ++ ss ++ us) after)
    (hr : Rewrites floor (ss.flatMap Rose.labels) p t t') :
    ∀ r ∈ rs ++ us, r.map t'.node = r.map t.node := by
  intro r hm
  refine Rose.map_congr fun x hx => ?_
  obtain ⟨hlt, hp, hs⟩ := h.around (List.mem_flatMap.2 ⟨r, hm, hx⟩)
  rw [node_eq, hr.slot_eq hlt hp hs, ← node_eq]

/-- What stands under a node of a place is a place. -/
theorem under {id : NodeId} {cs : List (Rose NodeId)} (h : t.Site floor p before [⟨id, cs⟩] after) :
    t.Site floor id [] cs [] where
  linked := h.linked
  floor_le := (h.parent?_label (List.mem_singleton.2 rfl)).1
  depth := by
    obtain ⟨d, hd⟩ := h.depth
    exact ⟨d + 1, .under (h.parent?_label (List.mem_singleton.2 rfl)).2 hd⟩
  children := by simpa using (h.shapes _ (List.mem_singleton.2 rfl)).children
  shapes := fun _ hr => (h.shapes _ (List.mem_singleton.2 rfl)).of_mem hr

/-- A place among new nodes is one in the whole tree. -/
theorem lower {bound : Nat} (h : t.Site bound p before rs after) (hl : t.LinkedFrom floor)
    (hf : floor ≤ bound) : t.Site floor p before rs after where
  linked := hl
  floor_le := hf.trans h.floor_le
  depth := h.depth
  children := h.children
  shapes := h.shapes

/-- The depth of the parent does not depend on what stands in the place. -/
theorem depth_of_rewrites (h : t.Site floor p before rs after)
    (hr : Rewrites floor (rs.flatMap Rose.labels) p t t') : ∃ d, t'.Depth p d := by
  obtain ⟨d, hd⟩ := h.depth
  exact ⟨d, hr.depth h.linked h.closed hd h.floor_le h.parent_not_mem⟩

/-- A place is not affected by changes elsewhere. -/
theorem unaffected {q : NodeId} {inside : List NodeId} (h : t.Site floor q before rs after)
    (hr : Rewrites floor inside p t t') (closed : ∀ x ∈ inside, ∀ c ∈ t.children x, c ∈ inside)
    (apart : ∀ x, x = q ∨ x ∈ rs.flatMap Rose.labels → x ≠ p ∧ x ∉ inside) :
    t'.Site floor q before rs after where
  linked := hr.linked
  floor_le := h.floor_le
  depth := by
    obtain ⟨d, hd⟩ := h.depth
    exact ⟨d, hr.depth h.linked closed hd h.floor_le (apart q (.inl rfl)).2⟩
  children := by
    have hq := apart q (.inl rfl)
    rw [children_eq, hr.slot_eq h.lt_size hq.1 hq.2, ← children_eq]
    exact h.children
  shapes := by
    intro r hr'
    refine (h.shapes r hr').congr fun x hx => ?_
    have hx' := List.mem_flatMap.2 ⟨r, hr', hx⟩
    have hm := apart x (.inr hx')
    rw [children_eq, hr.slot_eq (h.index_lt hx') hm.1 hm.2, ← children_eq]

end Site

/-- Where links agree, the children of a node are places. -/
theorem LinkedFrom.exists_site {p id : NodeId} {before after : List NodeId} (hl : t.LinkedFrom floor)
    (hf : floor ≤ p.index) {d : Nat} (hd : t.Depth p d) (hc : t.children p = before ++ id :: after) :
    ∃ cs, t.Site floor p before [⟨id, cs⟩] after := by
  have link := hl.child (c := id) hf (by simp [hc])
  obtain ⟨⟨_, cs⟩, rfl, shape⟩ := hl.exists_shape (.under link.2 hd) link.1
  exact ⟨cs, hl, hf, ⟨d, hd⟩, by simp [hc], by simpa using shape⟩

/-! ## Reworking a place -/

/-- Between the children before and after, other shapes stand now, made of what stood inside and of new
nodes. -/
structure Reworked (floor : Nat) (t : Tree) (p : NodeId) (before inside after : List NodeId)
    (rs : List (Rose NodeId)) (t' : Tree) : Prop where
  site : t'.Site floor p before rs after
  rewrites : Rewrites floor inside p t t'
  owned : ∀ x ∈ rs.flatMap Rose.labels, x ∈ inside ∨ t.size ≤ x.index

/-- What has been reworked so far stands between the children before and after. -/
structure Contained (floor : Nat) (t : Tree) (p : NodeId) (before inside after : List NodeId)
    (t' : Tree) : Prop where
  rewrites : Rewrites floor inside p t t'
  children : ∃ mid, t'.children p = before ++ mid ++ after ∧ ∀ x ∈ mid, x ∈ inside ∨ t.size ≤ x.index

section

variable {p id : NodeId} {before inside after : List NodeId}
  {rs ss us made cs cs' : List (Rose NodeId)}

/-- A place that is left alone. -/
theorem Site.reworked (h : t.Site floor p before rs after) :
    Reworked floor t p before (rs.flatMap Rose.labels) after rs t :=
  ⟨h, .refl h.linked _ _, fun _ hx => .inl hx⟩

namespace Reworked

/-- What has been reworked has been contained. -/
theorem contained (h : Reworked floor t p before inside after rs t') :
    Contained floor t p before inside after t' where
  rewrites := h.rewrites
  children := by
    refine ⟨rs.map Rose.label, h.site.children, fun x hx => ?_⟩
    obtain ⟨r, hr, rfl⟩ := List.mem_map.1 hx
    exact h.owned _ (List.mem_flatMap.2 ⟨r, hr, r.label_mem_labels⟩)

/-- One more change inside. -/
theorem trans {inner : List NodeId} (h : Reworked floor t p before inside after rs t')
    (hr : Rewrites floor inner p t' t'') (sub : ∀ x ∈ inner, x ∈ inside ∨ t.size ≤ x.index)
    (site : t''.Site floor p before ss after)
    (owned : ∀ x ∈ ss.flatMap Rose.labels, x ∈ rs.flatMap Rose.labels ∨ x ∈ inner ∨ t'.size ≤ x.index) :
    Reworked floor t p before inside after ss t'' where
  site := site
  rewrites := h.rewrites.trans hr sub
  owned := by
    intro x hx
    rcases owned x hx with hx | hx | hx
    · exact h.owned x hx
    · exact sub x hx
    · exact .inr (h.rewrites.size_le.trans hx)

/-- A place that has been reworked is reworked once more. -/
theorem next (h : Reworked floor t p before inside after rs t')
    (h' : Reworked floor t' p before (rs.flatMap Rose.labels) after ss t'') :
    Reworked floor t p before inside after ss t'' :=
  h.trans h'.rewrites h.owned h'.site fun x hx => (h'.owned x hx).imp_right .inr

/-- A part of a place is reworked. -/
theorem middle (h : Reworked floor t p before inside after (rs ++ ss ++ us) t')
    (h' : Reworked floor t' p (before ++ rs.map Rose.label) (ss.flatMap Rose.labels)
      (us.map Rose.label ++ after) made t'') :
    Reworked floor t p before inside after (rs ++ made ++ us) t'' := by
  -- the parts around the one that is reworked lie outside of it
  have kept {x : NodeId} (hx : x ∈ (rs ++ us).flatMap Rose.labels) : t''.slot x = t'.slot x := by
    obtain ⟨hlt, hp, hs⟩ := h.site.around hx
    exact h'.rewrites.slot_eq hlt hp hs
  refine h.trans h'.rewrites (fun x hx => h.owned x ?_) ?_ ?_
  · simp only [List.flatMap_append, List.mem_append]
    exact .inl (.inr hx)
  · constructor
    case linked => exact h'.site.linked
    case floor_le => exact h'.site.floor_le
    case depth => exact h'.site.depth
    case children => simp [h'.site.children]
    case shapes =>
      intro r hr
      by_cases hm : r ∈ made
      · exact h'.site.shapes r hm
      · simp only [List.mem_append, hm, or_false] at hr
        have old : r ∈ rs ++ ss ++ us := by
          simp only [List.mem_append]
          exact hr.imp_left .inl
        refine (h.site.shapes r old).congr fun x hx => ?_
        rw [children_eq, kept (List.mem_flatMap.2 ⟨r, List.mem_append.2 hr, hx⟩), ← children_eq]
  · intro x hx
    simp only [List.flatMap_append, List.mem_append] at hx ⊢
    rcases hx with (hx | hx) | hx
    · exact .inl (.inl (.inl hx))
    · exact .inr (h'.owned x hx)
    · exact .inl (.inr hx)

/-- What stands under a node of a place is reworked. -/
theorem under (h : t.Site floor p before [⟨id, cs⟩] after)
    (h' : Reworked floor t id [] (cs.flatMap Rose.labels) [] cs' t') :
    Reworked floor t p before ([(⟨id, cs⟩ : Rose NodeId)].flatMap Rose.labels) after [⟨id, cs'⟩] t' := by
  have rewrites : Rewrites floor ([(⟨id, cs⟩ : Rose NodeId)].flatMap Rose.labels) p t t' :=
    h'.rewrites.nest (by simp) (fun _ => Rose.mem_labels_of_under id) h.parent_not_mem h.lt_size
  have hp : p ≠ id ∧ p ∉ cs.flatMap Rose.labels := by simpa using h.parent_not_mem
  refine ⟨⟨h'.site.linked, h.floor_le, h.depth_of_rewrites rewrites, ?_, ?_⟩, rewrites, ?_⟩
  · rw [children_eq, h'.rewrites.slot_eq h.lt_size hp.1 hp.2, ← children_eq, h.children]
    rfl
  · intro r hr
    rw [List.mem_singleton.1 hr]
    exact .mk id cs' (by simpa using h'.site.children) h'.site.shapes
  · intro x hx
    simp only [List.flatMap_cons, List.flatMap_nil, List.append_nil, Rose.labels_mk,
      List.mem_cons] at hx ⊢
    rcases hx with rfl | hx
    · exact .inl (.inl rfl)
    · rcases h'.owned x hx with hx | hx
      · exact .inl (.inr hx)
      · exact .inr hx

end Reworked

namespace Contained

/-- A part of a place was being reworked. -/
theorem middle (h : Reworked floor t p before inside after (rs ++ ss ++ us) t')
    (h' : Contained floor t' p (before ++ rs.map Rose.label) (ss.flatMap Rose.labels)
      (us.map Rose.label ++ after) t'') : Contained floor t p before inside after t'' where
  rewrites := h.rewrites.trans h'.rewrites fun x hx => h.owned x (by
    simp only [List.flatMap_append, List.mem_append]
    exact .inl (.inr hx))
  children := by
    obtain ⟨mid, hc, hm⟩ := h'.children
    refine ⟨rs.map Rose.label ++ mid ++ us.map Rose.label, by simp [hc], fun x hx => ?_⟩
    have ours {r : Rose NodeId} (hr : r ∈ rs ++ ss ++ us) : r.label ∈ inside ∨ t.size ≤ r.label.index :=
      h.owned _ (List.mem_flatMap.2 ⟨r, hr, r.label_mem_labels⟩)
    simp only [List.mem_append, List.mem_map] at hx
    rcases hx with (⟨r, hr, rfl⟩ | hx) | ⟨r, hr, rfl⟩
    · exact ours (by simp [hr])
    · rcases hm x hx with hx | hx
      · exact h.owned x (by
          simp only [List.flatMap_append, List.mem_append]
          exact .inl (.inr hx))
      · exact .inr (h.rewrites.size_le.trans hx)
    · exact ours (by simp [hr])

/-- What stands under a node of a place was being reworked. -/
theorem under (h : t.Site floor p before [⟨id, cs⟩] after)
    (h' : Contained floor t id [] (cs.flatMap Rose.labels) [] t') :
    Contained floor t p before ([(⟨id, cs⟩ : Rose NodeId)].flatMap Rose.labels) after t' where
  rewrites := h'.rewrites.nest (by simp) (fun _ => Rose.mem_labels_of_under id) h.parent_not_mem h.lt_size
  children := by
    have hp : p ≠ id ∧ p ∉ cs.flatMap Rose.labels := by simpa using h.parent_not_mem
    refine ⟨[id], ?_, by simp⟩
    rw [children_eq, h'.rewrites.slot_eq h.lt_size hp.1 hp.2, ← children_eq, h.children]
    rfl

end Contained

end

end

end Tree

end Stylesheet
