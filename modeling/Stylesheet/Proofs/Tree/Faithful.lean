import Stylesheet.Proofs.Tree.Elsewhere
import Stylesheet.Proofs.Tree.Listing

/-! # Faithful copies

The nodes of a copy are new, and they are created in the order in which those of the original are listed: each of these
has its **counterpart** among them (`Tree.counterpart`). A copy is **faithful** (**`Tree.Faithful`**) when it stands
alone, when counterparts carry the same node and are linked alike, when nothing that was there has changed, and when
neither of the two follows later changes of the other. In an intact tree, copies of its subtrees are faithful, in the
same tree and in another one (`Tree.copies_faithful`). -/

namespace Stylesheet

namespace Rose

variable {α β : Type}

/-- Trees of one form have equally many labels. -/
theorem length_labels_eq {r : Rose α} {s : Rose β} (form : r.map (fun _ => ()) = s.map fun _ => ()) :
    r.labels.length = s.labels.length := by
  simpa [labels_map] using congrArg (fun r => r.labels.length) form

/-- Trees of one form that have the same labels in order are the same. -/
theorem eq_of_labels_eq {r s : Rose α} (form : r.map (fun _ => ()) = s.map fun _ => ())
    (same : r.labels = s.labels) : r = s := by
  induction r generalizing s with
  | mk a rs ih =>
    obtain ⟨b, ss⟩ := s
    rw [labels_mk, labels_mk, List.cons.injEq] at same
    rw [map_mk, map_mk, mk.injEq] at form
    suffices rs = ss by rw [same.1, this]
    replace same := same.2
    replace form := form.2
    induction rs generalizing ss with
    | nil => simpa using form.symm
    | cons r rs ihr =>
      obtain _ | ⟨s, ss⟩ := ss
      · simp at form
      rw [List.map_cons, List.map_cons, List.cons.injEq] at form
      rw [List.flatMap_cons, List.flatMap_cons] at same
      -- the labels of the first trees come to an end together
      obtain ⟨first, rest⟩ := List.append_inj same (length_labels_eq form.1)
      rw [ih r (by simp) form.1 first, ihr (fun r hr => ih r (by simp [hr])) ss rest form.2]

end Rose

namespace Tree

variable {t t' source : Tree} {id made x p c : NodeId} {r : Rose NodeId}

/-! ## Counterparts -/

/-- The node of a copy of what stands under `id` that takes the place of `x`, when `start` is the first node of the
copy. -/
def counterpart (source : Tree) (id : NodeId) (start : Nat) (x : NodeId) : NodeId :=
  ⟨start + (source.descendants id).idxOf x⟩

/-- The counterparts of different nodes are the next nodes, in the same order. -/
theorem map_counterpart (start : Nat) (nodup : (source.descendants id).Nodup) :
    (source.descendants id).map (source.counterpart id start) =
      newIds start (start + (source.descendants id).length) := by
  refine List.ext_getElem (by simp [newIds]) fun i hi _ => ?_
  rw [List.length_map] at hi
  simp [newIds, counterpart, nodup.idxOf_getElem i hi]

/-- Nodes whose numbers are the ones of a shape, but changed, have the changed children. -/
theorem Shape.children_map {f : NodeId → NodeId} (h : t.Shape r) (h' : t'.Shape (r.map f)) (hx : x ∈ r.labels) :
    t'.children (f x) = (t.children x).map f := by
  induction r with
  | mk id rs ih =>
    rcases Rose.mem_labels.1 hx with rfl | ⟨c, hc, hx⟩
    · have top : t.children x = rs.map Rose.label := h.children
      have top' := h'.children
      rw [Rose.label_map, Rose.children_map, List.map_map] at top'
      rw [top, List.map_map]
      exact top'.trans (List.map_congr_left fun c _ => c.label_map f)
    · have inside : c.map f ∈ ((Rose.mk id rs).map f).children := by
        rw [Rose.children_map]
        exact List.mem_map_of_mem hc
      exact ih c hc (h.of_mem hc) (h'.of_mem inside) hx

/-- A node under another one has a parent there. -/
theorem Reaches.exists_parent (h : t.Reaches id x) (below : x ≠ id) : ∃ p, t.Reaches id p ∧ x ∈ t.children p := by
  cases h with
  | self => exact absurd rfl below
  | child reached member => exact ⟨_, reached, member⟩

/-! ## Copies -/

/-- The second tree is the first one with a copy of what stands under `id` in the source. -/
structure Faithful (source : Tree) (id : NodeId) (t : Tree) (copy : NodeId) (t' : Tree) : Prop where
  alone : t'.parent? copy = none
  created : t'.descendants copy = newIds t.size t'.size
  listed : t'.descendants copy = (source.descendants id).map (source.counterpart id t.size)
  node : ∀ x ∈ source.descendants id, t'.node (source.counterpart id t.size x) = source.node x
  children : ∀ x ∈ source.descendants id,
    t'.children (source.counterpart id t.size x) = (source.children x).map (source.counterpart id t.size)
  parent : ∀ x ∈ source.descendants id, x ≠ id →
    t'.parent? (source.counterpart id t.size x) = (source.parent? x).map (source.counterpart id t.size)
  unchanged : ∀ x : NodeId, x.index < t.size → t'.slot x = t.slot x
  /-- Edits of the copy, and of what is created later, leave everything as it was. -/
  copyEdited : ∀ {t''}, t'.Edited (fun _ e => ∀ x ∈ e.nodes, t.size ≤ x.index) t'' →
    ∀ x : NodeId, x.index < t.size → t''.slot x = t.slot x
  /-- Edits of everything else leave the copy as it is. -/
  othersEdited : ∀ {t''}, t'.Edited (fun _ e => ∀ x ∈ e.nodes, x ∉ t'.descendants copy) t'' →
    ∀ x ∈ t'.descendants copy, t''.slot x = t'.slot x

/-- Growth leaves what was there apart. -/
theorem Grown.apart_old (g : Grown t t') (hl : t.LinkedFrom 0) : Apart (fun x => x.index < t.size) t' where
  linked := g.linkedFrom hl (Nat.zero_le _)
  created hx := Nat.lt_of_lt_of_le hx g.size_le
  closed := by
    intro p c hm
    constructor
    · intro hp
      rw [g.children_eq hp] at hm
      exact hl.lt_size_of_mem (Nat.zero_le _) hm
    · intro hc
      have link := ((g.linkedFrom hl (Nat.zero_le _)).child (Nat.zero_le _) hm).2
      rw [g.parent?_eq hc] at link
      exact lt_size_of_mem_children (hl.parent (Nat.zero_le _) link).2

/-- Growth leaves what is new apart. -/
theorem Grown.apart_new (g : Grown t t') (hl : t.LinkedFrom 0) : Apart (· ∈ newIds t.size t'.size) t' where
  linked := g.linkedFrom hl (Nat.zero_le _)
  created hx := (mem_newIds.1 hx).2
  closed := by
    intro p c hm
    -- both have been created, so they are new when they are not old
    have old := (g.apart_old hl).closed hm
    have hp := lt_size_of_mem_children hm
    have hc := (g.linkedFrom hl (Nat.zero_le _)).lt_size_of_mem (Nat.zero_le _) hm
    rw [mem_newIds, mem_newIds]
    omega

/-- What has been planted is listed in the order in which it was created. -/
theorem Planted.descendants_eq {r : Rose Node} (h : Planted t r made t') {s : Rose NodeId} (top : s.label = made)
    (shape : t'.Shape s) : t'.descendants made = s.labels := by
  obtain ⟨s', top', shape', -, labels⟩ := h.shape
  obtain rfl := shape.unique shape' (top.trans top'.symm)
  have new : t.size ≤ s.label.index := (mem_newIds.1 (labels ▸ s.label_mem_labels)).1
  have depth : t'.Depth s.label 0 := .top (top ▸ h.lt_size) (top ▸ h.alone)
  rw [← top]
  exact shape.descendantsTo_eq h.grown.linked depth new (Nat.le_add_left _ _)

/-- Its nodes are all that is new. -/
theorem Planted.descendants_eq_newIds {r : Rose Node} (h : Planted t r made t') :
    t'.descendants made = newIds t.size t'.size := by
  obtain ⟨s, top, shape, -, labels⟩ := h.shape
  rw [h.descendants_eq top shape, labels]

/-- A copy has the shape of the original, with the counterparts for the nodes. -/
theorem Planted.shape_counterpart (top : r.label = id) (descendants : source.descendants id = r.labels)
    (nodup : r.labels.Nodup) (h : Planted t (r.map source.node) made t') :
    made = source.counterpart id t.size id ∧ t'.Shape (r.map (source.counterpart id t.size)) ∧
      (r.map (source.counterpart id t.size)).map t'.node = r.map source.node := by
  obtain ⟨s, rfl, shape', nodes, labels⟩ := h.shape
  have form : s.map (fun _ => ()) = r.map fun _ => () := by
    have := congrArg (Rose.map fun _ => ()) nodes
    rwa [Rose.map_map, Rose.map_map] at this
  -- as many nodes are new as the original has
  have size : t'.size = t.size + r.labels.length := by
    have length := Rose.length_labels_eq form
    have := h.grown.size_le
    rw [labels, newIds, List.length_map, List.length_range'] at length
    omega
  obtain rfl : s = r.map (source.counterpart id t.size) := by
    refine Rose.eq_of_labels_eq ?_ ?_
    · rw [form, Rose.map_map, Function.comp_def]
    · rw [Rose.labels_map, labels, size, ← descendants, map_counterpart _ (descendants ▸ nodup)]
  exact ⟨by rw [Rose.label_map, top], shape', nodes⟩

/-- A copy of a subtree of an intact tree is faithful. -/
theorem Intact.faithful (h : source.Intact) (created : id.index < source.size) (hl : t.LinkedFrom 0) :
    Faithful source id t (t.graft source id).1 (t.graft source id).2 := by
  obtain ⟨r, top, shape, descendants, nodup, rose⟩ := h.exists_shape created
  have planted := rose ▸ graft_planted t source id
  obtain ⟨first, shape', nodes⟩ := planted.shape_counterpart top descendants nodup
  generalize (t.graft source id).1 = made, (t.graft source id).2 = t' at planted first shape' nodes ⊢
  have same : ∀ x ∈ r.labels, t'.node (source.counterpart id t.size x) = source.node x := by
    rw [Rose.map_map] at nodes
    exact fun x hx => Rose.eq_of_map_eq nodes hx
  have listed : t'.descendants made = (source.descendants id).map (source.counterpart id t.size) := by
    rw [planted.descendants_eq (by rw [Rose.label_map, top, first]) shape', Rose.labels_map, descendants]
  have new := planted.descendants_eq_newIds
  have children : ∀ x ∈ source.descendants id,
      t'.children (source.counterpart id t.size x) = (source.children x).map (source.counterpart id t.size) :=
    fun x hx => shape.children_map shape' (descendants ▸ hx)
  have linked := planted.grown.linkedFrom hl (Nat.zero_le _)
  -- what is old and what is new stay apart, so edits of either leave the other as it is
  constructor
  case alone => exact planted.alone
  case created => exact new
  case listed => exact listed
  case node => exact fun x hx => same x (descendants ▸ hx)
  case children => exact children
  case parent =>
    intro x hx below
    have mem_iff := (h.listed created).mem_iff
    obtain ⟨p, reached, member⟩ := ((mem_iff x).1 hx).exists_parent below
    have copied : source.counterpart id t.size x ∈ t'.children (source.counterpart id t.size p) := by
      rw [children p ((mem_iff p).2 reached)]
      exact List.mem_map_of_mem member
    rw [(h.consistent.mem_children_iff p x).1 member, (linked.child (Nat.zero_le _) copied).2]
    rfl
  case unchanged => exact fun x => planted.grown.slot_eq
  case copyEdited =>
    intro t'' edited x hx
    simp only [← Nat.not_lt] at edited
    exact ((planted.grown.apart_old hl).slot_eq_of_edited edited hx).trans (planted.grown.slot_eq hx)
  case othersEdited =>
    intro t'' edited x hx
    rw [new] at edited hx
    exact (planted.grown.apart_new hl).slot_eq_of_edited edited hx

/-- **Copies are faithful, new and harmless.** In an intact tree, what stands under a node is listed, each node once,
in the order of the document. A copy of it stands alone; its nodes are new, in this order, and they carry the same
nodes in the same shape. Nothing that was there changes, and neither of the two follows what is done to the other
later. All this also holds when the copy is made in another tree. -/
theorem copies_faithful (h : t.Intact) (created : id.index < t.size) :
    t.Listed id ∧ Copies id t (t.copySubtree id) ∧
      Faithful t id t (t.copySubtree id).1 (t.copySubtree id).2 ∧
      ∀ other : Tree, other.Consistent → Faithful t id other (other.graft t id).1 (other.graft t id).2 :=
  ⟨h.listed created, h.ends.copySubtree id created, h.faithful created h.consistent.linked,
    fun _ consistent => h.faithful created consistent.linked⟩

/-- A block with two comments is copied; then the copy is emptied, or the block. -/
theorem copies_faithful_block :
    let t := ofNodes [⟨.block ["a"], [⟨.comment "b", []⟩, ⟨.comment "c", []⟩]⟩]
    let t' := (t.copySubtree ⟨1⟩).2
    t.descendants ⟨1⟩ = [⟨1⟩, ⟨2⟩, ⟨3⟩] ∧ t'.descendants ⟨4⟩ = [⟨4⟩, ⟨5⟩, ⟨6⟩] ∧
      (empty.graft t ⟨1⟩).2.descendants ⟨1⟩ = [⟨1⟩, ⟨2⟩, ⟨3⟩] ∧
      ((Edit.setChildren ⟨4⟩ []).apply t').slot ⟨1⟩ = t.slot ⟨1⟩ ∧
      ((Edit.setChildren ⟨1⟩ []).apply t').slot ⟨4⟩ = t'.slot ⟨4⟩ := by
  intro t t'
  obtain ⟨-, -, same, grafted⟩ := copies_faithful (ofNodes_intact _) (show (⟨1⟩ : NodeId).index < t.size by decide)
  have listed : t'.descendants ⟨4⟩ = [⟨4⟩, ⟨5⟩, ⟨6⟩] := same.created
  have others : ∀ x ∈ (Edit.setChildren ⟨1⟩ []).nodes, x ∉ t'.descendants ⟨4⟩ := by
    rw [listed]
    decide
  have inside : ⟨4⟩ ∈ t'.descendants ⟨4⟩ := by rw [listed]; decide
  exact ⟨by decide, listed, (grafted empty empty_intact.consistent).created,
    same.copyEdited (.single (.setChildren ⟨4⟩ []) (by decide) (by decide)) ⟨1⟩ (by decide),
    same.othersEdited (.single (.setChildren ⟨1⟩ []) (by decide) others) ⟨4⟩ inside⟩

end Tree

end Stylesheet
