import Mathlib.Logic.Relation
import Stylesheet.Proofs.Tree.Reach

/-! # Edits

An **`Edit`** is one of the operations that change a tree. A tree is **edited** by applying some of them one
after the other, each to nodes that have been created (**`Tree.Edited`**).

No edit lets parents and children disagree (**`Tree.Consistent`**, `Tree.Edited.linked`), not even on links
that run in a circle. A **proper** edit places no node under itself or under one of its descendants
(**`Edit.Proper`**), and a tree without circles (**`Tree.Acyclic`**) stays without under proper edits
(`Tree.Edited.intact`). -/

namespace Stylesheet

namespace Tree

/-! ## Integrity -/

/-- Parents and children agree, and nothing is a child twice. -/
structure Consistent (t : Tree) : Prop where
  mem_children_iff : ∀ p c, c ∈ t.children p ↔ t.parent? c = some p
  nodup : ∀ p, (t.children p).Nodup

/-- No node can be reached from its children. -/
def Acyclic (t : Tree) : Prop := ∀ p, ∀ c ∈ t.children p, ¬ t.Reaches c p

/-- The links agree, and none of them leads back up. -/
structure Intact (t : Tree) : Prop where
  consistent : t.Consistent
  acyclic : t.Acyclic

end Tree

/-! ## Operations -/

/-- An operation that changes a tree. -/
inductive Edit
  | create (n : Node)
  | appendChild (p : NodeId) (n : Node)
  | append (p c : NodeId)
  | insertAfter (p anchor c : NodeId)
  | detach (id : NodeId)
  | remove (p id : NodeId)
  | setChildren (id : NodeId) (children : List NodeId)
  | copySubtree (id : NodeId)
  | graft (source : Tree) (id : NodeId)
  | setNode (id : NodeId) (n : Node)

namespace Edit

/-- What an edit makes of a tree. -/
def apply : Edit → Tree → Tree
  | create n, t => (t.create n).2
  | appendChild p n, t => (t.appendChild p n).2
  | append p c, t => t.append p c
  | insertAfter p anchor c, t => t.insertAfter p anchor c
  | detach id, t => t.detach id
  | remove p id, t => t.remove p id
  | setChildren id children, t => t.setChildren id children
  | copySubtree id, t => (t.copySubtree id).2
  | graft source id, t => (t.graft source id).2
  | setNode id n, t => t.setNode id n

/-- The nodes that an edit looks up. An anchor is only compared with the children, and so is the parent
of a node that is removed. -/
def nodes : Edit → List NodeId
  | create _ | graft _ _ => []
  | appendChild p _ => [p]
  | append p c | insertAfter p _ c => [p, c]
  | detach id | remove _ id | copySubtree id | setNode id _ => [id]
  | setChildren id children => id :: children

/-- No node is placed under itself or under one of its descendants. -/
def Proper (t : Tree) : Edit → Prop
  | append p c | insertAfter p _ c => ¬ t.Reaches c p
  | setChildren id children => ∀ c ∈ children, ¬ t.Reaches c id
  | _ => True

end Edit

namespace Tree

/-- The second tree is the first one after some edits, each of them allowed for the tree at hand. -/
def Edited (allowed : Tree → Edit → Prop) : Tree → Tree → Prop :=
  Relation.ReflTransGen fun t t' =>
    ∃ e : Edit, (∀ id ∈ e.nodes, id.index < t.size) ∧ allowed t e ∧ e.apply t = t'

variable {floor : Nat} {t t' t'' : Tree} {p c id x y : NodeId} {cs : List NodeId}
  {allowed : Tree → Edit → Prop}

/-! ## Links that agree -/

/-- In a consistent tree the links agree from the first node on. -/
theorem Consistent.linked (h : t.Consistent) : t.LinkedFrom 0 where
  child := fun _ hm => ⟨Nat.zero_le _, (h.mem_children_iff _ _).1 hm⟩
  parent := fun _ hp => ⟨Nat.zero_le _, (h.mem_children_iff _ _).2 hp⟩
  nodup := fun _ => h.nodup _

/-- A tree whose links agree from the first node on is consistent. -/
theorem LinkedFrom.consistent (h : t.LinkedFrom 0) : t.Consistent where
  mem_children_iff _ _ :=
    ⟨fun hm => (h.child (Nat.zero_le _) hm).2, fun hp => (h.parent (Nat.zero_le _) hp).2⟩
  nodup _ := h.nodup (Nat.zero_le _)

/-- Appending a child creates no node. -/
@[simp] theorem size_append (t : Tree) (p c : NodeId) : (t.append p c).size = t.size := by
  simp [append]

/-- To give a node other children is to let the former ones go and to append the others. -/
theorem setChildren_eq (t : Tree) (id : NodeId) (cs : List NodeId) :
    t.setChildren id cs = cs.foldl (fun t c => t.append id c) (t.setChildren id []) := rfl

/-- Appending keeps the links in agreement, wherever the node stood before. -/
theorem LinkedFrom.append (h : t.LinkedFrom floor) (hp : p.index < t.size) (hc : c.index < t.size)
    (hfp : floor ≤ p.index) (hfc : floor ≤ c.index) : (t.append p c).LinkedFrom floor :=
  (h.detach c).attach (by simpa using hp) (by simpa using hc) hfp hfc (parent?_detach_self t c)

/-- So does appending nodes one after the other, be it the same one again. -/
theorem LinkedFrom.appendAll (h : t.LinkedFrom 0) (hp : p.index < t.size)
    (hc : ∀ c ∈ cs, c.index < t.size) : (cs.foldl (fun t c => t.append p c) t).LinkedFrom 0 := by
  induction cs generalizing t with
  | nil => exact h
  | cons c cs ih =>
    have first := h.append hp (hc c (by simp)) (Nat.zero_le _) (Nat.zero_le _)
    refine ih first (by simpa using hp) fun d hd => ?_
    rw [size_append]
    exact hc d (by simp [hd])

/-- Appending children creates no node. -/
@[simp] theorem size_appendAll (t : Tree) (p : NodeId) (cs : List NodeId) :
    (cs.foldl (fun t c => t.append p c) t).size = t.size := by
  induction cs generalizing t with
  | nil => rfl
  | cons c cs ih => rw [List.foldl_cons, ih, size_append]

/-- Replacing the children of a node creates none. -/
theorem size_setChildren (t : Tree) (id : NodeId) (cs : List NodeId) :
    (t.setChildren id cs).size = t.size := by
  rw [setChildren_eq, size_appendAll, size_setChildren_nil]

/-- To remove a node is to take it out or to do nothing. -/
theorem remove_eq (t : Tree) (p id : NodeId) : t.remove p id = t.detach id ∨ t.remove p id = t := by
  unfold remove
  split
  · exact .inl rfl
  · exact .inr rfl

/-- Nothing is taken away by an edit. -/
theorem size_le_apply (e : Edit) (t : Tree) : t.size ≤ (e.apply t).size := by
  cases e with
  | create n => simp [Edit.apply]
  | appendChild p n => simp [Edit.apply, appendChild]
  | append p c => simp [Edit.apply]
  | insertAfter p anchor c => simp [Edit.apply]
  | detach id => simp [Edit.apply]
  | remove p id =>
    rw [Edit.apply]
    rcases remove_eq t p id with eq | eq <;> simp [eq]
  | setChildren id cs => exact Nat.le_of_eq (size_setChildren t id cs).symm
  | copySubtree id => exact (graft_planted t t id).grown.size_le
  | graft source id => exact (graft_planted t source id).grown.size_le
  | setNode id n => simp [Edit.apply]

/-- An edit of a tree keeps its links in agreement. -/
theorem LinkedFrom.apply (h : t.LinkedFrom 0) (e : Edit) (created : ∀ id ∈ e.nodes, id.index < t.size) :
    (e.apply t).LinkedFrom 0 := by
  cases e with
  | create n => exact h.create n
  | appendChild p n =>
    have hp : p.index < t.size := created p (by simp [Edit.nodes])
    refine (h.create n).append ?_ ?_ (Nat.zero_le _) (Nat.zero_le _)
    · rw [size_create]
      omega
    · rw [size_create]
      exact Nat.lt_succ_self t.size
  | append p c =>
    exact h.append (created p (by simp [Edit.nodes])) (created c (by simp [Edit.nodes])) (Nat.zero_le _)
      (Nat.zero_le _)
  | insertAfter p anchor c =>
    exact h.insertAfter anchor (created p (by simp [Edit.nodes])) (created c (by simp [Edit.nodes]))
      (Nat.zero_le _) (Nat.zero_le _)
  | detach id => exact h.detach id
  | remove p id =>
    rw [Edit.apply]
    rcases remove_eq t p id with eq | eq <;> rw [eq]
    · exact h.detach id
    · exact h
  | setChildren id cs =>
    refine (h.setChildren_nil (Nat.zero_le _)).appendAll ?_ fun c hc => ?_
    · rw [size_setChildren_nil]
      exact created id (by simp [Edit.nodes])
    · rw [size_setChildren_nil]
      exact created c (by simp [Edit.nodes, hc])
  | copySubtree id => exact (graft_planted t t id).grown.linkedFrom h (Nat.zero_le _)
  | graft source id => exact (graft_planted t source id).grown.linkedFrom h (Nat.zero_le _)
  | setNode id n => exact h.setNode id n

/-! ## Circles -/

/-- Where links have been taken away, nothing more is reached. -/
theorem Reaches.mono (sub : ∀ y, ∀ z ∈ t'.children y, z ∈ t.children y) (h : t'.Reaches x y) :
    t.Reaches x y := by
  induction h with
  | self => exact .self
  | child _ hc ih => exact ih.child (sub _ _ hc)

/-- What is reached over one more link is reached without it, or leads to the link and on from it. -/
theorem Reaches.of_added (added : ∀ y, ∀ z ∈ t'.children y, z ∈ t.children y ∨ y = p ∧ z = c)
    (h : t'.Reaches x y) : t.Reaches x y ∨ t.Reaches x p ∧ t.Reaches c y := by
  induction h with
  | self => exact .inl .self
  | @child y z _ hz ih =>
    rcases added y z hz with old | ⟨rfl, rfl⟩
    · exact ih.imp (·.child old) fun h => ⟨h.1, h.2.child old⟩
    · -- however the link was reached, it has been without it
      exact .inr ⟨ih.elim id And.left, .self⟩

namespace Acyclic

/-- Taking links away closes no circle. -/
theorem mono (h : t.Acyclic) (sub : ∀ y, ∀ z ∈ t'.children y, z ∈ t.children y) : t'.Acyclic :=
  fun p c hc back => h p c (sub p c hc) (back.mono sub)

/-- One more link closes none, provided that its upper end cannot be reached from the lower one. -/
theorem of_added (h : t.Acyclic)
    (added : ∀ y, ∀ z ∈ t'.children y, z ∈ t.children y ∨ y = p ∧ z = c) (apart : ¬ t.Reaches c p) :
    t'.Acyclic := by
  intro y z hz back
  rcases added y z hz with old | ⟨rfl, rfl⟩
  · rcases back.of_added added with back | ⟨up, down⟩
    · exact h y z old back
    · -- a circle over the new link leads from its lower end to its upper one
      exact apart ((down.child old).trans up)
  · rcases back.of_added added with back | ⟨back, -⟩
    · exact apart back
    · exact apart back

end Acyclic

/-- Where all nodes have a depth, there is no circle. -/
theorem Rooted.not_reaches (h : t.Rooted floor) (hl : t.LinkedFrom floor) (hf : floor ≤ p.index)
    (hc : c ∈ t.children p) : ¬ t.Reaches c p := by
  intro back
  have link := hl.child hf hc
  obtain ⟨d, hd⟩ := h p hf (lt_size_of_mem_children hc)
  obtain ⟨r, rfl, shape⟩ := hl.exists_shape (.under link.2 hd) link.1
  exact shape.parent_not_mem hl link.1 link.2 hd (shape.mem_labels_iff.2 back)

/-- Growth closes no circle. -/
theorem Acyclic.of_grown (h : t.Acyclic) (hl : t.LinkedFrom 0) (g : Grown t t') : t'.Acyclic := by
  intro p c hc back
  by_cases hp : p.index < t.size
  · rw [g.children_eq hp] at hc
    have created := hl.lt_size_of_mem (Nat.zero_le p.index) hc
    have old := g.reaches (fun y z hz => hl.lt_size_of_mem (Nat.zero_le y.index) hz) created back
    exact h p c hc old.2
  · exact g.rooted.not_reaches g.linked (Nat.not_lt.1 hp) hc back

/-! ## Links that are added -/

/-- Detaching a node gives no other one a child. -/
theorem mem_children_of_detach {y : NodeId} (h : y ∈ (t.detach id).children x) : y ∈ t.children x := by
  rw [children_detach] at h
  split at h
  · exact (List.mem_filter.1 h).1
  · exact h

/-- Taking children away gives no other node a child. -/
theorem mem_children_of_setChildren_nil {y : NodeId} (h : y ∈ (t.setChildren id []).children x) :
    y ∈ t.children x := by
  rw [children_setChildren_nil] at h
  split at h
  · simp at h
  · exact h

/-- A move adds one link. -/
theorem added_insertAfter (anchor c : NodeId) (hp : p.index < t.size) :
    ∀ y, ∀ z ∈ (t.insertAfter p anchor c).children y, z ∈ t.children y ∨ y = p ∧ z = c := by
  intro y z hz
  rw [children_insertAfter t anchor c y hp] at hz
  split at hz
  next hy =>
    rw [(perm_placeAfter ..).mem_iff, List.mem_cons] at hz
    rcases hz with rfl | hz
    · exact .inr ⟨hy, rfl⟩
    · exact .inl (hy ▸ mem_children_of_detach hz)
  · exact .inl (mem_children_of_detach hz)

/-- So does appending. -/
theorem added_append (c : NodeId) (hp : p.index < t.size) :
    ∀ y, ∀ z ∈ (t.append p c).children y, z ∈ t.children y ∨ y = p ∧ z = c := by
  intro y z hz
  have hp' : p.index < (t.detach c).size := by simpa using hp
  rw [append, children_attach (t.detach c) c y hp'] at hz
  split at hz
  next hy =>
    rw [List.mem_append, List.mem_singleton] at hz
    rcases hz with hz | rfl
    · exact .inl (hy ▸ mem_children_of_detach hz)
    · exact .inr ⟨hy, rfl⟩
  · exact .inl (mem_children_of_detach hz)

/-- Appending nodes from which `p` cannot be reached closes no circle. -/
theorem Acyclic.appendAll (h : t.Acyclic) (hp : p.index < t.size) (apart : ∀ c ∈ cs, ¬ t.Reaches c p) :
    (cs.foldl (fun t c => t.append p c) t).Acyclic := by
  induction cs generalizing t with
  | nil => exact h
  | cons c cs ih =>
    have added := added_append c hp
    have apart_c := apart c (by simp)
    refine ih (h.of_added added apart_c) (by simpa using hp) fun d hd back => ?_
    rcases back.of_added added with back | ⟨back, -⟩
    · exact apart d (by simp [hd]) back
    · exact apart d (by simp [hd]) back

/-- A proper edit closes no circle. -/
theorem Intact.acyclic_apply (h : t.Intact) (e : Edit) (created : ∀ id ∈ e.nodes, id.index < t.size)
    (proper : e.Proper t) : (e.apply t).Acyclic := by
  have hl := h.consistent.linked
  cases e with
  | create n => exact h.acyclic.of_grown hl (grown_create t n)
  | appendChild p n =>
    have hp : p.index < t.size := created p (by simp [Edit.nodes])
    have grown := grown_create t n
    refine (h.acyclic.of_grown hl grown).of_added (added_append _ (hp.trans_le grown.size_le)) fun back => ?_
    -- nothing stands under a new node
    rcases back.eq_or_exists_child with rfl | ⟨d, hd, -⟩
    · exact Nat.lt_irrefl _ hp
    · rw [children_create] at hd
      exact Nat.lt_irrefl _ (lt_size_of_mem_children hd)
  | append p c => exact h.acyclic.of_added (added_append c (created p (by simp [Edit.nodes]))) proper
  | insertAfter p anchor c =>
    exact h.acyclic.of_added (added_insertAfter anchor c (created p (by simp [Edit.nodes]))) proper
  | detach id => exact h.acyclic.mono fun _ _ => mem_children_of_detach
  | remove p id =>
    rw [Edit.apply]
    rcases remove_eq t p id with eq | eq <;> rw [eq]
    · exact h.acyclic.mono fun _ _ => mem_children_of_detach
    · exact h.acyclic
  | setChildren id cs =>
    have sub : ∀ y, ∀ z ∈ (t.setChildren id []).children y, z ∈ t.children y :=
      fun _ _ => mem_children_of_setChildren_nil
    refine (h.acyclic.mono sub).appendAll ?_ fun c hc back => proper c hc (back.mono sub)
    rw [size_setChildren_nil]
    exact created id (by simp [Edit.nodes])
  | copySubtree id => exact h.acyclic.of_grown hl (graft_planted t t id).grown
  | graft source id => exact h.acyclic.of_grown hl (graft_planted t source id).grown
  | setNode id n =>
    refine h.acyclic.mono fun y z hz => ?_
    rwa [Edit.apply, children_setNode] at hz

/-! ## Edits in a row -/

namespace Edited

/-- A tree is edited by no edit at all. -/
theorem refl (t : Tree) : t.Edited allowed t := Relation.ReflTransGen.refl

/-- Edits can be made one after the other. -/
theorem trans (h : t.Edited allowed t') (h' : t'.Edited allowed t'') : t.Edited allowed t'' :=
  Relation.ReflTransGen.trans h h'

/-- A single edit. -/
theorem single (e : Edit) (created : ∀ id ∈ e.nodes, id.index < t.size) (h : allowed t e) :
    t.Edited allowed (e.apply t) :=
  Relation.ReflTransGen.single ⟨e, created, h, rfl⟩

/-- No edit takes a slot away. -/
theorem size_le (h : t.Edited allowed t') : t.size ≤ t'.size := by
  induction h with
  | refl => exact Nat.le_refl _
  | tail _ step ih =>
    obtain ⟨e, -, -, rfl⟩ := step
    exact ih.trans (size_le_apply e _)

/-- Links agree after any edits. -/
theorem linked (h : t.Edited allowed t') (hl : t.LinkedFrom 0) : t'.LinkedFrom 0 := by
  induction h with
  | refl => exact hl
  | tail _ step ih =>
    obtain ⟨e, created, -, rfl⟩ := step
    exact ih.apply e created

/-- Proper edits leave a tree intact. -/
theorem intact (h : t.Edited Edit.Proper t') (hi : t.Intact) : t'.Intact := by
  induction h with
  | refl => exact hi
  | tail _ step ih =>
    obtain ⟨e, created, proper, rfl⟩ := step
    exact ⟨(ih.consistent.linked.apply e created).consistent, ih.acyclic_apply e created proper⟩

end Edited

/-- The root alone is intact. -/
theorem empty_intact : empty.Intact :=
  ⟨empty_isStylesheet.linked.consistent, fun p c hc => by simp at hc⟩

/-- So is a stylesheet made of trees. -/
theorem ofNodes_intact (rs : List (Rose Node)) : (ofNodes rs).Intact := by
  obtain ⟨shapes, planted⟩ := ofNodes_planted rs
  have start : empty.Rooted 0 := fun x _ hx => ⟨0, .top hx (parent?_empty x)⟩
  have linked := planted.site.linked
  exact ⟨linked.consistent, fun p c hc =>
    (planted.rewrites.rooted start).not_reaches linked (Nat.zero_le p.index) hc⟩

end Tree

end Stylesheet
