import Stylesheet.Proofs.Tree.Edit

/-! # Edits elsewhere

Some nodes of a tree stand **apart** when no link leads from one of them to another node or back
(**`Tree.Apart`**). Edits of other nodes leave them as they are, and apart, so any number of edits elsewhere does
(`Tree.Apart.slot_eq_of_edited`). -/

namespace Stylesheet

namespace Tree

variable {A : NodeId → Prop} {t t' : Tree} {p c id x : NodeId}

/-- The links agree, and each of them is one between nodes that stand apart or one between others. -/
structure Apart (A : NodeId → Prop) (t : Tree) : Prop where
  linked : t.LinkedFrom 0
  created : ∀ {x}, A x → x.index < t.size
  closed : ∀ {p c}, c ∈ t.children p → (A p ↔ A c)

namespace Apart

variable (h : Apart A t)

include h

/-- The parent of another node is another node. -/
theorem not_parent (hc : ¬ A c) (hp : t.parent? c = some p) : ¬ A p := fun hA =>
  hc ((h.closed (h.linked.parent (Nat.zero_le _) hp).2).1 hA)

/-- Nodes that are as they were still stand apart. -/
theorem of_slot_eq (linked : t'.LinkedFrom 0) (size : t.size ≤ t'.size) (same : ∀ x, A x → t'.slot x = t.slot x) :
    Apart A t' where
  linked := linked
  created hx := (h.created hx).trans_le size
  closed := by
    intro p c hm
    constructor
    · intro hp
      rw [children_eq, same p hp] at hm
      exact (h.closed hm).1 hp
    · -- the parent is found in the slot of the child, which has not changed
      intro hc
      have link := (linked.child (Nat.zero_le _) hm).2
      rw [parent?_eq, same c hc] at link
      exact (h.closed (h.linked.parent (Nat.zero_le _) link).2).2 hc

/-! ## Single edits -/

/-- Detaching a node that is elsewhere leaves these slots. -/
theorem slot_detach (hid : ¬ A id) (hx : A x) : (t.detach id).slot x = t.slot x := by
  refine slot_detach_of_ne t (fun e => hid (e ▸ hx)) fun hp => ?_
  exact h.not_parent hid hp hx

omit h in
/-- Attaching a node that is elsewhere, under a parent elsewhere, leaves these slots. -/
theorem slot_attach (hp : ¬ A p) (hc : ¬ A c) (hx : A x) : (t.attach p c).slot x = t.slot x := by
  have notP : x ≠ p := fun e => hp (e ▸ hx)
  have notC : x ≠ c := fun e => hc (e ▸ hx)
  rw [attach, slot_modify_of_ne _ _ notC, slot_modify_of_ne _ _ notP]

/-- Appending a node that is elsewhere, under a parent elsewhere, leaves these slots. -/
theorem slot_append (hp : ¬ A p) (hc : ¬ A c) (hx : A x) : (t.append p c).slot x = t.slot x := by
  rw [append, slot_attach hp hc hx, h.slot_detach hc hx]

/-- Inserting a node that is elsewhere, under a parent elsewhere, leaves these slots. -/
theorem slot_insertAfter (anchor : NodeId) (hp : ¬ A p) (hc : ¬ A c) (hx : A x) :
    (t.insertAfter p anchor c).slot x = t.slot x := by
  have notP : x ≠ p := fun e => hp (e ▸ hx)
  have notC : x ≠ c := fun e => hc (e ▸ hx)
  rw [insertAfter, slot_modify_of_ne _ _ notC, slot_modify_of_ne _ _ notP, h.slot_detach hc hx]

/-- Taking the children of a node elsewhere away leaves these slots. -/
theorem slot_setChildren_nil (hid : ¬ A id) (hx : A x) : (t.setChildren id []).slot x = t.slot x :=
  slot_setChildren_nil_of_ne t (fun e => hid (e ▸ hx)) fun hm => hid ((h.closed hm).2 hx)

/-- Nodes that are appended one after the other leave apart what stands apart. -/
theorem slot_appendAll {cs : List NodeId} (hp : ¬ A p) (hcs : ∀ c ∈ cs, ¬ A c) (created : p.index < t.size)
    (all : ∀ c ∈ cs, c.index < t.size) (hx : A x) :
    (cs.foldl (fun t c => t.append p c) t).slot x = t.slot x := by
  induction cs generalizing t with
  | nil => rfl
  | cons c cs ih =>
    have first {x : NodeId} (hx : A x) : (t.append p c).slot x = t.slot x := h.slot_append hp (hcs c (by simp)) hx
    have linked := h.linked.append created (all c (by simp)) (Nat.zero_le _) (Nat.zero_le _)
    have next : Apart A (t.append p c) := h.of_slot_eq linked (by simp) fun _ => first
    rw [List.foldl_cons, ih next (fun c hc => hcs c (by simp [hc])) (by simpa using created)
      (fun d hd => by simpa using all d (by simp [hd])), first hx]

/-- An edit of other nodes leaves apart what stands apart. -/
theorem slot_apply (e : Edit) (created : ∀ id ∈ e.nodes, id.index < t.size) (others : ∀ id ∈ e.nodes, ¬ A id)
    (hx : A x) : (e.apply t).slot x = t.slot x := by
  cases e with
  | create n => exact (grown_create t n).slot_eq (h.created hx)
  | appendChild p n =>
    have grown := grown_create t n
    have next : Apart A (t.create n).2 := h.of_slot_eq (h.linked.create n) grown.size_le fun x hx =>
      grown.slot_eq (h.created hx)
    -- the new node is none of those that stand apart
    have new : ¬ A (t.create n).1 := fun hA => Nat.lt_irrefl _ (h.created hA)
    exact (next.slot_append (others p (by simp [Edit.nodes])) new hx).trans (grown.slot_eq (h.created hx))
  | append p c => exact h.slot_append (others p (by simp [Edit.nodes])) (others c (by simp [Edit.nodes])) hx
  | insertAfter p anchor c =>
    exact h.slot_insertAfter anchor (others p (by simp [Edit.nodes])) (others c (by simp [Edit.nodes])) hx
  | detach id => exact h.slot_detach (others id (by simp [Edit.nodes])) hx
  | remove p id =>
    rw [Edit.apply]
    rcases remove_eq t p id with eq | eq <;> rw [eq]
    exact h.slot_detach (others id (by simp [Edit.nodes])) hx
  | setChildren id cs =>
    have hid := others id (by simp [Edit.nodes])
    have next : Apart A (t.setChildren id []) := h.of_slot_eq (h.linked.setChildren_nil (Nat.zero_le _))
      (by simp) fun x hx => h.slot_setChildren_nil hid hx
    rw [Edit.apply, setChildren_eq, next.slot_appendAll hid (fun c hc => others c (by simp [Edit.nodes, hc]))
      (by simpa using created id (by simp [Edit.nodes]))
      (fun c hc => by simpa using created c (by simp [Edit.nodes, hc])) hx, h.slot_setChildren_nil hid hx]
  | copySubtree id => exact (graft_planted t t id).grown.slot_eq (h.created hx)
  | graft source id => exact (graft_planted t source id).grown.slot_eq (h.created hx)
  | setNode id n => exact slot_modify_of_ne t _ fun e => others id (by simp [Edit.nodes]) (e ▸ hx)

/-! ## Edits in a row -/

/-- Edits of other nodes, one after the other, leave apart what stands apart. -/
theorem slot_eq_of_edited (edited : t.Edited (fun _ e => ∀ id ∈ e.nodes, ¬ A id) t') (hx : A x) :
    t'.slot x = t.slot x := by
  suffices Apart A t' ∧ ∀ x, A x → t'.slot x = t.slot x from this.2 x hx
  induction edited with
  | refl => exact ⟨h, fun _ _ => rfl⟩
  | tail _ step ih =>
    obtain ⟨e, created, others, rfl⟩ := step
    obtain ⟨apart, same⟩ := ih
    have unchanged (x : NodeId) (hx : A x) := apart.slot_apply e created others hx
    exact ⟨apart.of_slot_eq (apart.linked.apply e created) (size_le_apply e _) unchanged,
      fun x hx => (unchanged x hx).trans (same x hx)⟩

end Apart

end Tree

end Stylesheet
