import Stylesheet.Proofs.Tree.Ending

/-! # Listing a subtree

In an intact tree, a node is **listed** with all that stands under it (**`Tree.Listed`**): first the node, then
what is listed for its children, one child after the other. So every node that can be reached is listed once, parents
stand before their children, and siblings stand in order (`Tree.Intact.listed`). -/

namespace Stylesheet

/-- In the labels of a tree a label stands before the labels right under it, and those are in order. -/
theorem Rose.sublist_labels {α : Type} (a : α) (rs : List (Rose α)) :
    (a :: rs.map Rose.label).Sublist (Rose.mk a rs).labels := by
  rw [labels_mk, List.cons_sublist_cons]
  induction rs with
  | nil => exact .slnil
  | cons r rs ih =>
    rw [List.map_cons, List.flatMap_cons]
    have first : [r.label].Sublist r.labels := List.singleton_sublist.2 r.label_mem_labels
    simpa using first.append ih

namespace Tree

variable {t : Tree} {id x : NodeId}

/-- The descendants of a node in the order of the document, as those come that wait on a stack for their turn. -/
structure Listed (t : Tree) (id : NodeId) : Prop where
  order : t.descendants id = id :: (t.children id).flatMap t.descendants
  stack : t.Lists [id] (t.descendants id)
  mem_iff : ∀ x, x ∈ t.descendants id ↔ t.Reaches id x
  nodup : (t.descendants id).Nodup
  family : ∀ x ∈ t.descendants id, (x :: t.children x).Sublist (t.descendants id)

/-- A node of a shape stands before its children there, and those are in order. -/
theorem Shape.sublist_labels {r : Rose NodeId} (h : t.Shape r) (hx : x ∈ r.labels) :
    (x :: t.children x).Sublist r.labels := by
  induction r with
  | mk id rs ih =>
    rcases Rose.mem_labels.1 hx with rfl | ⟨c, hc, hx⟩
    · have children : t.children x = rs.map Rose.label := h.children
      rw [children]
      exact Rose.sublist_labels x rs
    · rw [Rose.labels_mk]
      exact ((ih c hc (h.of_mem hc) hx).trans (Rose.sublist_labels_of_mem hc)).cons id

/-- The descendants of a node in an intact tree are the nodes of its shape. -/
theorem Intact.exists_shape (h : t.Intact) (created : id.index < t.size) :
    ∃ r, r.label = id ∧ t.Shape r ∧ t.descendants id = r.labels ∧ r.labels.Nodup ∧
      t.rose t.size id = r.map t.node := by
  have linked := h.consistent.linked
  obtain ⟨d, hd⟩ := h.rooted id (Nat.zero_le _) created
  obtain ⟨r, rfl, shape⟩ := linked.exists_shape hd (Nat.zero_le _)
  exact ⟨r, rfl, shape, shape.descendantsTo_eq linked hd (Nat.zero_le _) (Nat.le_add_left _ d),
    shape.nodup_labels linked (Nat.zero_le _) hd, shape.rose_eq linked hd (Nat.zero_le _) (by omega)⟩

/-- They are the node itself and the nodes of the shapes under it. -/
theorem Intact.exists_under (h : t.Intact) (created : id.index < t.size) :
    ∃ rs, t.Shape ⟨id, rs⟩ ∧ t.descendants id = (Rose.mk id rs).labels ∧
      t.rose t.size id = (Rose.mk id rs).map t.node := by
  obtain ⟨⟨_, rs⟩, rfl, shape, descendants, -, rose⟩ := h.exists_shape created
  exact ⟨rs, shape, descendants, rose⟩

/-- In an intact tree every node is listed. -/
theorem Intact.listed (h : t.Intact) (created : id.index < t.size) : t.Listed id := by
  obtain ⟨r, rfl, shape, descendants, nodup, -⟩ := h.exists_shape created
  constructor
  case order =>
    obtain ⟨id, cs⟩ := r
    have children : t.children id = cs.map Rose.label := shape.children
    rw [descendants, Rose.label_mk, Rose.labels_mk, children, List.flatMap_map, List.flatMap_def, List.flatMap_def]
    congr 2
    refine List.map_congr_left fun c hc => ?_
    -- a child has one shape only, the one under its parent
    have member := shape.child_mem hc
    obtain ⟨s, same, shape', descendants', -⟩ :=
      h.exists_shape (h.consistent.linked.lt_size_of_mem (Nat.zero_le _) member)
    rw [descendants', shape'.unique (shape.of_mem hc) same]
  case stack => exact h.ends.descendants _ created
  case mem_iff => exact fun x => by rw [descendants, shape.mem_labels_iff]
  case nodup => rwa [descendants]
  case family =>
    intro x hx
    rw [descendants] at hx ⊢
    exact shape.sublist_labels hx

end Tree

end Stylesheet
