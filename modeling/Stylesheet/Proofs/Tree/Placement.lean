import Mathlib.Data.List.Nodup
import Stylesheet.Proofs.Tree.Edit

/-! # Placing a node behind another one

A node is taken out of the place where it stands before its new place is looked up, and both may be among the children
of one parent. **`Tree.Placed`** says what has become of all links: the children of the new parent are those that
were there before, with the node right behind its anchor or at their end; the former parent has lost this child and no
other; and nothing else has changed. Wherever the node stood, this is what `Tree.insertAfter` does
(`Tree.insertAfter_placed`). -/

namespace Stylesheet

namespace Tree

variable {t : Tree} {p a c : NodeId} {ids : List NodeId}

/-! ## Lists -/

/-- Where a child is put: behind its anchor, or at the end if that one is not there. -/
def placeBehind (a : NodeId) (ids : List NodeId) : Nat :=
  match ids.idxOf? a with
  | some i => i + 1
  | none => ids.length

/-- Behind another sibling, the place is looked for further on. -/
theorem placeBehind_cons_of_ne {id : NodeId} (ne : id ≠ a) (ids : List NodeId) :
    placeBehind a (id :: ids) = placeBehind a ids + 1 := by
  unfold placeBehind
  rw [List.idxOf?_cons, if_neg (by simpa using ne)]
  cases ids.idxOf? a <;> rfl

/-- A child is inserted at the place that was looked up for it. -/
theorem placeAfter_eq_insertIdx (a c : NodeId) (ids : List NodeId) :
    placeAfter a c ids = ids.insertIdx (placeBehind a ids) c := by
  induction ids with
  | nil => rfl
  | cons id ids ih =>
    rw [placeAfter]
    split
    next here => simp [placeBehind, List.idxOf?_cons, here]
    next ne => rw [ih, placeBehind_cons_of_ne ne, List.insertIdx_succ_cons]

/-- A child goes to the end when its anchor is no sibling. -/
theorem placeAfter_of_not_mem (out : a ∉ ids) : placeAfter a c ids = ids ++ [c] := by
  have last : placeBehind a ids = ids.length := by
    unfold placeBehind
    rw [List.idxOf?_eq_none_iff.2 out]
  rw [placeAfter_eq_insertIdx, last, List.insertIdx_length_self]

/-! ## Trees -/

/-- In the second tree `c` stands behind `a` among the children of `p`, or at their end if `a` is none of them; all
else is as it is in the first tree. -/
structure Placed (p a c : NodeId) (t t' : Tree) : Prop where
  /-- The place is looked up among the other children. -/
  children : t'.children p = ((t.children p).erase c).insertIdx (placeBehind a ((t.children p).erase c)) c
  behind : a ∈ t.children p → ∃ before after,
    (t.children p).erase c = before ++ a :: after ∧ t'.children p = before ++ a :: c :: after
  atEnd : a ∉ t.children p → t'.children p = (t.children p).erase c ++ [c]
  /-- The node has stood in front of its anchor. -/
  forward : ∀ before between after, t.children p = before ++ c :: (between ++ a :: after) →
    t'.children p = before ++ between ++ a :: c :: after
  /-- The node has stood behind its anchor. -/
  backward : ∀ before between after, t.children p = before ++ a :: (between ++ c :: after) →
    t'.children p = before ++ a :: c :: (between ++ after)
  formerParent : ∀ q, q ≠ p → t.parent? c = some q → t'.children q = (t.children q).erase c
  otherParents : ∀ q, q ≠ p → t.parent? c ≠ some q → t'.children q = t.children q
  parent : t'.parent? c = some p
  otherLinks : ∀ x, x ≠ c → t'.parent? x = t.parent? x
  node : ∀ x, t'.node x = t.node x
  size : t'.size = t.size
  consistent : t'.Consistent

namespace Consistent

variable (h : t.Consistent)

include h

/-- A detached node is erased from the children of every parent. -/
theorem children_detach_eq_erase (c q : NodeId) : (t.detach c).children q = (t.children q).erase c := by
  rw [h.linked.children_detach c (Nat.zero_le _), (h.nodup q).erase_eq_filter]

/-- The children of the new parent are its other children with the node placed among them. -/
theorem children_insertAfter_self (a c : NodeId) (hp : p.index < t.size) :
    (t.insertAfter p a c).children p = placeAfter a c ((t.children p).erase c) := by
  rw [children_insertAfter t a c p hp, if_pos rfl, h.children_detach_eq_erase]

/-- All other nodes keep their children, but for the one that is moved. -/
theorem children_insertAfter_of_ne (a c : NodeId) {q : NodeId} (hp : p.index < t.size) (ne : q ≠ p) :
    (t.insertAfter p a c).children q = (t.children q).erase c := by
  rw [children_insertAfter t a c q hp, if_neg ne, h.children_detach_eq_erase]

/-- Behind an anchor among the other children. -/
theorem children_insertAfter_behind {before after : List NodeId} (hp : p.index < t.size)
    (others : (t.children p).erase c = before ++ a :: after) :
    (t.insertAfter p a c).children p = before ++ a :: c :: after := by
  have notBefore : a ∉ before := (h.linked.detach c).not_mem_of_children (Nat.zero_le _)
    ((h.children_detach_eq_erase c p).trans others)
  rw [h.children_insertAfter_self a c hp, others, placeAfter_append notBefore]

end Consistent

/-- **A move places exactly one node.** It goes right behind its anchor among the children of its parent, or to their
end if the anchor is none of them, wherever it stood before; it is gone from its former parent, and all other links
stay. The parent may even be a descendant of the node, or the node itself. -/
theorem insertAfter_placed (h : t.Consistent) (hp : p.index < t.size) (hc : c.index < t.size) (ne : c ≠ a) :
    Placed p a c t (t.insertAfter p a c) := by
  -- each child stands once under its parent, so erasing it takes out this one
  have erased {before after : List NodeId} (stood : t.children p = before ++ c :: after) :
      (t.children p).erase c = before ++ after := by
    rw [stood, List.erase_append_right _ (h.linked.not_mem_of_children (Nat.zero_le _) stood), List.erase_cons_head]
  constructor
  case children => rw [h.children_insertAfter_self a c hp, placeAfter_eq_insertIdx]
  case behind =>
    intro mem
    obtain ⟨before, after, others⟩ := List.append_of_mem ((List.mem_erase_of_ne ne.symm).2 mem)
    exact ⟨before, after, others, h.children_insertAfter_behind hp others⟩
  case atEnd =>
    intro out
    rw [h.children_insertAfter_self a c hp, placeAfter_of_not_mem fun mem => out (List.mem_of_mem_erase mem)]
  case forward =>
    intro before between after stood
    exact h.children_insertAfter_behind hp (by rw [erased stood, List.append_assoc])
  case backward =>
    intro before between after stood
    have behind : t.children p = (before ++ a :: between) ++ c :: after := by simp [stood]
    exact h.children_insertAfter_behind hp (by simp [erased behind])
  case formerParent => exact fun q other _ => h.children_insertAfter_of_ne a c hp other
  case otherParents =>
    intro q other parent
    have out : c ∉ t.children q := fun mem => parent ((h.mem_children_iff q c).1 mem)
    rw [h.children_insertAfter_of_ne a c hp other, List.erase_of_not_mem out]
  case parent => rw [parent?_insertAfter t p a c hc, if_pos rfl]
  case otherLinks => exact fun x other => by rw [parent?_insertAfter t p a x hc, if_neg other]
  case node => exact node_insertAfter t p a c
  case size => exact size_insertAfter t p a c
  case consistent => exact (h.linked.insertAfter a hp hc (Nat.zero_le _) (Nat.zero_le _)).consistent

/-- The first child of three goes behind the last one, the last one behind the first one, and the middle one out behind
their parent. -/
theorem insertAfter_placed_siblings :
    let t := ofNodes [⟨.block ["a"], [⟨.comment "b", []⟩, ⟨.comment "c", []⟩, ⟨.comment "d", []⟩]⟩]
    t.Consistent ∧ t.children ⟨1⟩ = [⟨2⟩, ⟨3⟩, ⟨4⟩] ∧
      (t.insertAfter ⟨1⟩ ⟨4⟩ ⟨2⟩).children ⟨1⟩ = [⟨3⟩, ⟨4⟩, ⟨2⟩] ∧
      (t.insertAfter ⟨1⟩ ⟨2⟩ ⟨4⟩).children ⟨1⟩ = [⟨2⟩, ⟨4⟩, ⟨3⟩] ∧
      (t.insertAfter root ⟨1⟩ ⟨3⟩).children root = [⟨1⟩, ⟨3⟩] ∧
      (t.insertAfter root ⟨1⟩ ⟨3⟩).children ⟨1⟩ = [⟨2⟩, ⟨4⟩] := by
  intro t
  have consistent : t.Consistent := (ofNodes_intact _).consistent
  have children : t.children ⟨1⟩ = [⟨2⟩, ⟨3⟩, ⟨4⟩] := by decide
  have first := insertAfter_placed (p := ⟨1⟩) (a := ⟨4⟩) (c := ⟨2⟩) consistent (by decide) (by decide) (by decide)
  have last := insertAfter_placed (p := ⟨1⟩) (a := ⟨2⟩) (c := ⟨4⟩) consistent (by decide) (by decide) (by decide)
  have middle := insertAfter_placed (p := root) (a := ⟨1⟩) (c := ⟨3⟩) consistent (by decide) (by decide) (by decide)
  refine ⟨consistent, children, first.forward [] [⟨3⟩] [] children, last.backward [] [⟨3⟩] [] children,
    middle.children.trans (by decide), ?_⟩
  rw [middle.formerParent ⟨1⟩ (by decide) (by decide), children]
  decide

end Tree

end Stylesheet
