import Mathlib.Tactic.Tauto
import Stylesheet.Tree.Interpolation

/-! # Links between nodes

A tree keeps each link twice, in the parent of the child and in the children of the parent.
**`Tree.LinkedFrom`** says that the two agree for all nodes from a number on, and that no node is a child
twice; from zero on, it speaks of the whole tree. Here is what each operation on single nodes does to the
parents and the children, and that it keeps the links in agreement. -/

namespace Stylesheet

namespace Tree

/-- From the node numbered `floor` on, parents and children agree, and nothing is a child twice. -/
structure LinkedFrom (floor : Nat) (t : Tree) : Prop where
  child : ∀ {p c : NodeId}, floor ≤ p.index → c ∈ t.children p →
    floor ≤ c.index ∧ t.parent? c = some p
  parent : ∀ {c p : NodeId}, floor ≤ c.index → t.parent? c = some p →
    floor ≤ p.index ∧ c ∈ t.children p
  nodup : ∀ {p : NodeId}, floor ≤ p.index → (t.children p).Nodup

section

variable {floor : Nat} {t t' : Tree}

/-- Trees with the same links are linked alike. -/
theorem LinkedFrom.congr (h : t.LinkedFrom floor) (hp : ∀ x, t'.parent? x = t.parent? x)
    (hc : ∀ x, t'.children x = t.children x) : t'.LinkedFrom floor where
  child := by
    intro p c hf hm
    rw [hc] at hm
    rw [hp]
    exact h.child hf hm
  parent := by
    intro c p hf hm
    rw [hp] at hm
    rw [hc]
    exact h.parent hf hm
  nodup := by
    intro p hf
    rw [hc]
    exact h.nodup hf

/-- A node with children has been created. -/
theorem lt_size_of_mem_children {p c : NodeId} (h : c ∈ t.children p) : p.index < t.size := by
  by_cases hs : p.index < t.size
  · exact hs
  · simp [children, slot_of_size_le t p (Nat.not_lt.1 hs)] at h

/-- Children have been created too. -/
theorem LinkedFrom.lt_size_of_mem (h : t.LinkedFrom floor) {p c : NodeId} (hf : floor ≤ p.index)
    (hm : c ∈ t.children p) : c.index < t.size := lt_size_of_parent? (h.child hf hm).2

/-- A child does not stand before itself. -/
theorem LinkedFrom.not_mem_of_children (h : t.LinkedFrom floor) {p c : NodeId} {pre post : List NodeId}
    (hf : floor ≤ p.index) (hc : t.children p = pre ++ c :: post) : c ∉ pre := by
  have nodup := h.nodup hf
  rw [hc, List.nodup_append] at nodup
  exact fun hm => nodup.2.2 c hm c List.mem_cons_self rfl

/-- Numbers of nodes are all that sets them apart. -/
theorem nodeId_ext {x y : NodeId} (h : x.index = y.index) : x = y := by
  cases x
  cases y
  simp_all

/-! ## Changing a slot -/

/-- What changing a slot makes of each slot. -/
theorem slot_modify (t : Tree) (id x : NodeId) (f : Slot → Slot) :
    (t.modify id f).slot x = if x = id ∧ id.index < t.size then f (t.slot x) else t.slot x := by
  by_cases e : x = id
  · subst e
    by_cases hs : x.index < t.size
    · simp [hs, slot_modify_self t x f hs]
    · -- past the end every slot is the default one, before and after
      rw [if_neg (by simp [hs]), slot_of_size_le t x (Nat.not_lt.1 hs),
        slot_of_size_le _ x (by simpa using Nat.not_lt.1 hs)]
  · rw [if_neg (by simp [e]), slot_modify_of_ne t f e]

/-- The parent of a node is kept in its slot. -/
theorem parent?_eq (t : Tree) (x : NodeId) : t.parent? x = (t.slot x).parent := rfl

/-- The children of a node are kept in its slot. -/
theorem children_eq (t : Tree) (x : NodeId) : t.children x = (t.slot x).children := rfl

/-- What a node is is kept in its slot. -/
theorem node_eq (t : Tree) (x : NodeId) : t.node x = (t.slot x).node := rfl

/-- Nodes that have not been created have no children. -/
theorem children_of_size_le {t : Tree} {x : NodeId} (h : t.size ≤ x.index) : t.children x = [] := by
  rw [children_eq, slot_of_size_le t x h]

/-- Giving a slot another parent. -/
theorem parent?_modify_parent (t : Tree) (id x : NodeId) (o : Option NodeId) (h : id.index < t.size) :
    (t.modify id ({ · with parent := o })).parent? x = if x = id then o else t.parent? x := by
  rw [parent?_eq, slot_modify]
  by_cases e : x = id <;> simp [e, h, parent?_eq]

/-- Giving a slot other children. -/
theorem children_modify_children (t : Tree) (id x : NodeId) {f : List NodeId → List NodeId}
    (h : id.index < t.size ∨ f [] = []) :
    (t.modify id fun s => { s with children := f s.children }).children x =
      if x = id then f (t.children x) else t.children x := by
  rw [children_eq, slot_modify]
  by_cases e : x = id
  · subst e
    by_cases hs : x.index < t.size
    · simp [hs, children_eq]
    · -- a slot that has not been created has no children, and `f` leaves it without
      have hf := h.resolve_left hs
      have hc := children_of_size_le (Nat.not_lt.1 hs)
      simp only [hs, and_false, if_false, if_true]
      rw [hc, hf, ← children_eq, hc]
  · simp [e, children_eq]

/-- Setting a parent changes no children. -/
@[simp] theorem children_modify_parent (t : Tree) (id x : NodeId) (o : Option NodeId) :
    (t.modify id ({ · with parent := o })).children x = t.children x :=
  children_modify t id x fun _ => rfl

/-- Another node in a place keeps the links in agreement. -/
theorem LinkedFrom.setNode (h : t.LinkedFrom floor) (id : NodeId) (n : Node) :
    (t.setNode id n).LinkedFrom floor :=
  h.congr (fun x => parent?_setNode t id x n) (fun x => children_setNode t id x n)

/-! ## Taking nodes out -/

/-- Taking a node out takes away its parent and no other. -/
theorem parent?_detach (t : Tree) (id x : NodeId) :
    (t.detach id).parent? x = if x = id then none else t.parent? x := by
  by_cases e : x = id
  · subst e
    simp
  · rw [if_neg e]
    unfold detach
    split
    · rfl
    · rw [parent?_modify]
      · simp [parent?_eq, slot_modify_of_ne t _ e]
      · exact fun _ => rfl

/-- Taking a node out takes it out of the children of its parent. -/
theorem children_detach (t : Tree) (id x : NodeId) :
    (t.detach id).children x =
      if t.parent? id = some x then (t.children x).filter (· != id) else t.children x := by
  unfold detach
  split
  next h => simp [h]
  next parent h =>
    rw [children_modify_children _ _ _ (.inr rfl), children_modify]
    · simp [h, eq_comm]
    · exact fun _ => rfl

/-- Taking a node out changes no slot but its own and that of its parent. -/
theorem slot_detach_of_ne (t : Tree) {id x : NodeId} (h : x ≠ id) (hp : t.parent? id ≠ some x) :
    (t.detach id).slot x = t.slot x := by
  unfold detach
  split
  · rfl
  next parent hparent =>
    have hx : x ≠ parent := by
      rintro rfl
      exact hp hparent
    rw [slot_modify_of_ne _ _ hx, slot_modify_of_ne _ _ h]

/-- Where links agree, taking a node out takes it out of all children. -/
theorem LinkedFrom.children_detach (h : t.LinkedFrom floor) (id : NodeId) {x : NodeId}
    (hx : floor ≤ x.index) : (t.detach id).children x = (t.children x).filter (· != id) := by
  rw [Tree.children_detach]
  split
  · rfl
  next hp =>
    -- `x` is not the parent of `id`, so `id` is not among its children
    rw [List.filter_eq_self.2]
    intro c hc
    have hne : c ≠ id := fun e => hp (e ▸ (h.child hx hc).2)
    simpa using hne

/-- A node that is taken out leaves the links in agreement. -/
theorem LinkedFrom.detach (h : t.LinkedFrom floor) (id : NodeId) : (t.detach id).LinkedFrom floor where
  child := by
    intro p c hf hm
    rw [h.children_detach id hf, List.mem_filter] at hm
    obtain ⟨hm, hne⟩ := hm
    rw [parent?_detach, if_neg (by simpa using hne)]
    exact h.child hf hm
  parent := by
    intro c p hf hp
    rw [parent?_detach] at hp
    split at hp
    · simp at hp
    next hne =>
      obtain ⟨hfp, hm⟩ := h.parent hf hp
      rw [h.children_detach id hfp, List.mem_filter]
      exact ⟨hfp, hm, by simpa using hne⟩
  nodup := by
    intro p hf
    rw [h.children_detach id hf]
    exact (h.nodup hf).filter _

/-! ## Putting nodes in -/

/-- A child is placed among its siblings, and none of them is lost. -/
theorem perm_placeAfter (anchor child : NodeId) (ids : List NodeId) :
    (placeAfter anchor child ids).Perm (child :: ids) := by
  induction ids with
  | nil => exact .refl _
  | cons c cs ih =>
    rw [placeAfter]
    split
    · exact .swap ..
    · exact (ih.cons c).trans (.swap ..)

/-- A member is placed right behind the first occurrence of the anchor. -/
theorem placeAfter_append {anchor child : NodeId} {ids : List NodeId} (h : anchor ∉ ids)
    (rest : List NodeId) :
    placeAfter anchor child (ids ++ anchor :: rest) = ids ++ anchor :: child :: rest := by
  induction ids with
  | nil => simp [placeAfter]
  | cons c cs ih =>
    simp only [List.mem_cons, not_or] at h
    rw [List.cons_append, placeAfter, if_neg fun e => h.1 e.symm, ih h.2]
    rfl

/-- A node that is moved gets another parent. -/
theorem parent?_insertAfter (t : Tree) (p anchor : NodeId) {c : NodeId} (x : NodeId)
    (hc : c.index < t.size) :
    (t.insertAfter p anchor c).parent? x = if x = c then some p else t.parent? x := by
  unfold insertAfter
  rw [parent?_modify_parent _ _ _ _ (by simpa using hc), parent?_modify, parent?_detach]
  · split <;> simp_all
  · exact fun _ => rfl

/-- A node that is moved leaves the children it was among and joins others. -/
theorem children_insertAfter (t : Tree) {p : NodeId} (anchor c x : NodeId) (hp : p.index < t.size) :
    (t.insertAfter p anchor c).children x =
      if x = p then placeAfter anchor c ((t.detach c).children p) else (t.detach c).children x := by
  unfold insertAfter
  rw [children_modify_parent, children_modify_children _ _ _ (.inl (by simpa using hp))]
  split <;> simp_all

/-- Inserting a node creates none. -/
@[simp] theorem size_insertAfter (t : Tree) (p anchor c : NodeId) :
    (t.insertAfter p anchor c).size = t.size := by
  simp [insertAfter]

/-- When a node that stood nowhere has come among the children of another one, the links agree still. -/
theorem LinkedFrom.adopt (h : t.LinkedFrom floor) {p c : NodeId} (hfp : floor ≤ p.index) (hfc : floor ≤ c.index)
    (out : t.parent? c = none) (parent : ∀ x, t'.parent? x = if x = c then some p else t.parent? x)
    (others : ∀ q, q ≠ p → t'.children q = t.children q) (row : (t'.children p).Perm (c :: t.children p)) :
    t'.LinkedFrom floor := by
  have notIn {q : NodeId} (hq : floor ≤ q.index) : c ∉ t.children q := by
    intro hm
    simpa [out] using (h.child hq hm).2
  -- only `p` has another child, and only `c` another parent
  have mem (q x : NodeId) : x ∈ t'.children q ↔ (x = c ∧ q = p) ∨ x ∈ t.children q := by
    by_cases e : q = p
    · subst e
      simp [row.mem_iff]
    · simp [others q e, e]
  constructor
  case child =>
    intro q x hq hx
    rw [parent]
    rcases (mem q x).1 hx with ⟨rfl, rfl⟩ | hx
    · exact ⟨hfc, if_pos rfl⟩
    · have ne : x ≠ c := fun e => notIn hq (e ▸ hx)
      rw [if_neg ne]
      exact h.child hq hx
  case parent =>
    intro x q hx hq
    rw [parent] at hq
    by_cases e : x = c
    · rw [if_pos e, Option.some.injEq] at hq
      subst hq
      exact ⟨hfp, (mem p x).2 (.inl ⟨e, rfl⟩)⟩
    · rw [if_neg e] at hq
      obtain ⟨hfq, hm⟩ := h.parent hx hq
      exact ⟨hfq, (mem q x).2 (.inr hm)⟩
  case nodup =>
    intro q hq
    by_cases e : q = p
    · subst e
      exact row.nodup_iff.2 (List.nodup_cons.2 ⟨notIn hq, h.nodup hq⟩)
    · rw [others q e]
      exact h.nodup hq

/-- A move keeps the links in agreement. -/
theorem LinkedFrom.insertAfter (h : t.LinkedFrom floor) {p c : NodeId} (anchor : NodeId)
    (hp : p.index < t.size) (hc : c.index < t.size) (hfp : floor ≤ p.index) (hfc : floor ≤ c.index) :
    (t.insertAfter p anchor c).LinkedFrom floor := by
  -- once it is taken out, the node is nowhere a child
  refine (h.detach c).adopt hfp hfc (parent?_detach_self t c) (fun x => ?_) (fun q e => ?_) ?_
  · rw [parent?_insertAfter t p anchor x hc, parent?_detach]
    split <;> rfl
  · rw [children_insertAfter t anchor c q hp, if_neg e]
  · rw [children_insertAfter t anchor c p hp, if_pos rfl]
    exact perm_placeAfter ..

/-! ## New nodes -/

/-- What stands in each slot once a node is added. -/
theorem slot_create (t : Tree) (n : Node) (x : NodeId) :
    (t.create n).2.slot x = if x.index = t.size then ⟨n, none, []⟩ else t.slot x := by
  split
  next e =>
    have hx : x = (t.create n).1 := nodeId_ext e
    rw [hx, slot_create_self]
  next e =>
    refine slot_create_of_ne t n ?_
    rintro rfl
    exact e rfl

/-- Creating a node gives no other one a parent. -/
theorem parent?_create (t : Tree) (n : Node) (x : NodeId) :
    (t.create n).2.parent? x = t.parent? x := by
  rw [parent?_eq, slot_create]
  split
  next e => rw [parent?_eq, slot_of_size_le t x (by omega)]
  · rfl

/-- Creating a node gives no other one a child. -/
theorem children_create (t : Tree) (n : Node) (x : NodeId) :
    (t.create n).2.children x = t.children x := by
  rw [children_eq, slot_create]
  split
  next e => rw [children_of_size_le (by omega)]
  · rfl

/-- A new node has no links yet. -/
theorem LinkedFrom.create (h : t.LinkedFrom floor) (n : Node) : (t.create n).2.LinkedFrom floor :=
  h.congr (parent?_create t n) (children_create t n)

/-! ## Nodes that stand alone -/

/-- A node that is given a parent has it. -/
theorem parent?_attach (t : Tree) (p : NodeId) {c : NodeId} (x : NodeId) (hc : c.index < t.size) :
    (t.attach p c).parent? x = if x = c then some p else t.parent? x := by
  unfold attach
  rw [parent?_modify_parent _ _ _ _ (by simpa using hc), parent?_modify]
  exact fun _ => rfl

/-- A node that is given a parent is the last of its children. -/
theorem children_attach (t : Tree) {p : NodeId} (c x : NodeId) (hp : p.index < t.size) :
    (t.attach p c).children x = if x = p then t.children p ++ [c] else t.children x := by
  unfold attach
  rw [children_modify_parent,
    children_modify_children t p x (f := (· ++ [c])) (.inl hp)]
  split <;> simp_all

/-- Attaching a node changes links only. -/
@[simp] theorem node_attach (t : Tree) (p c x : NodeId) : (t.attach p c).node x = t.node x := by
  simp [attach]

/-- Attaching a node creates none. -/
@[simp] theorem size_attach (t : Tree) (p c : NodeId) : (t.attach p c).size = t.size := by
  simp [attach]

/-- Giving a parent to a node that has none keeps the links in agreement. -/
theorem LinkedFrom.attach (h : t.LinkedFrom floor) {p c : NodeId} (hp : p.index < t.size)
    (hc : c.index < t.size) (hfp : floor ≤ p.index) (hfc : floor ≤ c.index)
    (alone : t.parent? c = none) : (t.attach p c).LinkedFrom floor := by
  refine h.adopt hfp hfc alone (fun x => parent?_attach t p x hc) (fun q e => ?_) ?_
  · rw [children_attach t c q hp, if_neg e]
  · rw [children_attach t c p hp, if_pos rfl]
    exact List.perm_append_singleton c _

/-! ## Letting children go -/

/-- Letting the children of a node go. -/
theorem setChildren_nil (t : Tree) (id : NodeId) :
    t.setChildren id [] = (t.children id).foldl (fun t c => t.modify c ({ · with parent := none }))
      (t.modify id ({ · with children := [] })) := rfl

end

/-- Slots whose parents are taken away one after the other. -/
theorem slot_foldl_orphan (ids : List NodeId) (t : Tree) (x : NodeId) :
    (ids.foldl (fun t c => t.modify c ({ · with parent := none })) t).slot x =
      if x ∈ ids then { t.slot x with parent := none } else t.slot x := by
  induction ids generalizing t with
  | nil => simp
  | cons c cs ih =>
    rw [List.foldl_cons, ih, slot_modify]
    by_cases e : x = c
    · subst e
      by_cases hs : x.index < t.size
      · simp [hs]
      · simp [hs, slot_of_size_le t x (Nat.not_lt.1 hs)]
    · simp [e]

section

variable {floor : Nat} {t : Tree}

/-- Letting the children of a node go changes its slot and theirs. -/
theorem slot_setChildren_nil (t : Tree) (id x : NodeId) :
    (t.setChildren id []).slot x =
      ⟨t.node x, if x ∈ t.children id then none else t.parent? x,
        if x = id then [] else t.children x⟩ := by
  rw [setChildren_nil, slot_foldl_orphan, slot_modify]
  have same : (t.slot x) = ⟨t.node x, t.parent? x, t.children x⟩ := rfl
  -- nothing is asked of the links here, so a node may as well be a child of itself
  by_cases hm : x ∈ t.children id
  · by_cases e : x = id
    · subst e
      simp [hm, lt_size_of_mem_children hm, same]
    · simp [hm, e, same]
  · by_cases e : x = id
    · subst e
      by_cases hs : x.index < t.size
      · simp [hm, hs, same]
      · simp [hs, same, children_of_size_le (Nat.not_lt.1 hs)]
    · simp [hm, e, same]

/-- The children that are taken away have no parent any more. -/
theorem parent?_setChildren_nil (t : Tree) (id x : NodeId) :
    (t.setChildren id []).parent? x = if x ∈ t.children id then none else t.parent? x := by
  rw [parent?_eq, slot_setChildren_nil]

/-- The node whose children are taken away has none any more, and all others keep theirs. -/
theorem children_setChildren_nil (t : Tree) (id x : NodeId) :
    (t.setChildren id []).children x = if x = id then [] else t.children x := by
  rw [children_eq, slot_setChildren_nil]

/-- Taking children away changes links only. -/
@[simp] theorem node_setChildren_nil (t : Tree) (id x : NodeId) :
    (t.setChildren id []).node x = t.node x := by
  rw [node_eq, slot_setChildren_nil]

/-- Taking children away concerns the slots of their parent and of the children themselves. -/
theorem slot_setChildren_nil_of_ne (t : Tree) {id x : NodeId} (h : x ≠ id) (hm : x ∉ t.children id) :
    (t.setChildren id []).slot x = t.slot x := by
  rw [slot_setChildren_nil, if_neg h, if_neg hm]
  rfl

/-- Taking children away creates no node. -/
@[simp] theorem size_setChildren_nil (t : Tree) (id : NodeId) :
    (t.setChildren id []).size = t.size := by
  rw [setChildren_nil]
  generalize t.children id = ids
  have h : ∀ (ids : List NodeId) (t : Tree),
      (ids.foldl (fun t c => t.modify c ({ · with parent := none })) t).size = t.size := by
    intro ids
    induction ids with
    | nil => simp
    | cons c cs ih => simp [ih]
  simp [h]

/-- Letting children go keeps the links in agreement. -/
theorem LinkedFrom.setChildren_nil (h : t.LinkedFrom floor) {id : NodeId} (hf : floor ≤ id.index) :
    (t.setChildren id []).LinkedFrom floor where
  child := by
    intro p c hp hm
    rw [children_setChildren_nil] at hm
    split at hm
    · simp at hm
    next hne =>
      have hl := h.child hp hm
      rw [parent?_setChildren_nil, if_neg]
      · exact hl
      · -- otherwise the parent would be `id`, which has no children any more
        intro hc
        have same := (h.child hf hc).2
        rw [hl.2, Option.some.injEq] at same
        exact hne same
  parent := by
    intro c p hc hp
    rw [parent?_setChildren_nil] at hp
    split at hp
    · simp at hp
    next hn =>
      obtain ⟨hfp, hm⟩ := h.parent hc hp
      rw [children_setChildren_nil, if_neg]
      · exact ⟨hfp, hm⟩
      · -- what has kept its parent was no child of `id`
        rintro rfl
        exact hn hm
  nodup := by
    intro p hp
    rw [children_setChildren_nil]
    split
    · simp
    · exact h.nodup hp

end

end Tree

end Stylesheet
