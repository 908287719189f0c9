import Mathlib.Data.Finset.Card
import Mathlib.Data.Finset.Range
import Stylesheet.Proofs.Tree.Links
import Stylesheet.Proofs.Tree.Rose

/-! # Shapes of subtrees

A node has a **depth** when its parents end at a node without one (**`Tree.Depth`**); no depth reaches the
number of nodes (`Tree.Depth.lt_size`). The **shape** of a node is the tree of the numbers of what stands
under it (**`Tree.Shape`**): in a tree whose links agree every node of some depth has one
(`Tree.LinkedFrom.exists_shape`), siblings have shapes without a common node, and none contains the
parent. The nodes of a shape are the descendants of its top, each of them once
(`Tree.Shape.descendantsTo_eq`, `Tree.Shape.nodup_labels`). Shapes depend on the children of their nodes
only. -/

namespace Stylesheet

namespace Tree

/-- Different nodes that have been created are no more than there are nodes. -/
theorem length_le_size {t : Tree} {ids : List NodeId} (nodup : ids.Nodup)
    (created : ∀ x ∈ ids, x.index < t.size) : ids.length ≤ t.size := by
  have indices : (ids.map NodeId.index).Nodup := nodup.map fun a b => nodeId_ext
  have sub : (ids.map NodeId.index).toFinset ⊆ Finset.range t.size := by
    intro i hi
    simp only [List.mem_toFinset, List.mem_map] at hi
    obtain ⟨x, hx, rfl⟩ := hi
    exact Finset.mem_range.2 (created x hx)
  have := Finset.card_le_card sub
  rwa [List.toFinset_card_of_nodup indices, List.length_map, Finset.card_range] at this

/-! ## Depth -/

/-- How many nodes stand above a node. -/
inductive Depth (t : Tree) : NodeId → Nat → Prop
  | top {x : NodeId} : x.index < t.size → t.parent? x = none → Depth t x 0
  | under {x p : NodeId} {d : Nat} : t.parent? x = some p → Depth t p d → Depth t x (d + 1)

namespace Depth

variable {t t' : Tree}

/-- A node has one depth. -/
theorem unique {x : NodeId} {d e : Nat} (hd : t.Depth x d) (he : t.Depth x e) : d = e := by
  induction hd generalizing e with
  | top _ hp =>
    cases he with
    | top => rfl
    | under hp' => simp [hp] at hp'
  | under hp _ ih =>
    cases he with
    | top _ hp' => simp [hp] at hp'
    | under hp' he =>
      rw [hp, Option.some.injEq] at hp'
      subst hp'
      rw [ih he]

/-- A node with a depth has been created. -/
theorem index_lt {x : NodeId} {d : Nat} (h : t.Depth x d) : x.index < t.size := by
  cases h with
  | top hs => exact hs
  | under hp => exact lt_size_of_parent? hp

/-- The parent of a node is less deep by one. -/
theorem of_parent {x p : NodeId} {d : Nat} (h : t.Depth x d) (hp : t.parent? x = some p) :
    ∃ e, d = e + 1 ∧ t.Depth p e := by
  cases h with
  | top _ h => simp [hp] at h
  | under h hd =>
    rw [hp, Option.some.injEq] at h
    subst h
    exact ⟨_, rfl, hd⟩

/-- The nodes above a node are all different. -/
theorem exists_path {x : NodeId} {d : Nat} (h : t.Depth x d) :
    ∃ path : List NodeId, path.length = d + 1 ∧ path.Nodup ∧
      ∀ y ∈ path, ∃ e, e ≤ d ∧ t.Depth y e := by
  induction h with
  | @top x hs hp =>
    refine ⟨[x], rfl, by simp, fun y hy => ?_⟩
    rw [List.mem_singleton] at hy
    exact ⟨0, Nat.le_refl 0, hy ▸ .top hs hp⟩
  | @under x p d hp hd ih =>
    obtain ⟨path, hl, hn, hm⟩ := ih
    refine ⟨x :: path, by simp [hl], List.nodup_cons.2 ⟨fun hx => ?_, hn⟩, ?_⟩
    · -- the nodes above are less deep than `x`
      obtain ⟨e, he, hd'⟩ := hm x hx
      have := (under hp hd).unique hd'
      omega
    · intro y hy
      rcases List.mem_cons.1 hy with rfl | hy
      · exact ⟨d + 1, Nat.le_refl _, .under hp hd⟩
      · obtain ⟨e, he, hd'⟩ := hm y hy
        exact ⟨e, by omega, hd'⟩

/-- No node is as deep as there are nodes. -/
theorem lt_size {x : NodeId} {d : Nat} (h : t.Depth x d) : d < t.size := by
  obtain ⟨path, hl, hn, hm⟩ := h.exists_path
  have := length_le_size hn fun y hy => by
    obtain ⟨e, -, he⟩ := hm y hy
    exact he.index_lt
  omega

/-- A depth depends on the parents of the node and of those that are less deep. -/
theorem congr {x : NodeId} {d : Nat} (h : t.Depth x d) (hs : t.size ≤ t'.size)
    (hp : ∀ y e, e ≤ d → t.Depth y e → t'.parent? y = t.parent? y) : t'.Depth x d := by
  induction h with
  | top hlt hnone => exact .top (by omega) (by rw [hp _ 0 (Nat.le_refl _) (.top hlt hnone), hnone])
  | @under x p d hx hd ih =>
    refine .under (by rw [hp _ _ (Nat.le_refl _) (.under hx hd), hx]) (ih ?_)
    exact fun y e he hy => hp y e (by omega) hy

end Depth

/-! ## Shapes -/

/-- The tree of the numbers of the nodes under a node. -/
inductive Shape (t : Tree) : Rose NodeId → Prop
  | mk (id : NodeId) (rs : List (Rose NodeId)) : t.children id = rs.map Rose.label →
      (∀ r ∈ rs, Shape t r) → Shape t ⟨id, rs⟩

namespace Shape

variable {t t' : Tree} {floor : Nat}

/-- A node has the children that its shape says. -/
theorem children {r : Rose NodeId} (h : t.Shape r) : t.children r.label = r.children.map Rose.label := by
  cases h
  assumption

/-- The children of a shape are shapes. -/
theorem of_mem {r c : Rose NodeId} (h : t.Shape r) (hc : c ∈ r.children) : t.Shape c := by
  cases h with
  | mk id rs _ hrs => exact hrs c hc

/-- The trees right under the top of a shape are those of its children. -/
theorem child_mem {id : NodeId} {rs : List (Rose NodeId)} {c : Rose NodeId} (h : t.Shape ⟨id, rs⟩)
    (hc : c ∈ rs) : c.label ∈ t.children id := by
  have labels := h.children
  rw [Rose.label_mk, Rose.children_mk] at labels
  rw [labels]
  exact List.mem_map_of_mem hc

/-- Shapes with the same tops are the same if each is told by its top. -/
theorem eq_of_map_label_eq {rs ss : List (Rose NodeId)} (h : rs.map Rose.label = ss.map Rose.label)
    (hr : ∀ r ∈ rs, ∀ s, t.Shape s → r.label = s.label → r = s) (hs : ∀ s ∈ ss, t.Shape s) : rs = ss := by
  induction rs generalizing ss with
  | nil => simpa using h.symm
  | cons r rs ih =>
    cases ss with
    | nil => simp at h
    | cons s ss =>
      rw [List.map_cons, List.map_cons, List.cons.injEq] at h
      rw [hr r (by simp) s (hs s (by simp)) h.1,
        ih h.2 (fun r hm => hr r (by simp [hm])) fun s hm => hs s (by simp [hm])]

/-- A node has one shape. -/
theorem unique {r s : Rose NodeId} (hr : t.Shape r) (hs : t.Shape s) (e : r.label = s.label) :
    r = s := by
  induction r generalizing s with
  | mk id rs ih =>
    obtain ⟨_, ss⟩ := s
    rw [Rose.label_mk, Rose.label_mk] at e
    subst e
    have labels : rs.map Rose.label = ss.map Rose.label := hr.children.symm.trans hs.children
    rw [eq_of_map_label_eq labels (fun r hm s => ih r hm (hr.of_mem hm)) fun s hm => hs.of_mem hm]

/-- Shapes depend on the children of their nodes. -/
theorem congr {r : Rose NodeId} (h : t.Shape r) (hc : ∀ x ∈ r.labels, t'.children x = t.children x) :
    t'.Shape r := by
  induction r with
  | mk id rs ih =>
    refine .mk id rs ?_ fun r hr => ?_
    · rw [hc id (by simp)]
      exact h.children
    · exact ih r hr (h.of_mem hr) fun x hx => hc x (Rose.mem_labels_of_mem_children (r := ⟨id, rs⟩) hr hx)

/-- Every node of a shape has its own shape in it. -/
theorem exists_of_mem {r : Rose NodeId} (h : t.Shape r) {x : NodeId} (hx : x ∈ r.labels) :
    ∃ s, t.Shape s ∧ s.label = x ∧ ∀ y ∈ s.labels, y ∈ r.labels := by
  induction r with
  | mk id rs ih =>
    rw [Rose.mem_labels] at hx
    rcases hx with rfl | ⟨c, hc, hx⟩
    · exact ⟨_, h, rfl, fun y hy => hy⟩
    · obtain ⟨s, hs, hl, hsub⟩ := ih c hc (h.of_mem hc) hx
      exact ⟨s, hs, hl, fun y hy => Rose.mem_labels_of_mem_children (r := ⟨id, rs⟩) hc (hsub y hy)⟩

/-- With a node its children are in the shape. -/
theorem mem_of_child {r : Rose NodeId} (h : t.Shape r) {x c : NodeId} (hx : x ∈ r.labels)
    (hc : c ∈ t.children x) : c ∈ r.labels := by
  obtain ⟨s, hs, rfl, hsub⟩ := h.exists_of_mem hx
  rw [hs.children, List.mem_map] at hc
  obtain ⟨d, hd, rfl⟩ := hc
  exact hsub _ (Rose.mem_labels_of_mem_children hd (Rose.label_mem_labels d))

section

variable (hl : t.LinkedFrom floor) {r : Rose NodeId} (h : t.Shape r) (hf : floor ≤ r.label.index)

include hl h hf

/-- All nodes of a shape are numbered from the floor on if the top is. -/
theorem floor_le {x : NodeId} (hx : x ∈ r.labels) : floor ≤ x.index := by
  induction r with
  | mk id rs ih =>
    rw [Rose.mem_labels] at hx
    rcases hx with rfl | ⟨c, hc, hx⟩
    · exact hf
    · exact ih c hc (h.of_mem hc) (hl.child hf (h.child_mem hc)).1 hx

/-- All nodes of a shape but the top have their parent in it. -/
theorem parent_mem {x p : NodeId} (hx : x ∈ r.labels) (hp : t.parent? x = some p) :
    x = r.label ∨ p ∈ r.labels := by
  induction r with
  | mk id rs ih =>
    rw [Rose.mem_labels] at hx
    rcases hx with rfl | ⟨c, hc, hx⟩
    · exact .inl rfl
    · right
      have hm := h.child_mem hc
      have link := hl.child hf hm
      rcases ih c hc (h.of_mem hc) link.1 hx with rfl | hpc
      · rw [link.2, Option.some.injEq] at hp
        simp [← hp]
      · exact Rose.mem_labels_of_mem_children (r := ⟨id, rs⟩) hc hpc

/-- What stands under a node is deeper. -/
theorem depth_le {d : Nat} (hd : t.Depth r.label d) {x : NodeId} (hx : x ∈ r.labels) :
    ∃ e, d ≤ e ∧ t.Depth x e ∧ (x ≠ r.label → d < e) := by
  induction r generalizing d with
  | mk id rs ih =>
    rw [Rose.mem_labels] at hx
    rcases hx with rfl | ⟨c, hc, hx⟩
    · exact ⟨d, Nat.le_refl d, hd, fun h => absurd rfl h⟩
    · have hm := h.child_mem hc
      have link := hl.child hf hm
      obtain ⟨e, he, hde, -⟩ := ih c hc (h.of_mem hc) link.1 (.under link.2 hd) hx
      exact ⟨e, by omega, hde, fun _ => by omega⟩

/-- All nodes of a shape have been created if the top has. -/
theorem index_lt (hs : r.label.index < t.size) {x : NodeId} (hx : x ∈ r.labels) :
    x.index < t.size := by
  induction r with
  | mk id rs ih =>
    rw [Rose.mem_labels] at hx
    rcases hx with rfl | ⟨c, hc, hx⟩
    · exact hs
    · have hm := h.child_mem hc
      exact ih c hc (h.of_mem hc) (hl.child hf hm).1 (hl.lt_size_of_mem hf hm) hx

end

/-- A shape that shares a node with another one has its top in it, or the other has its top in this. -/
theorem top_mem_of_common (hl : t.LinkedFrom floor) {r s : Rose NodeId} (hr : t.Shape r)
    (hs : t.Shape s) (hfr : floor ≤ r.label.index) (hfs : floor ≤ s.label.index) {x : NodeId}
    (hxr : x ∈ r.labels) (hxs : x ∈ s.labels) : r.label ∈ s.labels ∨ s.label ∈ r.labels := by
  induction r with
  | mk id rs ih =>
    rw [Rose.mem_labels] at hxr
    rcases hxr with rfl | ⟨c, hc, hxr⟩
    · exact .inl hxs
    · have hm := hr.child_mem hc
      have link := hl.child hfr hm
      rcases ih c hc (hr.of_mem hc) link.1 hxr with hcs | hsc
      · -- with a child in the other shape, the parent is in it as well, or the child is its top
        rcases hs.parent_mem hl hfs hcs link.2 with e | hp
        · exact .inr (e ▸ Rose.mem_labels_of_mem_children (r := ⟨id, rs⟩) hc (Rose.label_mem_labels c))
        · exact .inl hp
      · exact .inr (Rose.mem_labels_of_mem_children (r := ⟨id, rs⟩) hc hsc)

/-- The parent of a node of some depth is not under it. -/
theorem parent_not_mem (hl : t.LinkedFrom floor) {r : Rose NodeId} (hr : t.Shape r)
    (hf : floor ≤ r.label.index) {p : NodeId} (hp : t.parent? r.label = some p) {d : Nat}
    (hd : t.Depth p d) : p ∉ r.labels := by
  intro hm
  obtain ⟨e, he, hde, -⟩ := hr.depth_le hl hf (.under hp hd) hm
  have := hd.unique hde
  omega

/-- Different children of a node of some depth have nothing in common. -/
theorem disjoint_of_siblings (hl : t.LinkedFrom floor) {r s : Rose NodeId} (hr : t.Shape r)
    (hs : t.Shape s) (hfr : floor ≤ r.label.index) (hfs : floor ≤ s.label.index) {p : NodeId} {d : Nat}
    (hd : t.Depth p d) (hpr : t.parent? r.label = some p) (hps : t.parent? s.label = some p)
    (hne : r.label ≠ s.label) {x : NodeId} (hxr : x ∈ r.labels) : x ∉ s.labels := by
  intro hxs
  rcases hr.top_mem_of_common hl hs hfr hfs hxr hxs with hm | hm
  · rcases hs.parent_mem hl hfs hm hpr with e | hp
    · exact hne e
    · exact hs.parent_not_mem hl hfs hps hd hp
  · rcases hr.parent_mem hl hfr hm hps with e | hp
    · exact hne e.symm
    · exact hr.parent_not_mem hl hfr hpr hd hp

/-- No node stands twice in a shape. -/
theorem nodup_labels (hl : t.LinkedFrom floor) {r : Rose NodeId} (h : t.Shape r)
    (hf : floor ≤ r.label.index) {d : Nat} (hd : t.Depth r.label d) : r.labels.Nodup := by
  induction r generalizing d with
  | mk id rs ih =>
    have link {c : Rose NodeId} (hc : c ∈ rs) : floor ≤ c.label.index ∧ t.parent? c.label = some id :=
      hl.child hf (h.child_mem hc)
    rw [Rose.labels_mk, List.nodup_cons, List.nodup_flatMap]
    refine ⟨fun hm => ?_, fun c hc => ih c hc (h.of_mem hc) (link hc).1 (.under (link hc).2 hd), ?_⟩
    · -- the top stands under none of its children
      obtain ⟨c, hc, hm⟩ := List.mem_flatMap.1 hm
      exact (h.of_mem hc).parent_not_mem hl (link hc).1 (link hc).2 hd hm
    · have distinct : (rs.map Rose.label).Nodup := by
        rw [show rs.map Rose.label = t.children id from h.children.symm]
        exact hl.nodup hf
      refine (List.pairwise_map.1 distinct).imp_of_mem fun {r s} hr hs ne x hx => ?_
      exact (h.of_mem hr).disjoint_of_siblings hl (h.of_mem hs) (link hr).1 (link hs).1 hd (link hr).2
        (link hs).2 ne hx

/-- A node with a shape lists its descendants as the labels of the shape, provided that enough levels
are listed. -/
theorem descendantsTo_eq (hl : t.LinkedFrom floor) {r : Rose NodeId} (h : t.Shape r)
    {d : Nat} (hd : t.Depth r.label d) (hf : floor ≤ r.label.index) {depth : Nat}
    (hs : t.size ≤ d + depth) : t.descendantsTo depth r.label = r.labels := by
  induction depth generalizing r d with
  | zero =>
    have := hd.lt_size
    omega
  | succ depth ih =>
    obtain ⟨id, cs⟩ := r
    rw [Rose.label_mk, descendantsTo, Rose.labels_mk]
    congr 1
    rw [show t.children id = cs.map Rose.label from h.children, List.flatMap_map, List.flatMap_def,
      List.flatMap_def]
    congr 1
    refine List.map_congr_left fun c hc => ?_
    have link := hl.child hf (h.child_mem hc)
    exact ih (h.of_mem hc) (.under link.2 hd) link.1 (by omega)

end Shape

/-- Nodes that each have something have it in a list. -/
theorem exists_map_label {P : Rose NodeId → Prop} (ids : List NodeId)
    (h : ∀ c ∈ ids, ∃ r : Rose NodeId, r.label = c ∧ P r) :
    ∃ rs : List (Rose NodeId), rs.map Rose.label = ids ∧ ∀ r ∈ rs, P r := by
  induction ids with
  | nil => exact ⟨[], rfl, by simp⟩
  | cons c cs ih =>
    obtain ⟨r, rfl, hr⟩ := h c (by simp)
    obtain ⟨rs, rfl, hrs⟩ := ih fun c hc => h c (by simp [hc])
    exact ⟨r :: rs, rfl, by simpa using ⟨hr, hrs⟩⟩

/-- Where links agree, every node of some depth has a shape. -/
theorem LinkedFrom.exists_shape {floor : Nat} {t : Tree} (hl : t.LinkedFrom floor) {x : NodeId} {d : Nat}
    (hd : t.Depth x d) (hf : floor ≤ x.index) : ∃ r, r.label = x ∧ t.Shape r := by
  -- the induction is on how many more nodes could stand below
  obtain ⟨k, hk⟩ : ∃ k, t.size - d = k := ⟨_, rfl⟩
  induction k generalizing x d with
  | zero =>
    have := hd.lt_size
    omega
  | succ k ih =>
    obtain ⟨rs, hrs, shapes⟩ := exists_map_label (P := t.Shape) (t.children x) fun c hc => by
      have link := hl.child hf hc
      exact ih (.under link.2 hd) link.1 (by omega)
    exact ⟨⟨x, rs⟩, rfl, .mk x rs hrs.symm shapes⟩

end Tree

end Stylesheet
