import Stylesheet.Proofs.Tree.Copy

/-! # What can be reached

One node can be **reached** from another when it stands at or under it (**`Tree.Reaches`**). What is
reached from a node with a shape are the nodes of the shape (`Tree.Shape.mem_labels_iff`), and what is
reached from a node at the top has a depth (`Tree.Reaches.depth`).

The tree of a whole **stylesheet** has the root at its top (**`Tree.IsStylesheet`**); trees that are
planted under a root make one (**`Tree.ofNodes`**). -/

namespace Stylesheet

namespace Tree

variable {floor : Nat} {t t' : Tree} {x y z c p : NodeId}

/-- The second node stands at the first one or under it. -/
inductive Reaches (t : Tree) (x : NodeId) : NodeId → Prop
  | self : Reaches t x x
  | child {y c : NodeId} : Reaches t x y → c ∈ t.children y → Reaches t x c

namespace Reaches

/-- What is reached from what is reached is reached. -/
theorem trans (h : t.Reaches x y) (h' : t.Reaches y z) : t.Reaches x z := by
  induction h' with
  | self => exact h
  | child _ hc ih => exact .child ih hc

/-- What stands under a node can be reached through one of its children. -/
theorem eq_or_exists_child (h : t.Reaches x z) : z = x ∨ ∃ c ∈ t.children x, t.Reaches c z := by
  induction h with
  | self => exact .inl rfl
  | @child y c _ hc ih =>
    right
    rcases ih with rfl | ⟨d, hd, hy⟩
    · exact ⟨c, hc, .self⟩
    · exact ⟨d, hd, .child hy hc⟩

/-- What is reached from a node with a depth has a depth. -/
theorem depth (hl : t.LinkedFrom floor) (hf : floor ≤ x.index) {d : Nat} (hd : t.Depth x d)
    (h : t.Reaches x z) : floor ≤ z.index ∧ ∃ e, t.Depth z e := by
  induction h with
  | self => exact ⟨hf, d, hd⟩
  | child _ hc ih =>
    obtain ⟨hy, e, he⟩ := ih
    have link := hl.child hy hc
    exact ⟨link.1, e + 1, .under link.2 he⟩

end Reaches

/-- What is reached from a node with a shape are the nodes of the shape. -/
theorem Shape.mem_labels_iff {r : Rose NodeId} (h : t.Shape r) : x ∈ r.labels ↔ t.Reaches r.label x := by
  constructor
  · intro hx
    induction r with
    | mk id rs ih =>
      rcases Rose.mem_labels.1 hx with rfl | ⟨c, hc, hx⟩
      · exact .self
      · have below := ih c hc (h.of_mem hc) hx
        exact (Reaches.self.child (h.child_mem hc)).trans below
  · intro hx
    induction hx with
    | self => exact r.label_mem_labels
    | child _ hc ih => exact h.mem_of_child ih hc

/-- What is reached from the nodes of a place stands in it. -/
theorem Site.mem_iff {rs : List (Rose NodeId)} {before after : List NodeId}
    (h : t.Site floor p before rs after) : x ∈ rs.flatMap Rose.labels ↔
      ∃ r ∈ rs, t.Reaches r.label x := by
  rw [List.mem_flatMap]
  constructor
  · rintro ⟨r, hr, hx⟩
    exact ⟨r, hr, (h.shapes r hr).mem_labels_iff.1 hx⟩
  · rintro ⟨r, hr, hx⟩
    exact ⟨r, hr, (h.shapes r hr).mem_labels_iff.2 hx⟩

/-- A tree that has grown reaches nothing new from what it had, provided that it had no links that lead
nowhere. -/
theorem Grown.reaches (g : Grown t t') (hc : ∀ y c, c ∈ t.children y → c.index < t.size)
    (hx : x.index < t.size) (h : t'.Reaches x z) : z.index < t.size ∧ t.Reaches x z := by
  induction h with
  | self => exact ⟨hx, .self⟩
  | child _ hm ih =>
    -- an old node has the children it had, and those are old as well
    obtain ⟨hy, reached⟩ := ih
    rw [g.children_eq hy] at hm
    exact ⟨hc _ _ hm, reached.child hm⟩

/-! ## Whole stylesheets -/

/-- The links agree, and the root stands at the top. -/
structure IsStylesheet (t : Tree) : Prop where
  linked : t.LinkedFrom 0
  created : 0 < t.size
  alone : t.parent? root = none
  node_root : t.node root = .root

/-- The root of a stylesheet is at its top. -/
theorem IsStylesheet.depth (h : t.IsStylesheet) : t.Depth root 0 := .top h.created h.alone

/-- What can be read off at the root are the nodes that stand under it. -/
theorem IsStylesheet.rose_eq (h : t.IsStylesheet) {rs : List (Rose NodeId)} (hs : t.Site 0 root [] rs []) :
    t.rose t.size root = ⟨.root, rs.map (Rose.map t.node)⟩ := by
  have shape : t.Shape ⟨root, rs⟩ := .mk root rs (by simpa using hs.children) hs.shapes
  have read : t.rose t.size root = _ := shape.rose_eq h.linked h.depth (Nat.zero_le _) (by omega)
  rw [read, Rose.map_mk, h.node_root]

/-- In the empty tree nothing has children. -/
@[simp] theorem children_empty (x : NodeId) : empty.children x = [] := by
  obtain ⟨_ | x⟩ := x
  · rfl
  · exact children_of_size_le (Nat.le_add_left 1 x)

/-- In the empty tree nothing has a parent. -/
@[simp] theorem parent?_empty (x : NodeId) : empty.parent? x = none := by
  by_contra h
  obtain ⟨p, hp⟩ := Option.ne_none_iff_exists'.1 h
  obtain ⟨_ | x⟩ := x
  · cases hp
  · exact absurd (lt_size_of_parent? hp) (Nat.not_lt.2 (Nat.le_add_left 1 x))

/-- The root alone is a stylesheet. -/
theorem empty_isStylesheet : empty.IsStylesheet where
  linked := ⟨by simp, by simp, by simp⟩
  created := Nat.one_pos
  alone := rfl
  node_root := rfl

/-- A stylesheet of these trees. -/
def ofNodes (rs : List (Rose Node)) : Tree := plantUnder root rs empty

/-- The trees stand under the root. -/
theorem ofNodes_planted (rs : List (Rose Node)) :
    ∃ shapes, PlantedUnder 0 empty root shapes rs (ofNodes rs) := by
  have start : PlantedUnder 0 empty root [] [] empty :=
    ⟨.refl empty_isStylesheet.linked _ _, ⟨empty_isStylesheet.linked, Nat.zero_le _,
      ⟨0, empty_isStylesheet.depth⟩, rfl, by simp⟩, rfl, by simp⟩
  exact start.plantUnder (fun r _ t => plant_planted r t) (Nat.zero_le _)

/-- Trees put under a root are a stylesheet. -/
theorem ofNodes_isStylesheet (rs : List (Rose Node)) : (ofNodes rs).IsStylesheet := by
  obtain ⟨shapes, planted⟩ := ofNodes_planted rs
  exact ⟨planted.site.linked, planted.site.lt_size, planted.rewrites.parent?_eq, planted.rewrites.node_eq⟩

/-- They can be read off again. -/
theorem rose_ofNodes (rs : List (Rose Node)) : (ofNodes rs).rose (ofNodes rs).size root = ⟨.root, rs⟩ := by
  obtain ⟨shapes, planted⟩ := ofNodes_planted rs
  rw [(ofNodes_isStylesheet rs).rose_eq planted.site, planted.nodes]

end Tree

end Stylesheet
