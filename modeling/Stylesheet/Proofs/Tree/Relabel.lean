import Stylesheet.Proofs.Tree.Copy

/-! # Other nodes in the same places

Resolving placeholders **relabels** a tree: the links stay, and nodes change in one place only
(**`Tree.Relabeled`**). What is relabeled child by child is relabeled as a whole
(`Tree.Relabeled.children`), so resolving the placeholders under a node comes to resolving them in the
values that the children read off as (**`Rose.interpolate`**, `Tree.Site.interpolateAll`). -/

namespace Stylesheet

/-- Resolve the placeholders in a tree, but not inside of definitions. -/
def Rose.interpolate (lookup : Lookup) : Rose Node → Rose Node
  | ⟨n, rs⟩ =>
    if n.isDefinition then ⟨n, rs⟩
    else ⟨n.interpolate lookup, rs.map fun r => Rose.interpolate lookup r⟩

/-- What stays so at a node and the trees under it when placeholders are resolved stays so throughout a tree. -/
theorem Rose.All.interpolate {P : Node → List (Rose Node) → Prop} {r : Rose Node} (h : r.All P) (lookup : Lookup)
    (stays : ∀ n rs, P n rs → P (n.interpolate lookup) (rs.map (Rose.interpolate lookup))) :
    (r.interpolate lookup).All P := by
  induction h with
  | @mk n rs top under ih =>
    rw [Rose.interpolate]
    split
    · exact .mk top under
    · refine .mk (stays n rs top) fun c hc => ?_
      obtain ⟨s, hs, rfl⟩ := List.mem_map.1 hc
      exact ih s hs

namespace Tree

/-- A preorder that resolving the placeholders in one node respects is respected in all nodes under it. -/
theorem related_interpolateTo {R : Tree → Tree → Prop} (refl : ∀ t, R t t)
    (trans : ∀ {t t' t''}, R t t' → R t' t'' → R t t'') (lookup : Lookup)
    (node : ∀ t id, R t (t.setNode id ((t.node id).interpolate lookup))) (depth : Nat) (id : NodeId) (t : Tree) :
    R t (interpolateTo lookup depth id t) := by
  induction depth generalizing id t with
  | zero => exact refl t
  | succ depth ih =>
    rw [interpolateTo]
    split
    · exact refl t
    · exact List.foldlRecOn _ _ (node t id) fun t' before c _ => trans before (ih c t')

/-- The links are as they were, and all nodes but for those inside. -/
structure Relabeled (inside : List NodeId) (t t' : Tree) : Prop where
  parent?_eq : ∀ x, t'.parent? x = t.parent? x
  children_eq : ∀ x, t'.children x = t.children x
  size_eq : t'.size = t.size
  node_eq : ∀ {x}, x ∉ inside → t'.node x = t.node x

section

variable {floor : Nat} {t t' t'' : Tree} {inside inner before after : List NodeId} {p id : NodeId}
  {rs cs : List (Rose NodeId)}

namespace Relabeled

/-- A tree is relabeled where nothing changes. -/
theorem refl (inside : List NodeId) (t : Tree) : Relabeled inside t t :=
  ⟨fun _ => rfl, fun _ => rfl, rfl, fun _ => rfl⟩

/-- What is relabeled again within the same place is relabeled there. -/
theorem trans (h : Relabeled inside t t') (h' : Relabeled inner t' t'') (sub : ∀ x ∈ inner, x ∈ inside) :
    Relabeled inside t t'' where
  parent?_eq x := (h'.parent?_eq x).trans (h.parent?_eq x)
  children_eq x := (h'.children_eq x).trans (h.children_eq x)
  size_eq := h'.size_eq.trans h.size_eq
  node_eq hx := (h'.node_eq fun hm => hx (sub _ hm)).trans (h.node_eq hx)

/-- What is relabeled in a part is relabeled in the whole. -/
theorem mono (h : Relabeled inner t t') (sub : ∀ x ∈ inner, x ∈ inside) : Relabeled inside t t' :=
  (refl inside t).trans h sub

/-- Another node in one place. -/
theorem setNode (t : Tree) (id : NodeId) (n : Node) : Relabeled [id] t (t.setNode id n) where
  parent?_eq x := parent?_setNode t id x n
  children_eq x := children_setNode t id x n
  size_eq := size_setNode t id n
  node_eq hx := node_setNode_of_ne t n (by simpa using hx)

variable (h : Relabeled inside t t')

include h

/-- The slots elsewhere stay as they are. -/
theorem slot_eq {x : NodeId} (hx : x ∉ inside) : t'.slot x = t.slot x :=
  slot_ext (h.node_eq hx) (h.parent?_eq x) (h.children_eq x)

/-- Relabeling keeps depths. -/
theorem depth {x : NodeId} {d : Nat} (hd : t.Depth x d) : t'.Depth x d :=
  hd.congr (Nat.le_of_eq h.size_eq.symm) fun y _ _ _ => h.parent?_eq y

/-- Relabeling keeps shapes. -/
theorem shape {r : Rose NodeId} (hr : t.Shape r) : t'.Shape r := hr.congr fun x _ => h.children_eq x

/-- Relabeling keeps links in agreement. -/
theorem linkedFrom (hl : t.LinkedFrom floor) : t'.LinkedFrom floor :=
  hl.congr h.parent?_eq h.children_eq

/-- Relabeling leaves a depth to every node that has one. -/
theorem rootedFrom (hr : t.Rooted floor) : t'.Rooted floor := by
  intro x hf hlt
  obtain ⟨d, hd⟩ := hr x hf (h.size_eq ▸ hlt)
  exact ⟨d, h.depth hd⟩

/-- Relabeling keeps a place what it is. -/
theorem site (hs : t.Site floor p before rs after) : t'.Site floor p before rs after where
  linked := h.linkedFrom hs.linked
  floor_le := hs.floor_le
  depth := by
    obtain ⟨d, hd⟩ := hs.depth
    exact ⟨d, h.depth hd⟩
  children := (h.children_eq p).trans hs.children
  shapes r hr := h.shape (hs.shapes r hr)

/-- Relabeling is a rewriting that leaves the children of the parent. -/
theorem rewrites (hl : t.LinkedFrom floor) (hp : p ∉ inside) : Rewrites floor inside p t t' where
  size_le := Nat.le_of_eq h.size_eq.symm
  slot_eq _ _ hx := h.slot_eq hx
  node_eq := h.node_eq hp
  parent?_eq := h.parent?_eq p
  linked := h.linkedFrom hl
  rooted := h.rootedFrom

/-- Other nodes among the new ones are growth. -/
theorem grown {t₀ : Tree} (g : Grown t₀ t) (hi : ∀ x ∈ inside, t₀.size ≤ x.index) : Grown t₀ t' where
  size_le := g.size_le.trans (Nat.le_of_eq h.size_eq.symm)
  slot_eq := by
    intro x hx
    rw [h.slot_eq, g.slot_eq hx]
    intro hm
    have := hi x hm
    omega
  linked := h.linkedFrom g.linked
  rooted := h.rootedFrom g.rooted

/-- Other nodes in a place are a change of it. -/
theorem reworked {t₀ : Tree} {rs : List (Rose NodeId)} {before after within : List NodeId}
    (hr : Reworked floor t₀ p before within after rs t)
    (sub : ∀ x ∈ inside, x ∈ rs.flatMap Rose.labels) :
    Reworked floor t₀ p before within after rs t' :=
  hr.trans (h.rewrites hr.site.linked fun hp => hr.site.parent_not_mem (sub p hp))
    (fun x hx => hr.owned x (sub x hx)) (h.site hr.site) fun _ hx => .inl hx

omit h in
/-- Children that are relabeled one after the other, each in its own shape, are all relabeled. -/
theorem children {step : NodeId → Tree → Tree} {f : Rose Node → Rose Node} {d size : Nat}
    (single : ∀ {t before after r}, t.Site floor p before [r] after → t.Depth p d → t.size = size →
      Relabeled r.labels t (step r.label t) ∧ r.map (step r.label t).node = f (r.map t.node))
    (hs : t.Site floor p before rs after) (hd : t.Depth p d) (hsize : t.size = size) :
    let t' := (rs.map Rose.label).foldl (fun t id => step id t) t
    Relabeled (rs.flatMap Rose.labels) t t' ∧
      rs.map (Rose.map t'.node) = rs.map fun r => f (r.map t.node) := by
  induction rs generalizing t before with
  | nil => exact ⟨refl _ t, rfl⟩
  | cons r rs ih =>
    have front : t.Site floor p before ([] ++ [r] ++ rs) after := hs
    obtain ⟨first, same⟩ := single front.middle hd hsize
    have back : (step r.label t).Site floor p before ([r] ++ rs ++ []) after := by
      simpa using first.site hs
    have rest : (step r.label t).Site floor p (before ++ [r].map Rose.label) rs after := back.middle
    obtain ⟨others, sames⟩ := ih rest (first.depth hd) (first.size_eq.trans hsize)
    -- no shape holds a node of another one, so no step undoes what the others do
    have apart {x : NodeId} (hx : x ∈ r.labels) : x ∉ rs.flatMap Rose.labels :=
      front.disjoint (by simpa using hx)
    simp only [List.map_cons, List.foldl_cons]
    refine ⟨(first.mono ?_).trans others ?_, ?_⟩
    · intro x hx
      simp [hx]
    · intro x hx
      rw [List.flatMap_cons, List.mem_append]
      exact .inr hx
    · rw [List.cons.injEq, sames]
      refine ⟨?_, List.map_congr_left fun s hs' => congrArg f (Rose.map_congr fun x hx => ?_)⟩
      · rw [← same]
        exact Rose.map_congr fun x hx => others.node_eq (apart hx)
      · refine first.node_eq fun hm => apart hm ?_
        exact List.mem_flatMap.2 ⟨s, hs', hx⟩

end Relabeled

/-! ## Placeholders -/

/-- Resolving the placeholders in a node and under it, as many levels deep as there are. -/
theorem Shape.interpolateTo (lookup : Lookup) {depth d : Nat} (hl : t.LinkedFrom floor)
    {r : Rose NodeId} (h : t.Shape r) (hd : t.Depth r.label d) (hf : floor ≤ r.label.index)
    (hs : t.size ≤ d + depth) :
    Relabeled r.labels t (Tree.interpolateTo lookup depth r.label t) ∧
      r.map (Tree.interpolateTo lookup depth r.label t).node = (r.map t.node).interpolate lookup := by
  induction depth generalizing t r d with
  | zero =>
    -- no node is as deep as there are nodes
    have := hd.lt_size
    omega
  | succ depth ih =>
    obtain ⟨id, cs⟩ := r
    have set := Relabeled.setNode t id ((t.node id).interpolate lookup)
    have under : t.Site floor id [] cs [] :=
      ⟨hl, hf, ⟨d, hd⟩, by simpa using h.children, fun _ => h.of_mem⟩
    have fresh : id ∉ cs.flatMap Rose.labels := under.parent_not_mem
    have lt : id.index < t.size := hd.index_lt
    rw [Rose.label_mk, Tree.interpolateTo]
    by_cases hdef : (t.node id).isDefinition
    · -- a definition keeps its placeholders until it is called
      rw [if_pos hdef, Rose.map_mk, Rose.interpolate, if_pos hdef]
      exact ⟨.refl _ _, rfl⟩
    · obtain ⟨others, same⟩ := Relabeled.children (f := Rose.interpolate lookup) (fun hs' hd' hsize => by
          have link := hs'.parent?_label (List.mem_singleton.2 rfl)
          exact ih hs'.linked (hs'.shapes _ (List.mem_singleton.2 rfl)) (.under link.2 hd') link.1
            (by omega)) (set.site under) (set.depth hd) set.size_eq
      have hc := (set.site under).children
      rw [List.nil_append, List.append_nil] at hc
      rw [if_neg hdef, Rose.map_mk, Rose.map_mk, Rose.interpolate, if_neg hdef]
      simp only [hc]
      refine ⟨(set.mono ?_).trans others fun x hx => ?_, ?_⟩
      · simp
      · rw [Rose.labels_mk]
        exact List.mem_cons_of_mem id hx
      · rw [others.node_eq fresh, node_setNode_self t id _ lt, same, Rose.mk.injEq,
          List.map_map]
        refine ⟨rfl, List.map_congr_left fun c hc => congrArg _ (Rose.map_congr fun x hx => ?_)⟩
        refine set.node_eq fun hm => fresh ?_
        rw [List.mem_singleton] at hm
        exact hm ▸ List.mem_flatMap.2 ⟨c, hc, hx⟩

/-- Interpolating below a node creates none. -/
theorem size_interpolateTo (lookup : Lookup) (depth : Nat) (id : NodeId) (t : Tree) :
    (Tree.interpolateTo lookup depth id t).size = t.size := by
  induction depth generalizing id t with
  | zero => rfl
  | succ depth ih =>
    have all (ids : List NodeId) (t : Tree) :
        (ids.foldl (fun t c => Tree.interpolateTo lookup depth c t) t).size = t.size := by
      induction ids generalizing t with
      | nil => rfl
      | cons c cs ihc => rw [List.foldl_cons, ihc, ih]
    rw [Tree.interpolateTo]
    split
    · rfl
    · rw [all, size_setNode]

/-- All members of a list are reached at the same depth. -/
theorem interpolateAll_eq (lookup : Lookup) (ids : List NodeId) (t : Tree) :
    t.interpolateAll lookup ids =
      ids.foldl (fun t' id => Tree.interpolateTo lookup t.size id t') t := by
  unfold interpolateAll
  -- resolving placeholders adds no nodes, so the depth is the same for all of them
  obtain ⟨n, hn⟩ : ∃ n, n = t.size := ⟨_, rfl⟩
  rw [← hn]
  induction ids generalizing t with
  | nil => rfl
  | cons c cs ih =>
    have same : t.interpolate lookup c = Tree.interpolateTo lookup n c t := by rw [hn]; rfl
    rw [List.foldl_cons, List.foldl_cons, same, ih]
    rw [size_interpolateTo, hn]

/-- Resolving the placeholders in all nodes of a place. -/
theorem Site.interpolateAll (lookup : Lookup) (hs : t.Site floor p before rs after) :
    let t' := t.interpolateAll lookup (rs.map Rose.label)
    Relabeled (rs.flatMap Rose.labels) t t' ∧
      rs.map (Rose.map t'.node) = rs.map fun r => (r.map t.node).interpolate lookup := by
  obtain ⟨d, hd⟩ := hs.depth
  rw [interpolateAll_eq]
  refine Relabeled.children (fun hs' hd' hsize => ?_) hs hd rfl
  have link := hs'.parent?_label (List.mem_singleton.2 rfl)
  exact (hs'.shapes _ (List.mem_singleton.2 rfl)).interpolateTo lookup hs'.linked
    (.under link.2 hd') link.1 (by omega)

/-- The same after the tree has grown, and the values are those that were read off before. -/
theorem Site.interpolateAll_of_grown (lookup : Lookup) (hs : t.Site floor p before rs after)
    (g : Grown t t') :
    let t'' := t'.interpolateAll lookup (rs.map Rose.label)
    Relabeled (rs.flatMap Rose.labels) t' t'' ∧
      rs.map (Rose.map t''.node) = (rs.map (Rose.map t.node)).map (Rose.interpolate lookup) := by
  obtain ⟨relabeled, nodes⟩ := (hs.of_grown g).interpolateAll lookup
  refine ⟨relabeled, nodes.trans ?_⟩
  rw [List.map_map]
  refine List.map_congr_left fun r hr => congrArg _ (Rose.map_congr fun x hx => ?_)
  exact g.node_eq (hs.index_lt (List.mem_flatMap.2 ⟨r, hr, hx⟩))

/-- Resolving the placeholders in a copy that stands alone. -/
theorem Planted.interpolate {r : Rose Node} {made : NodeId} (h : Planted t r made t')
    (lookup : Lookup) : Planted t (r.interpolate lookup) made (t'.interpolate lookup made) := by
  obtain ⟨s, rfl, hshape, rfl, hlabels⟩ := h.shape
  have hfresh (x : NodeId) (hx : x ∈ s.labels) : t.size ≤ x.index := (mem_newIds.1 (hlabels ▸ hx)).1
  obtain ⟨relabeled, same⟩ := hshape.interpolateTo lookup h.grown.linked (.top h.lt_size h.alone)
    (hfresh _ s.label_mem_labels) (Nat.le_of_eq (Nat.zero_add t'.size).symm)
  constructor
  case grown => exact relabeled.grown h.grown hfresh
  case alone => exact (relabeled.parent?_eq _).trans h.alone
  case lt_size => exact relabeled.size_eq ▸ h.lt_size
  case shape => exact ⟨s, rfl, relabeled.shape hshape, same, relabeled.size_eq ▸ hlabels⟩

end

end Tree

end Stylesheet
