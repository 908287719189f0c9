import Stylesheet.Proofs.Tree.Frame

/-! # Copies

A subtree read off as a value (**`Tree.rose`**) can be **planted** in another tree (**`Tree.plant`**):
that is what copying it from one tree to the other comes to (`Tree.graft_eq_plant`). A tree with such a
copy has grown, and the copy stands alone, its nodes being the new ones in the order of the document
(**`Tree.Planted`**). From there it **joins** the children of a node (**`Tree.Joins`**), at the end or
behind another child. -/

namespace Stylesheet

namespace Tree

/-- What stands at a node and under it, `depth` levels deep. -/
def rose (t : Tree) : Nat → NodeId → Rose Node
  | 0, id => ⟨t.node id, []⟩
  | depth + 1, id => ⟨t.node id, (t.children id).map (rose t depth)⟩

mutual

/-- Add nodes for a whole tree. The one at the top has no parent. -/
def plant : Rose Node → Tree → NodeId × Tree
  | ⟨n, rs⟩, t => ((t.create n).1, plantUnder (t.create n).1 rs (t.create n).2)

/-- Add nodes for trees, at the end of the children of a node. -/
def plantUnder (p : NodeId) : List (Rose Node) → Tree → Tree
  | [], t => t
  | r :: rs, t => plantUnder p rs ((plant r t).2.attach p (plant r t).1)

end

/-- To copy from another tree is to read off and to plant. -/
theorem graftFrom_eq_plant (source : Tree) (depth : Nat) (id : NodeId) (t : Tree) :
    graftFrom source depth id t = plant (source.rose depth id) t := by
  induction depth generalizing id t with
  | zero =>
    rw [graftFrom, rose, plant, plantUnder]
  | succ depth ih =>
    -- the children are read off one level less deep each, and planted one after the other
    have under (p : NodeId) (ids : List NodeId) : ∀ t : Tree,
        ids.foldl (fun t c => (graftFrom source depth c t).2.attach p (graftFrom source depth c t).1) t =
          plantUnder p (ids.map (source.rose depth)) t := by
      induction ids with
      | nil => exact fun t => (plantUnder.eq_1 p t).symm
      | cons c cs ihc =>
        intro t
        rw [List.foldl_cons, ihc, List.map_cons, plantUnder, ih]
    rw [graftFrom, rose, plant, ← under]

/-- Grafting a node is planting what is read off under it. -/
theorem graft_eq_plant (t source : Tree) (id : NodeId) :
    t.graft source id = plant (source.rose source.size id) t := graftFrom_eq_plant source _ id t

section

variable {floor : Nat} {t t' t'' : Tree}

/-- A node with a shape reads off as its shape does, provided that enough levels are read: so many that none
are left at leaves only. -/
theorem Shape.rose_eq_of_enough (enough : Nat → Rose NodeId → Prop)
    (leaf : ∀ {r}, t.Shape r → enough 0 r → r.children = [])
    (under : ∀ {depth r}, t.Shape r → enough (depth + 1) r → ∀ c ∈ r.children, enough depth c)
    {r : Rose NodeId} (h : t.Shape r) {depth : Nat} (hr : enough depth r) :
    t.rose depth r.label = r.map t.node := by
  induction depth generalizing r with
  | zero =>
    have none := leaf h hr
    obtain ⟨id, cs⟩ := r
    rw [show cs = [] from none, Rose.label_mk, rose, Rose.map_mk, List.map_nil]
  | succ depth ih =>
    have deeper := under h hr
    obtain ⟨id, cs⟩ := r
    rw [Rose.label_mk, rose, Rose.map_mk]
    congr 1
    rw [show t.children id = cs.map Rose.label from h.children, List.map_map]
    exact List.map_congr_left fun c hc => ih (h.of_mem hc) (deeper c hc)

/-- Nodes are less deep than there are nodes, so levels for the rest of them are enough. -/
theorem Shape.rose_eq (hl : t.LinkedFrom floor) {r : Rose NodeId} (h : t.Shape r) {d : Nat}
    (hd : t.Depth r.label d) (hf : floor ≤ r.label.index) {depth : Nat} (hs : t.size ≤ d + depth + 1) :
    t.rose depth r.label = r.map t.node := by
  have child {id : NodeId} {cs : List (Rose NodeId)} (h : t.Shape ⟨id, cs⟩) (hf : floor ≤ id.index) {d : Nat}
      (hd : t.Depth id d) {c : Rose NodeId} (hc : c ∈ cs) : floor ≤ c.label.index ∧ t.Depth c.label (d + 1) := by
    have link := hl.child hf (h.child_mem hc)
    exact ⟨link.1, .under link.2 hd⟩
  refine h.rose_eq_of_enough (fun depth r =>
    floor ≤ r.label.index ∧ ∃ d, t.Depth r.label d ∧ t.size ≤ d + depth + 1) ?_ ?_ ⟨hf, d, hd, hs⟩
  · rintro ⟨id, cs⟩ h ⟨hf, d, hd, hs⟩
    refine List.eq_nil_iff_forall_not_mem.2 fun c hc => ?_
    have := (child h hf hd hc).2.lt_size
    omega
  · rintro depth ⟨id, cs⟩ h ⟨hf, d, hd, hs⟩ c hc
    exact ⟨(child h hf hd hc).1, d + 1, (child h hf hd hc).2, by omega⟩

/-- A whole subtree reads off as its shape does. -/
theorem Site.rose_eq {p : NodeId} {before after : List NodeId} {rs : List (Rose NodeId)}
    (h : t.Site floor p before rs after) {r : Rose NodeId} (hr : r ∈ rs) :
    t.rose t.size r.label = r.map t.node := by
  obtain ⟨d, hd⟩ := h.depth
  have link := h.parent?_label hr
  exact (h.shapes r hr).rose_eq h.linked (.under link.2 hd) link.1 (by omega)

/-! ## Growing further -/

/-- Changes of what is new are growth. -/
theorem Grown.of_rewrites (h : Grown t t') {inside : List NodeId} {p : NodeId}
    (hr : Rewrites t.size inside p t' t'') (hp : t.size ≤ p.index)
    (hi : ∀ x ∈ inside, t.size ≤ x.index) : Grown t t'' where
  size_le := h.size_le.trans hr.size_le
  slot_eq := by
    intro x hx
    rw [hr.slot_eq (Nat.lt_of_lt_of_le hx h.size_le), h.slot_eq hx]
    · rintro rfl
      omega
    · intro hm
      have := hi x hm
      omega
  linked := hr.linked
  rooted := hr.rooted h.rooted

/-- Letting the children of a new node go is growth. -/
theorem Grown.setChildren_nil (h : Grown t t') {id : NodeId} (hid : t.size ≤ id.index) :
    Grown t (t'.setChildren id []) where
  size_le := h.size_le.trans (Nat.le_of_eq (size_setChildren_nil t' id).symm)
  slot_eq := by
    intro x hx
    rw [slot_setChildren_nil_of_ne, h.slot_eq hx]
    · rintro rfl
      omega
    · -- the children of a new node are new
      intro hm
      have := (h.linked.child hid hm).1
      omega
  linked := h.linked.setChildren_nil hid
  rooted := h.rooted.setChildren_nil h.linked id

/-- A new node is growth. -/
theorem grown_create (t : Tree) (n : Node) : Grown t (t.create n).2 where
  size_le := by simp
  slot_eq := by
    intro x hx
    rw [slot_create, if_neg (by omega)]
  linked := (linkedFrom_size t).create n
  rooted := by
    intro x hf hlt
    refine ⟨0, .top hlt ?_⟩
    rw [parent?_create, parent?_eq, slot_of_size_le t x hf]

/-- A place is not touched by growth. -/
theorem Site.of_grown {p : NodeId} {before after : List NodeId} {rs : List (Rose NodeId)}
    (h : t.Site floor p before rs after) (g : Grown t t') : t'.Site floor p before rs after where
  linked := g.linkedFrom h.linked (h.floor_le.trans (Nat.le_of_lt h.lt_size))
  floor_le := h.floor_le
  depth := by
    obtain ⟨d, hd⟩ := h.depth
    exact ⟨d, g.depth hd⟩
  children := by
    rw [g.children_eq h.lt_size]
    exact h.children
  shapes := by
    intro r hr
    refine (h.shapes r hr).congr fun x hx => g.children_eq ?_
    exact h.index_lt (List.mem_flatMap.2 ⟨r, hr, hx⟩)

/-! ## Joining the children of a node -/

/-- A node without a parent has become a child between others. -/
structure Joins (floor : Nat) (t : Tree) (p c : NodeId) (pre post : List NodeId) (t' : Tree) : Prop where
  parent?_eq : ∀ x, t'.parent? x = if x = c then some p else t.parent? x
  children_eq : ∀ x, t'.children x = if x = p then pre ++ c :: post else t.children x
  node_eq : ∀ x, t'.node x = t.node x
  size_eq : t'.size = t.size
  linked : t'.LinkedFrom floor

/-- A node joins at the end. -/
theorem joins_attach (h : t.LinkedFrom floor) {p c : NodeId} (hp : p.index < t.size)
    (hc : c.index < t.size) (hfp : floor ≤ p.index) (hfc : floor ≤ c.index)
    (alone : t.parent? c = none) : Joins floor t p c (t.children p) [] (t.attach p c) where
  parent?_eq x := parent?_attach t p x hc
  children_eq x := children_attach t c x hp
  node_eq := node_attach t p c
  size_eq := size_attach t p c
  linked := h.attach hp hc hfp hfc alone

/-- Detaching a node without a parent changes nothing. -/
theorem detach_of_alone {c : NodeId} (alone : t.parent? c = none) : t.detach c = t := by
  unfold detach
  rw [alone]

/-- A node joins behind another child. -/
theorem joins_insertAfter (h : t.LinkedFrom floor) {p anchor c : NodeId} {pre post : List NodeId}
    (hp : p.index < t.size) (hc : c.index < t.size) (hfp : floor ≤ p.index) (hfc : floor ≤ c.index)
    (alone : t.parent? c = none) (hch : t.children p = pre ++ anchor :: post) :
    Joins floor t p c (pre ++ [anchor]) post (t.insertAfter p anchor c) where
  parent?_eq x := parent?_insertAfter t p anchor x hc
  children_eq x := by
    have notIn : anchor ∉ pre := h.not_mem_of_children hfp hch
    rw [children_insertAfter t anchor c x hp, detach_of_alone alone, hch, placeAfter_append notIn]
    simp
  node_eq := node_insertAfter t p anchor c
  size_eq := size_insertAfter t p anchor c
  linked := h.insertAfter anchor hp hc hfp hfc

namespace Joins

variable {p c : NodeId} {pre post before after : List NodeId} {rs us : List (Rose NodeId)}
  {s : Rose NodeId}

/-- A joined node concerns its own slot and that of its parent. -/
theorem slot_eq (h : Joins floor t p c pre post t') {x : NodeId} (hp : x ≠ p) (hc : x ≠ c) :
    t'.slot x = t.slot x := by
  apply slot_ext (h.node_eq x)
  · rw [h.parent?_eq, if_neg hc]
  · rw [h.children_eq, if_neg hp]

/-- Joining the children of a node changes nothing but those and what joins. -/
theorem rewrites (h : Joins floor t p s.label pre post t') (hl : t.LinkedFrom floor)
    (hs : p ∉ s.labels) (hd : ∃ d, t'.Depth p d) : Rewrites floor s.labels p t t' where
  size_le := Nat.le_of_eq h.size_eq.symm
  slot_eq _ hp hi := h.slot_eq hp fun e => hi (e ▸ s.label_mem_labels)
  node_eq := h.node_eq p
  parent?_eq := by
    rw [h.parent?_eq, if_neg]
    exact fun e => hs (e ▸ s.label_mem_labels)
  linked := h.linked
  rooted hr := by
    refine hr.of_joined hl h.size_eq hd fun x => ?_
    rw [h.parent?_eq]
    split
    · exact .inl rfl
    · exact .inr rfl

/-- A shape that joins a place between its parts. -/
theorem site (h : Joins floor t p s.label (before ++ rs.map Rose.label) (us.map Rose.label ++ after) t')
    (hsite : t.Site floor p before (rs ++ us) after) (hs : t.Shape s) (hp : p ∉ s.labels) :
    t'.Site floor p before (rs ++ s :: us) after where
  linked := h.linked
  floor_le := hsite.floor_le
  depth := by
    obtain ⟨d, hd⟩ := hsite.depth
    refine ⟨d, hd.of_outside hsite.linked hsite.floor_le (Nat.le_of_eq h.size_eq.symm)
      (· ∈ s.labels) (fun x hx c hc => hs.mem_of_child hx hc) hp fun x _ _ hx => ?_⟩
    rw [h.parent?_eq, if_neg]
    exact fun e => hx (e ▸ s.label_mem_labels)
  children := by
    rw [h.children_eq, if_pos rfl]
    simp
  shapes := by
    have kept {r : Rose NodeId} (hr : t.Shape r) (hn : p ∉ r.labels) : t'.Shape r := by
      refine hr.congr fun x hx => ?_
      rw [h.children_eq, if_neg]
      exact fun e => hn (e ▸ hx)
    intro r hr
    rw [List.perm_middle.mem_iff, List.mem_cons] at hr
    rcases hr with rfl | hr
    · exact kept hs hp
    · refine kept (hsite.shapes r hr) fun hm => hsite.parent_not_mem ?_
      exact List.mem_flatMap.2 ⟨r, hr, hm⟩

end Joins

/-! ## New nodes -/

/-- The nodes that are created while the number of nodes grows, in this order. -/
def newIds (start stop : Nat) : List NodeId := (List.range' start (stop - start)).map NodeId.mk

/-- The new nodes are those with numbers from the start up to the stop. -/
theorem mem_newIds {start stop : Nat} {x : NodeId} :
    x ∈ newIds start stop ↔ start ≤ x.index ∧ x.index < stop := by
  rw [newIds, List.mem_map]
  constructor
  · rintro ⟨i, hi, rfl⟩
    have := List.mem_range'_1.1 hi
    exact ⟨this.1, show i < stop by omega⟩
  · rintro ⟨hstart, hstop⟩
    exact ⟨x.index, List.mem_range'_1.2 ⟨hstart, by omega⟩, rfl⟩

/-- Where nothing has been created, there are no new nodes. -/
@[simp] theorem newIds_self (start : Nat) : newIds start start = [] := by simp [newIds]

/-- The first of the new nodes has the number that the growth starts from. -/
theorem newIds_cons {start stop : Nat} (h : start < stop) :
    newIds start stop = ⟨start⟩ :: newIds (start + 1) stop := by
  rw [newIds, newIds, show stop - start = (stop - (start + 1)) + 1 by omega, List.range'_succ, List.map_cons]

/-- Growth may pause. -/
theorem newIds_append {start mid stop : Nat} (h : start ≤ mid) (h' : mid ≤ stop) :
    newIds start mid ++ newIds mid stop = newIds start stop := by
  have ends : mid = start + (mid - start) := by omega
  rw [newIds, newIds, newIds, ← List.map_append, ← show (mid - start) + (stop - mid) = stop - start by omega,
    ← List.range'_append_1, ← ends]

/-! ## Copies that stand alone -/

/-- The tree has grown by a copy of a tree that stands alone. -/
structure Planted (t : Tree) (r : Rose Node) (made : NodeId) (t' : Tree) : Prop where
  grown : Grown t t'
  alone : t'.parent? made = none
  lt_size : made.index < t'.size
  shape : ∃ s : Rose NodeId, s.label = made ∧ t'.Shape s ∧ s.map t'.node = r ∧
    s.labels = newIds t.size t'.size

/-- The nodes of a copy are new. -/
theorem Planted.exists_fresh {r : Rose Node} {made : NodeId} (h : Planted t r made t') :
    ∃ s : Rose NodeId, s.label = made ∧ t'.Shape s ∧ s.map t'.node = r ∧
      ∀ x ∈ s.labels, t.size ≤ x.index := by
  obtain ⟨s, top, shape, nodes, labels⟩ := h.shape
  exact ⟨s, top, shape, nodes, fun x hx => (mem_newIds.1 (labels ▸ hx)).1⟩

/-- What stands under a copy is a place. -/
theorem Planted.site {r : Rose Node} {made : NodeId} (h : Planted t r made t') :
    ∃ ms, t'.Site t.size made [] ms [] ∧ t.size ≤ made.index ∧
      (∀ x ∈ ms.flatMap Rose.labels, t.size ≤ x.index) ∧
      t'.node made = r.label ∧ ms.map (Rose.map t'.node) = r.children := by
  obtain ⟨⟨_, ms⟩, rfl, hshape, rfl, hfresh⟩ := h.exists_fresh
  refine ⟨ms, ⟨h.grown.linked, hfresh _ (by simp), ⟨0, .top h.lt_size h.alone⟩, ?_, ?_⟩,
    hfresh _ (by simp), ?_, by simp, by simp⟩
  · simpa using hshape.children
  · exact fun _ hr => hshape.of_mem hr
  · intro x hx
    refine hfresh x ?_
    rw [Rose.labels_mk]
    exact List.mem_cons_of_mem _ hx

/-- Trees have been planted under a new node. -/
structure PlantedUnder (floor : Nat) (t : Tree) (p : NodeId) (shapes : List (Rose NodeId))
    (rs : List (Rose Node)) (t' : Tree) : Prop where
  rewrites : Rewrites floor [] p t t'
  site : t'.Site floor p [] shapes []
  nodes : shapes.map (Rose.map t'.node) = rs
  labels : shapes.flatMap Rose.labels = newIds t.size t'.size

/-- One more tree is planted. -/
theorem PlantedUnder.step {t₀ : Tree} {p made : NodeId} {shapes : List (Rose NodeId)}
    {done : List (Rose Node)} {r : Rose Node} (h : PlantedUnder floor t₀ p shapes done t)
    (hf : floor ≤ t₀.size) (planted : Planted t r made t') :
    ∃ shapes', PlantedUnder floor t₀ p shapes' (done ++ [r]) (t'.attach p made) := by
  obtain ⟨s, rfl, hshape, rfl, hlabels⟩ := planted.shape
  have hfresh (x : NodeId) (hx : x ∈ s.labels) : t.size ≤ x.index := (mem_newIds.1 (hlabels ▸ hx)).1
  have hsite := h.site.of_grown planted.grown
  have hp : p ∉ s.labels := fun hm => by
    have := hfresh p hm
    have := h.site.lt_size
    omega
  have old : floor ≤ t.size := hf.trans h.rewrites.size_le
  have joins := joins_attach hsite.linked hsite.lt_size planted.lt_size hsite.floor_le
    (old.trans (hfresh _ s.label_mem_labels)) planted.alone
  have hc : t'.children p = shapes.map Rose.label := by simpa using hsite.children
  have whole : t'.Site floor p [] (shapes ++ []) [] := by simpa using hsite
  have last : Joins floor t' p s.label ([] ++ shapes.map Rose.label) (List.map Rose.label [] ++ [])
      (t'.attach p s.label) := hc ▸ joins
  have hsite' : (t'.attach p s.label).Site floor p [] (shapes ++ [s]) [] := last.site whole hshape hp
  refine ⟨shapes ++ [s], ?_, hsite', ?_, ?_⟩
  · -- the new tree is neither inside nor old, so it adds nothing to what is rewritten
    have grown := Rewrites.of_grown planted.grown h.site.linked h.site.lt_size h.site.floor_le []
    have joined := joins.rewrites hsite.linked hp hsite'.depth
    exact h.rewrites.trans (grown.trans joined fun x hx => .inr (hfresh x hx)) (by simp)
  · rw [List.map_append, ← h.nodes, List.map_singleton]
    congr 1
    · -- the trees that were planted before keep their nodes
      refine List.map_congr_left fun r hr => Rose.map_congr fun x hx => ?_
      rw [joins.node_eq, planted.grown.node_eq]
      exact h.site.index_lt (List.mem_flatMap.2 ⟨r, hr, hx⟩)
    · rw [List.cons.injEq]
      exact ⟨Rose.map_congr fun x _ => joins.node_eq x, rfl⟩
  · rw [List.flatMap_append, List.flatMap_singleton, h.labels, hlabels, joins.size_eq]
    exact newIds_append h.rewrites.size_le planted.grown.size_le

/-- Trees that are planted one after the other stand under the node. -/
theorem PlantedUnder.plantUnder {t₀ : Tree} {p : NodeId} {todo : List (Rose Node)}
    (ih : ∀ r ∈ todo, ∀ t, Planted t r (plant r t).1 (plant r t).2) :
    ∀ {t : Tree} {shapes : List (Rose NodeId)} {done : List (Rose Node)},
      PlantedUnder floor t₀ p shapes done t → floor ≤ t₀.size →
        ∃ shapes', PlantedUnder floor t₀ p shapes' (done ++ todo) (plantUnder p todo t) := by
  induction todo with
  | nil =>
    intro t shapes done h _
    rw [Tree.plantUnder, List.append_nil]
    exact ⟨shapes, h⟩
  | cons r todo ihr =>
    intro t shapes done h hf
    obtain ⟨shapes', h'⟩ := h.step hf (ih r (by simp) t)
    rw [Tree.plantUnder, ← List.singleton_append, ← List.append_assoc]
    exact ihr (fun r hr => ih r (by simp [hr])) h' hf

/-- What is planted has the shape of what was planted. -/
theorem plant_planted (r : Rose Node) (t : Tree) : Planted t r (plant r t).1 (plant r t).2 := by
  induction r generalizing t with
  | mk n rs ih =>
    have grown := grown_create t n
    have made : (t.create n).1.index = t.size := rfl
    have alone : (t.create n).2.parent? (t.create n).1 = none := by
      rw [parent?_eq, slot_create_self]
    have lt : (t.create n).1.index < (t.create n).2.size := by simp [made]
    have start : PlantedUnder t.size (t.create n).2 (t.create n).1 [] [] (t.create n).2 :=
      ⟨.refl grown.linked _ _, ⟨grown.linked, Nat.le_refl _, ⟨0, .top lt alone⟩, by
        rw [children_eq, slot_create_self]
        rfl, by simp⟩, rfl, by simp⟩
    -- the trees right under the top are planted one after the other under the new node
    obtain ⟨shapes, h⟩ := start.plantUnder ih grown.size_le
    rw [plant]
    constructor
    case grown => exact grown.of_rewrites h.rewrites (Nat.le_refl _) (by simp)
    case alone =>
      rw [h.rewrites.parent?_eq]
      exact alone
    case lt_size => exact h.site.lt_size
    case shape =>
      refine ⟨⟨_, shapes⟩, rfl, ?_, ?_, ?_⟩
      · exact .mk _ shapes (by simpa using h.site.children) h.site.shapes
      · rw [Rose.map_mk, h.rewrites.node_eq, node_eq, slot_create_self, h.nodes]
        rfl
      · have first : t.size < (plantUnder (t.create n).1 rs (t.create n).2).size :=
          Nat.lt_of_lt_of_le lt h.rewrites.size_le
        rw [Rose.labels_mk, h.labels, size_create, newIds_cons first]
        rfl

/-- A graft is a copy that stands alone. -/
theorem graft_planted (t source : Tree) (id : NodeId) :
    Planted t (source.rose source.size id) (t.graft source id).1 (t.graft source id).2 := by
  rw [graft_eq_plant]
  exact plant_planted _ t

end

end Tree

end Stylesheet
