import Stylesheet.Proofs.Derivation.Matching

/-! # Trees that show derivations

What has been made in a tree **shows** what was derived when its shapes carry the derived nodes, each
marked block standing where the register says (**`Tree.Shows`**). A step in a place that has **ended**
leaves such shapes between the children before and after, in a world that mirrors that of the derivation;
if it failed or returned a value, the place is at least **kept** (**`Kept`**, **`Made`**, **`Ended`**).
Both hold of a place as soon as they hold of a part of it (`Kept.middle`, `Made.middle`) or under its only
node (`Kept.under`, `Made.under`). -/

namespace Stylesheet

namespace Tree

section

variable {floor : Nat} {t t' : Tree} {p : NodeId} {ids ids' before inside after : List NodeId}
  {rs ss us : List (Rose NodeId)} {made made' : List (Rose Stem)} {block : Option NodeId}

/-! ## Blocks around a place -/

/-- The innermost block that the children of a node stand in, if there is one, has this number in the
register. -/
inductive Around (ids : List NodeId) (t : Tree) : NodeId → Option NodeId → Prop
  | here {p k : NodeId} : (t.node p).isBlock = true → ids[k.index]? = some p → Around ids t p (some k)
  | top {p : NodeId} : (t.node p).isBlock = false → t.parent? p = none → Around ids t p none
  | above {p q : NodeId} {block : Option NodeId} : (t.node p).isBlock = false → t.parent? p = some q →
    Around ids t q block → Around ids t p block

/-- What is entered in the register stays there. -/
theorem getElem?_mono (h : ids <+: ids') {i : Nat} {x : NodeId} (hx : ids[i]? = some x) :
    ids'[i]? = some x := by
  obtain ⟨more, rfl⟩ := h
  rw [List.getElem?_append_left, hx]
  obtain ⟨hi, -⟩ := List.getElem?_eq_some_iff.1 hx
  exact hi

/-- A block around a place stays so when the register grows. -/
theorem Around.mono (h : t.Around ids p block) (hi : ids <+: ids') : t.Around ids' p block := by
  induction h with
  | here hb hk => exact .here hb (getElem?_mono hi hk)
  | top hb hp => exact .top hb hp
  | above hb hp _ ih => exact .above hb hp ih

/-- The block around a place does not depend on what stands in the place. -/
theorem Around.of_rewrites (h : t.Around ids p block) (hs : t.Site floor p before rs after)
    (hr : Rewrites floor (rs.flatMap Rose.labels) p t t') : t'.Around ids p block := by
  have kept : ∀ q, floor ≤ q.index → q ∉ rs.flatMap Rose.labels → q.index < t.size →
      t'.node q = t.node q ∧ t'.parent? q = t.parent? q := by
    intro q _ hq hlt
    by_cases e : q = p
    · rw [e]
      exact ⟨hr.node_eq, hr.parent?_eq⟩
    · have := hr.slot_eq hlt e hq
      exact ⟨by rw [node_eq, this, ← node_eq], by rw [parent?_eq, this, ← parent?_eq]⟩
  -- the way up from `p` does not come through the place
  have up : ∀ q block, t.Around ids q block → floor ≤ q.index → q ∉ rs.flatMap Rose.labels →
      q.index < t.size → t'.Around ids q block := by
    intro q block h
    induction h with
    | here hb hk =>
      intro hf hq hlt
      exact .here (by rw [(kept _ hf hq hlt).1, hb]) hk
    | top hb hp =>
      intro hf hq hlt
      exact .top (by rw [(kept _ hf hq hlt).1, hb]) (by rw [(kept _ hf hq hlt).2, hp])
    | above hb hp _ ih =>
      intro hf hq hlt
      have link := hs.linked.parent hf hp
      refine .above (by rw [(kept _ hf hq hlt).1, hb]) (by rw [(kept _ hf hq hlt).2, hp])
        (ih link.1 (fun hm => hq (hs.closed _ hm _ link.2)) (lt_size_of_mem_children link.2))
  exact up p block h hs.floor_le hs.parent_not_mem hs.lt_size

/-! ## Shapes with derived nodes -/

/-- A node of the tree carries a derived one. -/
structure Carries (ids : List NodeId) (t : Tree) (y : NodeId × Stem) : Prop where
  node : t.node y.1 = y.2.node
  mark : ∀ k, y.2.mark = some k → ids[k.index]? = some y.1

/-- Shapes of the tree carry derived trees. -/
structure Shows (ids : List NodeId) (t : Tree) (rs : List (Rose NodeId)) (made : List (Rose Stem)) :
    Prop where
  intro ::
  pairs : ∃ zs : List (Rose (NodeId × Stem)), rs = zs.map (Rose.map Prod.fst) ∧
    made = zs.map (Rose.map Prod.snd) ∧ ∀ z ∈ zs, ∀ y ∈ z.labels, Carries ids t y

namespace Shows

/-- Nothing is shown by nothing. -/
theorem nil : Shows ids t [] [] := ⟨[], rfl, rfl, by simp⟩

/-- What is shown by shapes in a row is shown by all of them. -/
theorem append (h : Shows ids t rs made) (h' : Shows ids t ss made') :
    Shows ids t (rs ++ ss) (made ++ made') := by
  obtain ⟨zs, rfl, rfl, hz⟩ := h.pairs
  obtain ⟨zs', rfl, rfl, hz'⟩ := h'.pairs
  refine ⟨zs ++ zs', by simp, by simp, fun z hz'' => ?_⟩
  rcases List.mem_append.1 hz'' with h | h
  · exact hz z h
  · exact hz' z h

/-- Shapes go on to carry what they do as long as their nodes stay. -/
theorem mono (h : Shows ids t rs made) (hi : ids <+: ids')
    (hn : ∀ r ∈ rs, ∀ x ∈ r.labels, t'.node x = t.node x) : Shows ids' t' rs made := by
  obtain ⟨zs, rfl, rfl, hz⟩ := h.pairs
  refine ⟨zs, rfl, rfl, fun z hm y hy => ⟨?_, fun k hk => ?_⟩⟩
  · rw [hn _ (List.mem_map_of_mem hm) _ (Rose.mem_labels_map.2 ⟨y, hy, rfl⟩)]
    exact (hz z hm y hy).node
  · exact getElem?_mono hi ((hz z hm y hy).mark k hk)

/-- Every shape carries the nodes that stand there. -/
theorem still (ids : List NodeId) (t : Tree) (rs : List (Rose NodeId)) :
    Shows ids t rs (rs.map fun r => (r.map t.node).map Stem.still) := by
  refine ⟨rs.map (Rose.map fun x => (x, Stem.still (t.node x))), ?_, ?_, ?_⟩
  · rw [List.map_map, List.map_congr_left (g := id)]
    · simp
    · intro r _
      rw [Function.comp_apply, Rose.map_map]
      exact Rose.map_id r
  · rw [List.map_map]
    refine List.map_congr_left fun r _ => ?_
    rw [Function.comp_apply, Rose.map_map, Rose.map_map]
    rfl
  · intro z hz y hy
    obtain ⟨r, -, rfl⟩ := List.mem_map.1 hz
    obtain ⟨x, -, rfl⟩ := Rose.mem_labels_map.1 hy
    exact ⟨rfl, by simp [Stem.still]⟩

/-- A node over shapes that carry derived trees. -/
theorem wrap (h : Shows ids t rs made) {id : NodeId} {s : Stem} (hn : t.node id = s.node)
    (hm : ∀ k, s.mark = some k → ids[k.index]? = some id) : Shows ids t [⟨id, rs⟩] [⟨s, made⟩] := by
  obtain ⟨zs, rfl, rfl, hz⟩ := h.pairs
  refine ⟨[⟨(id, s), zs⟩], by simp, by simp, fun z hz' y hy => ?_⟩
  rw [List.mem_singleton.1 hz', Rose.labels_mk, List.mem_cons] at hy
  rcases hy with rfl | hy
  · exact ⟨hn, hm⟩
  · obtain ⟨z, hz', hy⟩ := List.mem_flatMap.1 hy
    exact hz z hz' y hy

/-- Some of the shapes carry the derived trees with such nodes at the top. -/
theorem filter (h : Shows ids t rs made) (b : Node → Bool) :
    Shows ids t (rs.filter fun r => b (t.node r.label)) (made.filter fun o => b o.label.node) := by
  obtain ⟨zs, rfl, rfl, hz⟩ := h.pairs
  -- a shape and what it carries have the same node at the top, so the same ones are taken
  refine ⟨zs.filter fun z => b z.label.2.node, ?_, ?_, fun z hm => hz z (List.mem_filter.1 hm).1⟩
  · rw [List.filter_map]
    congr 1
    refine List.filter_congr fun z hm => ?_
    rw [Function.comp_apply, Rose.label_map, (hz z hm _ z.label_mem_labels).node]
  · rw [List.filter_map]
    congr 1
    exact List.filter_congr fun z _ => by rw [Function.comp_apply, Rose.label_map]

/-- Other nodes at the top. -/
theorem retop (h : Shows ids t rs made) {f : Node → Node}
    (ht : ∀ r ∈ rs, t'.node r.label = f (t.node r.label))
    (hb : ∀ r ∈ rs, ∀ c ∈ r.children, ∀ x ∈ c.labels, t'.node x = t.node x) :
    Shows ids t' rs (made.map fun o => ⟨⟨f o.label.node, o.label.mark⟩, o.children⟩) := by
  obtain ⟨zs, rfl, rfl, hz⟩ := h.pairs
  -- the pairs at the top are given other nodes, and the numbers and marks in them stay
  refine ⟨zs.map fun z => ⟨(z.label.1, ⟨f z.label.2.node, z.label.2.mark⟩), z.children⟩, ?_, ?_, ?_⟩
  · rw [List.map_map]
    refine List.map_congr_left fun z _ => ?_
    cases z
    simp
  · rw [List.map_map, List.map_map]
    refine List.map_congr_left fun z _ => ?_
    cases z
    simp
  · intro z' hm y hy
    obtain ⟨z, hzs, rfl⟩ := List.mem_map.1 hm
    have top := hz z hzs _ z.label_mem_labels
    have hr : z.map Prod.fst ∈ zs.map (Rose.map Prod.fst) := List.mem_map_of_mem hzs
    rcases Rose.mem_labels.1 hy with rfl | ⟨c, hc, hy⟩
    · refine ⟨?_, top.mark⟩
      have := ht _ hr
      rw [Rose.label_map] at this
      rw [Rose.label_mk, this, top.node]
    · rw [Rose.children_mk] at hc
      have old := hz z hzs y (Rose.mem_labels_of_mem_children hc hy)
      refine ⟨?_, old.mark⟩
      rw [← old.node]
      refine hb _ hr (c.map Prod.fst) ?_ _ (Rose.mem_labels_map.2 ⟨y, hy, rfl⟩)
      rw [Rose.children_map]
      exact List.mem_map_of_mem hc

end Shows

end

end Tree

/-! ## Worlds that mirror each other -/

/-- An extension by a block, and one by the number of a block in the register. -/
structure Notes (ids : List NodeId) (a b : NodeId × List String) : Prop where
  block : ids[b.1.index]? = some a.1
  targets : a.2 = b.2

/-- The world of a derivation mirrors that of an expansion: they are alike, and the extensions noted
since the start are the same when `ids` are the blocks in the register. -/
structure Mirrors {σ τ : Type} (L : σ → τ → Prop) (old : List (NodeId × List String))
    (ids : List NodeId) (w : World σ) (v : World τ) : Prop extends Alike L w v where
  extensions : ∃ noted, w.context.extensions = old ++ noted ∧
    List.Forall₂ (Notes ids) noted v.context.extensions
  size : v.tree.size = ids.length

section

variable {σ τ : Type} {L : σ → τ → Prop} {old : List (NodeId × List String)} {ids ids' : List NodeId}
  {w w' : World σ} {v v' : World τ}

/-- What is unmoved mirrors the same world. -/
theorem Mirrors.of_unmoved (h : Mirrors L old ids w v) (hm : Unmoved w w') : Mirrors L old ids w' v where
  toAlike := h.toAlike.of_unmoved hm
  extensions := by
    rw [hm.context]
    exact h.extensions
  size := h.size

/-- Worlds that mirror each other do so with their scopes changed alike. -/
theorem Mirrors.mapScope (h : Mirrors L old ids w v) (f : Scope → Scope) :
    Mirrors L old ids (w.mapScope f) (v.mapScope f) where
  bare := by
    rw [World.context_mapScope, World.context_mapScope, Context.bare_withScope, Context.bare_withScope,
      h.bare, Context.scope_eq_of_bare h.bare]
  loader := h.loader
  extensions := h.extensions
  size := h.size

/-! ## Steps that have ended -/

/-- A place in a tree: a parent, the numbers of what stands inside, and the children before and after. -/
structure Spot where
  floor : Nat
  tree : Tree
  parent : NodeId
  before : List NodeId
  inside : List NodeId
  after : List NodeId

/-- Nothing but what stands in the place has changed, and the worlds mirror each other. -/
structure Kept (L : σ → τ → Prop) (old : List (NodeId × List String)) (ids : List NodeId) (s : Spot)
    (w : World σ) (v : World τ) : Prop where
  contained : Tree.Contained s.floor s.tree s.parent s.before s.inside s.after w.tree
  mirrors : ∃ ids', ids <+: ids' ∧ Mirrors L old ids' w v

/-- In the place there are shapes now, and they carry what was derived. -/
structure Made (L : σ → τ → Prop) (old : List (NodeId × List String)) (ids : List NodeId) (s : Spot)
    (made : List (Rose Stem)) (w : World σ) (v : World τ) : Prop where
  intro ::
  shapes : ∃ ids' rs, ids <+: ids' ∧ Mirrors L old ids' w v ∧
    Tree.Reworked s.floor s.tree s.parent s.before s.inside s.after rs w.tree ∧
    Tree.Shows ids' w.tree rs made

/-- A step in the place and a derivation have ended alike. -/
def Ended (L : σ → τ → Prop) (old : List (NodeId × List String)) (ids : List NodeId) (s : Spot) :
    Flow → World σ → Yield → World τ → Prop
  | .finished, w, .finished made, v => Made L old ids s made w v
  | .returned a, w, .returned b, v => a = b ∧ Kept L old ids s w v
  | _, _, _, _ => False

/-- A place in which something has been made has been kept. -/
theorem Made.kept {s : Spot} {made : List (Rose Stem)} (h : Made L old ids s made w v) :
    Kept L old ids s w v := by
  obtain ⟨ids', rs, hi, hm, hr, -⟩ := h.shapes
  exact ⟨hr.contained, ids', hi, hm⟩

variable {floor : Nat} {t : Tree} {p id : NodeId} {before inside after : List NodeId}
  {rs ss us cs : List (Rose NodeId)} {made : List (Rose Stem)}

/-- A place where nothing has been done yet has been kept. -/
theorem Kept.still (hs : w.tree.Site floor p before rs after) (hw : Mirrors L old ids w v) :
    Kept L old ids ⟨floor, w.tree, p, before, rs.flatMap Rose.labels, after⟩ w v :=
  ⟨hs.reworked.contained, ids, List.prefix_refl ids, hw⟩

/-- A part of a place has been kept. -/
theorem Kept.middle (h : Tree.Reworked floor t p before inside after (rs ++ ss ++ us) w.tree)
    (hi : ids <+: ids')
    (h' : Kept L old ids' ⟨floor, w.tree, p, before ++ rs.map Rose.label, ss.flatMap Rose.labels,
      us.map Rose.label ++ after⟩ w' v') :
    Kept L old ids ⟨floor, t, p, before, inside, after⟩ w' v' where
  contained := Tree.Contained.middle h h'.contained
  mirrors := by
    obtain ⟨ids'', hi', hm⟩ := h'.mirrors
    exact ⟨ids'', hi.trans hi', hm⟩

/-- What has been made in a part of a place stands between what has been made before and what is still
to be done. -/
theorem Made.middle (h : Tree.Reworked floor t p before inside after (rs ++ ss ++ us) w.tree)
    (h' : Made L old ids' ⟨floor, w.tree, p, before ++ rs.map Rose.label, ss.flatMap Rose.labels,
      us.map Rose.label ++ after⟩ made w' v') :
    ∃ ids'' new, ids' <+: ids'' ∧ Mirrors L old ids'' w' v' ∧
      Tree.Reworked floor t p before inside after (rs ++ new ++ us) w'.tree ∧
      Tree.Shows ids'' w'.tree new made ∧ ∀ r ∈ rs ++ us, r.map w'.tree.node = r.map w.tree.node := by
  obtain ⟨ids'', new, hi', hm, hr, hs⟩ := h'.shapes
  exact ⟨ids'', new, hi', hm, h.middle hr, hs, h.site.map_node_around hr.rewrites⟩

/-- What holds of a place after a change inside of it holds of the place as it was before. -/
theorem Kept.rebase (h : Tree.Reworked floor t p before inside after ss w.tree) (hi : ids <+: ids')
    (h' : Kept L old ids' ⟨floor, w.tree, p, before, ss.flatMap Rose.labels, after⟩ w' v') :
    Kept L old ids ⟨floor, t, p, before, inside, after⟩ w' v' :=
  have whole : Tree.Reworked floor t p before inside after ([] ++ ss ++ []) w.tree := by simpa using h
  Kept.middle whole hi (by simpa using h')

/-- What is made in a place that has been reworked is made in the place as it was. -/
theorem Made.rebase (h : Tree.Reworked floor t p before inside after ss w.tree) (hi : ids <+: ids')
    (h' : Made L old ids' ⟨floor, w.tree, p, before, ss.flatMap Rose.labels, after⟩ made w' v') :
    Made L old ids ⟨floor, t, p, before, inside, after⟩ made w' v' := by
  have whole : Tree.Reworked floor t p before inside after ([] ++ ss ++ []) w.tree := by simpa using h
  obtain ⟨ids'', new, hi', hm, hr, hs, -⟩ := Made.middle whole (by simpa using h')
  exact ⟨ids'', new, hi.trans hi', hm, by simpa using hr, hs⟩

/-- What has ended in a place that has been reworked has ended in the place as it was. -/
theorem Ended.rebase (h : Tree.Reworked floor t p before inside after ss w.tree) (hi : ids <+: ids')
    {flow : Flow} {yield : Yield}
    (h' : Ended L old ids' ⟨floor, w.tree, p, before, ss.flatMap Rose.labels, after⟩ flow w' yield v') :
    Ended L old ids ⟨floor, t, p, before, inside, after⟩ flow w' yield v' := by
  match flow, yield, h' with
  | .finished, .finished _, h' => exact Made.rebase h hi h'
  | .returned _, .returned _, ⟨rfl, h'⟩ => exact ⟨rfl, h'.rebase h hi⟩

/-- What stands under the only node of a place has been kept. -/
theorem Kept.under (h : w.tree.Site floor p before [⟨id, cs⟩] after)
    (h' : Kept L old ids ⟨floor, w.tree, id, [], cs.flatMap Rose.labels, []⟩ w' v') :
    Kept L old ids ⟨floor, w.tree, p, before, [Rose.mk id cs].flatMap Rose.labels, after⟩ w' v' :=
  ⟨.under h h'.contained, h'.mirrors⟩

/-- What has been made under the only node of a place stands under it. -/
theorem Made.under (h : w.tree.Site floor p before [⟨id, cs⟩] after)
    (h' : Made L old ids ⟨floor, w.tree, id, [], cs.flatMap Rose.labels, []⟩ made w' v') :
    ∃ ids' new, ids <+: ids' ∧ Mirrors L old ids' w' v' ∧
      Tree.Reworked floor w.tree p before ([Rose.mk id cs].flatMap Rose.labels) after [⟨id, new⟩]
        w'.tree ∧
      Tree.Shows ids' w'.tree new made ∧ w'.tree.node id = w.tree.node id := by
  obtain ⟨ids', new, hi, hm, hr, hs⟩ := h'.shapes
  exact ⟨ids', new, hi, hm, .under h hr, hs, hr.rewrites.node_eq⟩

end

end Stylesheet
