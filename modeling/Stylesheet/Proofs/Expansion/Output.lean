import Stylesheet.Proofs.Derivation.Plain

/-! # What a compilation leaves

When a stylesheet has been compiled, no directives can be reached from its root any more and blocks are
not nested (`compile_plain`): the trees under the root show what was derived, which is plain
(`Tree.Shows.plain`), and extensions give other selectors to blocks only (**`Tree.Restyled`**). -/

namespace Stylesheet

open Expansion

namespace Tree

variable {t t' t'' : Tree} {ids : List NodeId} {rs : List (Rose NodeId)} {made : List (Rose Stem)}
  {x y : NodeId}

/-- A node is no directive, and if it is a block, no block is right under it. -/
structure PlainAt (t : Tree) (x : NodeId) : Prop where
  directive : (t.node x).isDirective = false
  block : (t.node x).isBlock = true → ∀ c ∈ t.children x, (t.node c).isBlock = false

/-- Shapes that carry plain trees are plain at every node. -/
theorem Shows.plain (h : t.Shows ids rs made) (hs : ∀ r ∈ rs, t.Shape r) (hp : ∀ o ∈ made, o.Plain) :
    ∀ x ∈ rs.flatMap Rose.labels, t.PlainAt x := by
  -- by induction on a shape and the tree it carries at once, as a tree of pairs
  have single (z : Rose (NodeId × Stem)) (hs : t.Shape (z.map Prod.fst))
      (hc : ∀ y ∈ z.labels, t.Carries ids y) (hp : Rose.Plain (z.map Prod.snd)) :
      ∀ x ∈ (z.map Prod.fst).labels, t.PlainAt x := by
    induction z with
    | mk y zs ih =>
      have below {z : Rose (NodeId × Stem)} (hz : z ∈ zs) {w : NodeId × Stem} (hw : w ∈ z.labels) :
          w ∈ (Rose.mk y zs).labels := Rose.mem_labels_of_mem_children (r := ⟨y, zs⟩) hz hw
      rw [Rose.map_mk] at hs hp
      intro x hx
      rw [Rose.map_mk] at hx
      rcases Rose.mem_labels.1 hx with rfl | ⟨c, hc', hx⟩
      · -- the top, and what is right under it
        have node : t.node y.1 = y.2.node := (hc y (by simp)).node
        refine ⟨by rw [Rose.label_mk, node]; exact hp.top.1, fun hb c hm => ?_⟩
        rw [Rose.label_mk, node] at hb
        rw [hs.children, Rose.children_mk, List.map_map] at hm
        obtain ⟨z, hz, rfl⟩ := List.mem_map.1 hm
        have plain := hp.top.2 hb _ (List.mem_map_of_mem hz)
        rw [Rose.label_map] at plain
        rw [Function.comp_apply, Rose.label_map, (hc _ (below hz z.label_mem_labels)).node]
        exact plain
      · obtain ⟨z, hz, rfl⟩ := List.mem_map.1 hc'
        exact ih z hz (hs.of_mem (List.mem_map_of_mem hz)) (fun w hw => hc w (below hz hw))
          (hp.of_mem (List.mem_map_of_mem hz)) x hx
  obtain ⟨zs, rfl, rfl, hz⟩ := h.pairs
  intro x hx
  obtain ⟨r, hr, hx⟩ := List.mem_flatMap.1 hx
  obtain ⟨z, hzs, rfl⟩ := List.mem_map.1 hr
  exact single z (hs _ hr) (hz z hzs) (hp _ (List.mem_map_of_mem hzs)) x hx

/-! ## Extensions -/

/-- Nothing but the selectors of blocks has changed. -/
structure Restyled (t t' : Tree) : Prop where
  children_eq : ∀ x, t'.children x = t.children x
  node_eq : ∀ x, t'.node x = t.node x ∨
    ((t.node x).isBlock = true ∧ ∃ selectors, t'.node x = .block selectors)

namespace Restyled

/-- A tree is restyled where nothing changes. -/
theorem refl (t : Tree) : Restyled t t := ⟨fun _ => rfl, fun _ => .inl rfl⟩

variable (h : Restyled t t')

include h

/-- Restyling turns nothing into a block. -/
theorem isBlock_eq (x : NodeId) : (t'.node x).isBlock = (t.node x).isBlock := by
  rcases h.node_eq x with e | ⟨hb, selectors, e⟩
  · rw [e]
  · rw [e, hb, Node.isBlock_block]

/-- Restyling turns nothing into a directive. -/
theorem isDirective_eq (x : NodeId) : (t'.node x).isDirective = (t.node x).isDirective := by
  rcases h.node_eq x with e | ⟨hb, selectors, e⟩
  · rw [e]
  · rw [e]
    revert hb
    cases t.node x <;> simp [Node.isBlock, Node.isDirective]

/-- What is restyled twice is restyled. -/
theorem trans (h' : Restyled t' t'') : Restyled t t'' where
  children_eq x := (h'.children_eq x).trans (h.children_eq x)
  node_eq x := by
    rcases h'.node_eq x with e | ⟨hb, selectors, e⟩
    · rw [e]
      exact h.node_eq x
    · rw [h.isBlock_eq] at hb
      exact .inr ⟨hb, selectors, e⟩

/-- Restyling leads to no other nodes. -/
theorem reaches (hx : t'.Reaches x y) : t.Reaches x y := by
  induction hx with
  | self => exact .self
  | child _ hc ih =>
    rw [h.children_eq] at hc
    exact .child ih hc

/-- What is plain stays plain when it is restyled. -/
theorem plainAt (hx : t.PlainAt x) : t'.PlainAt x where
  directive := (h.isDirective_eq x).trans hx.directive
  block hb c hc := by
    rw [h.isBlock_eq] at hb ⊢
    rw [h.children_eq] at hc
    exact hx.block hb c hc

end Restyled

/-- Extending a block restyles a tree. -/
theorem restyled_extendBlock (targets extenders : List String) (t : Tree) (id : NodeId) :
    Restyled t (extendBlock targets extenders t id) := by
  unfold extendBlock
  split
  next selectors hn =>
    refine ⟨fun x => children_setNode t id x _, fun x => ?_⟩
    by_cases hx : x = id
    · subst hx
      refine .inr ⟨by rw [hn, Node.isBlock_block], _, node_setNode_self t x _ ?_⟩
      exact lt_size_of_node_ne (by simp [hn])
    · exact .inl (node_setNode_of_ne t _ hx)
  · exact .refl t

/-- Extensions change selectors only. -/
theorem restyled_applyExtensions (t : Tree) (extensions : List (NodeId × List String)) :
    Restyled t (t.applyExtensions extensions) :=
  related_applyExtensions .refl .trans restyled_extendBlock t extensions

end Tree

/-! ## Compilations -/

/-- The world in which the derivation of a stylesheet begins: no block has been entered yet. -/
def World.unentered {σ : Type} (w : World σ) : World σ := ⟨⟨#[]⟩, w.context.bare, w.loader⟩

section

variable {σ : Type}

/-- Expanding the children of the root matches deriving them, with any loader that loads alike. -/
theorem walkChildren_matches_alike {τ : Type} {services : Services σ} {services' : Services τ}
    {L : σ → τ → Prop} (hc : services.conditions = services'.conditions) (hl : services.LoadsAlike services' L)
    (depth : Nat) {w : World σ} {v : World τ} (hw : Mirrors L w.context.extensions [] w v)
    (stylesheet : w.tree.IsStylesheet) :
    ∃ rs, w.tree.Site 0 Tree.root [] rs [] ∧
      w.tree.rose w.tree.size Tree.root = ⟨.root, rs.map (Rose.map w.tree.node)⟩ ∧
      Matches (Ended L w.context.extensions [] ⟨0, w.tree, Tree.root, [], rs.flatMap Rose.labels, []⟩)
        (Kept L w.context.extensions [] ⟨0, w.tree, Tree.root, [], rs.flatMap Rose.labels, []⟩)
        (((walker services depth).walkChildren Tree.root .stylesheet).exec w)
        (((deriver services' depth).deriveChildren none .stylesheet (rs.map (Rose.map w.tree.node))).exec v) := by
  obtain ⟨⟨_, rs⟩, rfl, shape⟩ := stylesheet.linked.exists_shape stylesheet.depth (Nat.zero_le _)
  have hs : w.tree.Site 0 Tree.root [] rs [] :=
    ⟨stylesheet.linked, Nat.zero_le _, ⟨0, stylesheet.depth⟩, by simpa using shape.children,
      fun _ => shape.of_mem⟩
  have top : w.tree.Around [] Tree.root none := .top (by rw [stylesheet.node_root]; rfl) stylesheet.alone
  have outside : Mode.stylesheet ≠ .function → True := fun _ => trivial
  refine ⟨rs, hs, ?_, (walker_realizes hc hl depth).walkChildren outside hs top hw⟩
  have read : w.tree.rose w.tree.size Tree.root = _ :=
    shape.rose_eq stylesheet.linked stylesheet.depth (Nat.zero_le _) (by omega)
  rw [read, Rose.map_mk]
  congr 1
  exact stylesheet.node_root

/-- Expanding the children of the root matches deriving them from the beginning. -/
theorem walkChildren_matches (services : Services σ) (depth : Nat) {w : World σ}
    (stylesheet : w.tree.IsStylesheet) :
    ∃ rs, w.tree.Site 0 Tree.root [] rs [] ∧
      w.tree.rose w.tree.size Tree.root = ⟨.root, rs.map (Rose.map w.tree.node)⟩ ∧
      Matches (Ended (· = ·) w.context.extensions [] ⟨0, w.tree, Tree.root, [], rs.flatMap Rose.labels, []⟩)
        (Kept (· = ·) w.context.extensions [] ⟨0, w.tree, Tree.root, [], rs.flatMap Rose.labels, []⟩)
        (((walker services depth).walkChildren Tree.root .stylesheet).exec w)
        (((deriver services depth).deriveChildren none .stylesheet
          (rs.map (Rose.map w.tree.node))).exec w.unentered) :=
  walkChildren_matches_alike rfl services.loadsAlike_refl depth (mirrors_bare [] w) stylesheet

/-- What a walk through the children of the root leaves shows what was made there, under a contract. -/
theorem walkChildren_shows {K : Contract} (evaluates : K.Evaluates) (services : Services σ)
    (loads : K.Loads services) (depth : Nat) {w : World σ} (stylesheet : w.tree.IsStylesheet)
    (leaves : w.tree.LeavesBare) (expressions : w.tree.Expresses K.expression) (meets : w.context.Meets K)
    {w' : World σ} (run : ((walker services depth).walkChildren Tree.root .stylesheet).exec w =
      (.ok .finished, w')) :
    w'.tree.IsStylesheet ∧ ∃ ids rs made, w'.tree.Site 0 Tree.root [] rs [] ∧
      w'.tree.Shows ids rs made ∧ ∀ o ∈ made, K.made o := by
  obtain ⟨rs, hs, -, matching⟩ := walkChildren_matches services depth stylesheet
  have source : ∀ r ∈ rs.map (Rose.map w.tree.node), K.Source r := by
    intro r hr
    obtain ⟨s, hs', rfl⟩ := List.mem_map.1 hr
    rw [← hs.rose_eq hs']
    exact ⟨expressions.rose _ _, leaves.rose _ _⟩
  -- what is made in the tree matches what is derived
  have derives : Meets K K.Yields ((deriver services depth).deriveChildren none .stylesheet
      (rs.map (Rose.map w.tree.node))) := (deriver_fulfils evaluates services loads depth).deriveChildren source
  have derived := derives w.unentered meets.bare
  rw [run] at matching
  revert matching derived
  generalize ((deriver services depth).deriveChildren none .stylesheet _).exec _ = ran
  intro matching derived
  cases matching with
  | @ok _ _ yield _ hend =>
    match yield, hend with
    | .finished made, hend =>
      obtain ⟨ids, new, -, -, reworked, shows⟩ := hend.shapes
      exact ⟨⟨reworked.site.linked, reworked.site.lt_size,
        reworked.rewrites.parent?_eq.trans stylesheet.alone,
        reworked.rewrites.node_eq.trans stylesheet.node_root⟩, ids, new, made, reworked.site, shows,
        derived.2 _ rfl⟩

/-- What a walk through the children of the root leaves is plain. -/
theorem walkChildren_plain (services : Services σ) (depth : Nat) (w : World σ)
    (stylesheet : w.tree.IsStylesheet) (leaves : w.tree.LeavesBare)
    (stored : w.context.definitions.LeavesBare) (loaded : services.LoadsBare) :
    ∀ w', ((walker services depth).walkChildren Tree.root .stylesheet).exec w = (.ok .finished, w') →
      ∀ x, w'.tree.Reaches Tree.root x → w'.tree.PlainAt x := by
  intro w' run
  obtain ⟨expanded, ids, rs, made, site, shows, plain⟩ := walkChildren_shows Contract.plain_evaluates services
    (Contract.plain_loads loaded) depth stylesheet leaves (fun _ _ _ => trivial) (Contract.plain_meets stored)
    run
  intro x hx
  rcases hx.eq_or_exists_child with rfl | ⟨c, hc, hx⟩
  · -- the root is neither a directive nor a block
    refine ⟨by rw [expanded.node_root]; rfl, fun hb => ?_⟩
    rw [expanded.node_root] at hb
    cases hb
  · refine shows.plain site.shapes plain x (site.mem_iff.2 ?_)
    rw [site.children] at hc
    obtain ⟨r, hr, rfl⟩ := List.mem_map.1 (by simpa using hc)
    exact ⟨r, hr, hx⟩

/-- When a stylesheet has been compiled, nothing but plain rules, comments and blocks can be reached from
its root: no directive is left, and no block is right inside of another one. -/
theorem compile_plain (services : Services σ) (depth : Nat) (w w' : World σ)
    (stylesheet : w.tree.IsStylesheet) (leaves : w.tree.LeavesBare)
    (stored : w.context.definitions.LeavesBare) (loaded : services.LoadsBare)
    (run : (compile services depth).exec w = (.ok (), w')) :
    ∀ x, w'.tree.Reaches Tree.root x → (w'.tree.node x).isDirective = false ∧
      ((w'.tree.node x).isBlock = true → ∀ c ∈ w'.tree.children x, (w'.tree.node c).isBlock = false) := by
  -- only a walk that has come to its end is followed by the extensions
  obtain ⟨w₁, walk, rfl⟩ := compile_eq_ok_iff.1 run
  have walked := walkChildren_plain services depth
    { w with context := { w.context with extensions := [] } } stylesheet leaves stored loaded w₁ walk
  intro x hx
  have restyled := Tree.restyled_applyExtensions w₁.tree w₁.context.extensions
  have plain := restyled.plainAt (walked x (restyled.reaches hx))
  exact ⟨plain.directive, plain.block⟩

/-- A compiler without a loader loads nothing. -/
theorem Services.plain_loadsBare : Services.plain.LoadsBare := fun _ _ _ h => nomatch h

/-- Of a conditional with a block in a block the two blocks are left, one behind the other. -/
theorem compile_plain_conditional :
    let t := Tree.ofNodes [⟨.conditional, [⟨.otherwise, [⟨.block ["a"], [⟨.block ["b"],
      [⟨.comment "c", []⟩]⟩]⟩]⟩]⟩]
    let w' := ((compile Services.plain 9).exec ⟨t, .empty, ()⟩).2
    t.children Tree.root = [⟨1⟩] ∧ w'.tree.children Tree.root = [⟨3⟩, ⟨4⟩] ∧
      ∀ x, w'.tree.Reaches Tree.root x → (w'.tree.node x).isDirective = false ∧
        ((w'.tree.node x).isBlock = true → ∀ c ∈ w'.tree.children x, (w'.tree.node c).isBlock = false) := by
  refine ⟨by decide +kernel, by decide +kernel, ?_⟩
  refine compile_plain Services.plain 9 ⟨Tree.ofNodes [⟨.conditional, [⟨.otherwise, [⟨.block ["a"],
    [⟨.block ["b"], [⟨.comment "c", []⟩]⟩]⟩]⟩]⟩], .empty, ()⟩ _ (Tree.ofNodes_isStylesheet _)
    (Tree.leavesBare_ofNodes ?_) Tree.leavesBare_empty Services.plain_loadsBare rfl
  simp [Rose.leavesBare_mk, Node.isLeaf]

end

end Stylesheet
