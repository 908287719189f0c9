import Stylesheet.Proofs.Derivation.Places

/-! # Walks that match

What is derived in one part of a place and then in the rest of it is derived in the whole place
(`Expansion.Matches.followedBy`). A walker **realizes** a deriver when it evaluates alike and when
expanding a node of a place matches deriving it (**`Walker.Realizes`**). Then its walks match the
derivations of sequences, through a list of nodes (`Walker.Realizes.walkNodes`) and through the children
of a node (`Walker.Realizes.walkChildren`). -/

namespace Stylesheet

open Expansion

section

variable {σ τ : Type} {L : σ → τ → Prop} {old : List (NodeId × List String)}
  {floor : Nat} {t : Tree} {p id : NodeId} {before inside after : List NodeId}
  {block : Option NodeId} {mode : Mode}

/-! ## Runs that go on alike -/

/-- A tree that has grown keeps its places. -/
theorem Tree.Site.reworked_of_grown {t t' : Tree} {rs : List (Rose NodeId)}
    (h : t.Site floor p before rs after) (g : t.Grown t') :
    t.Reworked floor p before (rs.flatMap Rose.labels) after rs t' :=
  h.reworked.trans (.of_grown g h.linked h.lt_size h.floor_le []) (by simp) (h.of_grown g) fun _ hx =>
    .inl hx

section

variable {ids : List NodeId} {W : World σ} {V : World τ}

/-- Two runs have gone on alike, and the tree has at most grown. -/
structure Advanced (L : σ → τ → Prop) (old : List (NodeId × List String)) (ids : List NodeId) (t : Tree)
    (W' : World σ) (V' : World τ) : Prop where
  grown : t.Grown W'.tree
  mirrors : Mirrors L old ids W' V'

/-- What has advanced from a tree that has grown has advanced from the tree before. -/
theorem Advanced.of_grown {t' : Tree} (h : Advanced L old ids t' W V) (g : t.Grown t') :
    Advanced L old ids t W V :=
  ⟨g.trans h.grown, h.mirrors⟩

/-- A place has been kept when the tree has at most grown. -/
theorem Advanced.kept {rs : List (Rose NodeId)} (h : Advanced L old ids t W V)
    (hs : t.Site floor p before rs after) :
    Kept L old ids ⟨floor, t, p, before, rs.flatMap Rose.labels, after⟩ W V :=
  ⟨(hs.reworked_of_grown h.grown).contained, ids, List.prefix_refl ids, h.mirrors⟩

/-- An echo advances two runs. -/
theorem Expansion.Echoes.advanced {α : Type} {m : Expansion σ α} {f : Expansion τ α}
    (h : Echoes L m f) (hw : Advanced L old ids t W V) :
    Matches (fun a W' b V' => a = b ∧ Advanced L old ids t W' V') (Advanced L old ids t)
      (m.exec W) (f.exec V) := by
  have hgrown := h.grown hw.mirrors.toAlike
  have hmoved := h.unmoved hw.mirrors.toAlike
  rw [h.result hw.mirrors.toAlike]
  revert hgrown hmoved
  rcases m.exec W with ⟨_ | a, W'⟩
  · exact fun hgrown hmoved => .error ⟨hw.grown.trans hgrown, hw.mirrors.of_unmoved hmoved⟩
  · exact fun hgrown hmoved => .ok ⟨rfl, hw.grown.trans hgrown, hw.mirrors.of_unmoved hmoved⟩

/-- Setting the same variable advances two runs. -/
theorem Advanced.modifyScope (hw : Advanced L old ids t W V) (f : Scope → Scope) :
    Matches (fun _ W' _ V' => Advanced L old ids t W' V') (Advanced L old ids t)
      ((modifyScope f).exec W) ((modifyScope f).exec V) :=
  .ok ⟨hw.grown, hw.mirrors.mapScope f⟩

end

/-! ## Steps in a place -/

namespace Expansion.Matches

variable {ids ids' : List NodeId} {s s' : Spot} {W : World σ} {V : World τ}
  {m : Expansion σ Flow} {f : Expansion τ Yield}

/-- What follows a step in a place matters only if no value was returned. -/
theorem bind_ended {g : Flow → Expansion σ Flow} {k : Yield → Expansion τ Yield}
    (h : Matches (Ended L old ids s) (Kept L old ids s) (m.exec W) (f.exec V))
    (hg : ∀ value, g (.returned value) = Pure.pure (.returned value))
    (hk : ∀ value, k (.returned value) = Pure.pure (.returned value))
    (hkept : ∀ W' V', Kept L old ids s W' V' → Kept L old ids' s' W' V')
    (hmade : ∀ made W' V', Made L old ids s made W' V' →
      Matches (Ended L old ids' s') (Kept L old ids' s') ((g .finished).exec W')
        ((k (.finished made)).exec V')) :
    Matches (Ended L old ids' s') (Kept L old ids' s') ((m >>= g).exec W) ((f >>= k).exec V) := by
  refine h.bind ?_ hkept
  intro flow W' yield V' hend
  match flow, yield, hend with
  | .finished, .finished made, hend => exact hmade made W' V' hend
  | .returned value, .returned _, ⟨rfl, hend⟩ =>
    rw [hg, hk]
    exact .pure ⟨rfl, hkept _ _ hend⟩

/-- Steps that match after a change inside of a place match there. -/
theorem rebase {rs : List (Rose NodeId)} {x : Except Stop Flow × World σ}
    {y : Except Stop Yield × World τ}
    (h : Matches (Ended L old ids' ⟨floor, W.tree, p, before, rs.flatMap Rose.labels, after⟩)
      (Kept L old ids' ⟨floor, W.tree, p, before, rs.flatMap Rose.labels, after⟩) x y)
    (hr : Tree.Reworked floor t p before inside after rs W.tree) (hi : ids <+: ids') :
    Matches (Ended L old ids ⟨floor, t, p, before, inside, after⟩)
      (Kept L old ids ⟨floor, t, p, before, inside, after⟩) x y :=
  h.imp (fun _ _ _ _ hend => hend.rebase hr hi) fun _ _ hk => hk.rebase hr hi

/-- Another place, and other trees in the end. -/
theorem wrapped {φ : List (Rose Stem) → List (Rose Stem)} {x : Except Stop Flow × World σ}
    (h : Matches (Ended L old ids s) (Kept L old ids s) x (f.exec V))
    (hkept : ∀ W' V', Kept L old ids s W' V' → Kept L old ids' s' W' V')
    (hmade : ∀ made W' V', Made L old ids s made W' V' → Made L old ids' s' (φ made) W' V') :
    Matches (Ended L old ids' s') (Kept L old ids' s') x ((Deriver.wrapped φ f).exec V) := by
  unfold Deriver.wrapped
  rw [exec_bind]
  revert h
  rcases f.exec V with ⟨y, V'⟩
  intro h
  cases h with
  | error h => exact .error (hkept _ _ h)
  | @ok flow W' yield _ hend =>
    match flow, yield, hend with
    | .finished, .finished made, hend => exact .ok (hmade made W' V' hend)
    | .returned value, .returned _, ⟨rfl, hend⟩ => exact .ok ⟨rfl, hkept _ _ hend⟩

/-- An echo leaves the rest of a step to be matched. -/
theorem echo_bind {α γ γ' : Type} {Q : γ → World σ → γ' → World τ → Prop} {E : World σ → World τ → Prop}
    {m : Expansion σ α} {f : Expansion τ α} {g : α → Expansion σ γ} {k : α → Expansion τ γ'}
    (h : Echoes L m f) (hw : Mirrors L old ids W V)
    (hok : ∀ a W', Advanced L old ids W.tree W' V → Matches Q E ((g a).exec W') ((k a).exec V))
    (herr : ∀ W', Advanced L old ids W.tree W' V → E W' V) :
    Matches Q E ((m >>= g).exec W) ((f >>= k).exec V) := by
  have hgrown := h.grown hw.toAlike
  have hmoved := h.unmoved hw.toAlike
  rw [exec_bind, exec_bind, h.result hw.toAlike]
  revert hgrown hmoved
  rcases m.exec W with ⟨_ | a, W'⟩
  · exact fun hgrown hmoved => .error (herr W' ⟨hgrown, hw.of_unmoved hmoved⟩)
  · exact fun hgrown hmoved => hok a W' ⟨hgrown, hw.of_unmoved hmoved⟩

/-- What is derived in one part of a place and then behind it is derived in the whole place. -/
theorem followedBy {ss us : List (Rose NodeId)} {g : Flow → Expansion σ Flow} {rest : Expansion τ Yield}
    (hs : W.tree.Site floor p before (ss ++ us) after)
    (first : Matches
      (Ended L old ids ⟨floor, W.tree, p, before, ss.flatMap Rose.labels, us.map Rose.label ++ after⟩)
      (Kept L old ids ⟨floor, W.tree, p, before, ss.flatMap Rose.labels, us.map Rose.label ++ after⟩)
      (m.exec W) (f.exec V))
    (hg : ∀ value, g (.returned value) = Pure.pure (.returned value))
    (hrest : ∀ ids₁ new W₁ V₁, ids <+: ids₁ → Mirrors L old ids₁ W₁ V₁ →
      W.tree.Reworked floor p before (ss.flatMap Rose.labels) (us.map Rose.label ++ after) new W₁.tree →
      W₁.tree.Site floor p (before ++ new.map Rose.label) us after →
      (∀ r ∈ us, r.map W₁.tree.node = r.map W.tree.node) →
      Matches
        (Ended L old ids₁ ⟨floor, W₁.tree, p, before ++ new.map Rose.label, us.flatMap Rose.labels, after⟩)
        (Kept L old ids₁ ⟨floor, W₁.tree, p, before ++ new.map Rose.label, us.flatMap Rose.labels, after⟩)
        ((g .finished).exec W₁) (rest.exec V₁)) :
    Matches (Ended L old ids ⟨floor, W.tree, p, before, (ss ++ us).flatMap Rose.labels, after⟩)
      (Kept L old ids ⟨floor, W.tree, p, before, (ss ++ us).flatMap Rose.labels, after⟩)
      ((m >>= g).exec W) ((Deriver.followedBy f rest).exec V) := by
  have start : W.tree.Reworked floor p before ((ss ++ us).flatMap Rose.labels) after ([] ++ ss ++ us)
      W.tree := hs.reworked
  unfold Deriver.followedBy
  refine first.bind_ended hg (fun _ => rfl)
    (fun _ _ hk => .middle start (List.prefix_refl ids) (by simpa using hk)) fun made W₁ V₁ hmade => ?_
  obtain ⟨ids₁, new, hi, hw₁, hr₁, shows⟩ := hmade.shapes
  have done : W.tree.Reworked floor p before ((ss ++ us).flatMap Rose.labels) after (new ++ us ++ [])
      W₁.tree := by simpa using start.middle (by simpa using hr₁)
  have same := start.site.map_node_around hr₁.rewrites
  have hnext := hrest ids₁ new W₁ V₁ hi hw₁ hr₁ (by simpa using done.site.middle) fun r hr =>
    same r (by simpa using hr)
  refine hnext.wrapped (fun _ _ hk => .middle done hi (by simpa using hk)) fun others W₂ V₂ hmade₂ => ?_
  obtain ⟨ids₂, new₂, hi₂, hw₂, hr₂, shows₂, same₂⟩ := Made.middle done (by simpa using hmade₂)
  -- what has been made first stays as it is while the rest is made
  have kept : W₂.tree.Shows ids₂ new made :=
    shows.mono hi₂ fun r hr x hx => Rose.eq_of_map_eq (same₂ r (by simp [hr])) hx
  exact ⟨ids₂, new ++ new₂, hi.trans hi₂, hw₂, by simpa using hr₂, kept.append shows₂⟩

end Expansion.Matches

/-! ## Siblings -/

/-- The child behind one is the first of those behind it. -/
theorem Tree.following?_append {id : NodeId} {pre : List NodeId} (h : id ∉ pre) (post : List NodeId) :
    Tree.following? id (pre ++ id :: post) = post.head? := by
  induction pre with
  | nil => simp [Tree.following?]
  | cons c cs ih =>
    simp only [List.mem_cons, not_or] at h
    rw [List.cons_append, Tree.following?, if_neg fun e => h.1 e.symm, ih h.2]

/-- Behind a child of a place stands the next one. -/
theorem Tree.Site.nextSibling? {us : List (Rose NodeId)} {r : Rose NodeId}
    (h : t.Site floor p before (r :: us) after) :
    t.nextSibling? r.label = (us.map Rose.label ++ after).head? := by
  have whole : t.Site floor p before ([] ++ r :: us) after := h
  have notIn := whole.not_mem_before List.mem_cons_self
  rw [List.map_nil, List.append_nil] at notIn
  unfold Tree.nextSibling?
  rw [(h.parent?_label (r := r) (by simp)).2, Option.bind_some, h.children, List.map_cons,
    List.append_assoc, List.cons_append]
  exact Tree.following?_append notIn _

/-- Behind a place of one node stands the first of the others. -/
theorem Tree.Site.head?_after {id : NodeId} {cs : List (Rose NodeId)}
    (h : t.Site floor p before [⟨id, cs⟩] after) : t.nextSibling? id = after.head? :=
  h.nextSibling?

/-! ## Walkers and derivers -/

/-- Expanding a node of a place matches deriving it. -/
def Walker.Tracks (L : σ → τ → Prop) (w : Walker σ) (d : Deriver τ) (mode : Mode) : Prop :=
  ∀ {old floor p before after r ids block W V}, Tree.Site floor W.tree p before [r] after →
    W.tree.Around ids p block → Mirrors L old ids W V →
      Matches (Ended L old ids ⟨floor, W.tree, p, before, [r].flatMap Rose.labels, after⟩)
        (Kept L old ids ⟨floor, W.tree, p, before, [r].flatMap Rose.labels, after⟩)
        ((w.traverse r.label mode).exec W) ((d.derive block mode (r.map W.tree.node)).exec V)

/-- A walker does in a tree what a deriver does on values; outside of functions, if `outside` holds. -/
structure Walker.Realizes (L : σ → τ → Prop) (outside : Prop) (w : Walker σ) (d : Deriver τ) : Prop where
  steps : w.steps = d.steps
  evaluate : ∀ value, Echoes L (w.evaluate value) (d.evaluate value)
  traverse : ∀ mode, (mode ≠ .function → outside) → w.Tracks L d mode

namespace Walker.Realizes

variable {outside : Prop} {w : Walker σ} {d : Deriver τ} {ids : List NodeId} {W : World σ} {V : World τ}

/-! ## Walks -/

/-- Expanding nodes next to each other matches deriving them in order. -/
theorem walkNodes (h : w.Realizes L outside d) (hm : mode ≠ .function → outside)
    (rs : List (Rose NodeId)) :
    ∀ {before ids W V}, Tree.Site floor W.tree p before rs after → W.tree.Around ids p block →
      Mirrors L old ids W V →
      Matches (Ended L old ids ⟨floor, W.tree, p, before, rs.flatMap Rose.labels, after⟩)
        (Kept L old ids ⟨floor, W.tree, p, before, rs.flatMap Rose.labels, after⟩)
        ((w.walkNodes mode (rs.map Rose.label)).exec W)
        ((d.deriveNodes block mode (rs.map (Rose.map W.tree.node))).exec V) := by
  induction rs with
  | nil =>
    intro before ids W V hs _ hw
    exact .pure ⟨ids, [], List.prefix_refl _, hw, hs.reworked, .nil⟩
  | cons r rs ih =>
    intro before ids W V hs hb hw
    have attached : W.tree.isAttached r.label = true := by
      unfold Tree.isAttached
      rw [(hs.parent?_label (by simp)).2]
      rfl
    have parts : W.tree.Site floor p before ([r] ++ rs) after := hs
    have front := parts.front
    rw [List.map_cons, Walker.walkNodes, exec_tree_bind, if_pos attached, List.map_cons, Deriver.deriveNodes]
    -- the siblings behind the first one still read off as they did when it is done
    refine Matches.followedBy parts (h.traverse mode hm front hb hw) (fun _ => rfl)
      fun ids₁ new W₁ V₁ hi hw₁ hr₁ hs₁ same => ?_
    have hnext := ih hs₁ ((hb.mono hi).of_rewrites front hr₁.rewrites) hw₁
    rw [List.map_congr_left same] at hnext
    exact hnext

/-- Expanding the rest of the children of a node matches deriving them in order. -/
theorem walkFrom (h : w.Realizes L outside d) (hm : mode ≠ .function → outside) (steps : Nat)
    (rs : List (Rose NodeId)) :
    ∀ {before ids W V}, Tree.Site floor W.tree p before rs [] → W.tree.Around ids p block →
      Mirrors L old ids W V →
      Matches (Ended L old ids ⟨floor, W.tree, p, before, rs.flatMap Rose.labels, []⟩)
        (Kept L old ids ⟨floor, W.tree, p, before, rs.flatMap Rose.labels, []⟩)
        ((w.walkFrom p mode steps (rs.map Rose.label).head?).exec W)
        ((d.deriveFrom block mode steps (rs.map (Rose.map W.tree.node))).exec V) := by
  induction rs generalizing steps with
  | nil =>
    intro before ids W V hs _ hw
    rw [List.map_nil, List.head?_nil, Walker.walkFrom.eq_1, List.map_nil, Deriver.deriveFrom.eq_1]
    exact .pure ⟨ids, [], List.prefix_refl _, hw, hs.reworked, .nil⟩
  | cons r rs ih =>
    intro before ids W V hs hb hw
    rw [List.map_cons, List.head?_cons, List.map_cons]
    cases steps with
    | zero =>
      rw [Walker.walkFrom, Deriver.deriveFrom]
      exact .throw (.still hs hw)
    | succ steps =>
      have parts : W.tree.Site floor p before ([r] ++ rs) [] := hs
      have front := parts.front
      have next := hs.nextSibling?
      rw [List.append_nil] at next
      rw [Walker.walkFrom, exec_tree_bind, next, Deriver.deriveFrom]
      refine Matches.followedBy parts (h.traverse mode hm front hb hw) (fun _ => rfl)
        fun ids₁ new W₁ V₁ hi hw₁ hr₁ hs₁ same => ?_
      -- the next child has not been moved
      have stays : ((rs.map Rose.label).head?.filter fun id => W₁.tree.parent? id == some p) =
          (rs.map Rose.label).head? := by
        cases rs with
        | nil => rfl
        | cons s rs =>
          have := (hs₁.parent?_label (r := s) (by simp)).2
          simp [this]
      have hnext := ih steps hs₁ ((hb.mono hi).of_rewrites front hr₁.rewrites) hw₁
      rw [List.map_congr_left same] at hnext
      rw [exec_tree_bind, stays]
      exact hnext

/-- Expanding the children of a node matches deriving them. -/
theorem walkChildren (h : w.Realizes L outside d) (hm : mode ≠ .function → outside)
    {rs : List (Rose NodeId)} (hs : Tree.Site floor W.tree p [] rs []) (hb : W.tree.Around ids p block)
    (hw : Mirrors L old ids W V) :
    Matches (Ended L old ids ⟨floor, W.tree, p, [], rs.flatMap Rose.labels, []⟩)
      (Kept L old ids ⟨floor, W.tree, p, [], rs.flatMap Rose.labels, []⟩)
      ((w.walkChildren p mode).exec W)
      ((d.deriveChildren block mode (rs.map (Rose.map W.tree.node))).exec V) := by
  have hc : W.tree.children p = rs.map Rose.label := by simpa using hs.children
  unfold Walker.walkChildren
  rw [exec_tree_bind, hc, h.steps]
  exact h.walkFrom hm d.steps rs hs hb hw

end Walker.Realizes

end

end Stylesheet
